import JitBackend.Label
import JitBackend.Register

/-!
# Operands of instructions

What an instruction works on once every register and address is resolved.
-/

namespace JitBackend

inductive Operand
  | reg (r : HardReg) | mem (m : AddrMode) | imm (v : BitVec 64) | label (l : Label)
  deriving DecidableEq, Repr

/-! ## Spelled-out text -/

/-- Every field of a register by name. -/
def HardReg.fields (r : HardReg) : String :=
  "HardReg \x7b arch: ArchId(" ++ toString r.arch.id ++ "), index: " ++ toString r.index ++ " \x7d"

private def optionalFields : Option HardReg → String
  | none => "None"
  | some r => "Some(" ++ r.fields ++ ")"

/-- Every field of an address by name. -/
def AddrMode.fields (m : AddrMode) : String :=
  "AddrMode \x7b base: " ++ optionalFields m.base ++ ", index: " ++ optionalFields m.index ++
    ", scale: " ++ toString m.scale.toNat ++ ", disp: " ++ toString m.disp.toInt ++ " \x7d"

def Operand.text : Operand → String
  | reg r => "Reg(" ++ r.fields ++ ")"
  | mem m => "Mem(" ++ m.fields ++ ")"
  | imm v => "Imm(" ++ toString v.toInt ++ ")"
  | label l => "Label(Label(" ++ toString l.index ++ "))"

end JitBackend
