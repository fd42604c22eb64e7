import JitBackend.Elf
import JitBackend.Target

/-!
# Machine code

The bytes of an assembled function with the offsets of its labels, their listing and their object file.
-/

namespace JitBackend

structure MachineCode where
  target : Target
  name : String
  code : List Byte
  labels : List (Option Nat)

namespace MachineCode

def labelOffset (m : MachineCode) (l : Label) : Option Nat := m.labels[l.index]?.join

/-- Lines of sixteen bytes behind their offset. -/
def hexDump (code : List Byte) : List String :=
  (List.range ((code.length + 15) / 16)).map fun i =>
    let line := (code.drop (16 * i)).take 16
    Text.hexPadUpper 4 (16 * i) ++ " " ++ " ".intercalate (line.map fun b => Text.hexPadUpper 2 b.toNat)

/-- The code in hexadecimal, for a target without a disassembler of its own. -/
def listing (m : MachineCode) : Report (Option (List String)) := do
  if m.target.disassembles then return none
  let lines := hexDump m.code
  lines.forM fun l => note (.listed m.name l)
  return some lines

/-- The object file of the code under a symbol. -/
def object (m : MachineCode) (symbol : String) : Stage (List Byte) := do
  match m.target.machine with
  | none => throw (.noObjectFormat m.target.name)
  | some machine =>
    let bytes := Elf.object machine symbol m.code
    note (.objectWritten symbol bytes.length)
    return bytes

end MachineCode

/-- The machine code of a function. -/
def Lowered.assemble (l : Lowered) (registry : Registry) : Stage MachineCode := do
  let t ← registry.get l.arch
  match t.assemble with
  | none => throw (.unsupported (.assembly t.name))
  | some assemble =>
    let (code, labels) ← assemble l
    note (.assembled l.name code.length)
    return ⟨t, l.name, code, labels⟩

end JitBackend
