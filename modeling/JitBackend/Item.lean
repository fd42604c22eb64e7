import JitBackend.Expr.Basic

/-!
# Items of selected code

Selected code is a sequence of items: instructions, and moves of the stack pointer by the size of the frame. That size
is known only when the whole function is selected, so a move does not hold it; `Item.instruction` and `Item.text` read
an item under a given size.

A move holds any operation. One of two operands makes an instruction; any other has a text but no instruction.
-/

namespace JitBackend

/-- An instruction, or a move of the stack pointer by the size of the frame. -/
inductive Item
  | instr (e : Expr) | frame (op : Op) (sp : HardReg)

namespace Item

/-- The move of the stack pointer by `n` bytes. -/
def adjust (op : BinaryOp) (sp : HardReg) (n : Nat) : Expr :=
  .binary op .ptr (.reg (.hard .ptr sp)) (.const (Const.ptr (.ofNat 64 n)))

/-- The instruction of an item in a frame of `n` bytes, or the operation that makes none. -/
def instruction (n : Nat) : Item → Except Op Expr
  | instr e => .ok e
  | frame (.binary op) sp => .ok (adjust op sp n)
  | frame op _ => .error op

def isInstr : Item → Bool
  | instr _ => true
  | frame .. => false

/-- The text of an item in a frame of `n` bytes. -/
def text (n : Nat) : Item → String
  | instr e => e.text
  | frame op sp => "(" ++ op.text ++ " " ++ sp.text ++ " " ++ (Const.ptr (.ofNat 64 n)).text ++ ")"

/-- The line of an item in a listing: a label stands alone, everything else is indented. -/
def line (n : Nat) : Item → String
  | instr (.label l) => l.text ++ ":\n"
  | i => "\t" ++ i.text n ++ "\n"

end Item

end JitBackend
