import JitBackend.Kind

/-!
# Operations

The operations of expression nodes, grouped by the node they stand in: `UnaryOp` and `BinaryOp`, and `Op` for any of
them together with return and call. The operations `lea`, `jcc`, `setcc`, `push`, `pop`, `cmp` and `test` occur in
selected code only. A condition `Cond` is what a conditional jump or a flag store tests after a comparison.
-/

namespace JitBackend

inductive Cond
  | eq | ne | lt | le | gt | ge | ult | ule | ugt | uge
  deriving DecidableEq, Repr

inductive ArithOp
  | add | sub | mul | quo | rem | and | or | xor | andNot | shl | shr
  deriving DecidableEq, Repr

inductive CompareOp
  | eql | neq | lss | leq | gtr | geq
  deriving DecidableEq, Repr

/-- The operations that evaluate their right operand only if the left one leaves the result open. -/
inductive LogicOp
  | and | or
  deriving DecidableEq, Repr

inductive UnaryOp
  | neg | inv | lnot | inc | dec | zero | cast | jump
  | lea | jcc (c : Cond) | setcc (c : Cond) | push | pop
  deriving DecidableEq, Repr

inductive BinaryOp
  | arith (a : ArithOp) | compare (c : CompareOp) | logic (l : LogicOp)
  | assign | compound (a : ArithOp) | jumpIf
  | cmp | test
  deriving DecidableEq, Repr

inductive Op
  | unary (u : UnaryOp) | binary (b : BinaryOp) | ret | call
  deriving DecidableEq, Repr

instance : Coe UnaryOp Op := ⟨Op.unary⟩
instance : Coe BinaryOp Op := ⟨Op.binary⟩

/-! ## Comparisons and conditions -/

namespace CompareOp

/-- The comparison that holds of the operands in the other order. -/
def swapped : CompareOp → CompareOp
  | eql => eql
  | neq => neq
  | lss => gtr
  | gtr => lss
  | leq => geq
  | geq => leq

/-- The comparison that holds exactly when this one does not, on kinds with a total order. -/
def negated : CompareOp → CompareOp
  | eql => neq
  | neq => eql
  | lss => geq
  | geq => lss
  | leq => gtr
  | gtr => leq

def isEquality : CompareOp → Bool
  | eql | neq => true
  | _ => false

def name : CompareOp → String
  | eql => "=="
  | neq => "!="
  | lss => "<"
  | leq => "<="
  | gtr => ">"
  | geq => ">="

end CompareOp

namespace Cond

/-- The condition that a comparison of operands of kind `k` leaves in the flags. -/
def ofCompare (op : CompareOp) (k : Kind) : Cond :=
  match op, k.isUnsignedWord with
  | .eql, _ => eq
  | .neq, _ => ne
  | .lss, true => ult
  | .leq, true => ule
  | .gtr, true => ugt
  | .geq, true => uge
  | .lss, false => lt
  | .leq, false => le
  | .gtr, false => gt
  | .geq, false => ge

/-- The condition that holds after the compared operands trade places. -/
def swapped : Cond → Cond
  | eq => eq
  | ne => ne
  | lt => gt
  | gt => lt
  | le => ge
  | ge => le
  | ult => ugt
  | ugt => ult
  | ule => uge
  | uge => ule

def negated : Cond → Cond
  | eq => ne
  | ne => eq
  | lt => ge
  | ge => lt
  | le => gt
  | gt => le
  | ult => uge
  | uge => ult
  | ule => ugt
  | ugt => ule

def suffix : Cond → String
  | eq => "e"
  | ne => "ne"
  | lt => "l"
  | le => "le"
  | gt => "g"
  | ge => "ge"
  | ult => "b"
  | ule => "be"
  | ugt => "a"
  | uge => "ae"

end Cond

/-! ## Arithmetic -/

namespace ArithOp

def isCommutative : ArithOp → Bool
  | add | mul | and | or | xor => true
  | _ => false

def name : ArithOp → String
  | add => "+"
  | sub => "-"
  | mul => "*"
  | quo => "/"
  | rem => "%"
  | and => "&"
  | or => "|"
  | xor => "^"
  | andNot => "&^"
  | shl => "<<"
  | shr => ">>"

end ArithOp

/-! ## Operations of one operand -/

namespace UnaryOp

/-- Whether the operand must be a writable register or memory operand. -/
def isAssign : UnaryOp → Bool
  | inc | dec | zero | setcc _ => true
  | _ => false

def isJump : UnaryOp → Bool
  | jump | jcc _ => true
  | _ => false

def hasSideEffects : UnaryOp → Bool
  | push | pop => true
  | u => u.isAssign || u.isJump

def isTargetOnly : UnaryOp → Bool
  | lea | jcc _ | setcc _ | push | pop => true
  | _ => false

def name : UnaryOp → String
  | neg => "-"
  | inv => "^"
  | lnot => "!"
  | inc => "++"
  | dec => "--"
  | zero => "ZERO"
  | cast => "CAST"
  | jump => "JUMP"
  | lea => "LEA"
  | jcc _ => "J"
  | setcc _ => "SET"
  | push => "PUSH"
  | pop => "POP"

/-- The name, with the condition where there is one. -/
def text : UnaryOp → String
  | jcc c => "J" ++ c.suffix.toUpper
  | setcc c => "SET" ++ c.suffix.toUpper
  | u => u.name

end UnaryOp

/-! ## Operations of two operands -/

namespace BinaryOp

def isCommutative : BinaryOp → Bool
  | arith a => a.isCommutative
  | compare c => c.isEquality
  | _ => false

/-- The operation on the operands in the other order, where they may trade places. -/
def swapped : BinaryOp → Option BinaryOp
  | arith a => if a.isCommutative then some (arith a) else none
  | compare c => some (compare c.swapped)
  | _ => none

def isCompare : BinaryOp → Bool
  | compare _ => true
  | _ => false

/-- Whether the left operand must be a writable register or memory operand. -/
def isAssign : BinaryOp → Bool
  | assign | compound _ => true
  | _ => false

def isJump : BinaryOp → Bool
  | jumpIf => true
  | _ => false

def hasSideEffects : BinaryOp → Bool
  | cmp | test => true
  | b => b.isAssign || b.isJump

def isTargetOnly : BinaryOp → Bool
  | cmp | test => true
  | _ => false

def text : BinaryOp → String
  | arith a => a.name
  | compare c => c.name
  | logic .and => "&&"
  | logic .or => "||"
  | assign => "="
  | compound a => a.name ++ "="
  | jumpIf => "JUMP_IF"
  | cmp => "CMP"
  | test => "TEST"

end BinaryOp

/-! ## Any operation -/

namespace Op

def isCommutative : Op → Bool
  | binary b => b.isCommutative
  | _ => false

def swapped : Op → Option Op
  | binary b => b.swapped.map binary
  | _ => none

def isCompare : Op → Bool
  | binary b => b.isCompare
  | _ => false

/-- The negated comparison. -/
def negated : Op → Option Op
  | binary (.compare c) => some (binary (.compare c.negated))
  | _ => none

def isAssign : Op → Bool
  | unary u => u.isAssign
  | binary b => b.isAssign
  | _ => false

/-- The arithmetic of a compound assignment. -/
def arithOf : Op → Option Op
  | binary (.compound a) => some (binary (.arith a))
  | _ => none

/-- The compound assignment of an arithmetic operation. -/
def compoundOf : Op → Option Op
  | binary (.arith a) => some (binary (.compound a))
  | _ => none

def isJump : Op → Bool
  | unary u => u.isJump
  | binary b => b.isJump
  | _ => false

/-- Whether the operation changes state beyond producing a value. -/
def hasSideEffects : Op → Bool
  | unary u => u.hasSideEffects
  | binary b => b.hasSideEffects
  | ret | call => true

/-- Whether the operation occurs in selected code only. -/
def isTargetOnly : Op → Bool
  | unary u => u.isTargetOnly
  | binary b => b.isTargetOnly
  | _ => false

def name : Op → String
  | unary u => u.name
  | binary b => b.text
  | ret => "RET"
  | call => "CALL"

def text : Op → String
  | unary u => u.text
  | o => o.name

end Op

end JitBackend
