import JitBackend.Const.Text
import JitBackend.Label
import JitBackend.Op
import JitBackend.Register
import JitBackend.Signature

/-!
# Expressions

Trees of constants, registers, memory operands, labels, operations, returns and calls. A memory operand has an
address expression (`mem`) until selection resolves it to an `AddrMode` (`memAt`). The same trees stand for the code
of a function before selection and for its instructions after it.
-/

namespace JitBackend

inductive Expr
  | const (c : Const)
  | reg (r : Reg)
  | mem (kind : Kind) (readOnly : Bool) (addr : Expr)
  | memAt (kind : Kind) (readOnly : Bool) (mode : AddrMode)
  | label (l : Label)
  | unary (op : UnaryOp) (kind : Kind) (x : Expr)
  | binary (op : BinaryOp) (kind : Kind) (x y : Expr)
  | ret (values : List Expr)
  | call (callee : Label) (name : Option String) (sig : Signature) (args : List Expr)
  deriving Repr

namespace Expr

/-! ## Equality -/

mutual
/-- Whether two trees are equal. -/
def same : Expr → Expr → Bool
  | const a, const b => a == b
  | reg a, reg b => a == b
  | mem k ro a, mem k' ro' b => k == k' && ro == ro' && same a b
  | memAt k ro m, memAt k' ro' m' => k == k' && ro == ro' && m == m'
  | label a, label b => a == b
  | unary o k x, unary o' k' x' => o == o' && k == k' && same x x'
  | binary o k x y, binary o' k' x' y' => o == o' && k == k' && same x x' && same y y'
  | ret vs, ret vs' => sameL vs vs'
  | call l n s as, call l' n' s' as' => l == l' && n == n' && s == s' && sameL as as'
  | _, _ => false
def sameL : List Expr → List Expr → Bool
  | [], [] => true
  | a :: as, b :: bs => same a b && sameL as bs
  | _, _ => false
end

mutual
theorem same_iff : ∀ a b : Expr, same a b = true ↔ a = b
  | const _, b => by cases b <;> simp [same]
  | reg _, b => by cases b <;> simp [same]
  | mem _ _ a, b => by cases b <;> simp [same, same_iff a, and_assoc]
  | memAt _ _ _, b => by cases b <;> simp [same, and_assoc]
  | label _, b => by cases b <;> simp [same]
  | unary _ _ x, b => by cases b <;> simp [same, same_iff x, and_assoc]
  | binary _ _ x y, b => by cases b <;> simp [same, same_iff x, same_iff y, and_assoc]
  | ret vs, b => by cases b <;> simp [same, sameL_iff vs]
  | call _ _ _ as, b => by cases b <;> simp [same, sameL_iff as, and_assoc]
theorem sameL_iff : ∀ as bs : List Expr, sameL as bs = true ↔ as = bs
  | [], bs => by cases bs <;> simp [sameL]
  | a :: as, bs => by cases bs <;> simp [sameL, same_iff a, sameL_iff as]
end

instance : DecidableEq Expr := fun a b => decidable_of_iff _ (same_iff a b)

/-! ## Shape -/

def kind : Expr → Kind
  | const c => c.kind
  | reg r => r.kind
  | mem k _ _ | memAt k _ _ => k
  | label _ => .ptr
  | unary _ k _ => k
  | binary _ k _ _ => k
  | ret _ => .void
  | call _ _ s _ => s.value

/-- The category of a node. Operands that may trade places are ordered by it. -/
inductive Category
  | reg | mem | unary | binary | tuple | call | label | const
  deriving DecidableEq, Repr

def Category.rank : Category → Nat
  | reg => 0
  | mem => 1
  | unary => 2
  | binary => 3
  | tuple => 4
  | call => 5
  | label => 6
  | const => 7

def category : Expr → Category
  | const _ => .const
  | reg _ => .reg
  | mem .. | memAt .. => .mem
  | label _ => .label
  | unary .. => .unary
  | binary .. => .binary
  | ret _ => .tuple
  | call .. => .call

def op? : Expr → Option Op
  | unary o _ _ => some o
  | binary o _ _ _ => some o
  | ret _ => some .ret
  | call .. => some .call
  | _ => none

/-- The sub-expressions of a node, from left to right. -/
def children : Expr → List Expr
  | mem _ _ a => [a]
  | unary _ _ x => [x]
  | binary _ _ x y => [x, y]
  | ret vs => vs
  | call _ _ _ as => as
  | _ => []

def isConst : Expr → Bool
  | const _ => true
  | _ => false

def isReg : Expr → Bool
  | reg _ => true
  | _ => false

def isMem : Expr → Bool
  | mem .. | memAt .. => true
  | _ => false

def isLabel : Expr → Bool
  | label _ => true
  | _ => false

/-- A writable register or memory operand. -/
def isAssignable : Expr → Bool
  | reg r => !r.readOnly
  | mem _ ro _ | memAt _ ro _ => !ro
  | _ => false

/-! ## Effects, registers and operations of a tree -/

/-- Whether evaluation only produces a value. A label marks a jump target, so it counts as an effect. -/
def isEffectFree : Expr → Bool
  | const _ | reg _ | memAt .. => true
  | label _ | call .. | ret _ => false
  | mem _ _ a => a.isEffectFree
  | unary o _ x => !o.hasSideEffects && x.isEffectFree
  | binary o _ x y => !o.hasSideEffects && x.isEffectFree && y.isEffectFree

mutual
/-- The register references of a tree, from left to right, those of address expressions included. -/
def regs : Expr → List Reg
  | reg r => [r]
  | mem _ _ a => a.regs
  | unary _ _ x => x.regs
  | binary _ _ x y => x.regs ++ y.regs
  | ret vs => regsL vs
  | call _ _ _ as => regsL as
  | const _ | label _ | memAt .. => []
def regsL : List Expr → List Reg
  | [] => []
  | e :: es => e.regs ++ regsL es
end

mutual
/-- Whether some node of the tree has the operation `o`. -/
def containsOp (o : Op) : Expr → Bool
  | mem _ _ a => a.containsOp o
  | unary u _ x => o == u || x.containsOp o
  | binary b _ x y => o == b || x.containsOp o || y.containsOp o
  | ret vs => o == .ret || containsOpL o vs
  | call _ _ _ as => o == .call || containsOpL o as
  | const _ | reg _ | label _ | memAt .. => false
def containsOpL (o : Op) : List Expr → Bool
  | [] => false
  | e :: es => e.containsOp o || containsOpL o es
end

/-! ## Text -/

mutual
def text : Expr → String
  | const c => c.text
  | reg r => r.id.text
  | mem _ _ a => "[" ++ a.text ++ "]"
  | memAt _ _ m => m.text
  | label l => l.text
  | unary .cast k x => "(CAST " ++ k.name ++ " " ++ x.text ++ ")"
  | unary o _ x => "(" ++ o.text ++ " " ++ x.text ++ ")"
  | binary o _ x y => "(" ++ o.text ++ " " ++ x.text ++ " " ++ y.text ++ ")"
  | ret vs => "(RET" ++ textL vs ++ ")"
  | call l _ _ as => "(CALL " ++ l.text ++ textL as ++ ")"
/-- The texts of several expressions, each behind a blank. -/
def textL : List Expr → String
  | [] => ""
  | e :: es => " " ++ e.text ++ textL es
end

end Expr

end JitBackend
