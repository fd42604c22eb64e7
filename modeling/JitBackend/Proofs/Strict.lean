import JitBackend.Proofs.Evaluation

/-!
# Evaluation without faults

`Expr.eval` gives the value of an expression only where a machine computes it without a fault: no divisor is zero, no
quotient is too large for its kind, a shift count that is not a constant is below the width, and loads stay within the
readable bytes and find a truth value where one is expected.

`Expr.inPlace` is the value that is left in a place when an expression is computed in that place: the right operands of
arithmetic and logical operations see the left ones there already.
-/

namespace JitBackend

namespace Const

/-- Whether a machine fails to compute an operation. `lit` says that the right operand is a constant. -/
def faults (lit : Bool) (op : ArithOp) (x y : Const) : Bool :=
  match op with
  | .quo | .rem => y.re == 0 || (x.kind.isSigned && x.re == -BitVec.twoPow 64 (x.kind.bits - 1) && y.re == -1)
  | .shl | .shr => !lit && x.kind.bits ≤ y.asNat
  | _ => false

/-- The value of an operation, where a machine computes it. -/
def arith? (lit : Bool) (op : ArithOp) (x y : Const) : Option Const :=
  if faults lit op x y then none else (arith op x y).toOption

end Const

/-- The value at an address, if its bytes are readable. The byte of a truth value is 0 or 1. -/
def Store.load? (σ : Store) (readable : Word → Bool) (k : Kind) (a : Word) : Option Const :=
  if (List.range k.size).all (fun i => readable (a + .ofNat 64 i)) && (k != .bool || σ.mem.read a 1 ≤ 1) then
    some (σ.get (.mem k a))
  else none

namespace Expr

variable (readable : Word → Bool)

/-- The value of an expression that has no effect, where no operation of it faults. -/
def eval (σ : Store) : Expr → Option Const
  | const c => some c
  | reg r => some (σ.get (.reg r))
  | mem k _ a => (a.eval σ).bind fun p => σ.load? readable k p.re
  | unary op k x => (x.eval σ).bind fun c =>
    match op with
    | .neg => some c.neg
    | .inv => some c.inv
    | .lnot => some c.lnot
    | .cast => (c.convert k).toOption
    | _ => none
  | binary op _ x y =>
    match op with
    | .arith op => (x.eval σ).bind fun c => (y.eval σ).bind fun d => Const.arith? y.isConst op c d
    | .compare op => (x.eval σ).bind fun c => (y.eval σ).bind fun d => (Const.compare op c d).toOption.map Const.bool
    | .logic op => (x.eval σ).bind fun c => if op.settledBy c then some c else y.eval σ
    | _ => none
  | memAt .. | label _ | ret _ | call .. => none

/-- The value that is left in a place when an expression is computed there. `after c` is the store once the place holds
`c`; an operand that is the place itself, written as `origin`, is combined with the other one in one step. -/
def inPlace (after : Const → Store) (origin : Option Expr) (σ : Store) : Expr → Option Const
  | unary .neg _ x => (x.inPlace after none σ).map Const.neg
  | unary .inv _ x => (x.inPlace after none σ).map Const.inv
  | unary .lnot _ x => (x.inPlace after none σ).map Const.lnot
  | binary (.arith op) k x y =>
    if origin = some x ∨ op.isCommutative = true ∧ origin = some y then (binary (.arith op) k x y).eval readable σ
    else (x.inPlace after none σ).bind fun c =>
      (y.eval readable (after c)).bind fun d => Const.arith? y.isConst op c d
  | binary (.logic op) _ x y => (x.inPlace after none σ).bind fun c =>
    if op.settledBy c then some c else y.inPlace after none (after c)
  | e => e.eval readable σ

/-- Where the store does not depend on the place, the value is that of the expression. -/
theorem inPlace_of_eq {after : Const → Store} {σ : Store} (h : ∀ c, after c = σ) (e : Expr) (origin : Option Expr) :
    e.inPlace readable after origin σ = e.eval readable σ := by
  induction e generalizing origin with
  | const | reg | mem | memAt | label | ret | call => rw [inPlace] <;> simp
  | unary op k x ih =>
    cases op with
    | neg | inv | lnot =>
      rw [inPlace, ih, eval]
      cases x.eval readable σ <;> rfl
    | _ => rw [inPlace] <;> simp
  | binary op k x y ihx ihy =>
    cases op with
    | arith op =>
      rw [inPlace]
      split
      · rfl
      · rw [ihx, eval]
        simp only [h]
    | logic op =>
      rw [inPlace, ihx, eval]
      simp only [h, ihy]
    | _ => rw [inPlace] <;> simp

end Expr

end JitBackend
