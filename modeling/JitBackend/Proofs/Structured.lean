import JitBackend.Flat
import JitBackend.Proofs.Checked
import JitBackend.Proofs.Labels

/-!
# The meaning of statements and of flattened code

Statements run by a big-step relation `Stmt.Runs`: from a store to a store, with an `Outcome` that says whether the run
goes on behind the statement, leaves or continues the loop around it, or returns values. Flattened code runs by
`exec`, one expression after the other, where a jump goes on behind its label. Its count of steps only makes it total:
code comes to an end if it does so for some count.
-/

namespace JitBackend

/-! ## Statements -/

inductive Outcome
  | next | exit (e : LoopExit) | ret (values : List Const)

namespace Stmt

/-- Nothing to do, for a missing statement. -/
def skip : Stmt := block []

/-- A missing condition is true. -/
def loopCond (c : Option Expr) : Expr := c.getD (.const (Const.bool true))

/-- Runs of a statement. The body of a loop and its step run in sequence, so that continuing from the body passes over
the step. An exit from the initial statement of a loop is one from the loop around. -/
inductive Runs (w : World) : Stmt → Store → Store → Outcome → Prop
  | nil {σ} : Runs w (.block []) σ σ .next
  | cons {s ss σ τ υ o} (first : Runs w s σ τ .next) (rest : Runs w (.block ss) τ υ o) :
      Runs w (.block (s :: ss)) σ υ o
  | stop {s ss σ τ o} (first : Runs w s σ τ o) (ho : o ≠ .next) : Runs w (.block (s :: ss)) σ τ o
  | expr {e c σ τ} (h : e.run w σ = some (c, τ)) (he : ∀ vs, e ≠ .ret vs) : Runs w (.expr e) σ τ .next
  | ret {vs cs σ τ} (h : Expr.runL w vs σ = some (cs, τ)) : Runs w (.expr (.ret vs)) σ τ (.ret cs)
  | ite {c t e b σ τ υ o} (cond : c.holds w σ = some (b, τ)) (branch : Runs w (if b then t else e.getD skip) τ υ o) :
      Runs w (.ite c t e) σ υ o
  | exit {e σ} : Runs w (.exit e) σ σ (.exit e)
  | init {i c p b σ τ υ o} (start : Runs w i σ τ .next) (rest : Runs w (.loop none c p b) τ υ o) :
      Runs w (.loop (some i) c p b) σ υ o
  | initStop {i c p b σ τ o} (start : Runs w i σ τ o) (ho : o ≠ .next) : Runs w (.loop (some i) c p b) σ τ o
  | finish {c p b σ τ} (cond : (loopCond c).holds w σ = some (false, τ)) : Runs w (.loop none c p b) σ τ .next
  | again {c p b σ τ υ φ o o'} (cond : (loopCond c).holds w σ = some (true, τ))
      (turn : Runs w (.block [b, p.getD skip]) τ υ o) (ho : o = .next ∨ o = .exit .cont)
      (rest : Runs w (.loop none c p b) υ φ o') : Runs w (.loop none c p b) σ φ o'
  | leave {c p b σ τ υ} (cond : (loopCond c).holds w σ = some (true, τ))
      (turn : Runs w (.block [b, p.getD skip]) τ υ (.exit .brk)) : Runs w (.loop none c p b) σ υ .next
  | loopRet {c p b σ τ υ cs} (cond : (loopCond c).holds w σ = some (true, τ))
      (turn : Runs w (.block [b, p.getD skip]) τ υ (.ret cs)) : Runs w (.loop none c p b) σ υ (.ret cs)

/-- Runs of the statements of a function, with the values they return. `none` is a run past the last statement. -/
def Completes (w : World) (ss : List Stmt) (σ τ : Store) : Option (List Const) → Prop
  | none => Runs w (.block ss) σ τ .next
  | some cs => Runs w (.block ss) σ τ (.ret cs)

end Stmt

/-! ## Flattened code -/

/-- At most `n` steps of the code `rest`, whose jumps lead into `code`: the last store, and the values of a return. -/
@[grind =] def exec (w : World) (code : List Expr) (n : Nat) (rest : List Expr) (σ : Store) :
    Option (Store × Option (List Const)) :=
  match n, rest with
  | _, [] => some (σ, none)
  | 0, _ :: _ => none
  | n + 1, e :: rest =>
    match e with
    | .label _ => exec w code n rest σ
    | .ret vs => do
      let (cs, σ) ← Expr.runL w vs σ
      some (σ, some cs)
    | .unary .jump _ (.label l) => do exec w code n (← behind l code) σ
    | .binary .jumpIf _ (.label l) c => do
      let (b, σ) ← c.holds w σ
      if b then exec w code n (← behind l code) σ else exec w code n rest σ
    | e => do
      let (_, σ) ← e.run w σ
      exec w code n rest σ

/-- The code comes to an end in the store `τ`, returning `r`. -/
def Flat.Completes (w : World) (f : Flat) (σ τ : Store) (r : Option (List Const)) : Prop :=
  ∃ n, exec w f.code.toList n f.code.toList σ = some (τ, r)

/-- Jumps, conditional jumps and labels. -/
def Expr.isTransfer : Expr → Bool
  | label _ | unary .jump _ _ | binary .jumpIf _ _ _ => true
  | _ => false

namespace Stmt

mutual
/-- The expressions that stand as statements. -/
def expressions : Stmt → List Expr
  | block list => expressionsL list
  | ite _ t e => expressions t ++ expressionsO e
  | loop i _ p b => expressionsO i ++ expressionsO p ++ expressions b
  | exit _ => []
  | expr e => [e]
def expressionsL : List Stmt → List Expr
  | [] => []
  | s :: ss => expressions s ++ expressionsL ss
def expressionsO : Option Stmt → List Expr
  | none => []
  | some s => expressions s
end

/-- The statements of the checked constructors over built expressions. -/
inductive Built : Stmt → Prop
  | block {ss : List Stmt} (hss : ∀ s ∈ ss, Built s) : Built (.block ss)
  | ite {c : Expr} {t s : Stmt} {e : Option Stmt} (hc : c.Built) (ht : Built t) (he : ∀ s ∈ e, Built s)
      (h : mkIf c t e = .ok s) : Built s
  | loop {i p : Option Stmt} {c : Option Expr} {b s : Stmt} (hi : ∀ s ∈ i, Built s) (hc : ∀ e ∈ c, e.Built)
      (hp : ∀ s ∈ p, Built s) (hb : Built b) (h : mkFor i c p b = .ok s) : Built s
  | exit (e : LoopExit) : Built (.exit e)
  | expr {e : Expr} (he : e.Built) : Built (.expr e)

end Stmt

end JitBackend
