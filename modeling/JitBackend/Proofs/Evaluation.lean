import Mathlib.Logic.Function.Basic
import JitBackend.Const.Fold
import JitBackend.Expr.Basic

/-!
# Evaluation of expressions

The meaning of an expression in a `Store` of registers and bytes. An expression gives a value and the store it leaves
behind; only assignments and calls change a store. What lies outside a function is a parameter, a `World`: where labels
are, what calls do (they need not return), and which values the operations without one have. A division by zero is
such an operation. It has some value here, so that an expression without an effect always has one
(`Expr.run_of_isEffectFree`).
-/

namespace JitBackend

/-! ## Stores -/

/-- Bytes by their addresses. -/
abbrev Memory := Word → BitVec 8

namespace Memory

/-- The `n` bytes at `a` as a number, the first byte being the lowest. -/
def read (m : Memory) (a : Word) : Nat → Word
  | 0 => 0
  | n + 1 => m.read (a + 1) n <<< 8 ||| (m a).setWidth 64

/-- The memory with the `n` low bytes of `w` at `a`. -/
def write (m : Memory) (a : Word) (n : Nat) (w : Word) : Memory := fun b =>
  if (b - a).toNat < n then (w >>> (8 * (b - a).toNat)).setWidth 8 else m b

end Memory

/-- What an assignment writes to. -/
inductive Place
  | reg (r : Reg) | mem (kind : Kind) (a : Word)

/-- A register holds two words, the second one for the imaginary part of a complex number. -/
structure Store where
  regs : RegId → Word × Word
  mem : Memory

/-- The bytes of one part of a value: a complex number has two parts, any other value one. -/
def Kind.partSize (k : Kind) : Nat := if k.isComplex then k.size / 2 else k.size

namespace Store

def get (σ : Store) : Place → Const
  | .reg r => .ofBits r.kind (σ.regs r.id).1 (σ.regs r.id).2
  | .mem k a => .ofBits k (σ.mem.read a k.partSize) (σ.mem.read (a + .ofNat 64 k.partSize) k.partSize)

def set (σ : Store) (p : Place) (c : Const) : Store :=
  match p with
  | .reg r => { σ with regs := Function.update σ.regs r.id (c.re, c.im) }
  | .mem k a =>
    let mem := σ.mem.write a k.partSize c.re
    { σ with mem := if k.isComplex then mem.write (a + .ofNat 64 k.partSize) k.partSize c.im else mem }

/-- The word of a hard register in an address, where there is one. -/
def term (σ : Store) (r : Option HardReg) : Word := (r.map fun r => (σ.regs (.hard r)).1).getD 0

def address (σ : Store) (m : AddrMode) : Word :=
  σ.term m.base + σ.term m.index * .ofNat 64 m.scale.toNat + m.disp.signExtend 64

end Store

/-! ## Operations -/

/-- The pattern of a constant read at kind `k`. -/
def Const.at (k : Kind) (c : Const) : Const := .ofBits k c.re c.im

/-- What the meaning of a function depends on beyond its store. A call gives a value and a store, or does not
return. -/
structure World where
  addressOf : Label → Word
  call : Label → List Const → Store → Option (Const × Store)
  undefined : Op → List Const → Const

namespace World

variable (w : World)

/-- The value of an operation that may have none. -/
def settle (op : Op) (operands : List Const) : Except Error Const → Const
  | .ok c => c
  | .error _ => w.undefined op operands

def unary (op : UnaryOp) (k : Kind) (c : Const) : Const :=
  match op with
  | .neg => c.neg
  | .inv => c.inv
  | .lnot => c.lnot
  | .cast => w.settle op [c] (c.convert k)
  | .inc => w.settle op [c] (Const.arith .add c (.ofInt k 1))
  | .dec => w.settle op [c] (Const.arith .sub c (.ofInt k 1))
  | .zero => .zero k
  | _ => w.undefined op [c]

def binary (op : BinaryOp) (x y : Const) : Const := w.settle op [x, y] (Const.binary op x y)

end World

/-- Whether the left operand settles a logical operation. -/
def LogicOp.settledBy (op : LogicOp) (c : Const) : Bool :=
  match op with
  | .and => !c.asBool
  | .or => c.asBool

namespace Expr

mutual
/-- The value of an expression and the store after it. Operands are evaluated from left to right; the right operand of
a logical operation only if the left one leaves the answer open. `none` is a call that does not return. -/
@[grind =] def run (w : World) : Expr → Store → Option (Const × Store)
  | const c, σ => some (c, σ)
  | reg r, σ => some (σ.get (.reg r), σ)
  | mem k _ a, σ => do
    let (p, σ) ← a.run w σ
    some (σ.get (.mem k p.re), σ)
  | memAt k _ m, σ => some (σ.get (.mem k (σ.address m)), σ)
  | label l, σ => some (.ptr (w.addressOf l), σ)
  | unary op k x, σ =>
    if op.isAssign then do
      let (p, σ) ← x.place w σ
      let v := (w.unary op k (σ.get p)).at k
      some (v, σ.set p v)
    else do
      let (c, σ) ← x.run w σ
      some ((w.unary op k c).at k, σ)
  | binary op k x y, σ =>
    match op with
    | .assign => do
      let (p, σ) ← x.place w σ
      let (c, σ) ← y.run w σ
      some (c.at k, σ.set p (c.at k))
    | .compound op => do
      let (p, σ) ← x.place w σ
      let (c, σ) ← y.run w σ
      let v := (w.binary (.arith op) (σ.get p) c).at k
      some (v, σ.set p v)
    | .logic op => do
      let (c, σ) ← x.run w σ
      if op.settledBy c then some (c.at k, σ)
      else do
        let (d, σ) ← y.run w σ
        some (d.at k, σ)
    | op => do
      let (c, σ) ← x.run w σ
      let (d, σ) ← y.run w σ
      some ((w.binary op c d).at k, σ)
  | ret vs, σ => do
    let (_, σ) ← runL w vs σ
    some (.zero .void, σ)
  | call l _ sig args, σ => do
    let (cs, σ) ← runL w args σ
    let (c, σ) ← w.call l cs σ
    some (c.at sig.value, σ)
/-- The place that an operand names. -/
@[grind =] def place (w : World) : Expr → Store → Option (Place × Store)
  | reg r, σ => some (.reg r, σ)
  | mem k _ a, σ => do
    let (p, σ) ← a.run w σ
    some (.mem k p.re, σ)
  | memAt k _ m, σ => some (.mem k (σ.address m), σ)
  | _, _ => none
@[grind =] def runL (w : World) : List Expr → Store → Option (List Const × Store)
  | [], σ => some ([], σ)
  | e :: es, σ => do
    let (c, σ) ← e.run w σ
    let (cs, σ) ← runL w es σ
    some (c :: cs, σ)
end

/-- Induction over trees; the operands of returns and calls are those of a list. -/
@[elab_as_elim, induction_eliminator]
theorem induct {motive : Expr → Prop} (const : ∀ c, motive (.const c)) (reg : ∀ r, motive (.reg r))
    (mem : ∀ k ro a, motive a → motive (.mem k ro a)) (memAt : ∀ k ro m, motive (.memAt k ro m))
    (label : ∀ l, motive (.label l)) (unary : ∀ op k x, motive x → motive (.unary op k x))
    (binary : ∀ op k x y, motive x → motive y → motive (.binary op k x y))
    (ret : ∀ vs, (∀ v ∈ vs, motive v) → motive (.ret vs))
    (call : ∀ l n sig args, (∀ a ∈ args, motive a) → motive (.call l n sig args)) (e : Expr) : motive e :=
  @Expr.rec motive (fun es => ∀ e ∈ es, motive e) const reg mem memAt label unary binary ret call (by simp)
    (fun _ _ h hs => List.forall_mem_cons.2 ⟨h, hs⟩) e

section

variable {w : World} {σ τ : Store}

/-- A value has the kind of its expression. -/
theorem kind_of_run : ∀ {e : Expr} {c : Const}, e.run w σ = some (c, τ) → c.kind = e.kind := by
  intro e c h
  cases e with
  | const | reg | memAt | label =>
    simp only [run, Option.some.injEq, Prod.mk.injEq] at h
    rw [← h.1]
    rfl
  | mem k ro a =>
    simp only [run, Option.bind_eq_bind, Option.bind_eq_some_iff] at h
    obtain ⟨p, -, h⟩ := h
    simp only [Option.some.injEq, Prod.mk.injEq] at h
    rw [← h.1]
    rfl
  | unary op k x =>
    simp only [run, Option.bind_eq_bind] at h
    split at h
    all_goals
      simp only [Option.bind_eq_some_iff, Option.some.injEq, Prod.mk.injEq] at h
      obtain ⟨p, -, rfl, -⟩ := h
      rfl
  | binary op k x y =>
    cases op <;> simp only [run, Option.bind_eq_bind, Option.bind_eq_some_iff] at h
    case logic l =>
      obtain ⟨p, -, h⟩ := h
      split at h
      · simp only [Option.some.injEq, Prod.mk.injEq] at h
        rw [← h.1]
        rfl
      · obtain ⟨q, -, h⟩ := Option.bind_eq_some_iff.1 h
        simp only [Option.some.injEq, Prod.mk.injEq] at h
        rw [← h.1]
        rfl
    all_goals
      obtain ⟨p, -, q, -, h⟩ := h
      simp only [Option.some.injEq, Prod.mk.injEq] at h
      rw [← h.1]
      rfl
  | ret vs =>
    simp only [run, Option.bind_eq_bind, Option.bind_eq_some_iff] at h
    obtain ⟨p, -, h⟩ := h
    simp only [Option.some.injEq, Prod.mk.injEq] at h
    rw [← h.1]
    rfl
  | call l n sig args =>
    simp only [run, Option.bind_eq_bind, Option.bind_eq_some_iff] at h
    obtain ⟨p, -, q, -, h⟩ := h
    simp only [Option.some.injEq, Prod.mk.injEq] at h
    rw [← h.1]
    rfl

/-- An expression without an effect has a value in every store, and leaves the store as it is. -/
theorem run_of_isEffectFree (e : Expr) (h : e.isEffectFree = true) (σ : Store) : ∃ c, e.run w σ = some (c, σ) := by
  induction e with
  | const c => exact ⟨c, by rw [run]⟩
  | reg r => exact ⟨_, by rw [run]⟩
  | memAt k ro m => exact ⟨_, by rw [run]⟩
  | mem k ro a ih =>
    obtain ⟨c, hc⟩ := ih h
    exact ⟨_, by rw [run, hc]; rfl⟩
  | unary op k x ih =>
    simp only [isEffectFree, Bool.and_eq_true, Bool.not_eq_true'] at h
    obtain ⟨c, hc⟩ := ih h.2
    have hop : op.isAssign = false := by cases op <;> simp_all [UnaryOp.hasSideEffects, UnaryOp.isAssign]
    exact ⟨_, by rw [run, hop, hc]; rfl⟩
  | binary op k x y ihx ihy =>
    simp only [isEffectFree, Bool.and_eq_true, Bool.not_eq_true'] at h
    obtain ⟨c, hc⟩ := ihx h.1.2
    obtain ⟨d, hd⟩ := ihy h.2
    cases op with
    | assign | compound | jumpIf | cmp | test => simp [BinaryOp.hasSideEffects, BinaryOp.isAssign, BinaryOp.isJump] at h
    | arith op | compare op =>
      simp only [run, hc, hd, Option.bind_eq_bind, Option.bind_some]
      exact ⟨_, rfl⟩
    | logic op =>
      simp only [run, hc, hd, Option.bind_eq_bind, Option.bind_some]
      split
      · exact ⟨_, rfl⟩
      · exact ⟨_, rfl⟩
  | label | ret | call => simp [isEffectFree] at h

end

/-! ## Conditions -/

/-- The truth of a condition and the store after it. -/
def holds (w : World) (c : Expr) (σ : Store) : Option (Bool × Store) := (c.run w σ).map fun r => (r.1.asBool, r.2)

end Expr

end JitBackend
