import Mathlib
import JitBackend.Amd64.Hazard
import JitBackend.Proofs.Evaluation

/-!
# What the hazard test says of a register

Selection computes the left operand of an operation into its destination before the right one is evaluated, if
`reads` says that the right one does not read the destination. For a destination in a register this is right as far as
the register is viewed at the size of the destination: the value of the expression, its registers taken in their places,
depends on the register only through views at other sizes (`run_congr_of_reads`). A view at another size is no place
that `samePlace` knows, so that it goes unnoticed (`run_narrowView`).
-/

namespace JitBackend

namespace Expr

mutual
/-- The expression with each register replaced by its place. -/
@[grind =] def resolved (f : Frame) : Expr → Except Error Expr
  | const c => .ok (const c)
  | reg r => f.resolve r
  | mem k ro a => return mem k ro (← resolved f a)
  | memAt k ro m => .ok (memAt k ro m)
  | label l => .ok (label l)
  | unary op k x => return unary op k (← resolved f x)
  | binary op k x y => return binary op k (← resolved f x) (← resolved f y)
  | ret vs => return ret (← resolvedL f vs)
  | call l n sig args => return call l n sig (← resolvedL f args)
@[grind =] def resolvedL (f : Frame) : List Expr → Except Error (List Expr)
  | [] => .ok []
  | e :: es => return (← resolved f e) :: (← resolvedL f es)
end

end Expr

/-- The stores differ in a hard register only. -/
structure Store.AgreeBut (h : HardReg) (σ τ : Store) : Prop where
  regs : ∀ id, id ≠ .hard h → σ.regs id = τ.regs id
  mem : σ.mem = τ.mem

namespace Amd64

attribute [grind =] reads readsL

/-! ## Values that agree -/

section Values

variable {h : HardReg} {n : Nat} {σ τ : Store} {w : World} {x y : Expr} {k : Kind}

/-- An expression sees the same through its views of a register, apart from those of `n` bytes. -/
def SeesSame (h : HardReg) (n : Nat) (σ τ : Store) (e : Expr) : Prop :=
  ∀ q ∈ e.regs, q.id = .hard h → q.kind.size ≠ n → σ.get (.reg q) = τ.get (.reg q)

/-- The expression has one value in both stores, and leaves them as they are. -/
def SameValue (w : World) (σ τ : Store) (e : Expr) : Prop := ∃ c, e.run w σ = some (c, σ) ∧ e.run w τ = some (c, τ)

theorem SeesSame.left {op : BinaryOp} (hs : SeesSame h n σ τ (.binary op k x y)) : SeesSame h n σ τ x :=
  fun q hq => hs q (List.mem_append_left _ hq)

theorem SeesSame.right {op : BinaryOp} (hs : SeesSame h n σ τ (.binary op k x y)) : SeesSame h n σ τ y :=
  fun q hq => hs q (List.mem_append_right _ hq)

theorem address_agree (ha : σ.AgreeBut h τ) {m : AddrMode} (hm : m.uses h = false) : σ.address m = τ.address m := by
  have hterm : ∀ o : Option HardReg, o ≠ some h → σ.term o = τ.term o := by
    intro o ho
    cases o with
    | none => rfl
    | some r => exact congrArg Prod.fst (ha.regs (.hard r) (by simpa using ho))
  simp only [AddrMode.uses, Bool.or_eq_false_iff, beq_eq_false_iff_ne] at hm
  rw [Store.address, Store.address, hterm _ hm.1, hterm _ hm.2]

theorem sameValue_memAt {ro : Bool} {m : AddrMode} (ha : σ.AgreeBut h τ) (hm : m.uses h = false) :
    SameValue w σ τ (.memAt k ro m) := by
  refine ⟨σ.get (.mem k (σ.address m)), by rw [Expr.run], ?_⟩
  rw [Expr.run, ← address_agree ha hm, Store.get, Store.get, ha.mem]

theorem SameValue.mem {ro : Bool} (ha : σ.AgreeBut h τ) (hx : SameValue w σ τ x) : SameValue w σ τ (.mem k ro x) := by
  obtain ⟨c, hσ, hτ⟩ := hx
  refine ⟨σ.get (.mem k c.re), by rw [Expr.run, hσ]; rfl, ?_⟩
  rw [Expr.run, hτ, Store.get, ha.mem]
  rfl

theorem SameValue.unary {op : UnaryOp} (hop : op.isAssign = false) (hx : SameValue w σ τ x) :
    SameValue w σ τ (.unary op k x) := by
  obtain ⟨c, hσ, hτ⟩ := hx
  exact ⟨(w.unary op k c).at k, by rw [Expr.run, hop, hσ]; rfl, by rw [Expr.run, hop, hτ]; rfl⟩

theorem SameValue.binary {op : BinaryOp} (hop : op.hasSideEffects = false) (hx : SameValue w σ τ x)
    (hy : SameValue w σ τ y) : SameValue w σ τ (.binary op k x y) := by
  obtain ⟨c, hσ, hτ⟩ := hx
  obtain ⟨d, hσ', hτ'⟩ := hy
  cases op with
  | assign | compound | jumpIf | cmp | test => cases hop
  | arith op | compare op =>
    simp only [SameValue, Expr.run, hσ, hτ, hσ', hτ', Option.bind_eq_bind, Option.bind_some]
    exact ⟨_, rfl, rfl⟩
  | logic op =>
    simp only [SameValue, Expr.run, hσ, hτ, hσ', hτ', Option.bind_eq_bind, Option.bind_some]
    by_cases hc : op.settledBy c = true
    · exact ⟨c.at k, if_pos hc, if_pos hc⟩
    · exact ⟨d.at k, if_neg hc, if_neg hc⟩

end Values

/-! ## Expressions that do not read a register -/

section Reads

variable {f : Frame} {dst : Reg} {h : HardReg}

/-- The place of a register is a hard register or a slot. -/
theorem resolve_cases {r : Reg} {p : Expr} (hp : f.resolve r = .ok p) :
    (∃ q g, p = .reg q ∧ q.id = .hard g) ∨ ∃ m, p = .memAt r.kind r.readOnly m := by
  unfold Frame.resolve at hp
  repeat' split at hp
  all_goals cases hp
  · exact .inl ⟨r, _, rfl, ‹_›⟩
  · exact .inl ⟨_, _, rfl, rfl⟩
  · exact .inr ⟨_, rfl⟩

theorem uses_of_usesPlace {m : AddrMode} (hdst : dst.id = .hard h) (hm : usesPlace m (.reg dst) = false) :
    m.uses h = false := by
  simpa [usesPlace, hardOf, hdst, RegId.hard?] using hm

/-- The place of a register that is not read, and what is seen there. -/
theorem reads_reg {r : Reg} (hdst : dst.id = .hard h) (hr : reads f (.reg dst) (.reg r) = .ok false) :
    ∃ p, f.resolve r = .ok p ∧ p.isEffectFree = true ∧ ∀ (w : World) (σ τ : Store), σ.AgreeBut h τ →
      SeesSame h dst.kind.size σ τ p → SameValue w σ τ p := by
  rw [reads] at hr
  cases hp : f.resolve r with
  | error err =>
    rw [hp] at hr
    cases hr
  | ok p =>
    rw [hp] at hr
    refine ⟨p, rfl, ?_⟩
    obtain ⟨q, g, rfl, hq⟩ | ⟨m, rfl⟩ := resolve_cases hp
    · refine ⟨rfl, fun w σ τ ha hs => ⟨σ.get (.reg q), by rw [Expr.run], ?_⟩⟩
      have hplace : samePlace (.reg q) (.reg dst) = false := by
        cases hr' : samePlace (.reg q) (.reg dst) with
        | false => rfl
        | true =>
          simp only [bind, Except.bind, hr'] at hr
          cases hr
      -- the view has another size, or the register is another one
      have hsame : σ.get (.reg q) = τ.get (.reg q) := by
        by_cases hg : q.id = .hard h
        · have hsize : q.kind.size ≠ dst.kind.size := by simpa [samePlace, hg, hdst] using hplace
          exact hs q (by simp [Expr.regs]) hg hsize
        · rw [Store.get, Store.get, ha.regs q.id hg]
      rw [Expr.run, hsame]
    · refine ⟨rfl, fun w σ τ ha _ => sameValue_memAt ha (uses_of_usesPlace hdst ?_)⟩
      have hplace : (samePlace (.memAt r.kind r.readOnly m) (.reg dst) || usesPlace m (.reg dst)) = false :=
        Except.ok.inj hr
      exact (Bool.or_eq_false_iff.1 hplace).2

theorem reads_binary {op : BinaryOp} {k : Kind} {d x y : Expr} (hr : reads f d (.binary op k x y) = .ok false) :
    reads f d x = .ok false ∧ reads f d y = .ok false := by
  rw [reads] at hr
  cases hx : reads f d x with
  | error err =>
    rw [hx] at hr
    cases hr
  | ok b =>
    rw [hx] at hr
    cases b with
    | true => cases hr
    | false => exact ⟨rfl, hr⟩

/-- An expression without an effect that does not read a register, by the hazard test, has all its registers in places;
and its value depends on that register only through views at sizes other than that of the destination. -/
theorem run_congr_of_reads {e : Expr} (hdst : dst.id = .hard h) (hfree : e.isEffectFree = true)
    (hr : reads f (.reg dst) e = .ok false) : ∃ e', e.resolved f = .ok e' ∧ e'.isEffectFree = true ∧
      ∀ (w : World) (σ τ : Store), σ.AgreeBut h τ → SeesSame h dst.kind.size σ τ e' →
        ∃ c, e'.run w σ = some (c, σ) ∧ e'.run w τ = some (c, τ) := by
  induction e with
  | const c => exact ⟨.const c, by rw [Expr.resolved], rfl, fun w σ τ _ _ => ⟨c, by rw [Expr.run], by rw [Expr.run]⟩⟩
  | reg r =>
    rw [Expr.resolved]
    exact reads_reg hdst hr
  | memAt k ro m =>
    rw [reads] at hr
    have hm : m.uses h = false := uses_of_usesPlace hdst (Bool.or_eq_false_iff.1 (Except.ok.inj hr)).1
    exact ⟨.memAt k ro m, by rw [Expr.resolved], rfl, fun w σ τ ha _ => sameValue_memAt ha hm⟩
  | mem k ro a ih =>
    rw [reads] at hr
    obtain ⟨a', ha', hfree', hval⟩ := ih hfree hr
    refine ⟨.mem k ro a', by rw [Expr.resolved, ha']; rfl, hfree', fun w σ τ ha hs => ?_⟩
    exact SameValue.mem ha (hval w σ τ ha fun q hq => hs q (by rwa [Expr.regs]))
  | unary op k x ih =>
    rw [reads] at hr
    simp only [Expr.isEffectFree, Bool.and_eq_true, Bool.not_eq_true'] at hfree
    obtain ⟨x', hx', hfree', hval⟩ := ih hfree.2 hr
    have hop : op.isAssign = false := by cases op <;> simp_all [UnaryOp.hasSideEffects, UnaryOp.isAssign]
    refine ⟨.unary op k x', by rw [Expr.resolved, hx']; rfl, by simp [Expr.isEffectFree, hfree.1, hfree'], ?_⟩
    intro w σ τ ha hs
    exact SameValue.unary hop (hval w σ τ ha fun q hq => hs q (by rwa [Expr.regs]))
  | binary op k x y ihx ihy =>
    simp only [Expr.isEffectFree, Bool.and_eq_true, Bool.not_eq_true'] at hfree
    obtain ⟨hrx, hry⟩ := reads_binary hr
    obtain ⟨x', hx', hfx, hvalx⟩ := ihx hfree.1.2 hrx
    obtain ⟨y', hy', hfy, hvaly⟩ := ihy hfree.2 hry
    refine ⟨.binary op k x' y', by rw [Expr.resolved, hx', hy']; rfl,
      by simp [Expr.isEffectFree, hfree.1.1, hfx, hfy], fun w σ τ ha hs => ?_⟩
    exact SameValue.binary hfree.1.1 (hvalx w σ τ ha hs.left) (hvaly w σ τ ha hs.right)
  | label | ret | call => cases hfree

end Reads

/-! ## A register viewed at two sizes -/

/-- Two registers of the machine for two soft registers. -/
def twoHomes : Frame := ⟨regFile, ⟨[(256, .reg (gpr 6)), (257, .reg (gpr 7))], 0⟩, false⟩

/-- The low half of `s256`, extended. -/
def narrowView : Expr := .unary .cast .int64 (.reg ⟨.int32, .soft 256, false⟩)

/-- The store with a word in `rsi` and another one in `rdi`. -/
def inHomes (a b : Word) : Store :=
  ⟨fun id => if id = .hard (gpr 6) then (a, 0) else if id = .hard (gpr 7) then (b, 0) else 0, fun _ => 0⟩

theorem agreeBut_inHomes (a a' b : Word) : (inHomes a b).AgreeBut (gpr 6) (inHomes a' b) :=
  ⟨fun id hid => by simp [inHomes, hid], rfl⟩

/-- Stores that agree in the low half of `rsi` give `s257 + narrowView` one value. -/
theorem run_congr_of_reads_wideSum :
    let e : Expr := .binary (.arith .add) .int64 (.reg ⟨.int64, .soft 257, false⟩) narrowView
    let σ := inHomes 5 7
    let τ := inHomes 0x100000005 7
    e.isEffectFree = true ∧ reads twoHomes (fixed .int64 (gpr 6)) e = .ok false ∧ σ.AgreeBut (gpr 6) τ ∧
      ∃ e', e.resolved twoHomes = .ok e' ∧ SeesSame (gpr 6) 8 σ τ e' ∧
        ∀ w, ∃ c, e'.run w σ = some (c, σ) ∧ e'.run w τ = some (c, τ) := by
  intro e σ τ
  have hreads : reads twoHomes (fixed .int64 (gpr 6)) e = .ok false := by cbv
  have hagree := agreeBut_inHomes 5 0x100000005 7
  obtain ⟨e', he', -, hval⟩ := @run_congr_of_reads twoHomes (.hard .int64 (gpr 6)) (gpr 6) e rfl rfl hreads
  have hsees : SeesSame (gpr 6) 8 σ τ e' := by
    have hcode : e.resolved twoHomes = .ok (.binary (.arith .add) .int64 (fixed .int64 (gpr 7))
        (.unary .cast .int64 (fixed .int32 (gpr 6)))) := by cbv
    cases hcode.symm.trans he'
    intro q hq _ _
    have hq : q = .hard .int64 (gpr 7) ∨ q = .hard .int32 (gpr 6) := by simpa [Expr.regs, fixed] using hq
    rcases hq with rfl | rfl
    · rfl
    · decide
  exact ⟨rfl, hreads, hagree, e', he', hsees, fun w => hval w σ τ hagree hsees⟩

/-- The low half of `rsi` is no place that `rsi` at eight bytes is, so that its view goes unnoticed. -/
theorem run_narrowView : narrowView.isEffectFree = true ∧ reads twoHomes (fixed .int64 (gpr 6)) narrowView = .ok false ∧
    ∃ e', narrowView.resolved twoHomes = .ok e' ∧ ∃ σ τ : Store, σ.AgreeBut (gpr 6) τ ∧
      ∀ w, e'.run w σ = some (.int64 1, σ) ∧ e'.run w τ = some (.int64 2, τ) := by
  refine ⟨rfl, by cbv, .unary .cast .int64 (fixed .int32 (gpr 6)), by cbv, inHomes 1 0, inHomes 2 0,
    agreeBut_inHomes 1 2 0, fun w => ⟨?_, ?_⟩⟩
  · rw [fixed, Expr.run, Expr.run]
    rfl
  · rw [fixed, Expr.run, Expr.run]
    rfl

end Amd64

end JitBackend
