import JitBackend.Amd64.Register
import JitBackend.Proofs.Strict
import JitBackend.Proofs.Words

/-!
# Plain expressions

`Plain` are the expressions over integers, truth values and pointers that have no effect and no hard register. Where
their evaluation is without faults, the value is the one that a run gives (`Plain.run_eq`).
-/

namespace JitBackend.Amd64

/-- The registers that selection does not use on its own account: the allocatable ones and `rbp`. -/
def homes : List HardReg := gpr 5 :: allocatable

/-- Where a soft register may live: in a register that selection leaves alone, or in a slot of the spill area. -/
inductive Placed (f : Frame) (r : Reg) : Prop
  | reg (h : HardReg) (hmem : h ∈ homes) (he : f.resolve r = .ok (.reg ⟨r.kind, .hard h, r.readOnly⟩))
  | slot (o : Nat) (hle : o + r.kind.size ≤ f.alloc.frame)
      (he : f.resolve r = .ok (.memAt r.kind r.readOnly (.ofBase rsp (.ofInt 32 o))))

/-- Expressions of integers, truth values and pointers without an effect, over soft registers that have a place. Byte
products and quotients have no selection. -/
inductive Plain (f : Frame) : Expr → Prop
  | const {c : Const} (hk : c.kind.isScalar = true) (hc : c.Canonical) : Plain f (.const c)
  | reg {r : Reg} (hk : r.kind.isScalar = true) (hsoft : r.id.isSoft = true) (hr : Placed f r) : Plain f (.reg r)
  | mem {k : Kind} (ro : Bool) {a : Expr} (hk : k.isScalar = true) (hp : a.kind = .ptr) (ha : Plain f a) :
      Plain f (.mem k ro a)
  | neg {x : Expr} (hk : x.kind.isWord = true) (hx : Plain f x) : Plain f (.unary .neg x.kind x)
  | inv {x : Expr} (hk : x.kind.isWord = true) (hx : Plain f x) : Plain f (.unary .inv x.kind x)
  | lnot {x : Expr} (hk : x.kind = .bool) (hx : Plain f x) : Plain f (.unary .lnot .bool x)
  | cast {k : Kind} {x : Expr} (hk : k.isWord = true) (hx : Plain f x) : Plain f (.unary .cast k x)
  | arith {op : ArithOp} {x y : Expr} (ha : Expr.arithAdmits op x.kind y.kind = true)
      (hb : x.kind.size = 1 → op ≠ .mul ∧ op ≠ .quo ∧ op ≠ .rem) (hx : Plain f x) (hy : Plain f y) :
      Plain f (.binary (.arith op) x.kind x y)
  | compare (op : CompareOp) {x y : Expr} (hk : x.kind = y.kind) (hx : Plain f x) (hy : Plain f y) :
      Plain f (.binary (.compare op) .bool x y)
  | logic (op : LogicOp) {x y : Expr} (hkx : x.kind = .bool) (hky : y.kind = .bool) (hx : Plain f x) (hy : Plain f y) :
      Plain f (.binary (.logic op) .bool x y)

theorem Plain.isScalar {f : Frame} {e : Expr} (h : Plain f e) : e.kind.isScalar = true := by
  induction h with
  | const hk _ => exact hk
  | reg hk _ _ => exact hk
  | mem _ hk _ _ _ => exact hk
  | neg _ _ ih => exact ih
  | inv _ _ ih => exact ih
  | lnot => rfl
  | cast hk _ _ => exact Kind.isScalar_of_isWord hk
  | arith _ _ _ _ ih _ => exact ih
  | compare => rfl
  | logic => rfl

/-! ## Values -/

section Values

variable {f : Frame} {readable : Word → Bool} {σ : Store} {e x y : Expr} {c d : Const}

theorem eq_ok_of_toOption {α : Type} {v : Except Error α} {a : α} (h : v.toOption = some a) : v = .ok a := by
  cases v with
  | error err => cases h
  | ok b => cases h; rfl

theorem arith_of_arith? {lit : Bool} {op : ArithOp} {r : Const} (h : Const.arith? lit op c d = some r) :
    Const.arith op c d = .ok r := by
  unfold Const.arith? at h
  split at h
  · cases h
  · exact eq_ok_of_toOption h

/-- A value is canonical and has the kind of its expression. -/
theorem Plain.eval_kind (h : Plain f e) : ∀ {c}, e.eval readable σ = some c → c.kind = e.kind ∧ c.Canonical := by
  induction h with
  | const hk hc =>
    rintro c ⟨⟩
    exact ⟨rfl, hc⟩
  | reg hk hs hr =>
    rintro c ⟨⟩
    exact ⟨rfl, Const.canonical_ofBits _ _ _⟩
  | mem ro hk hp ha ih =>
    intro c h
    simp only [Expr.eval, Option.bind_eq_some_iff] at h
    obtain ⟨p, -, h⟩ := h
    unfold Store.load? at h
    split at h
    · cases h
      exact ⟨rfl, Const.canonical_ofBits _ _ _⟩
    · cases h
  | neg hk hx ih =>
    intro c h
    simp only [Expr.eval, Option.bind_eq_some_iff] at h
    obtain ⟨d, hd, h⟩ := h
    cases h
    refine ⟨?_, Const.canonical_neg d⟩
    rw [Const.neg_of_isWord (by rw [(ih hd).1]; exact hk)]
    exact (ih hd).1
  | inv hk hx ih =>
    intro c h
    simp only [Expr.eval, Option.bind_eq_some_iff] at h
    obtain ⟨d, hd, h⟩ := h
    cases h
    exact ⟨(ih hd).1, Const.canonical_ofBits _ _ _⟩
  | lnot hk hx ih =>
    intro c h
    simp only [Expr.eval, Option.bind_eq_some_iff] at h
    obtain ⟨d, hd, h⟩ := h
    cases h
    exact ⟨rfl, Const.canonical_bool _⟩
  | cast hk hx ih =>
    intro c h
    simp only [Expr.eval, Option.bind_eq_some_iff] at h
    obtain ⟨d, hd, h⟩ := h
    rw [Const.convert_of_isWord (by rw [(ih hd).1]; exact hx.isScalar) hk] at h
    cases h
    exact ⟨rfl, Const.canonical_ofBits _ _ _⟩
  | arith ha hb hx hy ihx ihy =>
    intro c h
    simp only [Expr.eval, Option.bind_eq_some_iff] at h
    obtain ⟨a, hax, b, hby, h⟩ := h
    have hk := isWord_of_admits hx.isScalar ha
    have har := arith_of_arith? h
    have hkind := Const.kind_arith (by rw [(ihx hax).1]; exact hk) har
    exact ⟨hkind.trans (ihx hax).1, Const.canonical_arith har⟩
  | compare op hk hx hy ihx ihy =>
    intro c h
    simp only [Expr.eval, Option.bind_eq_some_iff, Option.map_eq_some_iff] at h
    obtain ⟨a, -, b, -, r, -, rfl⟩ := h
    exact ⟨rfl, Const.canonical_bool _⟩
  | logic op hkx hky hx hy ihx ihy =>
    intro c h
    simp only [Expr.eval, Option.bind_eq_some_iff] at h
    obtain ⟨a, hax, h⟩ := h
    split at h
    · cases h
      exact ⟨(ihx hax).1.trans hkx, (ihx hax).2⟩
    · exact ⟨(ihy h).1.trans hky, (ihy h).2⟩

/-- So is a value left in a place. -/
theorem Plain.inPlace_kind {after : Const → Store} (h : Plain f e) : ∀ {origin σ c},
    e.inPlace readable after origin σ = some c → c.kind = e.kind ∧ c.Canonical := by
  induction h with
  | const hk hc =>
    intro origin σ c h
    rw [Expr.inPlace] at h
    · exact (Plain.const hk hc : Plain f _).eval_kind h
    all_goals simp
  | reg hk hs hr =>
    intro origin σ c h
    rw [Expr.inPlace] at h
    · exact (Plain.reg hk hs hr).eval_kind h
    all_goals simp
  | mem ro hk hp ha ih =>
    intro origin σ c h
    rw [Expr.inPlace] at h
    · exact (Plain.mem ro hk hp ha).eval_kind h
    all_goals simp
  | neg hk hx ih =>
    intro origin σ c h
    rw [Expr.inPlace, Option.map_eq_some_iff] at h
    obtain ⟨d, hd, rfl⟩ := h
    refine ⟨?_, Const.canonical_neg d⟩
    rw [Const.neg_of_isWord (by rw [(ih hd).1]; exact hk)]
    exact (ih hd).1
  | inv hk hx ih =>
    intro origin σ c h
    rw [Expr.inPlace, Option.map_eq_some_iff] at h
    obtain ⟨d, hd, rfl⟩ := h
    exact ⟨(ih hd).1, Const.canonical_ofBits _ _ _⟩
  | lnot hk hx ih =>
    intro origin σ c h
    rw [Expr.inPlace, Option.map_eq_some_iff] at h
    obtain ⟨d, hd, rfl⟩ := h
    exact ⟨rfl, Const.canonical_bool _⟩
  | cast hk hx ih =>
    intro origin σ c h
    rw [Expr.inPlace] at h
    · exact (Plain.cast hk hx).eval_kind h
    all_goals simp
  | arith ha hb hx hy ihx ihy =>
    intro origin σ c h
    rw [Expr.inPlace] at h
    split at h
    · exact (Plain.arith ha hb hx hy).eval_kind h
    · simp only [Option.bind_eq_some_iff] at h
      obtain ⟨a, hax, b, -, h⟩ := h
      have hk := isWord_of_admits hx.isScalar ha
      have har := arith_of_arith? h
      have hkind := Const.kind_arith (by rw [(ihx hax).1]; exact hk) har
      exact ⟨hkind.trans (ihx hax).1, Const.canonical_arith har⟩
  | compare op hk hx hy ihx ihy =>
    intro origin σ c h
    rw [Expr.inPlace] at h
    · exact (Plain.compare op hk hx hy).eval_kind h
    all_goals simp
  | logic op hkx hky hx hy ihx ihy =>
    intro origin σ c h
    rw [Expr.inPlace, Option.bind_eq_some_iff] at h
    obtain ⟨a, hax, h⟩ := h
    split at h
    · cases h
      exact ⟨(ihx hax).1.trans hkx, (ihx hax).2⟩
    · exact ⟨(ihy h).1.trans hky, (ihy h).2⟩

/-- Where evaluation is without faults, a run gives the same value. -/
theorem Plain.run_eq (w : World) (h : Plain f e) : ∀ {c}, e.eval readable σ = some c → e.run w σ = some (c, σ) := by
  induction h with
  | const hk hc =>
    rintro c ⟨⟩
    rw [Expr.run]
  | reg hk hs hr =>
    rintro c ⟨⟩
    rw [Expr.run]
  | mem ro hk hp ha ih =>
    intro c h
    simp only [Expr.eval, Option.bind_eq_some_iff] at h
    obtain ⟨p, hp, h⟩ := h
    unfold Store.load? at h
    split at h
    · cases h
      rw [Expr.run, ih hp]
      rfl
    · cases h
  | neg hk hx ih =>
    intro c h
    have hc := (Plain.neg hk hx).eval_kind h
    simp only [Expr.eval, Option.bind_eq_some_iff] at h
    obtain ⟨d, hd, h⟩ := h
    cases h
    rw [Expr.run, if_neg (by simp [UnaryOp.isAssign]), ih hd]
    exact congrArg (fun v => some (v, σ)) (Const.at_eq hc.1 hc.2)
  | inv hk hx ih =>
    intro c h
    have hc := (Plain.inv hk hx).eval_kind h
    simp only [Expr.eval, Option.bind_eq_some_iff] at h
    obtain ⟨d, hd, h⟩ := h
    cases h
    rw [Expr.run, if_neg (by simp [UnaryOp.isAssign]), ih hd]
    exact congrArg (fun v => some (v, σ)) (Const.at_eq hc.1 hc.2)
  | lnot hk hx ih =>
    intro c h
    have hc := (Plain.lnot hk hx).eval_kind h
    simp only [Expr.eval, Option.bind_eq_some_iff] at h
    obtain ⟨d, hd, h⟩ := h
    cases h
    rw [Expr.run, if_neg (by simp [UnaryOp.isAssign]), ih hd]
    exact congrArg (fun v => some (v, σ)) (Const.at_eq hc.1 hc.2)
  | cast hk hx ih =>
    intro c h
    have hc := (Plain.cast hk hx).eval_kind h
    simp only [Expr.eval, Option.bind_eq_some_iff] at h
    obtain ⟨d, hd, h⟩ := h
    rw [Const.convert_of_isWord (by rw [(hx.eval_kind hd).1]; exact hx.isScalar) hk] at h
    cases h
    rw [Expr.run, if_neg (by simp [UnaryOp.isAssign]), ih hd]
    simp only [Option.bind_eq_bind, Option.bind_some, World.unary,
      Const.convert_of_isWord (k := _) (by rw [(hx.eval_kind hd).1]; exact hx.isScalar) hk, World.settle]
    exact congrArg (fun v => some (v, σ)) (Const.at_eq hc.1 hc.2)
  | arith ha hb hx hy ihx ihy =>
    intro c h
    have hc := (Plain.arith ha hb hx hy).eval_kind h
    simp only [Expr.eval, Option.bind_eq_some_iff] at h
    obtain ⟨a, hax, b, hby, h⟩ := h
    simp only [Expr.run, ihx hax, ihy hby, Option.bind_eq_bind, Option.bind_some, World.binary, Const.binary,
      arith_of_arith? h, World.settle]
    exact congrArg (fun v => some (v, σ)) (Const.at_eq hc.1 hc.2)
  | compare op hk hx hy ihx ihy =>
    intro c h
    have hc := (Plain.compare op hk hx hy).eval_kind h
    simp only [Expr.eval, Option.bind_eq_some_iff, Option.map_eq_some_iff] at h
    obtain ⟨a, hax, b, hby, r, hr, rfl⟩ := h
    simp only [Expr.run, ihx hax, ihy hby, Option.bind_eq_bind, Option.bind_some, World.binary, Const.binary,
      eq_ok_of_toOption hr, Except.map, World.settle]
    exact congrArg (fun v => some (v, σ)) (Const.at_eq hc.1 hc.2)
  | logic op hkx hky hx hy ihx ihy =>
    intro c h
    have hc := (Plain.logic op hkx hky hx hy).eval_kind h
    simp only [Expr.eval, Option.bind_eq_some_iff] at h
    obtain ⟨a, hax, h⟩ := h
    rw [Expr.run]
    simp only [ihx hax, Option.bind_eq_bind, Option.bind_some]
    split at h
    · rename_i hs
      cases h
      rw [if_pos hs]
      exact congrArg (fun v => some (v, σ)) (Const.at_eq hc.1 hc.2)
    · rename_i hs
      rw [if_neg hs, ihy h]
      exact congrArg (fun v => some (v, σ)) (Const.at_eq hc.1 hc.2)

end Values

end JitBackend.Amd64
