import JitBackend.Proofs.Checked

/-!
# Sub-expressions

What stands in an expression, at any depth, and what does not stand in built ones: constructors fold casts of constants.
-/

namespace JitBackend

namespace Expr

/-- `x` is the expression, or stands in it. -/
inductive Within (x : Expr) : Expr → Prop
  | refl : Within x x
  | child {c e : Expr} (hc : c ∈ e.children) (h : Within x c) : Within x e

theorem Within.trans {x y z : Expr} (h : Within x y) (h' : Within y z) : Within x z := by
  induction h' with
  | refl => exact h
  | child hc _ ih => exact .child hc ih

/-- A sub-expression satisfies `P`. -/
def Has (P : Expr → Prop) (e : Expr) : Prop := ∃ x, Within x e ∧ P x

section Has

variable {P : Expr → Prop} {e x y : Expr}

theorem has_iff : e.Has P ↔ P e ∨ ∃ c ∈ e.children, c.Has P := by
  constructor
  · rintro ⟨x, hx, hP⟩
    cases hx with
    | refl => exact .inl hP
    | child hc h => exact .inr ⟨_, hc, x, h, hP⟩
  · rintro (h | ⟨c, hc, x, hx, hP⟩)
    · exact ⟨e, .refl, h⟩
    · exact ⟨x, .child hc hx, hP⟩

theorem has_mem {k : Kind} {ro : Bool} : (mem k ro x).Has P ↔ P (mem k ro x) ∨ x.Has P := by
  rw [has_iff]
  simp [children]

theorem has_unary {op : UnaryOp} {k : Kind} : (unary op k x).Has P ↔ P (unary op k x) ∨ x.Has P := by
  rw [has_iff]
  simp [children]

theorem has_binary {op : BinaryOp} {k : Kind} :
    (binary op k x y).Has P ↔ P (binary op k x y) ∨ x.Has P ∨ y.Has P := by
  rw [has_iff]
  simp [children]

end Has

/-! ## Folded casts -/

/-- A cast of a constant. Where it is built, it is folded. -/
def IsConstCast (e : Expr) : Prop := ∃ k c, e = .unary .cast k (.const c)

section Folded

variable {e x y : Expr} {k : Kind}

theorem not_has_mkNot (h : ¬x.Has IsConstCast) : ¬(mkNot x).Has IsConstCast := by
  have hlnot : ∀ {g : Kind}, ¬(unary .lnot g x).Has IsConstCast := by
    intro g hhas
    rcases has_unary.1 hhas with ⟨_, _, ⟨⟩⟩ | hhas
    exact h hhas
  unfold mkNot
  split
  · exact fun hhas => h (has_unary.2 (.inr hhas))
  · split
    · intro hhas
      rcases has_binary.1 hhas with ⟨_, _, ⟨⟩⟩ | hhas
      exact h (has_binary.2 (.inr hhas))
    · exact hlnot
  · exact hlnot

theorem not_has_binary {op : BinaryOp} (hx : ¬x.Has IsConstCast) (hy : ¬y.Has IsConstCast) :
    ¬(binary op k x y).Has IsConstCast := by
  intro hhas
  rcases has_binary.1 hhas with ⟨_, _, ⟨⟩⟩ | hhas | hhas
  · exact hx hhas
  · exact hy hhas

theorem not_has_leaf (hleaf : e.children = []) : ¬e.Has IsConstCast := by
  intro hhas
  rcases has_iff.1 hhas with ⟨_, _, rfl⟩ | ⟨c, hc, -⟩
  · cases hleaf
  · rw [hleaf] at hc
    cases hc

theorem not_has_children (hself : ¬IsConstCast e) (h : ∀ c ∈ e.children, ¬c.Has IsConstCast) : ¬e.Has IsConstCast := by
  intro hhas
  rcases has_iff.1 hhas with hhas | ⟨c, hc, hhas⟩
  · exact hself hhas
  · exact h c hc hhas

theorem mkCast_eq_ok (h : mkCast k x = .ok e) :
    e = x ∨ (∃ d, e = .const d) ∨ (e = .unary .cast k x ∧ x.isConst = false) := by
  unfold mkCast at h
  split at h
  · cases h
  split at h
  · cases h
    exact .inl rfl
  cases x with
  | const c =>
    dsimp only at h
    cases hv : c.convert k with
    | error err =>
      rw [hv] at h
      cases h
    | ok d =>
      rw [hv] at h
      cases h
      exact .inr (.inl ⟨d, rfl⟩)
  | _ =>
    cases h
    exact .inr (.inr ⟨rfl, rfl⟩)

/-- In built expressions, no cast stands on a constant. -/
theorem Built.folded (h : e.Built) : ¬e.Has IsConstCast := by
  induction h with
  | const | reg | label | memAt => exact not_has_leaf rfl
  | memory _ h ih =>
    unfold Expr.memory at h
    split at h <;> cases h
    refine not_has_children (by rintro ⟨_, _, ⟨⟩⟩) ?_
    simpa [children] using ih
  | unary op _ h ih =>
    obtain ⟨k, hk, ⟨-, c, -, rfl⟩ | ⟨-, c, -, rfl⟩ | ⟨-, c, -, rfl⟩ | ⟨-, rfl⟩ | rfl⟩ := mkUnary_eq_ok h
    · exact not_has_leaf rfl
    · exact not_has_leaf rfl
    · exact not_has_leaf rfl
    · exact not_has_mkNot ih
    · refine not_has_children ?_ (by simpa [children] using ih)
      rintro ⟨_, _, ⟨⟩⟩
      cases (checkUnary_eq_ok.1 hk).1
  | cast k _ h ih =>
    obtain rfl | ⟨d, rfl⟩ | ⟨rfl, hx⟩ := mkCast_eq_ok h
    · exact ih
    · exact not_has_leaf rfl
    · refine not_has_children ?_ (by simpa [children] using ih)
      rintro ⟨_, c, ⟨⟩⟩
      cases hx
  | binary _ _ _ h ihx ihy =>
    obtain ⟨k, -, ⟨c, d, v, -, -, -, rfl⟩ | ⟨l, c, rfl, rfl, rfl⟩ | rfl | rfl⟩ := mkBinary_eq_ok h
    · exact not_has_leaf rfl
    · unfold shortCircuit
      split
      · exact ihy
      · exact ihy
      · exact ihx
      · exact ihx
    · exact not_has_binary ihx ihy
    · unfold Expr.ordered
      split
      · split
        · exact not_has_binary ihy ihx
        · exact not_has_binary ihx ihy
      · exact not_has_binary ihx ihy
  | ret _ h ih =>
    unfold mkReturn at h
    split at h <;> cases h
    exact not_has_children (by rintro ⟨_, _, ⟨⟩⟩) ih
  | call _ h ih =>
    unfold mkCall at h
    repeat' split at h
    all_goals cases h
    exact not_has_children (by rintro ⟨_, _, ⟨⟩⟩) ih

end Folded

end Expr

end JitBackend
