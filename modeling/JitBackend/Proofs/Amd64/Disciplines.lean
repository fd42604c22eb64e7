import JitBackend.Proofs.Amd64.Laws

/-!
# Disciplines

Many laws have the same shape: a computation keeps an invariant of sessions, and what it appends is code of a certain form.
A `Discipline` is such an invariant with such a form. What passes on to sequences of computations does so for all of them
(`Discipline.rules`).
-/

namespace JitBackend.Amd64

open Lower

/-- An invariant of sessions that the end of a scope keeps, and a form of code. -/
structure Discipline where
  Inv : Session → Prop
  Code : List Item → Prop
  nil : Code []
  append : ∀ {a b : List Item}, Code a → Code b → Code (a ++ b)
  release : ∀ {s s₁ : Session}, Inv s → Inv s₁ → Inv (s₁.release s.mark)

namespace Discipline

/-- If the computation stays within `n` stack temporaries, then it keeps the invariant and appends code of the form; its
result satisfies `Q`. -/
def Obeys (D : Discipline) (f : Frame) (n : Nat) {α : Type} (act : Lower α) (Q : α → Prop) : Prop :=
  ∀ ⦃s a s'⦄, Gives f act s a s' → D.Inv s → s'.tempPeak ≤ n → D.Inv s' ∧
    (∃ items, s'.items.toList = s.items.toList ++ items ∧ D.Code items) ∧ Q a

section Obeys

variable {D : Discipline} {f : Frame} {n : Nat} {α β : Type} {act : Lower α} {k : α → Lower β} {P : α → Prop} {Q : β → Prop}

theorem Obeys.bind (h : D.Obeys f n act P) [hw : ∀ a, Widens f (k a)] (hk : ∀ a, P a → D.Obeys f n (k a) Q) :
    D.Obeys f n (act >>= k) Q := by
  intro s b s' hg hinv hpeak
  obtain ⟨a, s₁, h₁, h₂⟩ := hg.bind
  obtain ⟨hinv₁, ⟨i, hi, hci⟩, ha⟩ := h h₁ hinv (((hw a).le h₂).2.trans hpeak)
  obtain ⟨hinv₂, ⟨j, hj, hcj⟩, hb⟩ := hk a ha h₂ hinv₁ hpeak
  exact ⟨hinv₂, ⟨i ++ j, by rw [hj, hi, List.append_assoc], D.append hci hcj⟩, hb⟩

/-- A computation that appends nothing. -/
theorem Obeys.of_eq (h : ∀ {s a s'}, Gives f act s a s' → D.Inv s → s'.tempPeak ≤ n → D.Inv s' ∧ s'.items = s.items ∧ P a) :
    D.Obeys f n act P := by
  intro s a s' hg hinv hpeak
  obtain ⟨hinv', hi, ha⟩ := h hg hinv hpeak
  exact ⟨hinv', ⟨[], by simp [hi], D.nil⟩, ha⟩

end Obeys

/-- The rules of a discipline. -/
def rules (D : Discipline) (f : Frame) (n : Nat) : Rules f where
  Holds := D.Obeys f n
  Allowed _ := True
  mono h hPQ s a s' hg hinv hpeak := (h hg hinv hpeak).imp_right (.imp_right (hPQ a))
  bind h _ hk := h.bind hk
  lift _ := .of_eq fun hg hinv _ => by
    obtain ⟨hx, rfl⟩ := hg.lift
    exact ⟨hinv, rfl, hx⟩
  read := .of_eq fun hg hinv _ => by
    obtain ⟨rfl, rfl⟩ := hg.read
    exact ⟨hinv, rfl, rfl⟩
  get := .of_eq fun hg hinv _ => by
    obtain ⟨log, log', h⟩ := hg
    cases h
    exact ⟨hinv, rfl, trivial⟩
  note e := .of_eq fun hg hinv _ => by
    obtain rfl := hg.note
    exact ⟨hinv, rfl, trivial⟩
  releasing h s a s' hg hinv hpeak := by
    obtain ⟨s₁, h₁, rfl⟩ := hg.releasing
    obtain ⟨hinv₁, hitems, ha⟩ := h h₁ hinv hpeak
    exact ⟨D.release hinv hinv₁, hitems, ha⟩

end Discipline

end JitBackend.Amd64
