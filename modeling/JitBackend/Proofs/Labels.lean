import Mathlib.Tactic
import JitBackend.Expr.Build

/-!
# Labels in a sequence of expressions

Flattened code and selected code are sequences in which labels stand between other expressions. A jump goes on behind
its label, which is one place if the label is placed once (`behind_of_suffix`). New labels get the next numbers, so
the labels of a piece of code made from numbers `m` up to `n` are apart from those made before and after (`Fresh`).
-/

namespace JitBackend

open JitBackend.Expr (jumpTo)

/-- A conditional jump. -/
def jumpIf (l : Label) (c : Expr) : Expr := .binary .jumpIf .void (.label l) c

/-- The code behind the first place of a label. -/
def behind (l : Label) : List Expr → Option (List Expr)
  | [] => none
  | e :: rest => if e = .label l then some rest else behind l rest

/-- The labels placed in a piece of code. -/
def placed (code : List Expr) : List Label := code.filterMap fun
  | .label l => some l
  | _ => none

@[simp] theorem placed_append (a b : List Expr) : placed (a ++ b) = placed a ++ placed b := List.filterMap_append

@[simp] theorem placed_nil : placed [] = [] := rfl

@[simp] theorem placed_label (l : Label) (k : List Expr) : placed (.label l :: k) = l :: placed k := rfl

@[simp] theorem placed_jumpTo (l : Label) (k : List Expr) : placed (jumpTo l :: k) = placed k := rfl

@[simp] theorem placed_jumpIf (l : Label) (c : Expr) (k : List Expr) : placed (jumpIf l c :: k) = placed k := rfl

theorem behind_append {l : Label} {pre rest : List Expr} (hnd : (placed (pre ++ .label l :: rest)).Nodup) :
    behind l (pre ++ .label l :: rest) = some rest := by
  induction pre with
  | nil => simp [behind]
  | cons e pre ih =>
    rw [List.cons_append, behind]
    have hsub : (placed (pre ++ .label l :: rest)).Sublist (placed (e :: (pre ++ .label l :: rest))) :=
      (List.sublist_cons_self _ _).filterMap _
    split
    · rename_i he
      subst he
      simp at hnd
    · exact ih (hnd.sublist hsub)

/-- Where every label is placed once, a jump leads behind the label. -/
theorem behind_of_suffix {code rest : List Expr} {l : Label} (hnd : (placed code).Nodup)
    (h : (.label l :: rest) <:+ code) : behind l code = some rest := by
  obtain ⟨pre, rfl⟩ := h
  exact behind_append hnd

/-! ## Numbers of new labels -/

theorem perm_interleave (a b c : List Label) (l : Label) : (a ++ l :: (b ++ c)).Perm (l :: c ++ (a ++ b)) := by
  rw [List.perm_iff_count]
  intro l'
  simp only [List.count_append, List.count_cons]
  omega

/-- The labels placed in `k` have numbers from `m` up to `n`, and each number is placed once. -/
structure Fresh (m n : Nat) (k : List Expr) : Prop where
  count : (placed k).length + m = n
  range : ∀ l ∈ placed k, m ≤ l.index ∧ l.index < n
  once : (placed k).Nodup

namespace Fresh

variable {m m' n : Nat} {k k' : List Expr}

theorem le (h : Fresh m n k) : m ≤ n := by
  have := h.count
  omega

theorem of_placed_nil (hm : m = n) (h : placed k = []) : Fresh m n k := ⟨by simpa [h] using hm, by simp [h], by simp [h]⟩

theorem append (h : Fresh m m' k) (h' : Fresh m' n k') : Fresh m n (k ++ k') := by
  have hle := h.le
  have hle' := h'.le
  refine ⟨?_, ?_, ?_⟩
  · have := h.count
    have := h'.count
    rw [placed_append, List.length_append]
    omega
  · intro l hl
    rw [placed_append, List.mem_append] at hl
    rcases hl with hl | hl
    · have := h.range l hl
      omega
    · have := h'.range l hl
      omega
  · rw [placed_append, List.nodup_append]
    refine ⟨h.once, h'.once, ?_⟩
    rintro l hl l' hl' rfl
    have := h.range l hl
    have := h'.range l hl'
    omega

/-- Labels issued before the code of the parts may be placed anywhere between them. -/
theorem issue (h : Fresh m' n k) (ls : List Label) (hperm : (placed k').Perm (ls ++ placed k)) (hm : ls.length + m = m')
    (hls : ls.Nodup) (hrange : ∀ l ∈ ls, m ≤ l.index ∧ l.index < m') : Fresh m n k' := by
  have hle := h.le
  refine ⟨?_, ?_, ?_⟩
  · have := h.count
    rw [hperm.length_eq, List.length_append]
    omega
  · intro l hl
    rw [hperm.mem_iff, List.mem_append] at hl
    rcases hl with hl | hl
    · have := hrange l hl
      omega
    · have := h.range l hl
      omega
  · rw [hperm.nodup_iff, List.nodup_append]
    refine ⟨hls, h.once, ?_⟩
    rintro l hl l' hl' rfl
    have := hrange l hl
    have := h.range l hl'
    omega

end Fresh

end JitBackend
