import Mathlib.Data.List.Nodup
import Mathlib.Logic.Relation
import Mathlib.Tactic
import JitBackend.Interval

/-!
# Liveness along control flow

A flattened function is a graph: a position leads to the next one unless it leaves the sequence, and a jump leads to
the place of its label. A soft register is live at a position if a path leads from a mention of it through the position
to a mention of it.

* `Interval.close_closed`: a closed interval contains every back edge that it meets;
* `Flat.Path.start_le`, `Flat.Path.stop_lt`: no path leaves such an interval and comes back, so
* `Flat.Live.covered`: the interval of a register covers every position at which the register is live.
-/

namespace JitBackend

/-! ## Closing an interval -/

namespace Interval

theorem covers_iff {iv : Interval} {p : Nat} : iv.covers p = true ↔ iv.start ≤ p ∧ p ≤ iv.stop := by
  simp [covers]

/-- The interval contains every back edge that it meets. -/
def Closed (edges : List BackEdge) (iv : Interval) : Prop :=
  ∀ e ∈ edges, iv.meets e = true → iv.includes e = true

theorem close_closed (edges : List BackEdge) (iv : Interval) : (iv.close edges).Closed edges := by
  fun_induction close edges iv with
  | case1 iv e he hlt ih => exact ih
  | case2 iv hnone =>
    intro e he hm
    have h := List.find?_eq_none.1 hnone e he
    simpa [hm] using h

/-- What closing does to an interval: it keeps the register and only widens. -/
theorem close_widens (edges : List BackEdge) (iv : Interval) :
    (iv.close edges).id = iv.id ∧ (iv.close edges).kind = iv.kind ∧
      (iv.close edges).start ≤ iv.start ∧ iv.stop ≤ (iv.close edges).stop := by
  fun_induction close edges iv with
  | case1 iv e he hlt ih =>
    obtain ⟨h1, h2, h3, h4⟩ := ih
    refine ⟨h1, h2, h3.trans ?_, le_trans ?_ h4⟩
    · exact Nat.min_le_left _ _
    · exact Nat.le_max_left _ _
  | case2 iv hnone => exact ⟨rfl, rfl, le_rfl, le_rfl⟩

theorem covers_close {iv : Interval} {p : Nat} (edges : List BackEdge) (h : iv.covers p = true) :
    (iv.close edges).covers p = true := by
  obtain ⟨-, -, h3, h4⟩ := close_widens edges iv
  obtain ⟨h1, h2⟩ := covers_iff.1 h
  exact covers_iff.2 ⟨h3.trans h1, h2.trans h4⟩

end Interval

/-! ## Mentions -/

/-- The intervals after one more mention of a register. -/
def touch (ivs : List Interval) (t : Reg × Nat) : List Interval :=
  match t.1.id with
  | .soft id => mention ivs id t.1.kind t.2
  | .hard _ => ivs

namespace Flat

/-- Every mention of a register with its position: the parameters at the entry, then those of the code. -/
def touches (f : Flat) : List (Reg × Nat) :=
  f.func.params.map (·, 0) ++ f.positions.flatMap fun ep => ep.1.regs.map (·, ep.2)

/-- The soft register `id` is mentioned at position `p`. -/
def Mentioned (f : Flat) (id p : Nat) : Prop := ∃ r : Reg, r.id = .soft id ∧ (r, p) ∈ f.touches

theorem mentions_eq (f : Flat) : f.mentions = f.touches.foldl touch [] := by
  have hregs : ∀ (p : Nat) (rs : List Reg) (ivs : List Interval),
      mentionRegs p ivs rs = (rs.map (·, p)).foldl touch ivs := by
    intro p rs ivs
    rw [mentionRegs, List.foldl_map]
    rfl
  have hcode : ∀ (eps : List (Expr × Nat)) (ivs : List Interval),
      eps.foldl (fun ivs ep => mentionRegs ep.2 ivs ep.1.regs) ivs =
        (eps.flatMap fun ep => ep.1.regs.map (·, ep.2)).foldl touch ivs := by
    intro eps
    induction eps with
    | nil => intro ivs; rfl
    | cons ep eps ih => intro ivs; rw [List.foldl_cons, List.flatMap_cons, List.foldl_append, ih, hregs]
  rw [mentions, touches, List.foldl_append, ← hregs, ← hcode]

end Flat

/-- Some interval of the register `id` covers `p`. -/
def Spanned (ivs : List Interval) (id p : Nat) : Prop := ∃ iv ∈ ivs, iv.id = id ∧ iv.covers p = true

theorem ids_mention (ivs : List Interval) (id : Nat) (k : Kind) (p : Nat) :
    (mention ivs id k p).map (·.id) = if id ∈ ivs.map (·.id) then ivs.map (·.id) else ivs.map (·.id) ++ [id] := by
  unfold mention
  by_cases h : id ∈ ivs.map (·.id)
  · have hany : ivs.any (·.id = id) = true := by
      obtain ⟨iv, hiv, rfl⟩ := List.mem_map.1 h
      exact List.any_eq_true.2 ⟨iv, hiv, by simp⟩
    rw [if_pos hany, if_pos h, List.map_map]
    refine List.map_congr_left fun iv _ => ?_
    simp only [Function.comp_apply]
    split <;> rfl
  · have hany : ivs.any (·.id = id) ≠ true := by
      intro hc
      obtain ⟨iv, hiv, he⟩ := List.any_eq_true.1 hc
      exact h (List.mem_map.2 ⟨iv, hiv, by simpa using he⟩)
    rw [if_neg hany, if_neg h, List.map_append]
    rfl

theorem spanned_mention_self (ivs : List Interval) (id : Nat) (k : Kind) (p : Nat) :
    Spanned (mention ivs id k p) id p := by
  unfold mention
  split
  · rename_i h
    obtain ⟨iv, hiv, he⟩ := List.any_eq_true.1 h
    have he : iv.id = id := by simpa using he
    refine ⟨_, List.mem_map.2 ⟨iv, hiv, rfl⟩, ?_⟩
    rw [if_pos he]
    exact ⟨he, Interval.covers_iff.2 ⟨Nat.min_le_right _ _, Nat.le_max_right _ _⟩⟩
  · exact ⟨⟨id, k, p, p⟩, by simp, rfl, Interval.covers_iff.2 ⟨le_rfl, le_rfl⟩⟩

theorem Spanned.mention {ivs : List Interval} {id p : Nat} (h : Spanned ivs id p) (id' : Nat) (k : Kind) (p' : Nat) :
    Spanned (mention ivs id' k p') id p := by
  obtain ⟨iv, hiv, rfl, hp⟩ := h
  obtain ⟨h1, h2⟩ := Interval.covers_iff.1 hp
  unfold JitBackend.mention
  split
  · refine ⟨_, List.mem_map.2 ⟨iv, hiv, rfl⟩, ?_⟩
    split
    · exact ⟨rfl, Interval.covers_iff.2 ⟨(Nat.min_le_left _ _).trans h1, h2.trans (Nat.le_max_left _ _)⟩⟩
    · exact ⟨rfl, hp⟩
  · exact ⟨iv, List.mem_append_left _ hiv, rfl, hp⟩

/-- What noting mentions keeps true of the intervals: one for each register, each with the kind of a mention. -/
structure Noted (ts : List (Reg × Nat)) (ivs : List Interval) : Prop where
  nodup : (ivs.map (·.id)).Nodup
  spans : ∀ t ∈ ts, ∀ id, t.1.id = .soft id → Spanned ivs id t.2
  source : ∀ iv ∈ ivs, ∃ t ∈ ts, t.1.id = .soft iv.id ∧ t.1.kind = iv.kind
  ordered : ∀ iv ∈ ivs, iv.start ≤ iv.stop

theorem Noted.mention {ts : List (Reg × Nat)} {ivs : List Interval} (h : Noted ts ivs) {r : Reg} {id : Nat}
    (hr : r.id = .soft id) (p : Nat) : Noted (ts ++ [(r, p)]) (mention ivs id r.kind p) := by
  refine ⟨?_, ?_, ?_, ?_⟩
  · rw [ids_mention]
    split
    · exact h.nodup
    · rename_i hn
      exact List.nodup_append.2 ⟨h.nodup, by simp, by
        intro a ha b hb hab
        rw [List.mem_singleton] at hb
        exact hn (hb ▸ hab ▸ ha)⟩
  · intro t ht id' hid'
    rcases List.mem_append.1 ht with ht | ht
    · exact (h.spans t ht id' hid').mention id r.kind p
    · rw [List.mem_singleton] at ht
      subst ht
      obtain rfl : id = id' := by simpa [hr] using hid'
      exact spanned_mention_self ivs id r.kind p
  · intro iv hiv
    unfold JitBackend.mention at hiv
    split at hiv
    · obtain ⟨jv, hjv, rfl⟩ := List.mem_map.1 hiv
      obtain ⟨t, ht, h1, h2⟩ := h.source jv hjv
      refine ⟨t, List.mem_append_left _ ht, ?_⟩
      split <;> exact ⟨h1, h2⟩
    · rcases List.mem_append.1 hiv with hiv | hiv
      · obtain ⟨t, ht, h1, h2⟩ := h.source iv hiv
        exact ⟨t, List.mem_append_left _ ht, h1, h2⟩
      · rw [List.mem_singleton] at hiv
        subst hiv
        exact ⟨(r, p), by simp, hr, rfl⟩
  · intro iv hiv
    unfold JitBackend.mention at hiv
    split at hiv
    · obtain ⟨jv, hjv, rfl⟩ := List.mem_map.1 hiv
      have := h.ordered jv hjv
      split
      · exact (Nat.min_le_left _ _).trans (this.trans (Nat.le_max_left _ _))
      · exact this
    · rcases List.mem_append.1 hiv with hiv | hiv
      · exact h.ordered iv hiv
      · rw [List.mem_singleton] at hiv
        subst hiv
        exact le_rfl

theorem noted_foldl (ts us : List (Reg × Nat)) (ivs : List Interval) (h : Noted us ivs) :
    Noted (us ++ ts) (ts.foldl touch ivs) := by
  induction ts generalizing us ivs with
  | nil => simpa using h
  | cons t ts ih =>
    rw [List.foldl_cons, show us ++ t :: ts = (us ++ [t]) ++ ts by simp]
    refine ih _ _ ?_
    obtain ⟨r, p⟩ := t
    cases hr : r.id with
    | soft id => simpa only [touch, hr] using h.mention hr p
    | hard hd =>
      simp only [touch, hr]
      refine ⟨h.nodup, ?_, ?_, h.ordered⟩
      · intro t ht id hid
        rcases List.mem_append.1 ht with ht | ht
        · exact h.spans t ht id hid
        · rw [List.mem_singleton] at ht
          subst ht
          simp [hr] at hid
      · intro iv hiv
        obtain ⟨t, ht, h1, h2⟩ := h.source iv hiv
        exact ⟨t, List.mem_append_left _ ht, h1, h2⟩

namespace Flat

theorem noted_mentions (f : Flat) : Noted f.touches f.mentions := by
  have h0 : Noted [] [] := ⟨by simp, by simp, by simp, by simp⟩
  simpa [mentions_eq] using noted_foldl f.touches [] [] h0

/-- The intervals of a function have what its mentions have, and are closed. -/
theorem noted_intervals (f : Flat) : Noted f.touches f.intervals := by
  have h := f.noted_mentions
  refine ⟨?_, ?_, ?_, ?_⟩
  · have : f.intervals.map (·.id) = f.mentions.map (·.id) := by
      rw [intervals, List.map_map]
      exact List.map_congr_left fun iv _ => (Interval.close_widens f.backEdges iv).1
    rw [this]
    exact h.nodup
  · intro t ht id hid
    obtain ⟨iv, hiv, rfl, hp⟩ := h.spans t ht id hid
    exact ⟨_, List.mem_map.2 ⟨iv, hiv, rfl⟩, (Interval.close_widens f.backEdges iv).1, Interval.covers_close _ hp⟩
  · intro iv hiv
    obtain ⟨jv, hjv, rfl⟩ := List.mem_map.1 hiv
    obtain ⟨h1, h2, -, -⟩ := Interval.close_widens f.backEdges jv
    rw [h1, h2]
    exact h.source jv hjv
  · intro iv hiv
    obtain ⟨jv, hjv, rfl⟩ := List.mem_map.1 hiv
    obtain ⟨-, -, h3, h4⟩ := Interval.close_widens f.backEdges jv
    exact h3.trans ((h.ordered jv hjv).trans h4)

theorem intervals_closed {f : Flat} {iv : Interval} (h : iv ∈ f.intervals) : iv.Closed f.backEdges := by
  obtain ⟨jv, -, rfl⟩ := List.mem_map.1 h
  exact Interval.close_closed f.backEdges jv

/-! ## Control flow -/

/-- Whether the position after an expression can follow it: not after a jump or a return. -/
def fallsThrough : Expr → Bool
  | .unary .jump _ _ | .ret _ => false
  | _ => true

/-- One position leads to another. -/
inductive Edge (f : Flat) : Nat → Nat → Prop
  | entry : Edge f 0 1
  | next {i : Nat} {e : Expr} (he : f.code[i]? = some e) (hf : fallsThrough e = true) : Edge f (i + 1) (i + 2)
  | jump {i j : Nat} {e : Expr} {l : Label} (he : f.code[i]? = some e) (hl : jumpTarget e = some l)
      (hj : f.code[j]? = some (.label l)) : Edge f (i + 1) (j + 1)

/-- A path of any length. -/
abbrev Path (f : Flat) : Nat → Nat → Prop := Relation.ReflTransGen f.Edge

/-- Some path leads from a mention of the soft register `id` through `p` to a mention of it. -/
def Live (f : Flat) (id p : Nat) : Prop :=
  ∃ a b, f.Mentioned id a ∧ f.Path a p ∧ f.Path p b ∧ f.Mentioned id b

/-- Every label is placed at most once. -/
def LabelsOnce (f : Flat) : Prop :=
  ∀ (i j : Nat) (l : Label), f.code[i]? = some (Expr.label l) → f.code[j]? = some (Expr.label l) → i = j

theorem mem_positions {f : Flat} {e : Expr} {p : Nat} :
    (e, p) ∈ f.positions ↔ 1 ≤ p ∧ f.code[p - 1]? = some e := by
  rw [positions, List.mem_zipIdx_iff_le_and_getElem?_sub]
  simp

theorem labelPosition_eq {f : Flat} (h : f.LabelsOnce) {j : Nat} {l : Label} (hj : f.code[j]? = some (.label l)) :
    f.labelPosition l = some (j + 1) := by
  have hall : ∀ ep ∈ f.positions, ep.1 = .label l → ep.2 = j + 1 := by
    rintro ⟨e, p⟩ hep rfl
    obtain ⟨hp, he⟩ := mem_positions.1 hep
    have := h _ _ _ he hj
    omega
  have hmem : (Expr.label l, j + 1) ∈ f.positions := mem_positions.2 ⟨by omega, by simpa using hj⟩
  -- the fold keeps what it has found, since every later find is the same position
  have hfold : ∀ (eps : List (Expr × Nat)) (found : Option Nat), (∀ ep ∈ eps, ep.1 = .label l → ep.2 = j + 1) →
      (found = some (j + 1) ∨ (Expr.label l, j + 1) ∈ eps) →
      eps.foldl (fun found ep => if ep.1 = .label l then some ep.2 else found) found = some (j + 1) := by
    intro eps
    induction eps with
    | nil => intro found _ hf; simpa using hf
    | cons ep eps ih =>
      intro found hall hf
      rw [List.foldl_cons]
      refine ih _ (fun d hd => hall d (List.mem_cons_of_mem _ hd)) ?_
      by_cases he : ep.1 = .label l
      · left
        rw [if_pos he, hall ep List.mem_cons_self he]
      · rw [if_neg he]
        rcases hf with hf | hf
        · exact Or.inl hf
        · rcases List.mem_cons.1 hf with rfl | hf
          · exact absurd rfl he
          · exact Or.inr hf
  exact hfold f.positions none hall (Or.inr hmem)

/-- An edge leads forward, or it is a back edge. -/
theorem Edge.forward_or_back {f : Flat} (h : f.LabelsOnce) {p q : Nat} (hpq : f.Edge p q) :
    p < q ∨ ⟨q, p⟩ ∈ f.backEdges := by
  cases hpq with
  | entry => left; omega
  | next he hf => left; omega
  | @jump i j e l he hl hj =>
    by_cases hlt : i + 1 < j + 1
    · exact Or.inl hlt
    · right
      refine List.mem_filterMap.2 ⟨(e, i + 1), mem_positions.2 ⟨by omega, by simpa using he⟩, ?_⟩
      simp only [hl, labelPosition_eq h hj, Option.bind_eq_bind, Option.bind_some]
      rw [if_pos (by omega)]

section Closed

variable {f : Flat} {iv : Interval} (hl : f.LabelsOnce) (hc : iv.Closed f.backEdges) (ho : iv.start ≤ iv.stop)
include hl hc ho

/-- A path that is not before a closed interval never gets before it. -/
theorem Path.start_le {p q : Nat} (h : f.Path p q) (hp : iv.start ≤ p) : iv.start ≤ q := by
  induction h with
  | refl => exact hp
  | @tail b c _ hbc ih =>
    rcases hbc.forward_or_back hl with hlt | hback
    · omega
    · by_contra hn
      have hm : iv.meets ⟨c, b⟩ = true := by simp [Interval.meets]; omega
      have hi := Interval.includes_iff.1 (hc _ hback hm)
      simp at hi
      omega

/-- A path that is behind a closed interval stays behind it. -/
theorem Path.stop_lt {p q : Nat} (h : f.Path p q) (hp : iv.stop < p) : iv.stop < q := by
  induction h with
  | refl => exact hp
  | @tail b c _ hbc ih =>
    rcases hbc.forward_or_back hl with hlt | hback
    · omega
    · by_contra hn
      have hm : iv.meets ⟨c, b⟩ = true := by simp [Interval.meets]; omega
      have hi := Interval.includes_iff.1 (hc _ hback hm)
      simp at hi
      omega

end Closed

/-- The interval of a register covers every position at which the register is live. -/
theorem Live.covered {f : Flat} (hl : f.LabelsOnce) {id p : Nat} (h : f.Live id p) :
    ∃ iv ∈ f.intervals, iv.id = id ∧ iv.covers p = true := by
  obtain ⟨a, b, ⟨r, hr, hra⟩, hap, hpb, ⟨r', hr', hrb⟩⟩ := h
  obtain ⟨iv, hiv, rfl, ha⟩ := f.noted_intervals.spans _ hra id hr
  obtain ⟨jv, hjv, hid, hb⟩ := f.noted_intervals.spans _ hrb _ hr'
  obtain rfl : jv = iv := List.inj_on_of_nodup_map f.noted_intervals.nodup hjv hiv hid
  have hcl := intervals_closed hiv
  have hord := f.noted_intervals.ordered _ hiv
  have ha := Interval.covers_iff.1 ha
  have hb := Interval.covers_iff.1 hb
  refine ⟨jv, hiv, rfl, Interval.covers_iff.2 ⟨hap.start_le hl hcl hord ha.1, ?_⟩⟩
  by_contra hn
  have := hpb.stop_lt hl hcl hord (by omega)
  omega

end Flat

end JitBackend
