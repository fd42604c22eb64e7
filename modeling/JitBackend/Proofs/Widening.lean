import JitBackend.Proofs.Liveness

/-!
# Widening to the least closed intervals

The intervals of a function start as the smallest ones around the mentions of its registers. Widening them is a loop: a
pass takes each interval to each back edge that it meets, and passes are repeated until one changes nothing (`Settles`).

* `Interval.close_within`: `Interval.close` is the least interval around a given one that contains every back edge that
  it meets, so it does not depend on the order of the back edges;
* `Interval.close_absorb`: taking in a back edge does not change that interval, so the loop ends there (`settles_close`);
* `Flat.intervals_least`: for each register the loop ends with the least interval around its mentions.
-/

namespace JitBackend

namespace Interval

/-! ## The least closed interval -/

/-- `iv` lies within `jv`, and both are of one register. -/
structure Within (iv jv : Interval) : Prop where
  id : iv.id = jv.id
  kind : iv.kind = jv.kind
  start : jv.start ≤ iv.start
  stop : iv.stop ≤ jv.stop

section Within

variable {iv jv kv : Interval} {e : BackEdge} {edges edges' : List BackEdge}

theorem Within.trans (h : iv.Within jv) (h' : jv.Within kv) : iv.Within kv :=
  ⟨h.id.trans h'.id, h.kind.trans h'.kind, h'.start.trans h.start, h.stop.trans h'.stop⟩

theorem Within.antisymm (h : iv.Within jv) (h' : jv.Within iv) : iv = jv := by
  obtain ⟨i, k, s, t⟩ := iv
  obtain ⟨i', k', s', t'⟩ := jv
  obtain ⟨rfl, rfl, h₁, h₂⟩ : i = i' ∧ k = k' ∧ s' ≤ s ∧ t ≤ t' := ⟨h.id, h.kind, h.start, h.stop⟩
  obtain ⟨h₃, h₄⟩ : s ≤ s' ∧ t' ≤ t := ⟨h'.start, h'.stop⟩
  obtain rfl : s = s' := by omega
  obtain rfl : t = t' := by omega
  rfl

theorem meets_iff : iv.meets e = true ↔ iv.start ≤ e.bottom ∧ e.top ≤ iv.stop := by
  simp [meets]

theorem Within.meets (h : iv.Within jv) (hm : iv.meets e = true) : jv.meets e = true := by
  obtain ⟨h₁, h₂⟩ := meets_iff.1 hm
  exact meets_iff.2 ⟨h.start.trans h₁, h₂.trans h.stop⟩

theorem within_widen (iv : Interval) (e : BackEdge) : iv.Within (iv.widen e) :=
  ⟨rfl, rfl, Nat.min_le_left _ _, Nat.le_max_left _ _⟩

/-- A closed interval around `iv` is one around what `iv` becomes. -/
theorem Within.widen (h : iv.Within jv) (hj : jv.Closed edges) (he : e ∈ edges) (hm : iv.meets e = true) :
    (iv.widen e).Within jv := by
  obtain ⟨h₁, h₂⟩ := includes_iff.1 (hj e he (h.meets hm))
  exact ⟨h.id, h.kind, Nat.le_min.2 ⟨h.start, h₁⟩, Nat.max_le.2 ⟨h.stop, h₂⟩⟩

theorem within_close (edges : List BackEdge) (iv : Interval) : iv.Within (iv.close edges) := by
  obtain ⟨h₁, h₂, h₃, h₄⟩ := close_widens edges iv
  exact ⟨h₁.symm, h₂.symm, h₃, h₄⟩

/-- No closed interval around `iv` is smaller than the one that closing gives. -/
theorem close_within (h : iv.Within jv) (hj : jv.Closed edges) : (iv.close edges).Within jv := by
  fun_induction close edges iv with
  | case1 iv e hfind _ ih =>
    have hcut := List.find?_some hfind
    simp only [Bool.and_eq_true] at hcut
    exact ih (h.widen hj (List.mem_of_find?_eq_some hfind) hcut.1)
  | case2 iv _ => exact h

theorem Closed.congr (h : iv.Closed edges) (hmem : ∀ e, e ∈ edges' → e ∈ edges) : iv.Closed edges' :=
  fun e he => h e (hmem e he)

theorem Closed.close_eq (h : iv.Closed edges) : iv.close edges = iv :=
  (close_within ⟨rfl, rfl, le_rfl, le_rfl⟩ h).antisymm (within_close edges iv)

/-- The order of the back edges does not matter. -/
theorem close_congr (hmem : ∀ e, e ∈ edges ↔ e ∈ edges') (iv : Interval) : iv.close edges = iv.close edges' :=
  (close_within (within_close edges' iv) ((close_closed edges' iv).congr fun e => (hmem e).1)).antisymm
    (close_within (within_close edges iv) ((close_closed edges iv).congr fun e => (hmem e).2))

end Within

/-! ## One back edge -/

/-- Whether the interval meets the back edge without containing it. -/
def cuts (iv : Interval) (e : BackEdge) : Bool := iv.meets e && !iv.includes e

/-- The interval widened by the back edge if it cuts it. -/
def absorb (iv : Interval) (e : BackEdge) : Interval := if iv.cuts e then iv.widen e else iv

section Absorb

variable {iv : Interval} {e : BackEdge} {edges : List BackEdge}

theorem absorb_of_not_cuts (h : iv.cuts e = false) : iv.absorb e = iv := by
  rw [absorb, if_neg (by simp [h])]

theorem close_absorb (he : e ∈ edges) (iv : Interval) : (iv.absorb e).close edges = iv.close edges := by
  unfold absorb
  split
  · rename_i hcut
    simp only [cuts, Bool.and_eq_true] at hcut
    have hclosed := close_closed edges iv
    refine (close_within ((within_close edges iv).widen hclosed he hcut.1) hclosed).antisymm ?_
    exact close_within ((within_widen iv e).trans (within_close edges _)) (close_closed edges _)
  · rfl

theorem closed_of_not_cuts (h : ∀ e ∈ edges, iv.cuts e = false) : iv.Closed edges := by
  intro e he hm
  simpa [cuts, hm] using h e he

theorem outside_absorb_le (edges : List BackEdge) (iv : Interval) (e : BackEdge) :
    outside edges (iv.absorb e) ≤ outside edges iv := by
  unfold absorb
  split
  · exact outside_widen_le edges iv e
  · exact le_rfl

theorem outside_absorb_lt (he : e ∈ edges) (h : iv.cuts e = true) : outside edges (iv.absorb e) < outside edges iv := by
  rw [absorb, if_pos h]
  simp only [cuts, Bool.and_eq_true, Bool.not_eq_true'] at h
  exact outside_widen_lt he h.2

end Absorb

/-! ## Passes -/

/-- One pass: every interval is taken to every back edge; and whether one was widened. -/
def pass : List BackEdge → List Interval → List Interval × Bool
  | [], ivs => (ivs, false)
  | e :: edges, ivs =>
    ((pass edges (ivs.map (·.absorb e))).1, ivs.any (·.cuts e) || (pass edges (ivs.map (·.absorb e))).2)

/-- Passes are repeated until one widens no interval: after `n` of them, the intervals `ivs` have become `out`. -/
inductive Settles (edges : List BackEdge) : Nat → List Interval → List Interval → Prop
  | done {ivs : List Interval} (h : (pass edges ivs).2 = false) : Settles edges 1 ivs (pass edges ivs).1
  | again {n : Nat} {ivs out : List Interval} (h : (pass edges ivs).2 = true)
      (hrest : Settles edges n (pass edges ivs).1 out) :
      Settles edges (n + 1) ivs out

/-- How many back edges are outside of intervals, counted for each of them. -/
def debt (edges : List BackEdge) (ivs : List Interval) : Nat := (ivs.map (outside edges)).sum

section Pass

variable {e : BackEdge} {edges all : List BackEdge} {ivs : List Interval}

theorem map_absorb_of_not_cuts (h : ivs.any (·.cuts e) = false) : ivs.map (·.absorb e) = ivs := by
  refine (List.map_congr_left fun iv hiv => ?_).trans (List.map_id ivs)
  exact absorb_of_not_cuts (by simpa using List.any_eq_false.1 h iv hiv)

/-- A pass that widens no interval finds all of them closed. -/
theorem pass_eq_of_unchanged (h : (pass edges ivs).2 = false) :
    (pass edges ivs).1 = ivs ∧ ∀ iv ∈ ivs, ∀ e ∈ edges, iv.cuts e = false := by
  induction edges generalizing ivs with
  | nil => exact ⟨rfl, by simp⟩
  | cons e edges ih =>
    simp only [pass, Bool.or_eq_false_iff] at h ⊢
    have hsame := map_absorb_of_not_cuts h.1
    rw [hsame] at h ⊢
    obtain ⟨hpass, hall⟩ := ih h.2
    refine ⟨hpass, fun iv hiv => List.forall_mem_cons.2 ⟨?_, hall iv hiv⟩⟩
    simpa using List.any_eq_false.1 h.1 iv hiv

/-- A pass does not change the closed intervals. -/
theorem map_close_pass (hall : ∀ e ∈ edges, e ∈ all) (ivs : List Interval) :
    (pass edges ivs).1.map (close all) = ivs.map (close all) := by
  induction edges generalizing ivs with
  | nil => rfl
  | cons e edges ih =>
    obtain ⟨he, hrest⟩ := List.forall_mem_cons.1 hall
    rw [pass, ih hrest, List.map_map]
    exact List.map_congr_left fun iv _ => close_absorb he iv

theorem debt_absorb_le (all : List BackEdge) (ivs : List Interval) (e : BackEdge) :
    debt all (ivs.map (·.absorb e)) ≤ debt all ivs := by
  rw [debt, List.map_map]
  exact List.sum_le_sum fun iv _ => outside_absorb_le all iv e

theorem debt_absorb_lt (he : e ∈ all) (h : ivs.any (·.cuts e) = true) :
    debt all (ivs.map (·.absorb e)) < debt all ivs := by
  obtain ⟨iv, hiv, hcut⟩ := List.any_eq_true.1 h
  rw [debt, List.map_map]
  exact List.sum_lt_sum _ _ (fun jv _ => outside_absorb_le all jv e) ⟨iv, hiv, outside_absorb_lt he hcut⟩

theorem debt_pass_le (all edges : List BackEdge) (ivs : List Interval) : debt all (pass edges ivs).1 ≤ debt all ivs := by
  induction edges generalizing ivs with
  | nil => exact le_rfl
  | cons e edges ih => exact (ih _).trans (debt_absorb_le all ivs e)

theorem debt_pass_lt (hall : ∀ e ∈ edges, e ∈ all) (h : (pass edges ivs).2 = true) :
    debt all (pass edges ivs).1 < debt all ivs := by
  induction edges generalizing ivs with
  | nil => cases h
  | cons e edges ih =>
    obtain ⟨he, hrest⟩ := List.forall_mem_cons.1 hall
    rw [pass, Bool.or_eq_true] at h
    rcases h with h | h
    · exact (debt_pass_le all edges _).trans_lt (debt_absorb_lt he h)
    · exact (ih hrest h).trans_le (debt_absorb_le all ivs e)

theorem debt_le (edges : List BackEdge) (ivs : List Interval) : debt edges ivs ≤ ivs.length * edges.length := by
  have h := List.sum_le_card_nsmul (ivs.map (outside edges)) edges.length fun n hn => by
    obtain ⟨iv, -, rfl⟩ := List.mem_map.1 hn
    exact List.countP_le_length
  simpa [debt] using h

/-- The loop ends, with every interval closed. -/
theorem settles_close (edges : List BackEdge) (ivs : List Interval) :
    ∃ n ≤ debt edges ivs + 1, Settles edges n ivs (ivs.map (close edges)) := by
  -- each pass but the last one lets some interval take in a back edge for good
  induction hd : debt edges ivs using Nat.strong_induction_on generalizing ivs with
  | _ d ih =>
    cases hpass : (pass edges ivs).2 with
    | true =>
      have hlt := debt_pass_lt (fun _ h => h) hpass
      obtain ⟨n, hn, hsettles⟩ := ih _ (hd ▸ hlt) _ rfl
      rw [map_close_pass fun _ h => h] at hsettles
      exact ⟨n + 1, by omega, .again hpass hsettles⟩
    | false =>
      obtain ⟨hsame, hcuts⟩ := pass_eq_of_unchanged hpass
      have hclosed : ivs.map (close edges) = (pass edges ivs).1 := by
        rw [hsame]
        exact (List.map_congr_left fun iv hiv => (closed_of_not_cuts (hcuts iv hiv)).close_eq).trans (List.map_id ivs)
      exact ⟨1, by omega, hclosed ▸ .done hpass⟩

end Pass

end Interval

/-! ## Mentions -/

/-- The ends of each interval are mentions of its register. -/
def Tight (ts : List (Reg × Nat)) (ivs : List Interval) : Prop :=
  ∀ iv ∈ ivs, ∀ p, p = iv.start ∨ p = iv.stop → ∃ t ∈ ts, t.1.id = .soft iv.id ∧ t.2 = p

theorem Tight.mono {ts us : List (Reg × Nat)} {ivs : List Interval} (h : Tight ts ivs) (hsub : ∀ t ∈ ts, t ∈ us) :
    Tight us ivs := by
  intro iv hiv p hp
  obtain ⟨t, ht, hid⟩ := h iv hiv p hp
  exact ⟨t, hsub t ht, hid⟩

theorem Tight.mention {ts : List (Reg × Nat)} {ivs : List Interval} (h : Tight ts ivs) {r : Reg} {id : Nat}
    (hr : r.id = .soft id) (q : Nat) : Tight (ts ++ [(r, q)]) (mention ivs id r.kind q) := by
  have hold : Tight (ts ++ [(r, q)]) ivs := h.mono fun t ht => List.mem_append_left _ ht
  have hnew : ∃ t ∈ ts ++ [(r, q)], t.1.id = .soft id ∧ t.2 = q := ⟨(r, q), by simp, hr, rfl⟩
  unfold JitBackend.mention
  split
  · intro iv hiv p hp
    obtain ⟨jv, hjv, rfl⟩ := List.mem_map.1 hiv
    split at hp
    · rename_i hid
      rw [if_pos hid]
      -- an end of the interval stays, or moves to the new mention
      have hcases : p = jv.start ∨ p = jv.stop ∨ p = q := by
        dsimp only at hp
        omega
      rcases hcases with hp | hp | rfl
      · exact hold jv hjv p (.inl hp)
      · exact hold jv hjv p (.inr hp)
      · exact hid ▸ hnew
    · rename_i hid
      rw [if_neg hid]
      exact hold jv hjv p hp
  · intro iv hiv p hp
    rcases List.mem_append.1 hiv with hiv | hiv
    · exact hold iv hiv p hp
    · obtain rfl := List.mem_singleton.1 hiv
      obtain rfl : p = q := hp.elim (fun h => h) fun h => h
      exact hnew

theorem tight_foldl (ts us : List (Reg × Nat)) {ivs : List Interval} (h : Tight us ivs) :
    Tight (us ++ ts) (ts.foldl touch ivs) := by
  induction ts generalizing us ivs with
  | nil => simpa using h
  | cons t ts ih =>
    rw [List.foldl_cons, show us ++ t :: ts = (us ++ [t]) ++ ts by simp]
    refine ih _ ?_
    obtain ⟨r, p⟩ := t
    cases hr : r.id with
    | soft id => simpa only [touch, hr] using h.mention hr p
    | hard hd =>
      simp only [touch, hr]
      exact h.mono fun t ht => List.mem_append_left _ ht

/-! ## The intervals of a function -/

namespace Flat

/-- From `s` to `t` lie all mentions of the register `id`, and every back edge that meets these positions. -/
structure Encloses (f : Flat) (id s t : Nat) : Prop where
  mentions : ∀ p, f.Mentioned id p → s ≤ p ∧ p ≤ t
  edges : ∀ e ∈ f.backEdges, s ≤ e.bottom → e.top ≤ t → s ≤ e.top ∧ e.bottom ≤ t

variable {f : Flat}

theorem mentioned_of_end {iv : Interval} (hiv : iv ∈ f.mentions) {p : Nat} (hp : p = iv.start ∨ p = iv.stop) :
    f.Mentioned iv.id p := by
  have htight : Tight f.touches f.mentions := by
    have hnone : Tight [] [] := by simp [Tight]
    simpa [mentions_eq] using tight_foldl f.touches [] hnone
  obtain ⟨⟨r, q⟩, ht, hid, rfl⟩ := htight iv hiv p hp
  exact ⟨r, hid, ht⟩

theorem encloses_of_mem {iv : Interval} (hiv : iv ∈ f.intervals) : f.Encloses iv.id iv.start iv.stop where
  mentions p hp := by
    obtain ⟨r, hr, ht⟩ := hp
    obtain ⟨jv, hjv, hid, hcovers⟩ := f.noted_intervals.spans _ ht _ hr
    obtain rfl : jv = iv := List.inj_on_of_nodup_map f.noted_intervals.nodup hjv hiv hid
    exact Interval.covers_iff.1 hcovers
  edges e he h₁ h₂ := Interval.includes_iff.1 (intervals_closed hiv e he (Interval.meets_iff.2 ⟨h₁, h₂⟩))

/-- Nothing smaller encloses the mentions. -/
theorem Encloses.contains {iv : Interval} (hiv : iv ∈ f.intervals) {s t : Nat} (h : f.Encloses iv.id s t) :
    s ≤ iv.start ∧ iv.stop ≤ t := by
  obtain ⟨jv, hjv, rfl⟩ := List.mem_map.1 hiv
  have hid := (Interval.within_close f.backEdges jv).id
  rw [← hid] at h
  have hwithin : jv.Within ⟨jv.id, jv.kind, s, t⟩ :=
    ⟨rfl, rfl, (h.mentions _ (mentioned_of_end hjv (.inl rfl))).1, (h.mentions _ (mentioned_of_end hjv (.inr rfl))).2⟩
  have hclosed : Interval.Closed f.backEdges ⟨jv.id, jv.kind, s, t⟩ := fun e he hm =>
    Interval.includes_iff.2 (h.edges e he (Interval.meets_iff.1 hm).1 (Interval.meets_iff.1 hm).2)
  have hleast := Interval.close_within hwithin hclosed
  exact ⟨hleast.start, hleast.stop⟩

/-- In whatever order back edges and intervals are taken, passes end with the intervals of the function. There is one for
each register that is mentioned, and it is the smallest one that encloses the mentions. -/
theorem intervals_least (f : Flat) :
    (∀ edges ivs, (∀ e, e ∈ edges ↔ e ∈ f.backEdges) → ivs.Perm f.mentions → ∃ n out,
      Interval.Settles edges n ivs out ∧ n ≤ ivs.length * edges.length + 1 ∧ out.Perm f.intervals) ∧
    (∃ n, Interval.Settles f.backEdges n f.mentions f.intervals) ∧
    (∀ id p, f.Mentioned id p → ∃! iv, iv ∈ f.intervals ∧ iv.id = id) ∧
    ∀ iv ∈ f.intervals, f.Encloses iv.id iv.start iv.stop ∧
      ∀ s t, f.Encloses iv.id s t → s ≤ iv.start ∧ iv.stop ≤ t := by
  refine ⟨?_, ?_, ?_, fun iv hiv => ⟨encloses_of_mem hiv, fun s t h => h.contains hiv⟩⟩
  · intro edges ivs hmem hperm
    obtain ⟨n, hn, hsettles⟩ := Interval.settles_close edges ivs
    refine ⟨n, _, hsettles, hn.trans (Nat.succ_le_succ (Interval.debt_le edges ivs)), ?_⟩
    rw [List.map_congr_left fun iv _ => Interval.close_congr hmem iv]
    exact hperm.map _
  · obtain ⟨n, -, hsettles⟩ := Interval.settles_close f.backEdges f.mentions
    exact ⟨n, hsettles⟩
  · rintro id p ⟨r, hr, ht⟩
    obtain ⟨iv, hiv, rfl, -⟩ := f.noted_intervals.spans _ ht id hr
    exact ⟨iv, ⟨hiv, rfl⟩, fun jv hjv => List.inj_on_of_nodup_map f.noted_intervals.nodup hjv.1 hiv hjv.2⟩

/-- Two loops of which neither contains the other, over one register. -/
def overlappingLoops : Flat where
  func := .empty "f" ⟨[], []⟩
  code :=
    let r := Expr.reg (Func.softReg 0 .bool)
    #[.label ⟨0⟩, .binary .assign .bool r (.const (.bool true)), .label ⟨1⟩, .binary .jumpIf .void (.label ⟨0⟩) r,
      .jumpTo ⟨1⟩]

/-- The register is mentioned in the first loop only. Widened by that loop, its interval meets the second one. -/
theorem intervals_least_overlappingLoops :
    (∀ e, e ∈ [⟨3, 5⟩, ⟨1, 4⟩] ↔ e ∈ overlappingLoops.backEdges) ∧ overlappingLoops.Mentioned 256 2 ∧
    (∃ n out, Interval.Settles [⟨3, 5⟩, ⟨1, 4⟩] n overlappingLoops.mentions out ∧ out.Perm overlappingLoops.intervals) ∧
    ∃ iv ∈ overlappingLoops.intervals, iv.id = 256 ∧ iv.start = 1 ∧ iv.stop = 5 := by
  have hedges : overlappingLoops.backEdges = [⟨1, 4⟩, ⟨3, 5⟩] := by decide
  have htouches : overlappingLoops.touches = [(Func.softReg 0 .bool, 2), (Func.softReg 0 .bool, 4)] := by decide
  have hmem : ∀ e : BackEdge, e ∈ [⟨3, 5⟩, ⟨1, 4⟩] ↔ e ∈ overlappingLoops.backEdges := by
    intro e
    rw [hedges]
    simp [or_comm]
  have hmention : overlappingLoops.Mentioned 256 2 := ⟨Func.softReg 0 .bool, rfl, by rw [htouches]; simp⟩
  obtain ⟨horder, -, hone, hleast⟩ := intervals_least overlappingLoops
  obtain ⟨n, out, hsettles, -, hperm⟩ := horder _ _ hmem (.refl _)
  obtain ⟨iv, ⟨hiv, hid⟩, -⟩ := hone 256 2 hmention
  obtain ⟨hin, hmin⟩ := hleast iv hiv
  rw [hid] at hin hmin
  have hall : overlappingLoops.Encloses 256 1 5 := by
    refine ⟨?_, by rw [hedges]; simp⟩
    rintro p ⟨r, -, hp⟩
    rw [htouches] at hp
    simp only [List.mem_cons, Prod.mk.injEq, List.not_mem_nil, or_false] at hp
    omega
  have hfirst := hin.edges ⟨1, 4⟩ (by rw [hedges]; simp)
  have hsecond := hin.edges ⟨3, 5⟩ (by rw [hedges]; simp)
  have hmentioned := hin.mentions 2 hmention
  have houter := hmin 1 5 hall
  dsimp only at hfirst hsecond
  exact ⟨hmem, hmention, ⟨n, out, hsettles, hperm⟩, iv, hiv, hid, by omega, by omega⟩

end Flat

end JitBackend
