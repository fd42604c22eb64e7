import JitBackend.Proofs.LinearScan

/-!
# Slots of an allocation

A linear scan gives each interval one entry, also when it moves an interval to the stack that held a register, and the slot
of an interval is as large as the kind that the interval was noted with. `Filed` says so of the allocation alone: it does not
ask which registers are held, so the register list may be any list. One step keeps it (`Kept.place`), and so does the scan
(`allocate_filed`).
-/

namespace JitBackend

/-- Whether the place is on the stack. -/
def Location.isSlot : Location → Bool
  | reg _ => false
  | stack .. => true

/-! ## Entries -/

namespace Allocation

/-- The numbers of the registers that have a place. -/
def ids (a : Allocation) : List Nat := a.places.map (·.1)

/-- The entries stand in the order of their numbers, one for each. -/
def Ordered (a : Allocation) : Prop := a.ids.Pairwise (· < ·)

variable {a : Allocation} {id : Nat} {loc : Location}

theorem mem_ids_assign {i : Nat} : i ∈ (a.assign id loc).ids ↔ i = id ∨ i ∈ a.ids := by
  simp only [ids, assign]
  induction a.places with
  | nil => simp [insert]
  | cons p rest ih =>
    obtain ⟨j, l⟩ := p
    unfold insert
    split
    · simp
    · split
      · rename_i _ hj
        simp [hj]
      · simp only [List.map_cons, List.mem_cons, ih]
        exact or_left_comm

theorem Ordered.assign (h : a.Ordered) (id : Nat) (loc : Location) : (a.assign id loc).Ordered := by
  unfold Ordered ids Allocation.assign at *
  generalize a.places = places at h
  induction places with
  | nil => simp [insert]
  | cons p rest ih =>
    obtain ⟨j, l⟩ := p
    obtain ⟨hfirst, hrest⟩ := List.pairwise_cons.1 h
    unfold insert
    split
    · rename_i hlt
      refine List.pairwise_cons.2 ⟨?_, h⟩
      intro i hi
      rcases List.mem_cons.1 hi with rfl | hi
      · exact hlt
      · exact hlt.trans (hfirst i hi)
    · split
      · rename_i _ hj
        exact List.pairwise_cons.2 ⟨hj ▸ hfirst, hrest⟩
      · refine List.pairwise_cons.2 ⟨?_, ih hrest⟩
        intro i hi
        have hmem : i = id ∨ i ∈ rest.map (·.1) := (mem_ids_assign (a := ⟨rest, a.frame⟩)).1 hi
        rcases hmem with rfl | hi
        · dsimp only
          omega
        · exact hfirst i hi

theorem Ordered.nodup (h : a.Ordered) : a.ids.Nodup := h.imp fun hlt => Nat.ne_of_lt hlt

theorem mem_ids_of_get? (h : a.get? id = some loc) : id ∈ a.ids := by
  obtain ⟨l₁, l₂, hl, -⟩ := List.lookup_eq_some_iff.1 h
  exact List.mem_map.2 ⟨(id, loc), by rw [hl]; simp, rfl⟩

/-- Each entry is the place of its register. -/
theorem Ordered.get?_of_mem (h : a.Ordered) (hmem : (id, loc) ∈ a.places) : a.get? id = some loc := by
  obtain ⟨l₁, l₂, hl⟩ := List.append_of_mem hmem
  refine List.lookup_eq_some_iff.2 ⟨l₁, l₂, hl, fun p hp => ?_⟩
  have hlt := h
  rw [Ordered, ids, hl, List.map_append, List.pairwise_append] at hlt
  have := hlt.2.2 p.1 (List.mem_map.2 ⟨p, hp, rfl⟩) id (by simp)
  simp only [bne_iff_ne, ne_eq]
  omega

theorem Ordered.exists_get? (h : a.Ordered) (hmem : id ∈ a.ids) : ∃ loc, a.get? id = some loc := by
  obtain ⟨⟨i, loc⟩, hp, rfl⟩ := List.mem_map.1 hmem
  exact ⟨loc, h.get?_of_mem hp⟩

end Allocation

namespace LinearScan

variable {scan : LinearScan} {done : List Interval} {a : Allocation} {st : State} {iv : Interval}

/-! ## The invariant -/

/-- The intervals `done` have one entry each, and those on the stack have slots of their own within the frame. -/
structure Filed (scan : LinearScan) (done : List Interval) (a : Allocation) : Prop where
  ordered : a.Ordered
  ids : ∀ i, i ∈ a.ids ↔ i ∈ done.map (·.id)
  frame_dvd : 8 ∣ a.frame
  slots : ∀ jv ∈ done, ∀ loc, a.get? jv.id = some loc → loc.isSlot = true → scan.IsSlot a.frame jv.kind loc
  apart : ∀ jv ∈ done, ∀ kv ∈ done, jv.id ≠ kv.id → ∀ loc loc', a.get? jv.id = some loc → a.get? kv.id = some loc' →
    loc.isSlot = true → loc'.isSlot = true → Separate jv loc kv loc'

theorem Filed.nil (scan : LinearScan) : Filed scan [] {} :=
  ⟨.nil, by simp [Allocation.ids], Nat.dvd_zero _, by simp, by simp⟩

/-- An interval goes to the stack, be it a new one or one that has an entry already. -/
theorem Filed.spill {all : List Interval} (h : Filed scan done a)
    (hall : ∀ jv ∈ all, jv = iv ∨ jv ∈ done ∧ jv.id ≠ iv.id)
    (hids : ∀ i, i ∈ all.map (·.id) ↔ i = iv.id ∨ i ∈ done.map (·.id)) : Filed scan all (scan.spill iv a).2 := by
  have hself : (scan.spill iv a).2.get? iv.id = some (.stack scan.stackPointer a.frame) := by
    rw [get?_spill, if_pos rfl]
  have hget : ∀ jv : Interval, jv.id ≠ iv.id → (scan.spill iv a).2.get? jv.id = a.get? jv.id := by
    intro jv hne
    rw [get?_spill, if_neg hne]
  -- the new slot starts where the frame ended
  have hnew : ∀ jv ∈ done, ∀ loc, a.get? jv.id = some loc → loc.isSlot = true →
      Separate jv loc iv (.stack scan.stackPointer a.frame) := by
    intro jv hj loc hloc hslot
    obtain ⟨o, rfl, -, hle⟩ := h.slots jv hj loc hloc hslot
    exact .inl (by exact_mod_cast hle)
  refine ⟨h.ordered.assign _ _, ?_, Nat.dvd_add h.frame_dvd (eight_dvd_slotSize _), ?_, ?_⟩
  · intro i
    rw [hids, ← h.ids]
    exact Allocation.mem_ids_assign
  · intro jv hj loc hloc hslot
    rcases hall jv hj with rfl | ⟨hj, hne⟩
    · obtain rfl := Option.some.inj (hself.symm.trans hloc)
      exact ⟨a.frame, rfl, h.frame_dvd, by simp⟩
    · rw [hget jv hne] at hloc
      exact (h.slots jv hj loc hloc hslot).mono (by simp)
  · intro jv hj kv hk hne loc loc' hloc hloc' hslot hslot'
    rcases hall jv hj with rfl | ⟨hj, hj'⟩ <;> rcases hall kv hk with rfl | ⟨hk, hk'⟩
    · exact absurd rfl hne
    · obtain rfl := Option.some.inj (hself.symm.trans hloc)
      rw [hget kv hk'] at hloc'
      exact (hnew kv hk loc' hloc' hslot').symm
    · obtain rfl := Option.some.inj (hself.symm.trans hloc')
      rw [hget jv hj'] at hloc
      exact hnew jv hj loc hloc hslot
    · rw [hget jv hj'] at hloc
      rw [hget kv hk'] at hloc'
      exact h.apart jv hj kv hk hne loc loc' hloc hloc' hslot hslot'

/-- A new interval takes a register. -/
theorem Filed.take (h : Filed scan done a) (iv : Interval) (r : HardReg) :
    Filed scan (done ++ [iv]) (a.assign iv.id (.reg r)) := by
  have hold : ∀ jv ∈ done ++ [iv], ∀ loc, (a.assign iv.id (.reg r)).get? jv.id = some loc → loc.isSlot = true →
      jv ∈ done ∧ a.get? jv.id = some loc := by
    intro jv hj loc hloc hslot
    rw [Allocation.get?_assign] at hloc
    split at hloc
    · cases hloc
      cases hslot
    · rename_i hne
      refine ⟨(List.mem_append.1 hj).resolve_right fun hj => ?_, hloc⟩
      rw [List.mem_singleton.1 hj] at hne
      exact hne rfl
  refine ⟨h.ordered.assign _ _, ?_, h.frame_dvd, ?_, ?_⟩
  · intro i
    rw [Allocation.mem_ids_assign, h.ids, List.map_append, List.mem_append, List.map_singleton, List.mem_singleton]
    exact or_comm
  · intro jv hj loc hloc hslot
    obtain ⟨hj, hloc⟩ := hold jv hj loc hloc hslot
    exact h.slots jv hj loc hloc hslot
  · intro jv hj kv hk hne loc loc' hloc hloc' hslot hslot'
    obtain ⟨hj, hloc⟩ := hold jv hj loc hloc hslot
    obtain ⟨hk, hloc'⟩ := hold kv hk loc' hloc' hslot'
    exact h.apart jv hj kv hk hne loc loc' hloc hloc' hslot hslot'

/-- The allocation is in order, and registers are held by intervals that have an entry. -/
structure Kept (scan : LinearScan) (done : List Interval) (st : State) : Prop where
  filed : Filed scan done st.alloc
  active : ∀ b ∈ st.active, b.1 ∈ done

theorem Kept.expire (h : Kept scan done st) (p : Nat) : Kept scan done (scan.expire p st) := by
  unfold LinearScan.expire
  rw [List.partition_eq_filter_filter]
  exact ⟨h.filed, fun b hb => h.active b (List.mem_filter.1 hb).1⟩

theorem Kept.take (h : Kept scan done st) (iv : Interval) (r : HardReg) : Kept scan (done ++ [iv]) (take iv r st) := by
  refine ⟨h.filed.take iv r, fun b hb => ?_⟩
  rcases List.mem_append.1 hb with hb | hb
  · exact List.mem_append_left _ (h.active b hb)
  · exact List.mem_append_right _ (by rw [List.mem_singleton.1 hb]; exact List.mem_singleton_self _)

/-- One step keeps the allocation in order. -/
theorem Kept.place (h : Kept scan done st) (hids : (done.map (·.id)).Nodup) (calls : List Nat)
    (hid : iv.id ∉ done.map (·.id)) (log : Log) : Kept scan (done ++ [iv]) (scan.place calls st iv log).1 := by
  have h₁ := h.expire iv.start
  have hne : ∀ jv ∈ done, jv.id ≠ iv.id := fun jv hj he => hid (List.mem_map.2 ⟨jv, hj, he⟩)
  rcases @place_cases scan calls st iv log with ⟨r, -, he⟩ | ⟨old, r, -, hv, -, he⟩ | ⟨-, -, he⟩
  · rw [he]
    have h₂ : Kept scan done { scan.expire iv.start st with
        free := (scan.expire iv.start st).free.eraseP (scan.usable calls iv) } := ⟨h₁.filed, h₁.active⟩
    exact h₂.take iv r
  · have hold : old ∈ done := h₁.active _ (mem_of_victim hv)
    have hevict : Filed scan done (scan.evict old (scan.expire iv.start st)).alloc := by
      refine h₁.filed.spill (fun jv hj => ?_) fun i => ⟨.inr, fun hi => hi.elim (fun hi => ?_) fun hi => hi⟩
      · by_cases hold' : jv.id = old.id
        · exact .inl (List.inj_on_of_nodup_map hids hj hold hold')
        · exact .inr ⟨hj, hold'⟩
      · exact hi ▸ List.mem_map.2 ⟨old, hold, rfl⟩
    rw [he]
    exact Kept.take ⟨hevict, fun b hb => h₁.active b (List.mem_filter.1 hb).1⟩ iv r
  · rw [he]
    refine ⟨h₁.filed.spill (fun jv hj => ?_) fun i => ?_, fun b hb => List.mem_append_left _ (h₁.active b hb)⟩
    · rcases List.mem_append.1 hj with hj | hj
      · exact .inr ⟨hj, hne jv hj⟩
      · exact .inl (List.mem_singleton.1 hj)
    · rw [List.map_append, List.mem_append, List.map_singleton, List.mem_singleton]
      exact or_comm

theorem Kept.run (calls : List Nat) : ∀ (ivs done : List Interval) (st : State) (log : Log), Kept scan done st →
    ((done ++ ivs).map (·.id)).Nodup → Kept scan (done ++ ivs) (ivs.foldlM (scan.place calls) st log).1
  | [], done, st, log, h, _ => by rw [List.append_nil]; exact h
  | iv :: ivs, done, st, log, h, hids => by
    have hsplit := hids
    rw [List.map_append, List.nodup_append] at hsplit
    have hid : iv.id ∉ done.map (·.id) := fun hm => hsplit.2.2 _ hm _ List.mem_cons_self rfl
    have hrest := Kept.run calls ivs (done ++ [iv]) _ (scan.place calls st iv log).2
      (h.place hsplit.1 calls hid log) (by simpa using hids)
    rw [show done ++ iv :: ivs = done ++ [iv] ++ ivs by simp, List.foldlM_cons]
    exact hrest

/-! ## Allocations of a function -/

theorem dvd_roundUp (n m : Nat) : m ∣ roundUp n m := Dvd.intro_left _ rfl

/-- An allocation files the intervals of the function. -/
theorem allocate_filed (scan : LinearScan) (f : Flat) (log : Log) : Filed scan f.intervals (scan.allocate f log).1 := by
  have hperm : (byStart f.intervals).Perm f.intervals := List.mergeSort_perm _ _
  have hids : ((byStart f.intervals).map (·.id)).Nodup := (hperm.map _).nodup_iff.2 f.noted_intervals.nodup
  have h := (Kept.run f.callPositions (byStart f.intervals) [] { free := scan.regs } log ⟨.nil scan, by simp⟩
    (by simpa using hids)).filed
  rw [List.nil_append] at h
  refine ⟨h.ordered, fun i => (h.ids i).trans (hperm.map _).mem_iff, Dvd.dvd.trans (by decide) (dvd_roundUp _ 16), ?_, ?_⟩
  · exact fun jv hj loc hloc hslot => (h.slots jv (hperm.mem_iff.2 hj) loc hloc hslot).mono (le_roundUp _ (by decide))
  · exact fun jv hj kv hk => h.apart jv (hperm.mem_iff.2 hj) kv (hperm.mem_iff.2 hk)

end LinearScan

end JitBackend
