import Mathlib
import JitBackend.Target
import JitBackend.Proofs.Slots

/-!
# A linear scan spills as little as possible

If no value has to survive a call, every register may hold every interval, and an allocation is a choice of intervals to keep
such that no position is covered by more of them than there are registers (`Fits`). The scan keeps as many as any such choice
does (`allocate_spills_least`).

The argument compares ends. Up to each position that the scan has still to pass, at least as many of the intervals that it
keeps have ended as of any other choice from the same intervals (`Ahead`). When all registers are held, the interval that
ends last is given up, so this stays true: before that end nothing is lost, and behind it all that is kept has ended,
which is as much as can be kept at all.
-/

namespace JitBackend

/-- The number of registers that have a place on the stack. -/
def Allocation.spills (a : Allocation) : Nat := a.places.countP (·.2.isSlot)

/-- Whether the interval has a register. -/
def Allocation.holds (a : Allocation) (iv : Interval) : Bool := (a.get? iv.id).any fun loc => !loc.isSlot

namespace LinearScan

/-- At most `k` of the intervals cover each position. -/
def Fits (k : Nat) (ivs : List Interval) : Prop := ∀ p, ivs.countP (·.covers p) ≤ k

/-- How many of the intervals end before `p`. -/
def ended (p : Nat) (ivs : List Interval) : Nat := ivs.countP (·.stop < p)

variable {scan : LinearScan} {done ivs : List Interval} {now p : Nat} {st : State} {iv old : Interval} {r : HardReg}

/-! ## Intervals that have ended -/

@[simp] theorem ended_nil : ended p [] = 0 := rfl

theorem ended_append (l l' : List Interval) : ended p (l ++ l') = ended p l + ended p l' := List.countP_append

theorem ended_le_length : ended p ivs ≤ ivs.length := List.countP_le_length

theorem ended_eq_length (h : ∀ jv ∈ ivs, jv.stop < p) : ended p ivs = ivs.length := by
  rw [ended, List.countP_eq_length]
  simpa using h

/-- Those that begin by `p` and fit have ended before `p`, but for as many as there may be at `p`. -/
theorem length_le_ended {k : Nat} (hfits : Fits k ivs) (hbegun : ∀ jv ∈ ivs, jv.start ≤ p) :
    ivs.length ≤ ended p ivs + k := by
  have hcover : ivs.countP (fun jv => decide ¬decide (jv.stop < p) = true) ≤ ivs.countP (·.covers p) := by
    refine List.countP_mono_left fun jv hj hstop => ?_
    have hstop : ¬ jv.stop < p := by simpa using hstop
    exact Interval.covers_iff.2 ⟨hbegun jv hj, by omega⟩
  rw [List.length_eq_countP_add_countP fun jv : Interval => decide (jv.stop < p)]
  exact Nat.add_le_add_left (hcover.trans (hfits p)) _

/-! ## Being ahead -/

/-- From `now` on, at least as many of the intervals `kept` have ended as of those that any choice from `done` keeps. -/
def Leads (k now : Nat) (done kept : List Interval) : Prop :=
  ∀ keep : Interval → Bool, Fits k (done.filter keep) → ∀ p, now ≤ p → ended p (done.filter keep) ≤ ended p kept

section Leads

variable {k : Nat} {kept kept' : List Interval} {keep : Interval → Bool}

theorem Fits.of_append {l l' : List Interval} (h : Fits k (l ++ l')) : Fits k l := by
  intro p
  have := h p
  rw [List.countP_append] at this
  omega

/-- A choice from one more interval. -/
theorem filter_concat (keep : Interval → Bool) (done : List Interval) (iv : Interval) :
    (done ++ [iv]).filter keep = done.filter keep ++ [iv].filter keep := List.filter_append ..

theorem ended_filter_le : ended p (ivs.filter keep) ≤ ended p ivs := by
  unfold ended
  exact List.filter_sublist.countP_le

/-- Whoever keeps a new interval stays ahead. -/
theorem Leads.concat (h : Leads k now done kept) (hnow : now ≤ iv.start) :
    Leads k iv.start (done ++ [iv]) (kept ++ [iv]) := by
  intro keep hfits p hp
  rw [filter_concat] at hfits ⊢
  rw [ended_append, ended_append]
  exact Nat.add_le_add (h keep hfits.of_append p (hnow.trans hp)) ended_filter_le

/-- Where `k` of the kept intervals are still there at the start of a new one, `m` being the last end, as many may be kept as
before if nothing is lost up to `m`. -/
theorem Leads.full (h : Leads k now done kept) (hnow : now ≤ iv.start) (hbegun : ∀ jv ∈ done, jv.start ≤ iv.start)
    (hiv : iv.start ≤ iv.stop) (hfull : ended iv.start kept + k ≤ kept.length) (hlen : kept'.length = kept.length) {m : Nat}
    (hbefore : ∀ p ≤ m, ended p kept + ended p [iv] ≤ ended p kept') (hlast : ∀ jv ∈ kept', jv.stop ≤ m) :
    Leads k iv.start (done ++ [iv]) kept' := by
  intro keep hfits p hp
  have hold := fun q => h keep (by rw [filter_concat] at hfits; exact hfits.of_append) q
  by_cases hm : p ≤ m
  · refine le_trans ?_ (hbefore p hm)
    rw [filter_concat, ended_append]
    exact Nat.add_le_add (hold p (hnow.trans hp)) ended_filter_le
  · -- behind the last end all that is kept has ended
    have hall : ended p kept' = kept.length := by
      rw [← hlen]
      exact ended_eq_length fun jv hj => by have := hlast jv hj; omega
    have hstart : ∀ jv ∈ (done ++ [iv]).filter keep, jv.start ≤ iv.start := by
      intro jv hj
      rcases List.mem_append.1 (List.mem_filter.1 hj).1 with hj | hj
      · exact hbegun jv hj
      · rw [List.mem_singleton.1 hj]
    have hnone : ended iv.start ([iv].filter keep) = 0 := by
      refine Nat.le_zero.1 (ended_filter_le.trans_eq ?_)
      simp [ended, hiv]
    calc ended p ((done ++ [iv]).filter keep) ≤ ((done ++ [iv]).filter keep).length := ended_le_length
      _ ≤ ended iv.start ((done ++ [iv]).filter keep) + k := length_le_ended hfits hstart
      _ = ended iv.start (done.filter keep) + k := by rw [filter_concat, ended_append, hnone, Nat.add_zero]
      _ ≤ ended iv.start kept + k := Nat.add_le_add_right (hold iv.start hnow) k
      _ ≤ ended p kept' := by rw [hall]; exact hfull

end Leads

/-! ## One step -/

/-- The interval that is given up ends last. -/
theorem le_of_victim {usable : HardReg → Bool} {active : List (Interval × HardReg)}
    (h : victim usable active = some (old, r)) :
    ∀ b ∈ active, usable b.2 = true → b.1.stop ≤ old.stop := by
  have hfold : ∀ (as : List (Interval × HardReg)) (b : Interval × HardReg),
      ∀ c ∈ b :: as, c.1.stop ≤ (as.foldl later b).1.stop := by
    intro as
    induction as with
    | nil => simp
    | cons d as ih =>
      intro b c hc
      have hb : b.1.stop ≤ (later b d).1.stop := by unfold later; grind
      have hd : d.1.stop ≤ (later b d).1.stop := by unfold later; grind
      have hrest := ih (later b d)
      rw [List.foldl_cons]
      have hlater := hrest _ List.mem_cons_self
      rcases List.mem_cons.1 hc with rfl | hc
      · exact hb.trans hlater
      · rcases List.mem_cons.1 hc with rfl | hc
        · exact hd.trans hlater
        · exact hrest c (List.mem_cons_of_mem _ hc)
  intro b hb hu
  have hmem : b ∈ active.filter fun c => usable c.2 := List.mem_filter.2 ⟨hb, hu⟩
  unfold victim at h
  split at h
  · cases h
  · rename_i c cs hcs
    have hc := hfold cs c b (hcs ▸ hmem)
    rw [Option.some.inj h] at hc
    exact hc

theorem exists_victim {usable : HardReg → Bool} {active : List (Interval × HardReg)} {b : Interval × HardReg}
    (hb : b ∈ active) (hu : usable b.2 = true) : ∃ old r, victim usable active = some (old, r) := by
  have hmem : b ∈ active.filter fun c => usable c.2 := List.mem_filter.2 ⟨hb, hu⟩
  unfold victim
  split
  · rename_i hnil
    rw [hnil] at hmem
    cases hmem
  · exact ⟨_, _, rfl⟩

end LinearScan

namespace Allocation

variable {a : Allocation} {iv jv : Interval}

theorem holds_iff : a.holds iv = true ↔ ∃ r, a.get? iv.id = some (.reg r) := by
  unfold holds
  cases a.get? iv.id with
  | none => simp
  | some loc => cases loc <;> simp [Location.isSlot]

theorem holds_assign (a : Allocation) (iv jv : Interval) (r : HardReg) :
    (a.assign iv.id (.reg r)).holds jv = (jv.id == iv.id || a.holds jv) := by
  unfold holds
  rw [get?_assign]
  by_cases h : jv.id = iv.id <;> simp [h, Location.isSlot]

theorem holds_spill (scan : LinearScan) (a : Allocation) (iv jv : Interval) :
    (scan.spill iv a).2.holds jv = (decide (jv.id ≠ iv.id) && a.holds jv) := by
  unfold holds
  rw [LinearScan.get?_spill]
  by_cases h : jv.id = iv.id <;> simp [h, Location.isSlot]

end Allocation

namespace LinearScan

variable {scan : LinearScan} {done ivs : List Interval} {now p : Nat} {st : State} {iv old : Interval} {r : HardReg}

section Kept

variable (hne : ∀ jv ∈ done, jv.id ≠ iv.id)
include hne

theorem filter_holds_take (r : HardReg) (st : State) :
    (done ++ [iv]).filter (take iv r st).alloc.holds = done.filter st.alloc.holds ++ [iv] := by
  rw [filter_concat]
  congr 1
  · refine List.filter_congr fun jv hj => ?_
    simp [LinearScan.take, Allocation.holds_assign, hne jv hj]
  · simp [LinearScan.take, Allocation.holds_assign]

theorem filter_holds_spill (a : Allocation) :
    (done ++ [iv]).filter (scan.spill iv a).2.holds = done.filter a.holds := by
  rw [filter_concat, ← List.append_nil (done.filter a.holds)]
  congr 1
  · refine List.filter_congr fun jv hj => ?_
    simp [Allocation.holds_spill, hne jv hj]
  · simp [Allocation.holds_spill]

end Kept

theorem filter_holds_evict (old : Interval) (st : State) : done.filter (scan.evict old st).alloc.holds =
    (done.filter st.alloc.holds).filter fun jv => jv.id ≠ old.id := by
  rw [List.filter_filter]
  exact List.filter_congr fun jv _ => Allocation.holds_spill scan st.alloc old jv

/-- What is kept has a register still, or has ended. -/
theorem Inv.active_or_ended (h : Inv scan done now st) {jv : Interval} (hj : jv ∈ done.filter st.alloc.holds) :
    (∃ r, (jv, r) ∈ st.active) ∨ jv.stop < now := by
  obtain ⟨hj, hholds⟩ := List.mem_filter.1 hj
  obtain ⟨r, hr⟩ := Allocation.holds_iff.1 hholds
  rcases h.placed jv hj with ⟨r', -, -, hact | hlt⟩ | ⟨loc, hloc, o, rfl, -, -⟩
  · exact .inl ⟨r', hact⟩
  · exact .inr hlt
  · cases hr.symm.trans hloc

section Held

variable (h : Inv scan done now st)
include h

/-- An interval holds one register. -/
theorem Inv.active_nodup : (st.active.map (·.1)).Nodup := by
  have hregs : (st.active.map (·.2)).Nodup := (List.nodup_append.1 h.held_once).2.1
  refine (List.Nodup.of_map _ hregs).map_on fun b hb c hc hbc => ?_
  have hreg := (h.active b hb).2.symm.trans (hbc ▸ (h.active c hc).2)
  exact Prod.ext hbc (by simpa using hreg)

theorem Inv.active_ids_nodup (hids : (done.map (·.id)).Nodup) : (st.active.map (·.1.id)).Nodup := by
  rw [show (fun b : Interval × HardReg => b.1.id) = Interval.id ∘ Prod.fst from rfl, ← List.map_map]
  refine h.active_nodup.map_on fun iv hi jv hj hid => ?_
  obtain ⟨b, hb, rfl⟩ := List.mem_map.1 hi
  obtain ⟨c, hc, rfl⟩ := List.mem_map.1 hj
  exact List.inj_on_of_nodup_map hids (h.active b hb).1 (h.active c hc).1 hid

theorem Inv.mem_kept {b : Interval × HardReg} (hb : b ∈ st.active) : b.1 ∈ done.filter st.alloc.holds :=
  List.mem_filter.2 ⟨(h.active b hb).1, Allocation.holds_iff.2 ⟨_, (h.active b hb).2⟩⟩

/-- With no register left, as many intervals as there are registers have not ended. -/
theorem Inv.full (hpool : (st.free ++ st.active.map (·.2)).Perm scan.regs) (hfree : st.free = [])
    (hlive : ∀ b ∈ st.active, now ≤ b.1.stop) :
    ended now (done.filter st.alloc.holds) + scan.regs.length ≤ (done.filter st.alloc.holds).length := by
  have hlen : scan.regs.length = (st.active.map (·.1)).length := by
    rw [← hpool.length_eq, hfree]
    simp
  have hsub : st.active.map (·.1) ⊆ (done.filter st.alloc.holds).filter fun jv => decide ¬decide (jv.stop < now) = true := by
    intro jv hj
    obtain ⟨b, hb, rfl⟩ := List.mem_map.1 hj
    exact List.mem_filter.2 ⟨h.mem_kept hb, by simpa using hlive b hb⟩
  have hle := (List.subperm_of_subset h.active_nodup hsub).length_le
  rw [List.length_eq_countP_add_countP fun jv : Interval => decide (jv.stop < now), hlen]
  rw [← List.countP_eq_length_filter] at hle
  exact Nat.add_le_add_left hle _

/-- What holds a register bounds the ends of what is kept. -/
theorem Inv.stop_le {m : Nat} (hactive : ∀ b ∈ st.active, b.1.stop ≤ m) (hm : now ≤ m) :
    ∀ jv ∈ done.filter st.alloc.holds, jv.stop ≤ m := by
  intro jv hj
  rcases h.active_or_ended hj with ⟨r, hr⟩ | hlt
  · exact hactive _ hr
  · omega

end Held

/-- Every register is free or held, and the scan is ahead with what it keeps. -/
structure Ahead (scan : LinearScan) (done : List Interval) (now : Nat) (st : State) : Prop where
  pool : (st.free ++ st.active.map (·.2)).Perm scan.regs
  begun : ∀ jv ∈ done, jv.start ≤ now
  leads : Leads scan.regs.length now done (done.filter st.alloc.holds)

/-- Taking out the one element with the key of `a`. -/
theorem perm_cons_filter_ne {α : Type} {key : α → Nat} {a : α} {l : List α} (hkeys : (l.map key).Nodup) (ha : a ∈ l) :
    (a :: l.filter fun b => key b ≠ key a).Perm l := by
  induction l with
  | nil => cases ha
  | cons b l ih =>
    obtain ⟨hb, hkeys⟩ := List.nodup_cons.1 hkeys
    rcases List.mem_cons.1 ha with rfl | ha
    · have hall : l.filter (fun b => key b ≠ key a) = l := by
        refine List.filter_eq_self.2 fun c hc => ?_
        have : key c ≠ key a := fun he => hb (List.mem_map.2 ⟨c, hc, he⟩)
        simpa using this
      rw [List.filter_cons_of_neg (by simp), hall]
    · have hne : key b ≠ key a := fun he => hb (List.mem_map.2 ⟨a, ha, he.symm⟩)
      rw [List.filter_cons_of_pos (by simpa using hne)]
      exact (List.Perm.swap ..).trans ((ih hkeys ha).cons b)

section Step

variable (h : Ahead scan done iv.start st)
include h

theorem Ahead.begun_concat : ∀ jv ∈ done ++ [iv], jv.start ≤ iv.start := by
  intro jv hj
  rcases List.mem_append.1 hj with hj | hj
  · exact h.begun jv hj
  · rw [List.mem_singleton.1 hj]

theorem Ahead.take {usable : HardReg → Bool} (hne : ∀ jv ∈ done, jv.id ≠ iv.id) (hf : st.free.find? usable = some r) :
    Ahead scan (done ++ [iv]) iv.start (take iv r { st with free := st.free.eraseP usable }) := by
  refine ⟨List.Perm.trans ?_ h.pool, h.begun_concat, ?_⟩
  · refine List.Perm.trans ?_ ((perm_eraseP_of_find? hf).append_right (st.active.map (·.2))).symm
    show (st.free.eraseP _ ++ (st.active ++ [(iv, r)]).map (·.2)).Perm _
    rw [List.map_append, ← List.append_assoc]
    exact List.perm_append_singleton _ _
  · rw [filter_holds_take hne]
    exact h.leads.concat le_rfl

variable (hinv : Inv scan done iv.start st) (hne : ∀ jv ∈ done, jv.id ≠ iv.id) (hiv : iv.start ≤ iv.stop)
  (hfree : st.free = []) (hlive : ∀ b ∈ st.active, iv.start ≤ b.1.stop)
include hinv hne hiv hfree hlive

theorem Ahead.evict (hids : (done.map (·.id)).Nodup) (hold : (old, r) ∈ st.active)
    (hlast : ∀ b ∈ st.active, b.1.stop ≤ old.stop) (hlt : iv.stop < old.stop) :
    Ahead scan (done ++ [iv]) iv.start (LinearScan.take iv r (scan.evict old st)) := by
  have hpool := perm_cons_filter_ne (hinv.active_ids_nodup hids) hold
  have hkept := perm_cons_filter_ne (hids.sublist (List.filter_sublist.map _)) (hinv.mem_kept hold)
  refine ⟨List.Perm.trans ?_ h.pool, h.begun_concat, ?_⟩
  · show (st.free ++ ((scan.evict old st).active ++ [(iv, r)]).map (·.2)).Perm _
    rw [List.map_append]
    exact List.Perm.append_left _ ((List.perm_append_singleton _ _).trans (hpool.map Prod.snd))
  · rw [filter_holds_take hne, filter_holds_evict]
    refine h.leads.full le_rfl h.begun hiv (hinv.full h.pool hfree hlive) ?_ (m := old.stop) ?_ ?_
    · rw [List.length_append, ← hkept.length_eq]
      rfl
    · intro p hp
      have hcount : ended p (done.filter st.alloc.holds) = _ := (hkept.countP_eq _).symm
      rw [hcount, ended_append, List.countP_cons_of_neg (by simpa using hp)]
      rfl
    · intro jv hj
      rcases List.mem_append.1 hj with hj | hj
      · exact hinv.stop_le hlast (by omega) jv (List.mem_filter.1 hj).1
      · rw [List.mem_singleton.1 hj]
        omega

theorem Ahead.spill (hlast : ∀ b ∈ st.active, b.1.stop ≤ iv.stop) :
    Ahead scan (done ++ [iv]) iv.start { st with alloc := (scan.spill iv st.alloc).2 } := by
  refine ⟨h.pool, h.begun_concat, ?_⟩
  rw [filter_holds_spill hne]
  refine h.leads.full le_rfl h.begun hiv (hinv.full h.pool hfree hlive) rfl (m := iv.stop) ?_ (hinv.stop_le hlast hiv)
  intro p hp
  have hnot : ended p [iv] = 0 := by simp [ended, hp]
  omega

end Step

theorem Ahead.expire (h : Ahead scan done now st) (hp : now ≤ p) : Ahead scan done p (scan.expire p st) := by
  refine ⟨(perm_expire p st).trans h.pool, fun jv hj => (h.begun jv hj).trans hp, ?_⟩
  rw [show (scan.expire p st).alloc = st.alloc by rw [expire_eq]]
  exact fun keep hfits q hq => h.leads keep hfits q (hp.trans hq)

/-- One step keeps the scan ahead. -/
theorem Ahead.place (h : Ahead scan done now st) (hinv : Inv scan done now st) (hids : (done.map (·.id)).Nodup)
    (hid : iv.id ∉ done.map (·.id)) (hnow : now ≤ iv.start) (hiv : iv.start ≤ iv.stop) (log : Log) :
    Ahead scan (done ++ [iv]) iv.start (scan.place [] st iv log).1 := by
  have hne : ∀ jv ∈ done, jv.id ≠ iv.id := fun jv hj he => hid (List.mem_map.2 ⟨jv, hj, he⟩)
  have hlive : ∀ b ∈ (scan.expire iv.start st).active, iv.start ≤ b.1.stop :=
    fun b hb => Nat.not_lt.1 (mem_active_expire.1 hb).2
  -- every register is usable, so none is free where none is found
  have hfree : (scan.expire iv.start st).free.find? (scan.usable [] iv) = none → (scan.expire iv.start st).free = [] := by
    intro hnone
    rw [List.find?_eq_none] at hnone
    exact List.eq_nil_iff_forall_not_mem.2 fun r hr => hnone r hr rfl
  rcases @place_cases scan [] st iv log with ⟨r, hf, he⟩ | ⟨old, r, hf, hv, hlt, he⟩ | ⟨hf, hv, he⟩
  · rw [he]
    exact (h.expire hnow).take hne hf
  · rw [he]
    exact (h.expire hnow).evict (hinv.expire hnow) hne hiv (hfree hf) hlive hids (mem_of_victim hv)
      (fun b hb => le_of_victim hv b hb rfl) hlt
  · rw [he]
    refine (h.expire hnow).spill (hinv.expire hnow) hne hiv (hfree hf) hlive fun b hb => ?_
    obtain ⟨old, r, hold⟩ := @exists_victim (scan.usable [] iv) _ _ hb rfl
    exact (le_of_victim hold b hb rfl).trans (hv old r hold)

/-- A scan without calls stays ahead to its end. -/
theorem Ahead.run : ∀ (ivs done : List Interval) (now : Nat) (st : State) (log : Log),
    Ahead scan done now st → Inv scan done now st → ((done ++ ivs).map (·.id)).Nodup → (∀ iv ∈ ivs, now ≤ iv.start) →
    ivs.Pairwise (fun a b => a.start ≤ b.start) → (∀ iv ∈ ivs, iv.start ≤ iv.stop) →
    ∃ now', Ahead scan (done ++ ivs) now' (ivs.foldlM (scan.place []) st log).1
  | [], done, now, st, log, h, _, _, _, _, _ => ⟨now, by rw [List.append_nil]; exact h⟩
  | iv :: ivs, done, now, st, log, h, hinv, hids, hnow, hsorted, hspan => by
    have hsplit := hids
    rw [List.map_append, List.nodup_append] at hsplit
    have hid : iv.id ∉ done.map (·.id) := fun hm => hsplit.2.2 _ hm _ List.mem_cons_self rfl
    obtain ⟨hfirst, hrest⟩ := List.pairwise_cons.1 hsorted
    obtain ⟨hiv, hspan⟩ := List.forall_mem_cons.1 hspan
    have hstart := hnow iv List.mem_cons_self
    obtain ⟨now', h'⟩ := Ahead.run ivs (done ++ [iv]) iv.start _ (scan.place [] st iv log).2
      (h.place hinv hsplit.1 hid hstart hiv log) (hinv.place hsplit.1 [] hid hstart log) (by simpa using hids) hfirst hrest
      hspan
    refine ⟨now', ?_⟩
    rw [show done ++ iv :: ivs = done ++ [iv] ++ ivs by simp, List.foldlM_cons]
    exact h'

/-- Whoever is ahead has kept the most. -/
theorem Leads.length_le {k : Nat} {kept : List Interval} {keep : Interval → Bool} (h : Leads k now done kept)
    (hfits : Fits k (done.filter keep)) : (done.filter keep).length ≤ kept.length := by
  obtain ⟨p, hp⟩ : ∃ p, ∀ jv ∈ done.filter keep, jv.stop < p :=
    ⟨((done.filter keep).map (·.stop)).sum + 1, fun jv hj => Nat.lt_succ_of_le (List.le_sum_of_mem (List.mem_map_of_mem hj))⟩
  have hall : ∀ jv ∈ done.filter keep, jv.stop < now + p := fun jv hj => (hp jv hj).trans_le (Nat.le_add_left ..)
  calc (done.filter keep).length = ended (now + p) (done.filter keep) := (ended_eq_length hall).symm
    _ ≤ ended (now + p) kept := h keep hfits _ (Nat.le_add_right ..)
    _ ≤ kept.length := ended_le_length

/-! ## Allocations of a function -/

/-- As many registers are on the stack as intervals have no register. -/
theorem Filed.spills_eq {a : Allocation} (h : Filed scan done a) (hids : (done.map (·.id)).Nodup) :
    a.spills = done.countP fun iv => !a.holds iv := by
  have hperm : a.ids.Perm (done.map (·.id)) := (List.perm_ext_iff_of_nodup h.ordered.nodup hids).2 h.ids
  calc a.spills = a.ids.countP fun i => (a.get? i).any (·.isSlot) := by
        rw [Allocation.ids, List.countP_map]
        refine List.countP_congr fun e he => ?_
        rw [Function.comp_apply, h.ordered.get?_of_mem he, Option.any_some]
    _ = (done.map (·.id)).countP fun i => (a.get? i).any (·.isSlot) := hperm.countP_eq _
    _ = done.countP fun iv => !a.holds iv := by
        rw [List.countP_map]
        refine List.countP_congr fun iv hiv => ?_
        obtain ⟨loc, hloc⟩ := h.ordered.exists_get? ((h.ids iv.id).2 (List.mem_map_of_mem hiv))
        simp [Allocation.holds, hloc]

/-- Intervals that have registers fit the registers. -/
theorem Spec.fits {a : Allocation} (h : Spec scan ivs a) (hids : (ivs.map (·.id)).Nodup) :
    Fits scan.regs.length (ivs.filter a.holds) := by
  intro p
  have hreg : ∀ iv ∈ ivs.filter a.holds, ∃ r ∈ scan.regs, a.get? iv.id = some (.reg r) := by
    intro iv hiv
    obtain ⟨hiv, hholds⟩ := List.mem_filter.1 hiv
    obtain ⟨r, hr⟩ := Allocation.holds_iff.1 hholds
    obtain ⟨loc, hloc, ⟨r', hr', rfl⟩ | ⟨o, rfl, -⟩⟩ := h.placed iv hiv
    · exact ⟨r', hr', hloc⟩
    · cases hr.symm.trans hloc
  let live := (ivs.filter a.holds).filter (·.covers p)
  have hlive : ∀ iv ∈ live, iv ∈ ivs.filter a.holds ∧ iv.covers p = true := fun iv hiv => List.mem_filter.1 hiv
  have hnd : live.Nodup := ((List.Nodup.of_map _ hids).filter _).filter _
  have hplaces : (live.map fun iv => a.get? iv.id).Nodup := by
    refine hnd.map_on fun iv hi jv hj hsame => ?_
    obtain ⟨r, -, hr⟩ := hreg iv (hlive iv hi).1
    by_contra hne
    have hmem := (List.mem_filter.1 (hlive iv hi).1).1
    have hmem' := (List.mem_filter.1 (hlive jv hj).1).1
    have hid : iv.id ≠ jv.id := fun hid => hne (List.inj_on_of_nodup_map hids hmem hmem' hid)
    have hsep : iv.stop < jv.start ∨ jv.stop < iv.start := h.apart iv hmem jv hmem' hid _ _ hr (hsame.symm.trans hr) rfl
    have hi' := Interval.covers_iff.1 (hlive iv hi).2
    have hj' := Interval.covers_iff.1 (hlive jv hj).2
    omega
  have hsub : (live.map fun iv => a.get? iv.id) ⊆ scan.regs.map fun r => some (.reg r) := by
    intro loc hloc
    obtain ⟨iv, hiv, rfl⟩ := List.mem_map.1 hloc
    obtain ⟨r, hr, hget⟩ := hreg iv (hlive iv hiv).1
    exact List.mem_map.2 ⟨r, hr, hget.symm⟩
  have hle := (List.subperm_of_subset hplaces hsub).length_le
  rw [List.length_map, List.length_map, ← List.countP_eq_length_filter] at hle
  exact hle

theorem Fits.perm {k : Nat} {ivs' : List Interval} (h : Fits k ivs) (hperm : ivs.Perm ivs') : Fits k ivs' :=
  fun p => (hperm.countP_eq _).symm.trans_le (h p)

/-- No choice of intervals that fits keeps more than the scan does. -/
theorem length_le_allocate (hregs : scan.regs.Nodup) (f : Flat) (hcalls : f.callPositions = []) (log : Log)
    {keep : Interval → Bool} (hfits : Fits scan.regs.length (f.intervals.filter keep)) :
    (f.intervals.filter keep).length ≤ (f.intervals.filter (scan.allocate f log).1.holds).length := by
  have hperm : (byStart f.intervals).Perm f.intervals := List.mergeSort_perm _ _
  have hids : ((byStart f.intervals).map (·.id)).Nodup := (hperm.map _).nodup_iff.2 f.noted_intervals.nodup
  have hahead : Ahead scan [] 0 { free := scan.regs } := ⟨by simp, by simp, fun keep _ p _ => le_rfl⟩
  obtain ⟨now, h⟩ := Ahead.run (byStart f.intervals) [] 0 { free := scan.regs } log hahead (.init hregs)
    (by simpa using hids) (by simp) (byStart_pairwise _) fun iv hiv => f.noted_intervals.ordered _ (hperm.mem_iff.1 hiv)
  rw [List.nil_append, ← hcalls] at h
  have hle := h.leads.length_le (hfits.perm (hperm.filter keep).symm)
  rw [(hperm.filter keep).length_eq, (hperm.filter _).length_eq] at hle
  exact hle

theorem callPositions_eq_nil {f : Flat} (h : f.makesCalls = false) : f.callPositions = [] := by
  rw [Flat.makesCalls, ← Array.any_toList, List.any_eq_false] at h
  refine List.filterMap_eq_nil_iff.2 fun ep hep => ?_
  simpa using h ep.1 (List.fst_mem_of_mem_zipIdx hep)

/-- What a choice takes out it does not keep. -/
theorem countP_add_length_filter (out : Interval → Bool) (ivs : List Interval) :
    ivs.countP out + (ivs.filter fun iv => !out iv).length = ivs.length := by
  have hlen := @List.length_eq_countP_add_countP _ out ivs
  simp only [← List.countP_eq_length_filter, Bool.not_eq_true, Bool.decide_eq_false] at hlen ⊢
  exact hlen.symm

/-- In a function without calls the scan spills as few registers as any choice of intervals that leaves no more at a position
than there are registers, and none if there are never more. -/
theorem allocate_spills_least (scan : LinearScan) (hregs : scan.regs.Nodup) (f : Flat) (hcalls : f.makesCalls = false)
    (log : Log) :
    IsLeast {n | ∃ out : Interval → Bool, Fits scan.regs.length (f.intervals.filter fun iv => !out iv) ∧
      f.intervals.countP out = n} (scan.allocate f log).1.spills ∧
    (Fits scan.regs.length f.intervals → (scan.allocate f log).1.spills = 0) := by
  have hspills := (allocate_filed scan f log).spills_eq f.noted_intervals.nodup
  have hleast : ∀ out : Interval → Bool, Fits scan.regs.length (f.intervals.filter fun iv => !out iv) →
      (scan.allocate f log).1.spills ≤ f.intervals.countP out := by
    intro out hfits
    have hle := length_le_allocate hregs f (callPositions_eq_nil hcalls) log hfits
    have hout := countP_add_length_filter out f.intervals
    have hscan := countP_add_length_filter (fun iv => !(scan.allocate f log).1.holds iv) f.intervals
    rw [← hspills, show (fun iv => !!(scan.allocate f log).1.holds iv) = (scan.allocate f log).1.holds by simp] at hscan
    omega
  refine ⟨⟨⟨_, ?_, hspills.symm⟩, ?_⟩, fun hfits => ?_⟩
  · simpa only [Bool.not_not] using (allocate_spec hregs f log).fits f.noted_intervals.nodup
  · rintro n ⟨out, hfits, rfl⟩
    exact hleast out hfits
  · have hnone := hleast (fun _ => false) (by simpa using hfits)
    simpa using hnone

/-- Two values that are used one after the other, while a parameter waits for its use at the end. -/
def waitingParam : Flat where
  func := Func.empty "wait" ⟨[.int64], []⟩
  code :=
    let s := fun i => Expr.reg (Func.softReg i .int64)
    #[.binary .assign .int64 (s 1) (.const (Const.int64 1)), .unary .inc .int64 (s 1),
      .binary .assign .int64 (s 2) (.const (Const.int64 2)), .unary .inc .int64 (s 2), .unary .inc .int64 (s 0)]

example : waitingParam.intervals.map (fun iv => (iv.id, iv.start, iv.stop)) = [(256, 0, 5), (257, 1, 2), (258, 3, 4)] := by
  cbv

/-- With one register the parameter gives its register up, and nothing else goes to the stack. -/
theorem allocate_spills_least_waitingParam :
    [(⟨.amd64, 6⟩ : HardReg)].Nodup ∧ waitingParam.makesCalls = false ∧
    (allocate ⟨[⟨.amd64, 6⟩], [], ⟨.amd64, 4⟩⟩ waitingParam #[]).1.spills = 1 ∧
    IsLeast {n | ∃ out : Interval → Bool, Fits 1 (waitingParam.intervals.filter fun iv => !out iv) ∧
      waitingParam.intervals.countP out = n} 1 := by
  have hnodup : [(⟨.amd64, 6⟩ : HardReg)].Nodup := by decide
  have hcalls : waitingParam.makesCalls = false := by cbv
  have hone : (allocate ⟨[⟨.amd64, 6⟩], [], ⟨.amd64, 4⟩⟩ waitingParam #[]).1.spills = 1 := by cbv
  have hleast := (allocate_spills_least ⟨[⟨.amd64, 6⟩], [], ⟨.amd64, 4⟩⟩ hnodup waitingParam hcalls #[]).1
  rw [hone] at hleast
  exact ⟨hnodup, hcalls, hone, hleast⟩

end LinearScan

end JitBackend
