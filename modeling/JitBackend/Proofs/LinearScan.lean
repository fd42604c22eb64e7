import Mathlib.Data.List.Perm.Lattice
import JitBackend.LinearScan
import JitBackend.Proofs.Liveness

/-!
# What a linear scan keeps true

One step of the scan expires registers, then takes a free register, takes one over from an interval that goes to the
stack, or goes to the stack itself (`place_cases`). `Inv` is what every step keeps true (`Inv.place`): no register is
held twice, an interval that has given back its register lies before the current position, and the slots of the stack
area do not overlap. From it, `allocate_spec` says what an allocation promises for a whole function, and
`allocate_ne_of_live` that registers live at one position have different places.
-/

namespace JitBackend

namespace Allocation

theorem lookup_cons_eq (j : Nat) (l : Location) (rest : List (Nat × Location)) (i : Nat) :
    ((j, l) :: rest).lookup i = if i = j then some l else rest.lookup i := by
  rw [List.lookup_cons]
  by_cases h : i = j
  · simp [h]
  · rw [if_neg h, beq_false_of_ne h]

theorem lookup_insert (id : Nat) (loc : Location) (places : List (Nat × Location)) (i : Nat) :
    (insert id loc places).lookup i = if i = id then some loc else places.lookup i := by
  induction places with
  | nil => rw [insert, lookup_cons_eq]
  | cons p rest ih =>
    obtain ⟨j, l⟩ := p
    unfold insert
    split
    · rw [lookup_cons_eq]
    · split
      · rename_i _ hj
        subst hj
        rw [lookup_cons_eq, lookup_cons_eq]
        split <;> rfl
      · rename_i _ hj
        rw [lookup_cons_eq, lookup_cons_eq, ih]
        by_cases hi : i = j
        · rw [if_pos hi, if_pos hi, if_neg (fun h : i = id => hj (h.symm.trans hi))]
        · rw [if_neg hi, if_neg hi]

@[simp] theorem get?_assign (a : Allocation) (id : Nat) (loc : Location) (i : Nat) :
    (a.assign id loc).get? i = if i = id then some loc else a.get? i :=
  lookup_insert id loc a.places i

end Allocation

theorem perm_eraseP_of_find? {α : Type} {p : α → Bool} {a : α} {l : List α} (h : l.find? p = some a) :
    l.Perm (a :: l.eraseP p) := by
  induction l with
  | nil => simp at h
  | cons b l ih =>
    by_cases hb : p b = true
    · obtain rfl : b = a := by simpa [hb] using h
      simp [hb]
    · have hb : p b = false := by simpa using hb
      rw [List.find?_cons_of_neg (by simp [hb])] at h
      rw [List.eraseP_cons_of_neg (by simp [hb])]
      exact ((ih h).cons b).trans (List.Perm.swap a b _)

/-- What holds of the pairs of a list and of the new element with each of them holds of the pairs of the longer list. -/
theorem forall_pairs_concat {P : Interval → Interval → Prop} {l : List Interval} {iv : Interval}
    (hsymm : ∀ a b, P a b → P b a) (hold : ∀ a ∈ l, ∀ b ∈ l, a.id ≠ b.id → P a b) (hnew : ∀ a ∈ l, P a iv) :
    ∀ a ∈ l ++ [iv], ∀ b ∈ l ++ [iv], a.id ≠ b.id → P a b := by
  intro a ha b hb hne
  rcases List.mem_append.1 ha with ha' | ha' <;> rcases List.mem_append.1 hb with hb' | hb'
  · exact hold a ha' b hb' hne
  · rw [List.mem_singleton] at hb'
    exact hb' ▸ hnew a ha'
  · rw [List.mem_singleton] at ha'
    exact ha' ▸ hsymm _ _ (hnew b hb')
  · rw [List.mem_singleton] at ha' hb'
    exact absurd (ha' ▸ hb' ▸ rfl) hne

/-- The bytes of a stack slot for a value of kind `k`. -/
def slotSize (k : Kind) : Nat := roundUp (max k.size 1) 8

theorem size_le_slotSize (k : Kind) : k.size ≤ slotSize k := by cases k <;> decide

theorem eight_dvd_slotSize (k : Kind) : 8 ∣ slotSize k := Dvd.intro_left _ rfl

theorem slotSize_pos (k : Kind) : 0 < slotSize k := by cases k <;> decide

namespace LinearScan

variable {scan : LinearScan}

/-! ## One step -/

theorem mem_of_victim {usable : HardReg → Bool} {active : List (Interval × HardReg)} {a : Interval × HardReg}
    (h : victim usable active = some a) : a ∈ active := by
  have hfold : ∀ (as : List (Interval × HardReg)) (b : Interval × HardReg), as.foldl later b ∈ b :: as := by
    intro as
    induction as with
    | nil => intro b; simp
    | cons c as ih =>
      intro b
      rw [List.foldl_cons]
      have hl : later b c = b ∨ later b c = c := by unfold later; split <;> simp
      rcases hl with hl | hl <;> rw [hl]
      · rcases List.mem_cons.1 (ih b) with h | h
        · rw [h]; exact List.mem_cons_self
        · exact List.mem_cons_of_mem _ (List.mem_cons_of_mem _ h)
      · exact List.mem_cons_of_mem _ (ih c)
  unfold victim at h
  split at h
  · simp at h
  · rename_i b bs hb
    obtain rfl := Option.some.inj h
    have hm := hfold bs b
    rw [← hb] at hm
    exact (List.mem_filter.1 hm).1

/-- Whether an interval may take a register, when calls stand at `calls`. -/
def usable (scan : LinearScan) (calls : List Nat) (iv : Interval) (r : HardReg) : Bool :=
  !calls.any iv.covers || scan.preserved.contains r

/-- The state after the interval `old` has lost its register to a stack slot. -/
def evict (scan : LinearScan) (old : Interval) (st : State) : State :=
  { st with active := st.active.filter (·.1.id ≠ old.id), alloc := (scan.spill old st.alloc).2 }

/-- All that a step of the scan can do, after registers have expired. -/
theorem place_cases (calls : List Nat) (st : State) (iv : Interval) (log : Log) :
    (∃ r, (scan.expire iv.start st).free.find? (scan.usable calls iv) = some r ∧
      (scan.place calls st iv log).1 =
        take iv r { scan.expire iv.start st with
          free := (scan.expire iv.start st).free.eraseP (scan.usable calls iv) }) ∨
    (∃ old r, (scan.expire iv.start st).free.find? (scan.usable calls iv) = none ∧
      victim (scan.usable calls iv) (scan.expire iv.start st).active = some (old, r) ∧ iv.stop < old.stop ∧
      (scan.place calls st iv log).1 = take iv r (scan.evict old (scan.expire iv.start st))) ∨
    ((scan.expire iv.start st).free.find? (scan.usable calls iv) = none ∧
      (∀ old r, victim (scan.usable calls iv) (scan.expire iv.start st).active = some (old, r) →
        old.stop ≤ iv.stop) ∧
      (scan.place calls st iv log).1 =
        { scan.expire iv.start st with alloc := (scan.spill iv (scan.expire iv.start st).alloc).2 }) := by
  generalize hst : scan.expire iv.start st = st₁
  have hu : (fun r => !calls.any iv.covers || scan.preserved.contains r) = scan.usable calls iv := rfl
  cases hf : st₁.free.find? (scan.usable calls iv) with
  | some r =>
    left
    refine ⟨r, rfl, ?_⟩
    simp only [place, hst, hu, hf]
    rfl
  | none =>
    right
    cases hv : victim (scan.usable calls iv) st₁.active with
    | none =>
      right
      refine ⟨rfl, by simp, ?_⟩
      simp only [place, hst, hu, hf, hv]
      rfl
    | some a =>
      obtain ⟨old, r⟩ := a
      by_cases hlt : iv.stop < old.stop
      · left
        refine ⟨old, r, rfl, rfl, hlt, ?_⟩
        simp only [place, hst, hu, hf, hv, if_pos hlt]
        rfl
      · right
        refine ⟨rfl, ?_, ?_⟩
        · rintro old' r' ⟨⟩
          omega
        · simp only [place, hst, hu, hf, hv, if_neg hlt]
          rfl

/-! ## The invariant -/

/-- Two intervals do not disturb each other in these places: a register is held one after the other, slots are apart. -/
def Separate (iv : Interval) (loc : Location) (jv : Interval) (loc' : Location) : Prop :=
  match loc, loc' with
  | .reg r, .reg r' => r = r' → iv.stop < jv.start ∨ jv.stop < iv.start
  | .stack _ o, .stack _ o' => o + slotSize iv.kind ≤ o' ∨ o' + slotSize jv.kind ≤ o
  | _, _ => True

/-- A place in a stack area of `frame` bytes. -/
def IsSlot (scan : LinearScan) (frame : Nat) (k : Kind) (loc : Location) : Prop :=
  ∃ o : Nat, loc = .stack scan.stackPointer o ∧ 8 ∣ o ∧ o + slotSize k ≤ frame

/-- What is true when the intervals `done` are placed and the scan stands at `now`. -/
structure Inv (scan : LinearScan) (done : List Interval) (now : Nat) (st : State) : Prop where
  held_once : (st.free ++ st.active.map (·.2)).Nodup
  held_mem : ∀ r ∈ st.free ++ st.active.map (·.2), r ∈ scan.regs
  frame_dvd : 8 ∣ st.alloc.frame
  active : ∀ a ∈ st.active, a.1 ∈ done ∧ st.alloc.get? a.1.id = some (.reg a.2)
  placed : ∀ iv ∈ done,
    (∃ r ∈ scan.regs, st.alloc.get? iv.id = some (.reg r) ∧ ((iv, r) ∈ st.active ∨ iv.stop < now)) ∨
    ∃ loc, st.alloc.get? iv.id = some loc ∧ scan.IsSlot st.alloc.frame iv.kind loc
  apart : ∀ iv ∈ done, ∀ jv ∈ done, iv.id ≠ jv.id → ∀ loc loc', st.alloc.get? iv.id = some loc →
    st.alloc.get? jv.id = some loc' → Separate iv loc jv loc'

theorem Separate.symm {iv jv : Interval} {loc loc' : Location} (h : Separate iv loc jv loc') :
    Separate jv loc' iv loc := by
  cases loc <;> cases loc' <;> simp only [Separate] at h ⊢
  · exact fun hr => (h hr.symm).symm
  · exact h.symm

theorem IsSlot.mono {frame frame' : Nat} {k : Kind} {loc : Location} (h : scan.IsSlot frame k loc)
    (hle : frame ≤ frame') : scan.IsSlot frame' k loc := by
  obtain ⟨o, h1, h2, h3⟩ := h
  exact ⟨o, h1, h2, h3.trans hle⟩

theorem get?_spill (iv : Interval) (a : Allocation) (i : Nat) :
    (scan.spill iv a).2.get? i = if i = iv.id then some (.stack scan.stackPointer a.frame) else a.get? i :=
  Allocation.get?_assign _ _ _ _

@[simp] theorem frame_spill (iv : Interval) (a : Allocation) :
    (scan.spill iv a).2.frame = a.frame + slotSize iv.kind := rfl

/-- A slot taken just now is apart from every place that was there before. -/
theorem separate_newSlot {done : List Interval} {now : Nat} {st : State} (h : Inv scan done now st) {jv : Interval}
    (hj : jv ∈ done) {loc : Location} (hloc : st.alloc.get? jv.id = some loc) (iv : Interval) :
    Separate iv (.stack scan.stackPointer st.alloc.frame) jv loc := by
  rcases h.placed jv hj with ⟨r, -, hr, -⟩ | ⟨loc', hl, o, rfl, -, ho⟩
  · obtain rfl : loc = .reg r := by rw [hloc] at hr; exact Option.some.inj hr
    trivial
  · obtain rfl : loc = .stack scan.stackPointer o := by rw [hloc] at hl; exact Option.some.inj hl
    right
    exact_mod_cast ho

theorem expire_eq (p : Nat) (st : State) : scan.expire p st =
    { st with
      active := st.active.filter (fun a => !decide (a.1.stop < p)),
      free := (st.free ++ (st.active.filter (fun a => decide (a.1.stop < p))).map (·.2)).mergeSort
        fun a b => scan.rank a ≤ scan.rank b } := by
  have hparts : st.active.partition (fun a : Interval × HardReg => decide (a.1.stop < p)) =
      (st.active.filter (fun a => decide (a.1.stop < p)),
        st.active.filter (fun a => !decide (a.1.stop < p))) := by
    rw [List.partition_eq_filter_filter]
    rfl
  unfold LinearScan.expire
  rw [hparts]

theorem mem_active_expire {p : Nat} {st : State} {a : Interval × HardReg} :
    a ∈ (scan.expire p st).active ↔ a ∈ st.active ∧ ¬ a.1.stop < p := by
  rw [expire_eq]
  simp [List.mem_filter]

/-- No register is lost. -/
theorem perm_expire (p : Nat) (st : State) : ((scan.expire p st).free ++ (scan.expire p st).active.map (·.2)).Perm
    (st.free ++ st.active.map (·.2)) := by
  rw [expire_eq]
  refine ((List.mergeSort_perm _ _).append_right _).trans ?_
  rw [List.append_assoc, ← List.map_append]
  exact ((List.filter_append_perm _ st.active).map _).append_left _

theorem Inv.expire {done : List Interval} {now : Nat} {st : State} (h : Inv scan done now st) {p : Nat}
    (hp : now ≤ p) : Inv scan done p (scan.expire p st) := by
  have hperm := @perm_expire scan p st
  have halloc : (scan.expire p st).alloc = st.alloc := by rw [expire_eq]
  refine ⟨hperm.nodup_iff.2 h.held_once, fun r hr => h.held_mem r (hperm.mem_iff.1 hr), ?_, ?_, ?_, ?_⟩
  · rw [halloc]
    exact h.frame_dvd
  · intro a ha
    rw [halloc]
    exact h.active a (mem_active_expire.1 ha).1
  · intro iv hiv
    rw [halloc]
    rcases h.placed iv hiv with ⟨r, hr, hg, hact | hlt⟩ | hs
    · left
      refine ⟨r, hr, hg, ?_⟩
      by_cases hlt : iv.stop < p
      · exact Or.inr hlt
      · exact Or.inl (mem_active_expire.2 ⟨hact, hlt⟩)
    · exact Or.inl ⟨r, hr, hg, Or.inr (by omega)⟩
    · exact Or.inr hs
  · rw [halloc]
    exact h.apart

section Step

variable {done : List Interval} {now : Nat} {st : State} (h : Inv scan done now st)
include h

/-- An interval takes a register that nobody holds. -/
theorem Inv.take {iv : Interval} (hid : iv.id ∉ done.map (·.id)) (hnow : iv.start = now) {r : HardReg}
    (hr : r ∈ scan.regs) (hfree : r ∉ st.free ++ st.active.map (·.2)) :
    Inv scan (done ++ [iv]) now (take iv r st) := by
  have hne : ∀ jv ∈ done, jv.id ≠ iv.id := fun jv hj he => hid (List.mem_map.2 ⟨jv, hj, he⟩)
  have hget : ∀ jv ∈ done, (LinearScan.take iv r st).alloc.get? jv.id = st.alloc.get? jv.id := by
    intro jv hj
    simp [LinearScan.take, hne jv hj]
  have hself : (LinearScan.take iv r st).alloc.get? iv.id = some (.reg r) := by simp [LinearScan.take]
  -- whoever was given `r` before has given it back
  have hearlier : ∀ jv ∈ done, ∀ loc, st.alloc.get? jv.id = some loc → Separate jv loc iv (.reg r) := by
    intro jv hj loc hloc
    rcases h.placed jv hj with ⟨r', -, hr', hact | hlt⟩ | ⟨loc', hl, o, rfl, -, -⟩
    · obtain rfl : loc = .reg r' := by rw [hloc] at hr'; exact Option.some.inj hr'
      rintro rfl
      exact absurd (List.mem_append_right _ (List.mem_map.2 ⟨_, hact, rfl⟩)) hfree
    · obtain rfl : loc = .reg r' := by rw [hloc] at hr'; exact Option.some.inj hr'
      intro _
      left
      omega
    · obtain rfl : loc = .stack scan.stackPointer o := by rw [hloc] at hl; exact Option.some.inj hl
      trivial
  refine ⟨?_, ?_, h.frame_dvd, ?_, ?_, ?_⟩
  · show (st.free ++ (st.active ++ [(iv, r)]).map (·.2)).Nodup
    rw [List.map_append, ← List.append_assoc]
    refine List.nodup_append.2 ⟨h.held_once, by simp, ?_⟩
    intro a ha b hb hab
    rw [List.map_singleton, List.mem_singleton] at hb
    subst hab hb
    exact hfree ha
  · show ∀ a ∈ st.free ++ (st.active ++ [(iv, r)]).map (·.2), a ∈ scan.regs
    intro a ha
    rw [List.map_append, ← List.append_assoc] at ha
    rcases List.mem_append.1 ha with ha | ha
    · exact h.held_mem a ha
    · rw [List.map_singleton, List.mem_singleton] at ha
      exact ha ▸ hr
  · intro a ha
    rcases List.mem_append.1 ha with ha | ha
    · obtain ⟨h1, h2⟩ := h.active a ha
      exact ⟨List.mem_append_left _ h1, by rw [hget _ h1, h2]⟩
    · rw [List.mem_singleton] at ha
      subst ha
      exact ⟨by simp, hself⟩
  · intro jv hj
    rcases List.mem_append.1 hj with hj | hj
    · rw [hget jv hj]
      rcases h.placed jv hj with ⟨r', h1, h2, hact | hlt⟩ | hs
      · exact Or.inl ⟨r', h1, h2, Or.inl (List.mem_append_left _ hact)⟩
      · exact Or.inl ⟨r', h1, h2, Or.inr hlt⟩
      · exact Or.inr hs
    · rw [List.mem_singleton] at hj
      subst hj
      exact Or.inl ⟨r, hr, hself, Or.inl (List.mem_append_right _ (by simp))⟩
  · refine forall_pairs_concat ?_ ?_ ?_
    · exact fun a b hab loc loc' hl hl' => (hab loc' loc hl' hl).symm
    · intro iv₁ h₁ iv₂ h₂ hne₁₂
      rw [hget _ h₁, hget _ h₂]
      exact h.apart iv₁ h₁ iv₂ h₂ hne₁₂
    · intro jv hj loc loc' hl hl'
      rw [hget _ hj] at hl
      rw [hself] at hl'
      exact Option.some.inj hl' ▸ hearlier jv hj loc hl

/-- A new interval goes to the stack. -/
theorem Inv.spill {iv : Interval} (hid : iv.id ∉ done.map (·.id)) :
    Inv scan (done ++ [iv]) now { st with alloc := (scan.spill iv st.alloc).2 } := by
  have hne : ∀ jv ∈ done, jv.id ≠ iv.id := fun jv hj he => hid (List.mem_map.2 ⟨jv, hj, he⟩)
  have hget : ∀ jv ∈ done, (scan.spill iv st.alloc).2.get? jv.id = st.alloc.get? jv.id := by
    intro jv hj
    rw [get?_spill, if_neg (hne jv hj)]
  have hself : (scan.spill iv st.alloc).2.get? iv.id = some (.stack scan.stackPointer st.alloc.frame) := by
    rw [get?_spill, if_pos rfl]
  refine ⟨h.held_once, h.held_mem, ?_, ?_, ?_, ?_⟩
  · exact Nat.dvd_add h.frame_dvd (eight_dvd_slotSize _)
  · intro a ha
    obtain ⟨h1, h2⟩ := h.active a ha
    exact ⟨List.mem_append_left _ h1, (hget _ h1).trans h2⟩
  · intro jv hj
    rcases List.mem_append.1 hj with hj | hj
    · simp only [hget jv hj]
      rcases h.placed jv hj with hr | ⟨loc, h1, h2⟩
      · exact Or.inl hr
      · exact Or.inr ⟨loc, h1, h2.mono (by simp)⟩
    · rw [List.mem_singleton] at hj
      subst hj
      exact Or.inr ⟨_, hself, st.alloc.frame, rfl, h.frame_dvd, by simp⟩
  · refine forall_pairs_concat ?_ ?_ ?_
    · exact fun a b hab loc loc' hl hl' => (hab loc' loc hl' hl).symm
    · intro iv₁ h₁ iv₂ h₂ hne₁₂
      simp only [hget _ h₁, hget _ h₂]
      exact h.apart iv₁ h₁ iv₂ h₂ hne₁₂
    · intro jv hj loc loc' hl hl'
      simp only [hget _ hj] at hl
      simp only [hself] at hl'
      exact Option.some.inj hl' ▸ (separate_newSlot h hj hl iv).symm

/-- An interval that holds a register goes to the stack; the register is then held by nobody. -/
theorem Inv.evict (hids : (done.map (·.id)).Nodup) {old : Interval} {r : HardReg} (ha : (old, r) ∈ st.active) :
    Inv scan done now (scan.evict old st) ∧ r ∈ scan.regs ∧
      r ∉ (scan.evict old st).free ++ (scan.evict old st).active.map (·.2) := by
  obtain ⟨hold, hreg⟩ := h.active _ ha
  have hsame : ∀ jv ∈ done, jv.id = old.id → jv = old := fun jv hj he => List.inj_on_of_nodup_map hids hj hold he
  have hactive : ∀ a, a ∈ (scan.evict old st).active ↔ a ∈ st.active ∧ a.1.id ≠ old.id := by
    intro a
    simp [LinearScan.evict, List.mem_filter]
  have hsub : ((scan.evict old st).free ++ (scan.evict old st).active.map (·.2)).Sublist
      (st.free ++ st.active.map (·.2)) :=
    (List.Sublist.refl _).append (List.filter_sublist.map _)
  have hself : (scan.evict old st).alloc.get? old.id = some (.stack scan.stackPointer st.alloc.frame) := by
    simp [LinearScan.evict, get?_spill]
  have hget : ∀ jv ∈ done, jv.id ≠ old.id → (scan.evict old st).alloc.get? jv.id = st.alloc.get? jv.id := by
    intro jv _ hne
    simp [LinearScan.evict, get?_spill, hne]
  refine ⟨⟨h.held_once.sublist hsub, fun a ha => h.held_mem a (hsub.subset ha), ?_, ?_, ?_, ?_⟩, ?_, ?_⟩
  · exact Nat.dvd_add h.frame_dvd (eight_dvd_slotSize _)
  · intro a ha
    obtain ⟨ha, hne⟩ := (hactive a).1 ha
    obtain ⟨h1, h2⟩ := h.active a ha
    exact ⟨h1, (hget _ h1 hne).trans h2⟩
  · intro jv hj
    by_cases he : jv.id = old.id
    · obtain rfl := hsame jv hj he
      exact Or.inr ⟨_, hself, st.alloc.frame, rfl, h.frame_dvd, by simp [LinearScan.evict]⟩
    · rw [hget jv hj he]
      rcases h.placed jv hj with ⟨r', h1, h2, hact | hlt⟩ | ⟨loc, h1, h2⟩
      · exact Or.inl ⟨r', h1, h2, Or.inl ((hactive _).2 ⟨hact, he⟩)⟩
      · exact Or.inl ⟨r', h1, h2, Or.inr hlt⟩
      · exact Or.inr ⟨loc, h1, h2.mono (by simp [LinearScan.evict])⟩
  · intro iv₁ h₁ iv₂ h₂ hne₁₂ loc loc' hl hl'
    by_cases he₁ : iv₁.id = old.id
    · obtain rfl := hsame iv₁ h₁ he₁
      rw [hself] at hl
      rw [hget _ h₂ (Ne.symm hne₁₂)] at hl'
      exact (Option.some.inj hl) ▸ separate_newSlot h h₂ hl' iv₁
    · rw [hget _ h₁ he₁] at hl
      by_cases he₂ : iv₂.id = old.id
      · obtain rfl := hsame iv₂ h₂ he₂
        rw [hself] at hl'
        exact (Option.some.inj hl') ▸ (separate_newSlot h h₁ hl iv₂).symm
      · rw [hget _ h₂ he₂] at hl'
        exact h.apart iv₁ h₁ iv₂ h₂ hne₁₂ loc loc' hl hl'
  · exact h.held_mem r (List.mem_append_right _ (List.mem_map.2 ⟨_, ha, rfl⟩))
  · intro hr
    have hdis := List.nodup_append.1 h.held_once
    rcases List.mem_append.1 hr with hr | hr
    · exact hdis.2.2 r hr r (List.mem_map.2 ⟨_, ha, rfl⟩) rfl
    · obtain ⟨b, hb, hbr⟩ := List.mem_map.1 hr
      obtain ⟨hb, hne⟩ := (hactive b).1 hb
      have : b = (old, r) := List.inj_on_of_nodup_map hdis.2.1 hb ha hbr
      exact hne (this ▸ rfl)

end Step

/-- One step keeps the invariant. -/
theorem Inv.place {done : List Interval} {now : Nat} {st : State} (h : Inv scan done now st)
    (hids : (done.map (·.id)).Nodup) (calls : List Nat) {iv : Interval} (hid : iv.id ∉ done.map (·.id))
    (hnow : now ≤ iv.start) (log : Log) : Inv scan (done ++ [iv]) iv.start (scan.place calls st iv log).1 := by
  have h₁ := h.expire hnow
  rcases @place_cases scan calls st iv log with ⟨r, hf, he⟩ | ⟨old, r, -, hv, -, he⟩ | ⟨-, -, he⟩
  · rw [he]
    have hperm := (perm_eraseP_of_find? hf).append_right ((scan.expire iv.start st).active.map (·.2))
    have hnd := hperm.nodup_iff.1 h₁.held_once
    rw [List.cons_append, List.nodup_cons] at hnd
    have h₂ : Inv scan done iv.start { scan.expire iv.start st with
        free := (scan.expire iv.start st).free.eraseP (scan.usable calls iv) } :=
      ⟨hnd.2, fun a ha => h₁.held_mem a (hperm.mem_iff.2 (List.mem_cons_of_mem _ ha)), h₁.frame_dvd, h₁.active,
        h₁.placed, h₁.apart⟩
    exact h₂.take hid rfl (h₁.held_mem r (hperm.mem_iff.2 List.mem_cons_self)) hnd.1
  · rw [he]
    obtain ⟨h₂, hr, hfree⟩ := h₁.evict hids (mem_of_victim hv)
    exact h₂.take hid rfl hr hfree
  · rw [he]
    exact h₁.spill hid

/-- The scan keeps the invariant over intervals in the order of their starts. -/
theorem Inv.init (hregs : scan.regs.Nodup) : Inv scan [] 0 { free := scan.regs } :=
  ⟨by simpa using hregs, by simp, Nat.dvd_zero _, by simp, by simp, by simp⟩

theorem Inv.run (calls : List Nat) : ∀ (ivs done : List Interval) (now : Nat) (st : State) (log : Log),
    Inv scan done now st → ((done ++ ivs).map (·.id)).Nodup → (∀ iv ∈ ivs, now ≤ iv.start) →
    ivs.Pairwise (fun a b => a.start ≤ b.start) →
    ∃ now', Inv scan (done ++ ivs) now' (ivs.foldlM (scan.place calls) st log).1
  | [], done, now, st, log, h, _, _, _ => ⟨now, by rw [List.append_nil]; exact h⟩
  | iv :: ivs, done, now, st, log, h, hids, hnow, hsorted => by
    have hids' : ((done ++ [iv] ++ ivs).map (·.id)).Nodup := by simpa using hids
    have hdone : (done.map (·.id)).Nodup ∧ iv.id ∉ done.map (·.id) := by
      rw [List.map_append] at hids
      have hsplit := List.nodup_append.1 hids
      exact ⟨hsplit.1, fun hm => hsplit.2.2 _ hm _ List.mem_cons_self rfl⟩
    obtain ⟨hfirst, hrest⟩ := List.pairwise_cons.1 hsorted
    have hstep := h.place hdone.1 calls hdone.2 (hnow iv List.mem_cons_self) log
    obtain ⟨now', h'⟩ := Inv.run calls ivs (done ++ [iv]) iv.start _ (scan.place calls st iv log).2 hstep hids'
      hfirst hrest
    refine ⟨now', ?_⟩
    rw [show done ++ iv :: ivs = done ++ [iv] ++ ivs by simp, List.foldlM_cons]
    exact h'

/-! ## Allocations of a function -/

theorem byStart_pairwise (ivs : List Interval) : (byStart ivs).Pairwise (fun a b => a.start ≤ b.start) := by
  have h := @List.pairwise_mergeSort Interval
    (fun a b => decide (a.start < b.start) || (a.start == b.start && decide (a.id ≤ b.id)))
    (by intro a b c; simp; omega) (by intro a b; simp; omega) ivs
  refine h.imp fun {a b} hab => ?_
  simp at hab
  omega

/-- What an allocation promises: every interval has a place, a register of the list or a slot of the stack area, and
intervals of different registers do not disturb each other. -/
structure Spec (scan : LinearScan) (ivs : List Interval) (a : Allocation) : Prop where
  placed : ∀ iv ∈ ivs, ∃ loc, a.get? iv.id = some loc ∧
    ((∃ r ∈ scan.regs, loc = .reg r) ∨ scan.IsSlot a.frame iv.kind loc)
  apart : ∀ iv ∈ ivs, ∀ jv ∈ ivs, iv.id ≠ jv.id → ∀ loc loc', a.get? iv.id = some loc →
    a.get? jv.id = some loc' → Separate iv loc jv loc'

theorem le_roundUp (n : Nat) {m : Nat} (hm : 0 < m) : n ≤ roundUp n m := by
  have h := Nat.div_add_mod (n + m - 1) m
  have hlt := Nat.mod_lt (n + m - 1) hm
  have hc : (n + m - 1) / m * m = m * ((n + m - 1) / m) := Nat.mul_comm _ _
  unfold roundUp
  omega

theorem allocate_spec (hregs : scan.regs.Nodup) (f : Flat) (log : Log) :
    Spec scan f.intervals (scan.allocate f log).1 := by
  have hperm : (byStart f.intervals).Perm f.intervals := List.mergeSort_perm _ _
  have hids : ((byStart f.intervals).map (·.id)).Nodup := (hperm.map _).nodup_iff.2 f.noted_intervals.nodup
  obtain ⟨now, h⟩ := Inv.run f.callPositions (byStart f.intervals) [] 0 { free := scan.regs } log (.init hregs)
    (by simpa using hids) (by simp) (byStart_pairwise _)
  rw [List.nil_append] at h
  generalize hst : ((byStart f.intervals).foldlM (scan.place f.callPositions) { free := scan.regs } log).1 = st at h
  have hget : ∀ i, (scan.allocate f log).1.get? i = st.alloc.get? i := by
    intro i
    rw [← hst]
    rfl
  have hframe : st.alloc.frame ≤ (scan.allocate f log).1.frame := by
    rw [← hst]
    exact le_roundUp _ (by omega)
  refine ⟨?_, ?_⟩
  · intro iv hiv
    simp only [hget]
    rcases h.placed iv (hperm.mem_iff.2 hiv) with ⟨r, hr, hg, -⟩ | ⟨loc, hg, hs⟩
    · exact ⟨_, hg, Or.inl ⟨r, hr, rfl⟩⟩
    · exact ⟨loc, hg, Or.inr (hs.mono hframe)⟩
  · intro iv hiv jv hjv hne loc loc' hl hl'
    rw [hget] at hl hl'
    exact h.apart iv (hperm.mem_iff.2 hiv) jv (hperm.mem_iff.2 hjv) hne loc loc' hl hl'

/-- Intervals that cover one position have different places. -/
theorem Spec.ne_of_covers {ivs : List Interval} {a : Allocation} (h : Spec scan ivs a) {iv jv : Interval}
    (hi : iv ∈ ivs) (hj : jv ∈ ivs) (hne : iv.id ≠ jv.id) {p : Nat} (hip : iv.covers p = true)
    (hjp : jv.covers p = true) : ∃ loc loc', a.get? iv.id = some loc ∧ a.get? jv.id = some loc' ∧ loc ≠ loc' := by
  obtain ⟨loc, hl, -⟩ := h.placed iv hi
  obtain ⟨loc', hl', -⟩ := h.placed jv hj
  refine ⟨loc, loc', hl, hl', ?_⟩
  rintro rfl
  have hsep := h.apart iv hi jv hj hne loc loc hl hl'
  have hi' := Interval.covers_iff.1 hip
  have hj' := Interval.covers_iff.1 hjp
  cases loc with
  | reg r =>
    rcases hsep rfl with h | h <;> omega
  | stack b o =>
    have := slotSize_pos iv.kind
    have := slotSize_pos jv.kind
    rcases hsep with h | h <;> omega

/-- Registers that are live at one position have different places. -/
theorem allocate_ne_of_live (hregs : scan.regs.Nodup) (f : Flat) (hl : f.LabelsOnce) (log : Log) {i j p : Nat}
    (hij : i ≠ j) (hi : f.Live i p) (hj : f.Live j p) :
    ∃ loc loc', (scan.allocate f log).1.get? i = some loc ∧ (scan.allocate f log).1.get? j = some loc' ∧
      loc ≠ loc' := by
  obtain ⟨iv, hiv, rfl, hip⟩ := hi.covered hl
  obtain ⟨jv, hjv, rfl, hjp⟩ := hj.covered hl
  exact (allocate_spec hregs f log).ne_of_covers hiv hjv hij hip hjp

/-- A loop that reads `s257` at its top only; at position 4, where `s258` is written, `s257` is live along the jump
back from position 5. -/
def carriedLoop : Flat where
  func := Func.empty "loop" ⟨[.int64], []⟩
  code :=
    let s := fun i => Expr.reg (Func.softReg i .int64)
    #[.binary .assign .int64 (s 1) (.const (Const.int64 1)), .label ⟨0⟩, .binary (.compound .add) .int64 (s 0) (s 1),
      .binary .assign .int64 (s 2) (.const (Const.int64 0)),
      .binary .jumpIf .void (.label ⟨0⟩) (.binary (.compare .neq) .bool (s 0) (.const (Const.int64 0)))]

theorem allocate_ne_of_live_carriedLoop :
    [(⟨.amd64, 6⟩ : HardReg)].Nodup ∧ carriedLoop.LabelsOnce ∧ carriedLoop.Live 257 4 ∧ carriedLoop.Live 258 4 ∧
      ∃ loc loc', (allocate ⟨[⟨.amd64, 6⟩], [], ⟨.amd64, 4⟩⟩ carriedLoop #[]).1.get? 257 = some loc ∧
        (allocate ⟨[⟨.amd64, 6⟩], [], ⟨.amd64, 4⟩⟩ carriedLoop #[]).1.get? 258 = some loc' ∧ loc ≠ loc' := by
  have hnodup : [(⟨.amd64, 6⟩ : HardReg)].Nodup := by decide
  have honce : carriedLoop.LabelsOnce := by
    intro i j l hi hj
    have hi' : i < 5 := (Array.getElem?_eq_some_iff.1 hi).1
    have hj' : j < 5 := (Array.getElem?_eq_some_iff.1 hj).1
    interval_cases i <;> simp [carriedLoop] at hi
    interval_cases j <;> simp [carriedLoop] at hj
    rfl
  have hnext : ∀ i < 4, carriedLoop.Edge (i + 1) (i + 2) := by
    intro i hi
    interval_cases i <;> exact Flat.Edge.next rfl rfl
  have hback : carriedLoop.Edge 5 2 := Flat.Edge.jump (i := 4) (j := 1) rfl rfl rfl
  have hround : carriedLoop.Path 4 3 :=
    ((Relation.ReflTransGen.single (hnext 3 (by omega))).tail hback).tail (hnext 1 (by omega))
  have hto : carriedLoop.Path 1 4 :=
    ((Relation.ReflTransGen.single (hnext 0 (by omega))).tail (hnext 1 (by omega))).tail (hnext 2 (by omega))
  have hs257 : carriedLoop.Live 257 4 :=
    ⟨1, 3, ⟨Func.softReg 1 .int64, rfl, by decide⟩, hto, hround, ⟨Func.softReg 1 .int64, rfl, by decide⟩⟩
  have hs258 : carriedLoop.Live 258 4 :=
    ⟨4, 4, ⟨Func.softReg 2 .int64, rfl, by decide⟩, .refl, .refl, ⟨Func.softReg 2 .int64, rfl, by decide⟩⟩
  exact ⟨hnodup, honce, hs257, hs258, allocate_ne_of_live hnodup _ honce _ (by decide) hs257 hs258⟩

/-! ## Places -/

/-- A register of the list, or a slot within an area of `frame` bytes. -/
def IsSite (scan : LinearScan) (frame : Nat) (loc : Location) : Prop :=
  (∃ r ∈ scan.regs, loc = .reg r) ∨ ∃ o : Nat, loc = .stack scan.stackPointer o ∧ o + 8 ≤ frame

theorem IsSite.mono {m n : Nat} {loc : Location} (h : scan.IsSite m loc) (hle : m ≤ n) : scan.IsSite n loc :=
  h.imp_right fun ⟨o, ho, hm⟩ => ⟨o, ho, hm.trans hle⟩

/-- The registers at hand are those of the list, and every place is one of them or a slot. -/
structure Sited (scan : LinearScan) (st : State) : Prop where
  free : ∀ r ∈ st.free, r ∈ scan.regs
  active : ∀ a ∈ st.active, a.2 ∈ scan.regs
  places : ∀ {i loc}, st.alloc.get? i = some loc → scan.IsSite st.alloc.frame loc

theorem Sited.expire {st : State} (h : Sited scan st) (p : Nat) : Sited scan (scan.expire p st) := by
  unfold LinearScan.expire
  rw [List.partition_eq_filter_filter]
  refine ⟨?_, fun a ha => h.active a (List.mem_filter.1 ha).1, h.places⟩
  intro r hr
  rw [List.mem_mergeSort, List.mem_append, List.mem_map] at hr
  rcases hr with hr | ⟨a, ha, rfl⟩
  · exact h.free r hr
  · exact h.active a (List.mem_filter.1 ha).1

theorem Sited.take {st : State} (h : Sited scan st) (iv : Interval) {r : HardReg} (hr : r ∈ scan.regs) :
    Sited scan (take iv r st) := by
  refine ⟨h.free, ?_, ?_⟩
  · intro a ha
    rcases List.mem_append.1 ha with ha | ha
    · exact h.active a ha
    · obtain rfl := List.mem_singleton.1 ha
      exact hr
  · intro i loc hi
    simp only [LinearScan.take, Allocation.get?_assign] at hi
    split at hi
    · cases hi
      exact .inl ⟨r, hr, rfl⟩
    · exact h.places hi

theorem Sited.spill {st : State} (h : Sited scan st) (iv : Interval) :
    Sited scan { st with alloc := (scan.spill iv st.alloc).2 } := by
  refine ⟨h.free, h.active, ?_⟩
  intro i loc hi
  rw [get?_spill] at hi
  split at hi
  · cases hi
    have := Nat.le_of_dvd (slotSize_pos iv.kind) (eight_dvd_slotSize iv.kind)
    exact .inr ⟨_, rfl, by rw [frame_spill]; omega⟩
  · exact (h.places hi).mono (by rw [frame_spill]; omega)

/-- One step keeps the places in order. -/
theorem Sited.place {st : State} (h : Sited scan st) (calls : List Nat) (iv : Interval) (log : Log) :
    Sited scan (scan.place calls st iv log).1 := by
  have h₁ := h.expire iv.start
  rcases @place_cases scan calls st iv log with ⟨r, hf, he⟩ | ⟨old, r, -, hv, -, he⟩ | ⟨-, -, he⟩
  · rw [he]
    have h₂ : Sited scan { scan.expire iv.start st with
        free := (scan.expire iv.start st).free.eraseP (scan.usable calls iv) } :=
      ⟨fun a ha => h₁.free a (List.mem_of_mem_eraseP ha), h₁.active, h₁.places⟩
    exact h₂.take iv (h₁.free r (List.mem_of_find?_eq_some hf))
  · rw [he]
    have h₂ : Sited scan (scan.evict old (scan.expire iv.start st)) :=
      ⟨h₁.free, fun a ha => h₁.active a (List.mem_filter.1 ha).1, (h₁.spill old).places⟩
    exact h₂.take iv (h₁.active _ (mem_of_victim hv))
  · rw [he]
    exact h₁.spill iv

theorem Sited.run (calls : List Nat) : ∀ (ivs : List Interval) {st : State} (log : Log), Sited scan st →
    Sited scan (ivs.foldlM (scan.place calls) st log).1
  | [], _, _, h => h
  | iv :: ivs, st, log, h => by
    rw [List.foldlM_cons]
    exact Sited.run calls ivs _ (h.place calls iv log)

/-- Every place of an allocation is a register of the list or a slot of its area. -/
theorem allocate_places (f : Flat) (log : Log) {i : Nat} {loc : Location}
    (h : (scan.allocate f log).1.get? i = some loc) : scan.IsSite (scan.allocate f log).1.frame loc := by
  have h0 : Sited scan { free := scan.regs } := ⟨fun _ hr => hr, by simp, by rintro i loc ⟨⟩⟩
  exact ((h0.run f.callPositions (byStart f.intervals) log).places h).mono (le_roundUp _ (by omega))

end LinearScan

end JitBackend
