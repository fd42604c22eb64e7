import JitBackend.Proofs.Amd64.Activation

/-!
# Runs of selected code

`Does A act μ m Q` says of a computation of selection: from any session at the mark `μ`, if it succeeds and takes no
more stack temporaries than the activation has room for, then the code that it appends takes the machine `m` to one that
satisfies `Q`, together with the result and the mark it leaves. There is one rule for each way to compose computations.
-/

namespace JitBackend.Amd64

open Lower

/-- The code that the computation appends takes `m` to a machine that satisfies `Q`. -/
def Does {α : Type} (A : Activation) (act : Lower α) (μ : Mark) (m : Machine) (Q : α → Mark → Machine → Prop) : Prop :=
  ∀ s a s' code, s.mark = μ → Gives A.frame act s a s' → s'.tempPeak ≤ A.limit → s.Grown s' code →
    ∃ m', exec code (.at m) = .at m' ∧ Q a s'.mark m'

theorem exec_append (code code' : List Expr) (q : Status) : exec (code ++ code') q = exec code' (exec code q) :=
  List.foldl_append

/-- A session shows what was appended to it. -/
theorem code_eq_of_grown {s s' : Session} {code code' : List Expr} (h : s.Grown s' code) (h' : s.Grown s' code') :
    code = code' := by
  have hmap := List.append_cancel_left (h.items.symm.trans h'.items)
  exact (List.map_injective_iff.2 fun a b hab => Item.instr.inj hab) hmap

/-- New code does not place an old label. -/
theorem not_placed_of_grown {s s' : Session} {code : List Expr} {l : Label} (h : s.Grown s' code)
    (hl : l.index < s.labels.size) : l ∉ placed code := by
  intro hmem
  have := (h.fresh.range l hmem).1
  omega

namespace Does

variable {α β : Type} {A : Activation} {μ : Mark} {m : Machine}

theorem run {act : Lower α} {Q : α → Mark → Machine → Prop} {s s' : Session} {a : α} {code : List Expr}
    (h : Does A act μ m Q) (hg : Gives A.frame act s a s') (hs : s.mark = μ) (hp : s'.tempPeak ≤ A.limit)
    (hgr : s.Grown s' code) : ∃ m', exec code (.at m) = .at m' ∧ Q a s'.mark m' := h s a s' code hs hg hp hgr

theorem of_eq {act : Lower α} {Q : α → Mark → Machine → Prop}
    (h : ∀ {s a s'}, s.mark = μ → Gives A.frame act s a s' → s'.items = s.items ∧ (s'.tempPeak ≤ A.limit → Q a s'.mark m)) :
    Does A act μ m Q := by
  intro s a s' code hs hg hp hgr
  obtain ⟨hi, hq⟩ := h hs hg
  have hcode : code = [] := by
    have hitems := hgr.items
    rw [hi] at hitems
    simpa using hitems
  subst hcode
  exact ⟨m, rfl, hq hp⟩

theorem pure {a : α} {Q : α → Mark → Machine → Prop} (h : Q a μ m) : Does A (Pure.pure a) μ m Q :=
  of_eq fun hs hg => by
    obtain ⟨rfl, rfl⟩ := hg.pure
    exact ⟨rfl, fun _ => hs ▸ h⟩

theorem lift {x : Except Error α} {Q : α → Mark → Machine → Prop} (h : ∀ a, x = .ok a → Q a μ m) :
    Does A (liftM x : Lower α) μ m Q :=
  of_eq fun hs hg => by
    obtain ⟨hx, rfl⟩ := hg.lift
    exact ⟨rfl, fun _ => hs ▸ h _ hx⟩

theorem read {Q : Frame → Mark → Machine → Prop} (h : Q A.frame μ m) : Does A (MonadReader.read : Lower Frame) μ m Q :=
  of_eq fun hs hg => by
    obtain ⟨rfl, rfl⟩ := hg.read
    exact ⟨rfl, fun _ => hs ▸ h⟩

theorem resolve {r : Reg} {Q : Expr → Mark → Machine → Prop} (h : ∀ v, A.frame.resolve r = .ok v → Q v μ m) :
    Does A (Lower.resolve r) μ m Q :=
  of_eq fun hs hg => by
    obtain ⟨hr, rfl⟩ := hg.resolve
    exact ⟨rfl, fun _ => hs ▸ h _ hr⟩

theorem emit {e : Expr} {Q : Unit → Mark → Machine → Prop} {m' : Machine} (h : step e (.at m) = .at m') (hq : Q () μ m') :
    Does A (Lower.emit e) μ m Q := by
  intro s a s' code hs hg hp hgr
  obtain rfl := hg.emit
  have hcode : code = [e] := by
    have hitems := hgr.items
    rw [Array.toList_push, List.append_cancel_left_eq] at hitems
    cases code with
    | nil => cases hitems
    | cons x xs =>
      simp only [List.map_cons, List.cons.injEq, Item.instr.injEq, List.nil_eq, List.map_eq_nil_iff] at hitems
      rw [hitems.1, hitems.2]
  subst hcode
  exact ⟨m', h, hs ▸ hq⟩

/-- What a session shows may be used as well. -/
theorem gives {act : Lower α} {Q : α → Mark → Machine → Prop} {P : α → Mark → Prop}
    (hp : ∀ {s a s'}, s.mark = μ → Gives A.frame act s a s' → P a s'.mark)
    (h : Does A act μ m fun a ν m' => P a ν → Q a ν m') : Does A act μ m Q := by
  intro s a s' code hs hg hpk hgr
  obtain ⟨m', hm, hQ⟩ := h s a s' code hs hg hpk hgr
  exact ⟨m', hm, hQ (hp hs hg)⟩

theorem bind_of {act : Lower α} {k : α → Lower β} {Q : β → Mark → Machine → Prop} [hact : Grows A.frame act]
    (h : Does A act μ m fun a ν m₁ => Does A (k a) ν m₁ Q) (hk : ∀ a, Grows A.frame (k a)) : Does A (act >>= k) μ m Q := by
  intro s b s' code hs hg hp hgr
  obtain ⟨a, s₁, h₁, h₂⟩ := hg.bind
  obtain ⟨c₁, hc₁⟩ := hact.grown h₁
  obtain ⟨c₂, hc₂⟩ := (hk a).grown h₂
  obtain rfl := code_eq_of_grown hgr (hc₁.trans hc₂)
  obtain ⟨m₁, hm₁, hrest⟩ := h s a s₁ c₁ hs h₁ (hc₂.peak.trans hp) hc₁
  obtain ⟨m', hm', hq⟩ := hrest s₁ b s' c₂ rfl h₂ hp hc₂
  exact ⟨m', by rw [exec_append, hm₁, hm'], hq⟩

theorem bind {act : Lower α} {k : α → Lower β} {Q : β → Mark → Machine → Prop} [Grows A.frame act]
    [hk : ∀ a, Grows A.frame (k a)] (h : Does A act μ m fun a ν m₁ => Does A (k a) ν m₁ Q) : Does A (act >>= k) μ m Q :=
  bind_of h hk

theorem releasing {act : Lower α} {Q : α → Mark → Machine → Prop} [hst : Steady A.frame act]
    (h : Does A act μ m fun a _ m' => Q a μ m') : Does A (Lower.releasing act) μ m Q := by
  intro s a s' code hs hg hp hgr
  obtain ⟨s₁, h₁, rfl⟩ := hg.releasing
  obtain ⟨c, hc⟩ := hst.grown h₁
  obtain rfl := code_eq_of_grown hgr ((List.append_nil c) ▸ hc.trans (Session.release_grown _ _))
  obtain ⟨m', hm', hq⟩ := h s a s₁ code hs h₁ hp hc
  refine ⟨m', hm', ?_⟩
  rw [Session.mark_release (hst.below h₁), hs]
  exact hq

end Does

/-! ## Slots and temporaries -/

section Slots

variable {A : Activation} {μ : Mark} {m : Machine}

theorem address_slot {sp : Word} (hsp : m.regs rsp = sp) {o : Nat} (ho : o < 2 ^ 31) :
    m.address (.ofBase rsp (.ofNat 32 o)) = sp + .ofNat 64 o := by
  have hext : (BitVec.ofNat 32 o).signExtend 64 = BitVec.ofNat 64 o := by
    rw [BitVec.signExtend_eq_setWidth_of_msb_false]
    · apply BitVec.eq_of_toNat_eq
      simp only [BitVec.toNat_setWidth, BitVec.toNat_ofNat]
      omega
    · rw [BitVec.msb_eq_decide, BitVec.toNat_ofNat]
      simp only [decide_eq_false_iff_not]
      omega
  simp [Machine.address, Machine.term, AddrMode.ofBase, hsp, hext]

/-- The bytes of a slot by their distance from the stack pointer. -/
theorem mem_bytesAt_slot {sp b : Word} {o n : Nat} (ho : o + n < 2 ^ 64) :
    Cell.byte b ∈ bytesAt (sp + .ofNat 64 o) n ↔ o ≤ (b - sp).toNat ∧ (b - sp).toNat < o + n := by
  have hdist : (b - (sp + BitVec.ofNat 64 o)).toNat = ((b - sp).toNat + (2 ^ 64 - o)) % 2 ^ 64 := by
    have hsub : b - (sp + BitVec.ofNat 64 o) = (b - sp) - BitVec.ofNat 64 o := by bv_omega
    rw [hsub, BitVec.toNat_sub, BitVec.toNat_ofNat, Nat.mod_eq_of_lt (a := o) (by omega), Nat.add_comm]
  have hlt : (b - sp).toNat < 2 ^ 64 := (b - sp).isLt
  constructor
  · rintro ⟨b', hb, hlt'⟩
    cases hb
    rw [hdist] at hlt'
    omega
  · rintro ⟨hlo, hhi⟩
    refine ⟨b, rfl, ?_⟩
    rw [hdist]
    omega

/-- A scratch register that is taken is a destination. -/
theorem dest_scratch {i : Nat} {r : HardReg} {k : Kind} (hk : k.isScalar = true) (hi : scratch[i]? = some r) {ν : Mark}
    (hlt : i < ν.scratch) (m : Machine) : Dest A ν m (.reg (.hard k r)) {.reg r} := by
  have hmem : r ∈ scratch := List.mem_of_getElem? hi
  have hgpr : ∀ r ∈ scratch, IsGpr r ∧ r ≠ rsp := by decide
  obtain ⟨hg, hsp⟩ := hgpr r hmem
  exact .reg hk hg hsp (Activation.not_free_of_owned (.inr ⟨i, hi, le_rfl, hlt⟩ : Owned ⟨i, 0⟩ r ν))

theorem Does.scratch {k : Kind} {p : Purpose} {Q : Reg → Mark → Machine → Prop} (hk : k.isScalar = true)
    (h : ∀ r ν, μ ≤ ν → Cell.reg r ∈ A.free μ → (∀ m, Dest A ν m (.reg (.hard k r)) {.reg r}) → Q (.hard k r) ν m) :
    Does A (Lower.scratch k p) μ m Q :=
  .of_eq fun hs hg => by
    obtain ⟨r, hr, rfl, rfl⟩ := scratch_eq_ok hg.change
    rw [A.regs_eq] at hr
    subst hs
    refine ⟨rfl, fun _ => h r _ ⟨Nat.le_succ _, le_rfl⟩ (.inr ⟨_, hr, le_rfl⟩) ?_⟩
    exact dest_scratch hk hr (Nat.lt_succ_self _)

/-- A temporary is a destination made of cells that were free. -/
theorem dest_temp {k : Kind} {p : Purpose} {s s' : Session} {t : Expr} (hk : k.isScalar = true)
    (hg : Gives A.frame (Lower.temp k p) s t s') (hpeak : s'.tempPeak ≤ A.limit) :
    t.kind = k ∧ ∃ T ⊆ A.free s.mark, ∀ m, m.regs rsp = A.sp → Dest A s'.mark m t T := by
  rcases temp_eq_ok hg.change with ⟨q, hq, rfl⟩ | ht
  · obtain ⟨r, hr, rfl, rfl⟩ := scratch_eq_ok hq
    rw [A.regs_eq] at hr
    refine ⟨rfl, {.reg r}, ?_, fun m _ => dest_scratch hk hr (Nat.lt_succ_self _) m⟩
    exact Set.singleton_subset_iff.2 (.inr ⟨_, hr, le_rfl⟩)
  · obtain ⟨sp, hsp, -, rfl, rfl⟩ := stackTemp_eq_ok ht
    rw [A.regs_eq] at hsp
    cases hsp
    have hsize : roundUp (max k.size 1) 8 / 8 = 1 := by
      rcases Kind.size_of_isScalar hk with h | h | h | h <;> rw [h] <;> rfl
    have hle : k.size ≤ 8 := Kind.size_le_of_isScalar hk
    rw [hsize] at hpeak ⊢
    have hlim : s.temps + 1 ≤ A.limit := (le_max_right _ _).trans hpeak
    have hfits := A.fits
    have hoff : s.slotOffset A.frame = A.frame.alloc.frame + 8 * s.temps := by
      simp only [Session.slotOffset, BitVec.toNat_ofNat]
      omega
    rw [hoff]
    have hbytes : ∀ {c}, c ∈ bytesAt (A.sp + .ofNat 64 (A.frame.alloc.frame + 8 * s.temps)) k.size → ∃ b, c = .byte b ∧
        A.frame.alloc.frame + 8 * s.temps ≤ (b - A.sp).toNat ∧
        (b - A.sp).toNat < A.frame.alloc.frame + 8 * s.temps + k.size := by
      rintro c ⟨b, rfl, hb⟩
      exact ⟨b, rfl, (mem_bytesAt_slot (by omega)).1 ⟨b, rfl, hb⟩⟩
    refine ⟨rfl, bytesAt (A.sp + .ofNat 64 (A.frame.alloc.frame + 8 * s.temps)) k.size, ?_, ?_⟩
    · intro c hc
      obtain ⟨b, rfl, hlo, hhi⟩ := hbytes hc
      exact ⟨hlo, show (b - A.sp).toNat < _ by omega⟩
    · intro m hm
      rw [← address_slot hm (by omega)]
      refine .mem hk ?_ ?_
      · intro r hr
        have hr : r = rsp := by simpa [AddrMode.regs, AddrMode.ofBase] using hr
        subst hr
        exact Activation.rsp_not_free
      · rw [address_slot hm (by omega), Set.disjoint_left]
        intro c hc hf
        obtain ⟨b, rfl, hlo, hhi⟩ := hbytes hc
        have hlo' : A.frame.alloc.frame + 8 * (s.temps + 1) ≤ (b - A.sp).toNat := hf.1
        omega

theorem Does.temp {k : Kind} {p : Purpose} {Q : Expr → Mark → Machine → Prop} (hk : k.isScalar = true)
    (h : ∀ t ν T, μ ≤ ν → t.kind = k → T ⊆ A.free μ → (∀ m, m.regs rsp = A.sp → Dest A ν m t T) → Q t ν m) :
    Does A (Lower.temp k p) μ m Q :=
  .of_eq fun hs hg => by
    subst hs
    obtain ⟨hi, -, -, hle⟩ := temp_below hg.change
    refine ⟨hi, fun hpeak => ?_⟩
    obtain ⟨htk, T, hT, hdest⟩ := dest_temp hk hg hpeak
    exact h _ _ T hle htk hT hdest

end Slots

end JitBackend.Amd64
