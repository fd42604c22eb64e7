import JitBackend.Proofs.Amd64.Appending
import JitBackend.Proofs.Amd64.Moves
import JitBackend.Proofs.Amd64.Paths

/-!
# Calls and the scratch registers in use

A call may change every register that it does not have to hand back. Selection stores the scratch registers in use into new
stack temporaries before a call and loads them again after it (`items_emitCall`). So a call site as a whole changes neither
them nor the preserved registers, and of the frame only the temporaries that it took for itself (`Through.callSite`).
-/

namespace JitBackend.Amd64

open Lower

/-! ## Code without jumps -/

/-- Whether control always goes on to the next instruction. -/
def isStraight : Expr → Bool
  | .binary .assign _ _ _ | .call .. => true
  | _ => false

/-- The code leads from one machine to another, instruction by instruction. -/
def Through (top : Word) : List Expr → Machine → Machine → Prop
  | [], m, m' => m' = m
  | e :: code, m, m' => ∃ m₁, Step [] top ([e], m) ([], m₁) ∧ Through top code m₁ m'

section Through

variable {top : Word} {code a b rest : List Expr} {e : Expr} {m m' : Machine} {p : List Expr × Machine}

theorem Through.append (h : Through top (a ++ b) m m') : ∃ m₁, Through top a m m₁ ∧ Through top b m₁ m' := by
  induction a generalizing m with
  | nil => exact ⟨m, rfl, h⟩
  | cons e a ih =>
    obtain ⟨m₁, he, h⟩ := h
    obtain ⟨m₂, ha, hb⟩ := ih h
    exact ⟨m₂, ⟨m₁, he, ha⟩, hb⟩

theorem Step.of_isStraight (he : isStraight e = true) (h : Step code top (e :: rest, m) p) :
    ∃ m₁, p = (rest, m₁) ∧ Step [] top ([e], m) ([], m₁) := by
  cases h with
  | label | jump | stay | branch => cases he
  | call hregs hframe => exact ⟨_, rfl, .call hregs hframe⟩
  | locate hd hx => exact ⟨_, rfl, .locate hd hx⟩
  | run hd hrun => exact ⟨_, rfl, .run hd hrun⟩

/-- Where an instruction has a meaning, a step is its execution. -/
theorem Step.exec {is : List Instr} (hden : denote e = some is) (he : isStraight e = true)
    (h : Step code top (e :: rest, m) (rest, m')) : is.foldlM (fun m i => i.exec m) m = some m' := by
  cases h with
  | label | jump | stay | branch => cases he
  | call => cases hden
  | locate hd => cases hd.symm.trans hden
  | run hd hrun =>
    cases hd.symm.trans hden
    exact hrun

theorem placed_of_isStraight (h : ∀ e ∈ a, isStraight e = true) : placed a = [] := by
  refine List.filterMap_eq_nil_iff.2 fun e he => ?_
  have hstraight := h e he
  cases e <;> first | rfl | cases hstraight

end Through

/-! ## Saved registers -/

/-- The stack temporary at a distance from the stack pointer. -/
def slotAt (o : Nat) : Expr := .memAt .int64 false (.ofBase rsp (.ofNat 32 o))

/-- Registers are stored into slots. -/
def saves (ps : List (HardReg × Nat)) : List Expr :=
  ps.map fun p => .binary .assign .int64 (slotAt p.2) (fixed .int64 p.1)

/-- They are loaded again. -/
def reloads (ps : List (HardReg × Nat)) : List Expr :=
  ps.map fun p => .binary .assign .int64 (fixed .int64 p.1) (slotAt p.2)

/-- A call with registers that are saved around it. -/
def callSite (ps : List (HardReg × Nat)) (call : Expr) : List Expr := saves ps ++ call :: reloads ps.reverse

/-- The cells of the slots, seen from the stack pointer `sp`. -/
def slots (sp : Word) (ps : List (HardReg × Nat)) : Set Cell :=
  {c | ∃ p ∈ ps, c ∈ bytesAt (sp + .ofNat 64 p.2) 8}

/-- Different scratch registers, each with a slot of its own between two distances from the stack pointer. -/
structure Sheltered (lo hi : Nat) (ps : List (HardReg × Nat)) : Prop where
  scratch : ∀ p ∈ ps, p.1 ∈ Amd64.scratch
  nodup : (ps.map (·.1)).Nodup
  apart : ps.Pairwise fun p q => p.2 + 8 ≤ q.2
  within : ∀ p ∈ ps, lo ≤ p.2 ∧ p.2 + 8 ≤ hi

theorem Sheltered.tail {lo hi : Nat} {p : HardReg × Nat} {ps : List (HardReg × Nat)} (h : Sheltered lo hi (p :: ps)) :
    Sheltered lo hi ps :=
  ⟨fun q hq => h.scratch q (List.mem_cons_of_mem _ hq), (List.nodup_cons.1 h.nodup).2, h.apart.tail,
    fun q hq => h.within q (List.mem_cons_of_mem _ hq)⟩

theorem Sheltered.mono {lo lo' hi : Nat} {ps : List (HardReg × Nat)} (h : Sheltered lo hi ps) (hle : lo' ≤ lo) :
    Sheltered lo' hi ps :=
  ⟨h.scratch, h.nodup, h.apart, fun p hp => ⟨hle.trans (h.within p hp).1, (h.within p hp).2⟩⟩

section Saving

variable {top sp : Word} {r : HardReg} {o lo hi : Nat} {m m' : Machine} {ps : List (HardReg × Nat)}

theorem gpr_of_mem_scratch (h : r ∈ scratch) : IsGpr r ∧ r ≠ rsp ∧ r ∉ preserved :=
  (by decide : ∀ r ∈ scratch, IsGpr r ∧ r ≠ rsp ∧ r ∉ preserved) r h

theorem step_save (hr : IsGpr r) (ho : o < 2 ^ 31) (hsp : m.regs rsp = sp)
    (h : Step [] top ([.binary .assign .int64 (slotAt o) (fixed .int64 r)], m) ([], m')) :
    m' = { m with mem := m.mem.write (sp + .ofNat 64 o) 8 (m.regs r) } := by
  have hden : denote (.binary .assign .int64 (slotAt o) (fixed .int64 r)) =
      some [.mov 8 (.mem (.ofBase rsp (.ofNat 32 o))) (.reg r)] := by
    simp [denote, denoteAssign, slotAt, fixed, Reg.hard, operand?_memAt, operand?_reg hr,
      size?_of_isScalar (show Kind.int64.isScalar = true from rfl), show Kind.int64.size = 8 from rfl]
  have hrun : some { m with mem := m.mem.write (sp + .ofNat 64 o) 8 (m.regs r) } = some m' := by
    simpa [Instr.exec, Machine.read, Machine.write, address_slot hsp ho] using h.exec hden rfl
  exact (Option.some.inj hrun).symm

theorem step_reload (hr : IsGpr r) (ho : o < 2 ^ 31) (hsp : m.regs rsp = sp)
    (h : Step [] top ([.binary .assign .int64 (fixed .int64 r) (slotAt o)], m) ([], m')) :
    m' = m.setReg 8 r (m.mem.read (sp + .ofNat 64 o) 8) := by
  have hden : denote (.binary .assign .int64 (fixed .int64 r) (slotAt o)) =
      some [.mov 8 (.reg r) (.mem (.ofBase rsp (.ofNat 32 o)))] := by
    simp [denote, denoteAssign, slotAt, fixed, Reg.hard, operand?_memAt, operand?_reg hr,
      size?_of_isScalar (show Kind.int64.isScalar = true from rfl), show Kind.int64.size = 8 from rfl]
  have hrun : some (m.setReg 8 r (m.mem.read (sp + .ofNat 64 o) 8)) = some m' := by
    simpa [Instr.exec, Machine.read, Machine.write, address_slot hsp ho] using h.exec hden rfl
  exact (Option.some.inj hrun).symm

/-- Stores change their slots only, and these hold the registers then. -/
theorem Through.saves (hps : Sheltered lo hi ps) (hhi : hi < 2 ^ 31) (hsp : m.regs rsp = sp)
    (h : Through top (saves ps) m m') : m'.regs = m.regs ∧ Keeps (slots sp ps) m m' ∧
      ∀ p ∈ ps, m'.mem.read (sp + .ofNat 64 p.2) 8 = m.regs p.1 := by
  induction ps generalizing m with
  | nil =>
    obtain rfl : m' = m := h
    exact ⟨rfl, .refl _ _, by simp⟩
  | cons p ps ih =>
    obtain ⟨m₁, h₁, h⟩ := h
    obtain ⟨hlo, hin⟩ := hps.within p List.mem_cons_self
    have hm₁ := step_save (gpr_of_mem_scratch (hps.scratch p List.mem_cons_self)).1 (by omega) hsp h₁
    have hregs₁ : m₁.regs = m.regs := by rw [hm₁]
    have hfirst : Keeps (slots sp (p :: ps)) m m₁ := by
      refine ⟨fun _ _ => by rw [hregs₁], fun b hb => ?_⟩
      rw [hm₁]
      refine Memory.write_of_ge ?_
      by_contra hlt
      exact hb ⟨p, List.mem_cons_self, b, rfl, by omega⟩
    obtain ⟨hregs, hkeep, hslots⟩ := ih hps.tail (by rw [hregs₁, hsp]) h
    refine ⟨hregs.trans hregs₁, hfirst.trans (hkeep.mono ?_), List.forall_mem_cons.2 ⟨?_, fun q hq => ?_⟩⟩
    · rintro c ⟨q, hq, hc⟩
      exact ⟨q, List.mem_cons_of_mem _ hq, hc⟩
    · -- the other slots lie above the first one
      rw [hkeep.read, hm₁, Memory.read_write, low_eight]
      rw [Set.disjoint_left]
      rintro c ⟨b, rfl, hb⟩ ⟨q, hq, hc⟩
      have hapart := (List.pairwise_cons.1 hps.apart).1 q hq
      have hwithin := hps.within q (List.mem_cons_of_mem _ hq)
      have hb : Cell.byte b ∈ bytesAt (sp + .ofNat 64 p.2) 8 := ⟨b, rfl, hb⟩
      rw [mem_bytesAt_slot (by omega)] at hb hc
      omega
    · rw [hslots q hq, hregs₁]

/-- Loads change their registers only, and these hold the slots then. -/
theorem Through.reloads (hregs : ∀ p ∈ ps, p.1 ∈ scratch ∧ p.2 < 2 ^ 31) (hnodup : (ps.map (·.1)).Nodup)
    (hsp : m.regs rsp = sp) (h : Through top (reloads ps) m m') : m'.mem = m.mem ∧
      (∀ r ∉ ps.map (·.1), m'.regs r = m.regs r) ∧
      ∀ p ∈ ps, m'.regs p.1 = m.mem.read (sp + .ofNat 64 p.2) 8 := by
  induction ps generalizing m with
  | nil =>
    obtain rfl : m' = m := h
    exact ⟨rfl, fun _ _ => rfl, by simp⟩
  | cons p ps ih =>
    obtain ⟨m₁, h₁, h⟩ := h
    obtain ⟨⟨hscratch, ho⟩, hrest⟩ := List.forall_mem_cons.1 hregs
    obtain ⟨hgpr, hne, -⟩ := gpr_of_mem_scratch hscratch
    obtain ⟨hnot, hnodup⟩ := List.nodup_cons.1 hnodup
    obtain rfl := step_reload hgpr ho hsp h₁
    have hother : ∀ r, r ≠ p.1 → (m.setReg 8 p.1 (m.mem.read (sp + .ofNat 64 p.2) 8)).regs r = m.regs r := fun r hr => by
      rw [regs_setReg, Function.update_of_ne hr]
    obtain ⟨hmem, hkeep, hread⟩ := ih hrest hnodup (by rw [hother rsp hne.symm, hsp]) h
    refine ⟨hmem, fun r hr => ?_, List.forall_mem_cons.2 ⟨?_, hread⟩⟩
    · rw [List.map_cons, List.mem_cons, not_or] at hr
      rw [hkeep r hr.2, hother r hr.1]
    · rw [hkeep p.1 hnot, regs_setReg, Function.update_self]

/-- What a call site may change: registers that are neither preserved nor saved, its slots, and all that is not of the
frame. -/
def clobbered (sp top : Word) (ps : List (HardReg × Nat)) : Set Cell :=
  {c | ∃ r, c = .reg r ∧ r ∉ preserved ∧ r ∉ ps.map (·.1)} ∪ slots sp ps ∪
    {c | ∃ b, c = .byte b ∧ (top - sp).toNat ≤ (b - sp).toNat}

theorem Through.callSite {l : Label} {n : Option String} {sig : Signature} {args : List Expr} (hps : Sheltered lo hi ps)
    (hhi : hi < 2 ^ 31) (htop : hi ≤ (top - sp).toNat) (hsp : m.regs rsp = sp)
    (h : Through top (callSite ps (.call l n sig args)) m m') : Keeps (clobbered sp top ps) m m' := by
  obtain ⟨m₁, hsave, m₂, hcall, hload⟩ := h.append
  obtain ⟨hregs₁, hkeep₁, hslots⟩ := hsave.saves hps hhi hsp
  cases hcall with
  | call hpres hframe =>
    have hframe : ∀ b, (b - sp).toNat < (top - sp).toNat → m₂.mem b = m₁.mem b := fun b hb =>
      hframe b (by
        show (b - m₁.regs rsp).toNat < (top - m₁.regs rsp).toNat
        rw [hregs₁, hsp]
        exact hb)
    have hsp₂ : m₂.regs rsp = sp := by rw [hpres rsp (by decide), hregs₁, hsp]
    have hperm : (ps.reverse.map (·.1)).Perm (ps.map (·.1)) := (List.reverse_perm ps).map _
    obtain ⟨hmem, hkeep, hread⟩ := hload.reloads
      (fun p hp => by
        have hp := List.mem_reverse.1 hp
        have hin := hps.within p hp
        exact ⟨hps.scratch p hp, by omega⟩)
      (hperm.nodup_iff.2 hps.nodup) hsp₂
    constructor
    · intro r hr
      by_cases hsaved : r ∈ ps.map (·.1)
      · obtain ⟨p, hp, rfl⟩ := List.mem_map.1 hsaved
        have hin := hps.within p hp
        have hstill : m₂.mem.read (sp + .ofNat 64 p.2) 8 = m₁.mem.read (sp + .ofNat 64 p.2) 8 := by
          refine Memory.read_congr fun i hi => hframe _ ?_
          bv_omega
        rw [hread p (List.mem_reverse.2 hp), hstill, hslots p hp]
      · have hp : r ∈ preserved := by
          by_contra hp
          exact hr (.inl (.inl ⟨r, rfl, hp, hsaved⟩))
        rw [hkeep r (fun hm => hsaved (hperm.mem_iff.1 hm)), hpres r hp, hregs₁]
    · intro b hb
      have hin : (b - sp).toNat < (top - sp).toNat := by
        by_contra hout
        exact hb (.inr ⟨b, rfl, by omega⟩)
      rw [hmem, hframe b hin, hkeep₁.bytes b fun hs => hb (.inl (.inr hs))]
  | run hd => cases hd

end Saving

/-! ## Selection of calls -/

section Selection

variable {f : Frame} {n : Nat} {s s' : Session}

/-- While it fits into a small stack area, the next slot is right above those in use. -/
theorem slotOffset_eq (hsmall : f.alloc.frame + 8 * n < 2 ^ 31) (hn : s.temps ≤ n) :
    s.slotOffset f = f.alloc.frame + 8 * s.temps := by
  rw [Session.slotOffset, BitVec.toNat_ofNat, Nat.mod_eq_of_lt (by omega)]

/-- Every register gets a new slot, one above the other. -/
theorem items_saveScratch (hregs : f.regs = regFile) (hsmall : f.alloc.frame + 8 * n < 2 ^ 31) {rs : List HardReg}
    {saved : List (HardReg × Expr)} (h : Gives f (saveScratch rs) s saved s') (hn : s'.tempPeak ≤ n) :
    ∃ ps : List (HardReg × Nat), ps.map (·.1) = rs ∧ saved = ps.map (fun p => (p.1, slotAt p.2)) ∧
      (ps.Pairwise fun p q => p.2 + 8 ≤ q.2) ∧
      (∀ p ∈ ps, f.alloc.frame + 8 * s.temps ≤ p.2 ∧ p.2 + 8 ≤ f.alloc.frame + 8 * n) ∧
      s'.items.toList = s.items.toList ++ (saves ps).map .instr ∧ s.mark ≤ s'.mark := by
  induction rs generalizing s saved with
  | nil =>
    obtain ⟨rfl, rfl⟩ := h.pure
    exact ⟨[], rfl, rfl, .nil, by simp, by simp [saves], le_rfl⟩
  | cons r rs ih =>
    rw [Amd64.saveScratch] at h
    obtain ⟨slot, s₁, h₁, h⟩ := h.bind
    obtain ⟨_, s₂, h₂, h⟩ := h.bind
    obtain ⟨rest, s₃, h₃, h⟩ := h.bind
    obtain ⟨rfl, rfl⟩ := h.pure
    obtain ⟨sp, hsp, -, rfl, rfl⟩ := stackTemp_eq_ok h₁.change
    rw [hregs] at hsp
    cases hsp
    obtain rfl := h₂.emit
    obtain ⟨ps, hrs, rfl, hpair, hwithin, hitems, hmark⟩ := ih h₃
    obtain ⟨code, hgrown⟩ := Grows.grown h₃
    have hwords : roundUp (max Kind.int64.size 1) 8 / 8 = 1 := by decide
    have hpeak : s.temps + 1 ≤ n := (le_max_right _ _).trans (hgrown.peak.trans hn)
    have hoffset := slotOffset_eq hsmall (show s.temps ≤ n by omega)
    simp only [hwords] at hwithin hmark
    refine ⟨(r, s.slotOffset f) :: ps, by rw [List.map_cons, hrs], rfl, .cons ?_ hpair, ?_, ?_, ?_⟩
    · intro q hq
      have := (hwithin q hq).1
      omega
    · refine List.forall_mem_cons.2 ⟨by omega, fun q hq => ?_⟩
      have := hwithin q hq
      omega
    · rw [hitems]
      simp [saves, slotAt]
    · exact ⟨hmark.1, (Nat.le_succ _).trans hmark.2⟩

/-- Selection makes a call site with all scratch registers in use, and takes no temporaries for longer. -/
theorem items_emitCall (hregs : f.regs = regFile) (hsmall : f.alloc.frame + 8 * n < 2 ^ 31) {l : Label} {nm : Option String}
    {sig : Signature} {args : List Expr} {v : Expr} (h : Gives f (emitCall (.call l nm sig args)) s v s')
    (hn : s'.tempPeak ≤ n) :
    ∃ ps, ps.map (·.1) = scratch.take s.scratchUsed ∧
      Sheltered (f.alloc.frame + 8 * s.temps) (f.alloc.frame + 8 * n) ps ∧ s'.mark = s.mark ∧
      s'.items.toList = s.items.toList ++ (callSite ps (.call l nm sig args)).map .instr ∧
      v = if sig.value.isVoid then nothing else fixed sig.value rax := by
  rw [emitCall_eq] at h
  obtain ⟨_, s₁, h₁, h⟩ := h.bind
  obtain ⟨_, s₂, h₂, h⟩ := h.bind
  obtain ⟨rfl, rfl⟩ := h.pure
  obtain rfl : s = s₁ := by
    split at h₁
    · exact h₁.pure.2.symm
    · exact h₁.note.symm
  obtain ⟨s₃, h₃, rfl⟩ := h₂.releasing
  obtain ⟨t, s₄, h₄, h₃⟩ := h₃.bind
  obtain ⟨g, s₅, h₅, h₃⟩ := h₃.bind
  obtain ⟨saved, s₆, h₆, h₃⟩ := h₃.bind
  obtain ⟨_, s₇, h₇, h₈⟩ := h₃.bind
  obtain ⟨rfl, rfl⟩ : s = t ∧ s = s₄ := by
    obtain ⟨log, log', h₄⟩ := h₄
    cases h₄
    exact ⟨rfl, rfl⟩
  obtain ⟨rfl, rfl⟩ : f = g ∧ s = s₅ := ⟨h₅.read.1.symm, h₅.read.2.symm⟩
  have hs₇ := h₇.emit
  have hs₃ := h₈.emits
  have hpeak : s₆.tempPeak ≤ n := by
    rw [hs₃, hs₇] at hn
    exact hn
  obtain ⟨ps, hps, rfl, hpair, hwithin, hitems, hmark⟩ := items_saveScratch hregs hsmall h₆ hpeak
  have hlive : ps.map (·.1) = scratch.take s.scratchUsed := by rw [hps, Session.liveScratch, hregs]; rfl
  refine ⟨ps, hlive, ⟨fun p hp => ?_, ?_, hpair, hwithin⟩, ?_, ?_, rfl⟩
  · have hmem : p.1 ∈ scratch.take s.scratchUsed := hlive ▸ List.mem_map_of_mem hp
    exact List.mem_of_mem_take hmem
  · rw [hlive]
    exact List.Nodup.sublist (List.take_sublist _ _) (by decide)
  · refine Session.mark_release ?_
    rw [hs₃, hs₇]
    exact hmark
  · show s₃.items.toList = _
    rw [hs₃, hs₇]
    simp [hitems, callSite, reloads, List.map_reverse]

end Selection

end JitBackend.Amd64
