import JitBackend.Proofs.LinearScan
import JitBackend.Proofs.Lowering

/-!
# Temporaries in use

A session hands out temporaries one above the other. They are given back in any order: a scratch register by its name, if
it is the one taken last, and all that came after a mark by a return to the mark, which may be an old one and may be used
again. A temporary is in use from the request that hands it out until the counter of its class falls below its end
(`History.step`).

Whatever the requests are, temporaries in use share nothing, and the frame has room for all that were ever handed out
(`Reached.temporaries`). The reason is that a temporary starts where the counter stands, which is not below the end of any
that is still in use (`Ledger`).
-/

namespace JitBackend

/-! ## Requests -/

/-- A request to the temporaries of a session; `release i` returns to the mark that was taken as number `i`. -/
inductive Request
  | scratch (k : Kind) (p : Purpose) | temp (k : Kind) (p : Purpose) | stackTemp (k : Kind) (p : Purpose)
  | free (r : HardReg) | mark | release (i : Nat)

/-- A temporary with the counter of its class before and after it was handed out. -/
structure Lease where
  operand : Expr
  start : Nat
  stop : Nat

/-- A session with what it has given: marks in the order they were taken, and temporaries, those in use and all of them, the
latest ones first. -/
structure History where
  session : Session
  marks : List Mark := []
  inUse : List Lease := []
  given : List Expr := []

/-- The counter that a temporary belongs to. -/
def Session.counter (s : Session) (e : Expr) : Nat := if e.isReg then s.scratchUsed else s.temps

/-- The temporary that answers a request, if one does, and the session after it. -/
def Request.answer (f : Frame) (h : History) : Request → Option Expr × Session
  | scratch k p => ((h.session.scratch f k p).1.toOption.map .reg, (h.session.scratch f k p).2)
  | temp k p => ((h.session.temp f k p).1.toOption, (h.session.temp f k p).2)
  | stackTemp k p => ((h.session.stackTemp f k p).1.toOption, (h.session.stackTemp f k p).2)
  | free r => (none, h.session.freeScratch f r)
  | mark => (none, h.session)
  | release i => (none, h.marks[i]?.elim h.session fun m => h.session.release m)

/-- Whether the request takes a stack slot. -/
def Request.takesSlot (f : Frame) (s : Session) : Request → Bool
  | stackTemp .. => true
  | temp .. => f.regs.scratch.length ≤ s.scratchUsed
  | scratch .. | free _ | mark | release _ => false

/-- If the request takes a slot, the slot starts within the reach of a four-byte offset. -/
def Request.InReach (f : Frame) (s : Session) (q : Request) : Prop :=
  q.takesSlot f s = true → f.alloc.frame + 8 * s.temps < Session.slotLimit

instance (f : Frame) (s : Session) (q : Request) : Decidable (q.InReach f s) :=
  inferInstanceAs (Decidable (_ → _))

namespace History

/-- The temporaries that are still in use when the session has become `s`. -/
def remaining (h : History) (s : Session) : List Lease := h.inUse.filter fun l => l.stop ≤ s.counter l.operand

def step (f : Frame) (h : History) (q : Request) : History where
  session := (q.answer f h).2
  marks := match q with
    | .mark => h.marks ++ [h.session.mark]
    | _ => h.marks
  inUse := ((q.answer f h).1.map fun e => ⟨e, h.session.counter e, (q.answer f h).2.counter e⟩).toList ++
    h.remaining (q.answer f h).2
  given := (q.answer f h).1.toList ++ h.given

theorem inUse_step_of_some {f : Frame} {h : History} {q : Request} {e : Expr} (he : (q.answer f h).1 = some e) :
    (h.step f q).inUse = ⟨e, h.session.counter e, (q.answer f h).2.counter e⟩ :: h.remaining (q.answer f h).2 := by
  simp only [step, he, Option.map_some, Option.toList_some, List.singleton_append]

end History

/-- The histories of a function's selection: any requests one after the other, as long as slots are within reach. -/
inductive Reached (f : Frame) : History → Prop
  | start (labels : LabelPool) : Reached f { session := { labels } }
  | step {h : History} (hr : Reached f h) (q : Request) (hq : q.InReach f h.session) : Reached f (h.step f q)

/-- Two temporaries share no register and no byte of the slots that they take. -/
def Expr.Apart : Expr → Expr → Prop
  | .reg r, .reg r' => r.id ≠ r'.id
  | .memAt k _ m, .memAt k' _ m' =>
    m.disp.toInt + (slotSize k : Int) ≤ m'.disp.toInt ∨ m'.disp.toInt + (slotSize k' : Int) ≤ m.disp.toInt
  | _, _ => True

/-- A scratch register among the taken ones, or taken slots above the spill area. -/
inductive Taken (f : Frame) (sp : HardReg) (s : Session) : Expr → Prop
  | scratch {k : Kind} {g : HardReg} (hg : g ∈ f.regs.scratch.take s.scratchUsed) : Taken f sp s (.reg (.hard k g))
  | slot {k : Kind} {d : BitVec 32} (hlow : f.alloc.frame ≤ d.toInt)
      (hhigh : d.toInt + slotSize k ≤ (f.alloc.frame + 8 * s.temps : Nat)) : Taken f sp s (.memAt k false (.ofBase sp d))

/-! ## One request -/

variable {f : Frame} {sp : HardReg} {h : History} {q : Request}

theorem slotSize_words (k : Kind) : 8 * (slotSize k / 8) = slotSize k := Nat.mul_div_cancel' (eight_dvd_slotSize k)

theorem slotSize_le (k : Kind) : slotSize k ≤ 16 := by cases k <;> decide

theorem stackTemp_eq {k : Kind} {p : Purpose} {s : Session} (hsp : f.regs.stackPointer = some sp)
    (hlt : f.alloc.frame + 8 * s.temps < Session.slotLimit) : s.stackTemp f k p =
      (.ok (.memAt k false (.ofBase sp (.ofNat 32 (f.alloc.frame + 8 * s.temps)))),
        { s with temps := s.temps + slotSize k / 8, tempPeak := max s.tempPeak (s.temps + slotSize k / 8) }) := by
  have hoffset : s.slotOffset f = f.alloc.frame + 8 * s.temps := by
    rw [Session.slotLimit] at hlt
    rw [Session.slotOffset, BitVec.toNat_ofNat, Nat.mod_eq_of_lt (by omega)]
  simp only [Session.stackTemp, hsp, hoffset, if_pos hlt]
  rfl

theorem scratch_cases (k : Kind) (p : Purpose) (s : Session) :
    (∃ g, f.regs.scratch[s.scratchUsed]? = some g ∧
      s.scratch f k p = (.ok (.hard k g), { s with scratchUsed := s.scratchUsed + 1 })) ∨
    ∃ e, s.scratch f k p = (.error e, s) := by
  unfold Session.scratch
  cases hg : f.regs.scratch[s.scratchUsed]? with
  | some g => exact .inl ⟨g, rfl, rfl⟩
  | none => exact .inr ⟨_, rfl⟩

/-- A request takes the next scratch register, takes the next slots, or takes nothing. -/
theorem answer_cases (hsp : f.regs.stackPointer = some sp) (hq : q.InReach f h.session) :
    (∃ k g, f.regs.scratch[h.session.scratchUsed]? = some g ∧
      q.answer f h = (some (.reg (.hard k g)), { h.session with scratchUsed := h.session.scratchUsed + 1 })) ∨
    (∃ k, f.alloc.frame + 8 * h.session.temps < Session.slotLimit ∧
      q.answer f h = (some (.memAt k false (.ofBase sp (.ofNat 32 (f.alloc.frame + 8 * h.session.temps)))),
        { h.session with
          temps := h.session.temps + slotSize k / 8
          tempPeak := max h.session.tempPeak (h.session.temps + slotSize k / 8) })) ∨
    ((q.answer f h).1 = none ∧ (q.answer f h).2.temps ≤ h.session.temps ∧
      (q.answer f h).2.tempPeak = h.session.tempPeak) := by
  have hslot : ∀ k, f.alloc.frame + 8 * h.session.temps < Session.slotLimit → ∀ p, h.session.stackTemp f k p = _ :=
    fun k hlt p => stackTemp_eq hsp hlt
  cases q with
  | scratch k p =>
    rcases @scratch_cases f k p h.session with ⟨g, hg, hs⟩ | ⟨e, hs⟩
    · exact .inl ⟨k, g, hg, by simp only [Request.answer, hs]; rfl⟩
    · refine .inr (.inr ?_)
      rw [show (Request.scratch k p).answer f h = (none, h.session) by simp only [Request.answer, hs]; rfl]
      exact ⟨rfl, le_rfl, rfl⟩
  | temp k p =>
    by_cases hfree : h.session.scratchUsed < f.regs.scratch.length
    · rcases @scratch_cases f k p h.session with ⟨g, hg, hs⟩ | ⟨e, hs⟩
      · exact .inl ⟨k, g, hg, by simp only [Request.answer, Session.temp, if_pos hfree, hs]; rfl⟩
      · refine .inr (.inr ?_)
        rw [show (Request.temp k p).answer f h = (none, h.session) by
          simp only [Request.answer, Session.temp, if_pos hfree, hs]; rfl]
        exact ⟨rfl, le_rfl, rfl⟩
    · have hlt := hq (by simpa [Request.takesSlot] using hfree)
      refine .inr (.inl ⟨k, hlt, ?_⟩)
      simp only [Request.answer, Session.temp, if_neg hfree, hslot k hlt p]
      rfl
  | stackTemp k p =>
    have hlt := hq rfl
    refine .inr (.inl ⟨k, hlt, ?_⟩)
    simp only [Request.answer, hslot k hlt p]
    rfl
  | free r =>
    refine .inr (.inr ⟨rfl, ?_⟩)
    simp only [Request.answer, Session.freeScratch]
    split <;> exact ⟨le_rfl, rfl⟩
  | mark => exact .inr (.inr ⟨rfl, le_rfl, rfl⟩)
  | release i =>
    refine .inr (.inr ⟨rfl, ?_⟩)
    simp only [Request.answer]
    cases h.marks[i]? with
    | none => exact ⟨le_rfl, rfl⟩
    | some m => exact ⟨Nat.min_le_right _ _, rfl⟩

/-! ## The invariant -/

/-- What a lease is of: the scratch register with the number `start`, or the slots from there on. -/
inductive Lease.Of (f : Frame) (sp : HardReg) : Lease → Prop
  | scratch {k : Kind} {g : HardReg} {n : Nat} (hg : f.regs.scratch[n]? = some g) :
      Lease.Of f sp ⟨.reg (.hard k g), n, n + 1⟩
  | slot {k : Kind} {n : Nat} (hn : f.alloc.frame + 8 * n < Session.slotLimit) :
      Lease.Of f sp ⟨.memAt k false (.ofBase sp (.ofNat 32 (f.alloc.frame + 8 * n))), n, n + slotSize k / 8⟩

/-- Leases of one class lie one above the other, up to the counter. -/
structure Stacked (f : Frame) (sp : HardReg) (s : Session) (ls : List Lease) : Prop where
  leases : ∀ l ∈ ls, l.Of f sp ∧ l.stop ≤ s.counter l.operand
  order : ls.Pairwise fun l l' => l.operand.isReg = l'.operand.isReg → l'.stop ≤ l.start

theorem Stacked.remaining (hs : Stacked f sp h.session h.inUse) (s' : Session) : Stacked f sp s' (h.remaining s') := by
  refine ⟨fun l hl => ?_, hs.order.filter _⟩
  obtain ⟨hl, hstop⟩ := List.mem_filter.1 hl
  exact ⟨(hs.leases l hl).1, by simpa using hstop⟩

/-- A lease from where the counter stands lies above all that are in use. -/
theorem Stacked.take (hs : Stacked f sp h.session h.inUse) {e : Expr} {s' : Session}
    (he : Lease.Of f sp ⟨e, h.session.counter e, s'.counter e⟩) :
    Stacked f sp s' (⟨e, h.session.counter e, s'.counter e⟩ :: h.remaining s') := by
  obtain ⟨hleases, horder⟩ := hs.remaining s'
  refine ⟨List.forall_mem_cons.2 ⟨⟨he, le_rfl⟩, hleases⟩, List.pairwise_cons.2 ⟨fun l hl hclass => ?_, horder⟩⟩
  have hbelow := (hs.leases l (List.mem_filter.1 hl).1).2
  have hclass : e.isReg = l.operand.isReg := hclass
  rw [Session.counter, ← hclass] at hbelow
  exact hbelow

/-- The leases in use are stacked, and slots that were handed out lie below the peak. -/
structure Ledger (f : Frame) (sp : HardReg) (h : History) : Prop where
  stacked : Stacked f sp h.session h.inUse
  given : ∀ e ∈ h.given, e.isReg = false → ∃ n m, Lease.Of f sp ⟨e, n, m⟩ ∧ m ≤ h.session.tempPeak
  peak : h.session.temps ≤ h.session.tempPeak
  area : h.session.tempPeak = 0 ∨ f.alloc.frame + 8 * h.session.tempPeak < Session.slotLimit + 16

/-- One request keeps the ledger in order. -/
theorem Ledger.step (hl : Ledger f sp h) (hsp : f.regs.stackPointer = some sp) (hq : q.InReach f h.session) :
    Ledger f sp (h.step f q) := by
  rcases answer_cases hsp hq with ⟨k, g, hg, ha⟩ | ⟨k, hlt, ha⟩ | ⟨hnone, htemps, hpeak⟩
  · have he : Lease.Of f sp ⟨.reg (.hard k g), _, _⟩ := .scratch hg
    simp only [History.step, ha, Option.map_some, Option.toList_some]
    refine ⟨hl.stacked.take he, List.forall_mem_cons.2 ⟨by rintro ⟨⟩, hl.given⟩, hl.peak, hl.area⟩
  · have he : Lease.Of f sp ⟨.memAt k false (.ofBase sp (.ofNat 32 (f.alloc.frame + 8 * h.session.temps))), _, _⟩ :=
      .slot hlt
    have hsize := slotSize_le k
    have hwords := slotSize_words k
    have harea := hl.area
    simp only [History.step, ha, Option.map_some, Option.toList_some]
    refine ⟨hl.stacked.take he, List.forall_mem_cons.2 ⟨fun _ => ⟨_, _, he, le_max_right _ _⟩, fun e hmem hreg => ?_⟩,
      le_max_right _ _, ?_⟩
    · obtain ⟨n, m, hof, hm⟩ := hl.given e hmem hreg
      exact ⟨n, m, hof, hm.trans (le_max_left _ _)⟩
    · dsimp only
      omega
  · simp only [History.step, hnone, Option.map_none, Option.toList_none, List.nil_append]
    exact ⟨hl.stacked.remaining _, by simpa only [hpeak] using hl.given, hpeak ▸ htemps.trans hl.peak,
      by rw [hpeak]; exact hl.area⟩

/-- Any requests keep the ledger in order. -/
theorem Reached.ledger (hr : Reached f h) (hsp : f.regs.stackPointer = some sp) : Ledger f sp h := by
  induction hr with
  | start => exact ⟨⟨by simp, .nil⟩, by simp, le_rfl, .inl rfl⟩
  | step _ q hq ih => exact ih.step hsp hq

/-! ## Temporaries -/

theorem disp_slot {n : Nat} (hn : f.alloc.frame + 8 * n < Session.slotLimit) :
    (BitVec.ofNat 32 (f.alloc.frame + 8 * n)).toInt = (f.alloc.frame + 8 * n : Nat) := by
  rw [Session.slotLimit] at hn
  rw [BitVec.toInt_eq_toNat_cond, BitVec.toNat_ofNat, Nat.mod_eq_of_lt (by omega), if_pos (by omega)]

/-- Leases one above the other share nothing. -/
theorem Lease.Of.apart {l l' : Lease} (hnd : f.regs.scratch.Nodup) (hl : l.Of f sp) (hl' : l'.Of f sp)
    (hbelow : l.operand.isReg = l'.operand.isReg → l'.stop ≤ l.start) : l.operand.Apart l'.operand := by
  cases hl with
  | @scratch k g n hg =>
    cases hl' with
    | @scratch k' g' n' hg' =>
      have hne : n' < n := hbelow rfl
      rintro ⟨⟩
      have := (List.nodup_iff_getElem?_ne_getElem?.1 hnd) n' n hne (List.getElem?_eq_some_iff.1 hg).1
      exact this (hg'.trans hg.symm)
    | slot _ => trivial
  | @slot k n hn =>
    cases hl' with
    | scratch _ => trivial
    | @slot k' n' hn' =>
      have hle : n' + slotSize k' / 8 ≤ n := hbelow rfl
      have hwords := slotSize_words k'
      right
      show (BitVec.ofNat 32 _).toInt + _ ≤ (BitVec.ofNat 32 _).toInt
      rw [disp_slot hn, disp_slot hn']
      omega

theorem Lease.Of.taken {l : Lease} {s : Session} (hl : l.Of f sp) (hstop : l.stop ≤ s.counter l.operand) :
    Taken f sp s l.operand := by
  cases hl with
  | @scratch k g n hg =>
    have hlt : n < s.scratchUsed := hstop
    exact .scratch (List.mem_of_getElem? (i := n) (by rw [List.getElem?_take_of_lt hlt]; exact hg))
  | @slot k n hn =>
    have hle : n + slotSize k / 8 ≤ s.temps := hstop
    have hwords := slotSize_words k
    exact .slot (by rw [disp_slot hn]; omega) (by rw [disp_slot hn]; omega)

/-- After any requests, the temporaries in use are taken ones and share nothing. A new one shares nothing with those that
stay in use and lies above the spill area. The frame has room for all slots that were ever handed out. -/
theorem Reached.temporaries (hnd : f.regs.scratch.Nodup) (hsp : f.regs.stackPointer = some sp) (hr : Reached f h) :
    (∀ l ∈ h.inUse, Taken f sp h.session l.operand) ∧
    h.inUse.Pairwise (fun l l' => l.operand.Apart l'.operand) ∧
    (∀ q : Request, q.InReach f h.session → ∀ e, (q.answer f h).1 = some e → Taken f sp (q.answer f h).2 e ∧
      ∀ l ∈ h.inUse, l.stop ≤ (q.answer f h).2.counter l.operand → e.Apart l.operand) ∧
    ∀ k ro m, .memAt k ro m ∈ h.given → 0 ≤ m.disp.toInt ∧ m.disp.toInt + (slotSize k : Int) ≤ f.size h.session := by
  have hapart : ∀ {h : History}, Ledger f sp h → h.inUse.Pairwise (fun l l' => l.operand.Apart l'.operand) := by
    intro h hl
    refine hl.stacked.order.imp_of_mem fun hmem hmem' hbelow => ?_
    exact (hl.stacked.leases _ hmem).1.apart hnd (hl.stacked.leases _ hmem').1 hbelow
  have hledger := hr.ledger hsp
  refine ⟨fun l hl => (hledger.stacked.leases l hl).1.taken (hledger.stacked.leases l hl).2, hapart hledger, ?_, ?_⟩
  · intro q hq e he
    have hnext := (hr.step q hq).ledger hsp
    have hnew := hnext.stacked.leases
    have hpair := hapart hnext
    rw [History.inUse_step_of_some he] at hnew hpair
    obtain ⟨⟨hof, hstop⟩, -⟩ := List.forall_mem_cons.1 hnew
    refine ⟨hof.taken hstop, fun l hl hle => ?_⟩
    exact (List.pairwise_cons.1 hpair).1 l (List.mem_filter.2 ⟨hl, by simpa using hle⟩)
  · intro k ro m hm
    obtain ⟨n, n', hof, hle⟩ := hledger.given _ hm rfl
    cases hof with
    | slot hn =>
      have hwords := slotSize_words k
      have hpos := slotSize_pos k
      have hroom := (Frame.size_bounds (s := h.session) (hledger.area.resolve_left (by omega))).1
      show 0 ≤ (BitVec.ofNat 32 _).toInt ∧ (BitVec.ofNat 32 _).toInt + _ ≤ _
      rw [disp_slot hn]
      omega

/-- Two marks; the return to the first one gives everything back, and that to the second one, which is higher, takes
nothing. -/
def staleMark : List Request :=
  [.mark, .temp .int64 (.note "a"), .temp .int64 (.note "b"), .temp .complex128 (.note "c"), .mark, .temp .int64 (.note "d"),
    .release 0, .temp .int64 (.note "e"), .release 1, .stackTemp .int64 (.note "f")]

theorem temporaries_staleMark :
    let f : Frame := ⟨{ scratch := [⟨.amd64, 10⟩, ⟨.amd64, 11⟩], stackPointer := some ⟨.amd64, 4⟩ }, { frame := 16 }, false⟩
    let h := staleMark.foldl (History.step f) { session := { labels := {} } }
    let slot := fun (k : Kind) (o : Nat) => Expr.memAt k false (.ofBase ⟨.amd64, 4⟩ (.ofNat 32 o))
    f.regs.scratch.Nodup ∧ Reached f h ∧
    h.inUse.map (·.operand) = [slot .int64 16, .reg (.hard .int64 ⟨.amd64, 10⟩)] ∧
    h.given = [slot .int64 16, .reg (.hard .int64 ⟨.amd64, 10⟩), slot .int64 32, slot .complex128 16,
      .reg (.hard .int64 ⟨.amd64, 11⟩), .reg (.hard .int64 ⟨.amd64, 10⟩)] ∧ f.size h.session = 48 ∧
    (∀ l ∈ h.inUse, Taken f ⟨.amd64, 4⟩ h.session l.operand) ∧ h.inUse.Pairwise (fun l l' => l.operand.Apart l'.operand) ∧
    ∀ k ro m, .memAt k ro m ∈ h.given → 0 ≤ m.disp.toInt ∧ m.disp.toInt + (slotSize k : Int) ≤ f.size h.session := by
  intro f h slot
  have hnd : f.regs.scratch.Nodup := by decide
  have hreached : Reached f h := by
    refine Reached.step (Reached.step (Reached.step (Reached.step (Reached.step (Reached.step (Reached.step (Reached.step
      (Reached.step (Reached.step (.start {}) .mark ?_) _ ?_) _ ?_) _ ?_) .mark ?_) _ ?_) _ ?_) _ ?_) _ ?_) _ ?_
    all_goals decide
  obtain ⟨htaken, hapart, -, hroom⟩ := @Reached.temporaries f ⟨.amd64, 4⟩ h hnd rfl hreached
  exact ⟨hnd, hreached, by decide, by decide, by decide, htaken, hapart, hroom⟩

end JitBackend
