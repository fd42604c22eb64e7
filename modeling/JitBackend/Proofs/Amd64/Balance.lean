import JitBackend.Proofs.Amd64.Footprint
import JitBackend.Proofs.Amd64.Runs

/-!
# Stack discipline

A function saves the registers that it has to hand back, makes room for its stack area, and undoes both before it returns.
The size of the area is known only when the whole body is selected, and the returns stand anywhere in the body; still, on
every path to a return the stack pointer and the preserved registers are as they were on entry, and at every call the
stack is aligned (`Func.lower_balanced`).

The argument is an invariant of positions (`Position`): where the stack pointer is, which registers are saved, and what
is still unchanged. Each step along the code keeps it (`Position.step`).
-/

namespace JitBackend

/-- The instructions of lowered code. -/
def Lowered.program (l : Lowered) : List Expr := l.code.filterMap fun i => (i.instruction l.frame).toOption

theorem Item.toList_instruction {size : Nat} (h : size ≠ 0) (i : Item) :
    (i.instruction size).toOption.toList = i.finished size := by
  cases i with
  | instr e => rfl
  | frame op sp => cases op <;> simp [Item.instruction, Item.finished, Except.toOption, h]

/-- A finished session has every move of the stack pointer by the size of the frame, or none of them if there is no
frame. -/
theorem Frame.program_code (f : Frame) (s : Session) :
    (f.code s).filterMap (fun i => (i.instruction (f.size s)).toOption) =
      s.items.toList.flatMap (Item.finished (f.size s)) := by
  unfold Frame.code
  split
  · rename_i hzero
    rw [hzero, List.filterMap_filter, List.filterMap_eq_flatMap_toList]
    refine List.flatMap_congr fun i _ => ?_
    cases i with
    | instr e => rfl
    | frame op sp => cases op <;> rfl
  · rename_i hsize
    rw [List.filterMap_eq_flatMap_toList]
    exact List.flatMap_congr fun i _ => Item.toList_instruction hsize i

namespace Amd64

open Lower

/-! ## Saved registers -/

theorem ne_rsp_of_saved {f : Frame} (hf : Housed f) {r : HardReg} (hr : r ∈ f.saved) : r ≠ rsp := by
  have hmem := (Frame.mem_saved.1 hr).1
  rw [hf.regs] at hmem
  exact (by decide : ∀ r ∈ calleeSaved, r ≠ rsp) r hmem

theorem length_saved {f : Frame} (hf : Housed f) : f.saved.length ≤ 5 := by
  have hinj : ∀ a ∈ calleeSaved, ∀ b ∈ calleeSaved, a.index = b.index → a = b := by decide
  have hnodup : f.saved.Nodup := Frame.nodup_saved (by rw [hf.regs]; exact hinj)
  have hsub : f.saved ⊆ calleeSaved := fun r hr => by
    have hmem := (Frame.mem_saved.1 hr).1
    rw [hf.regs] at hmem
    exact hmem
  exact (hnodup.subperm hsub).length_le

/-- Where the `i`th saved register of a function is, which was entered with the machine `m₀`. -/
def Machine.savedAt (m₀ : Machine) (i : Nat) : Word := m₀.regs rsp - .ofNat 64 (8 * (i + 1))

/-- The stack pointer is `d` bytes below its place on entry, the first `j` saved registers are on the stack, and all else
that has to be handed back is unchanged. -/
structure Saved (f : Frame) (m₀ : Machine) (d j : Nat) (m : Machine) : Prop where
  sp : m.regs rsp = m₀.regs rsp - .ofNat 64 d
  kept : ∀ r ∈ preserved, r ≠ rsp → r ∉ f.saved → m.regs r = m₀.regs r
  stored : ∀ i < j, ∀ r, f.saved[i]? = some r → m.mem.read (m₀.savedAt i) 8 = m₀.regs r
  held : ∀ i, j ≤ i → ∀ r, f.saved[i]? = some r → m.regs r = m₀.regs r

section Saved

variable {f : Frame} {m₀ m m' : Machine} {d d' j n : Nat} {r : HardReg}

theorem Saved.entry (f : Frame) (m₀ : Machine) : Saved f m₀ 0 0 m₀ :=
  ⟨(BitVec.sub_zero _).symm, fun _ _ _ _ => rfl, by simp, fun _ _ _ _ => rfl⟩

theorem Saved.push (hf : Housed f) (h : Saved f m₀ (8 * j) j m) (hr : f.saved[j]? = some r)
    (hx : (Instr.push r).exec m = some m') : Saved f m₀ (8 * (j + 1)) (j + 1) m' := by
  obtain rfl := Option.some.inj hx
  have hlen := length_saved hf
  have hj := (List.getElem?_eq_some_iff.1 hr).1
  have hsp : m.regs rsp - 8 = m₀.savedAt j := by
    rw [h.sp, Machine.savedAt]
    bv_omega
  have hother : ∀ q, q ≠ rsp → Function.update m.regs rsp (m.regs rsp - 8) q = m.regs q := fun q hq =>
    Function.update_of_ne hq _ _
  refine ⟨?_, ?_, ?_, ?_⟩
  · simp only [regs_setReg, Function.update_self]
    exact hsp
  · intro q hq hne hnot
    simp only [regs_setReg, hother q hne]
    exact h.kept q hq hne hnot
  · intro i hi q hq
    dsimp only
    rw [hsp]
    rcases Nat.lt_succ_iff_lt_or_eq.1 hi with hi | rfl
    · rw [← h.stored i hi q hq]
      refine Memory.read_congr fun b hb => Memory.write_of_ge ?_
      unfold Machine.savedAt
      bv_omega
    · cases hr.symm.trans hq
      rw [Memory.read_write, low_eight]
      exact h.held _ le_rfl _ hr
  · intro i hi q hq
    simp only [regs_setReg, hother q (ne_rsp_of_saved hf (List.mem_of_getElem? hq))]
    exact h.held i (by omega) q hq

theorem Saved.pop (hf : Housed f) (h : Saved f m₀ (8 * (j + 1)) (j + 1) m) (hr : f.saved[j]? = some r)
    (hx : (Instr.pop r).exec m = some m') : Saved f m₀ (8 * j) j m' := by
  obtain rfl := Option.some.inj hx
  have hne := ne_rsp_of_saved hf (List.mem_of_getElem? hr)
  have hread : m.mem.read (m.regs rsp) 8 = m₀.regs r := by
    rw [h.sp]
    exact h.stored j (by omega) r hr
  have hregs : ((m.setReg 8 rsp (m.regs rsp + 8)).setReg 8 r (m.mem.read (m.regs rsp) 8)).regs =
      Function.update (Function.update m.regs rsp (m.regs rsp + 8)) r (m₀.regs r) := by
    rw [regs_setReg, regs_setReg, hread]
  refine ⟨?_, ?_, fun i hi => h.stored i (by omega), ?_⟩
  · rw [hregs, Function.update_of_ne hne.symm, Function.update_self, h.sp]
    bv_omega
  · intro q hq hq' hnot
    rw [hregs, Function.update_of_ne, Function.update_of_ne hq']
    · exact h.kept q hq hq' hnot
    · rintro rfl
      exact hnot (List.mem_of_getElem? hr)
  · intro i hi q hq
    rw [hregs]
    by_cases hqr : q = r
    · rw [hqr, Function.update_self]
    · rw [Function.update_of_ne hqr, Function.update_of_ne (ne_rsp_of_saved hf (List.mem_of_getElem? hq))]
      refine h.held i (lt_of_le_of_ne hi ?_) q hq
      rintro rfl
      exact hqr (Option.some.inj (hq.symm.trans hr))

/-- A move of the stack pointer. -/
theorem Saved.move (hf : Housed f) (h : Saved f m₀ d j m) (hk : Keeps {.reg rsp} m m')
    (hsp : m'.regs rsp = m₀.regs rsp - .ofNat 64 d') : Saved f m₀ d' j m' := by
  have hregs : ∀ q, q ≠ rsp → m'.regs q = m.regs q := fun q hq => hk.regs q (by simpa using hq)
  have hmem : m'.mem = m.mem := funext fun b => hk.bytes b (by simp)
  refine ⟨hsp, ?_, ?_, ?_⟩
  · intro q hq hne hnot
    rw [hregs q hne, h.kept q hq hne hnot]
  · intro i hi q hq
    rw [hmem, h.stored i hi q hq]
  · intro i hi q hq
    rw [hregs q (ne_rsp_of_saved hf (List.mem_of_getElem? hq)), h.held i hi q hq]

/-- In the body, registers and bytes that may not change are all that matters. -/
theorem Saved.inside (h : Saved f m₀ d f.saved.length m) (hregs : ∀ r ∈ preserved, r ∉ f.saved → m'.regs r = m.regs r)
    (hrsp : m'.regs rsp = m.regs rsp)
    (hmem : ∀ i < f.saved.length, ∀ b, (b - m₀.savedAt i).toNat < 8 → m'.mem b = m.mem b) :
    Saved f m₀ d f.saved.length m' := by
  refine ⟨hrsp.trans h.sp, ?_, ?_, ?_⟩
  · intro q hq hne hnot
    rw [hregs q hq hnot, h.kept q hq hne hnot]
  · intro i hi q hq
    rw [← h.stored i hi q hq]
    refine Memory.read_congr fun b hb => hmem i hi _ ?_
    rw [BitVec.add_comm, BitVec.add_sub_cancel, BitVec.toNat_ofNat]
    omega
  · intro i hi q hq
    exact absurd (List.getElem?_eq_some_iff.1 hq).1 (by omega)

end Saved

/-! ## Paths of a function -/

/-- A store through a pointer spares the frame, which ends at `top`. -/
def Spares (top : Word) (p q : List Expr × Machine) : Prop :=
  ∀ e rest k ro a, p.1 = e :: rest → placeOf e = some (.memAt k ro a) → rsp ∉ a.regs →
    ∀ b ∈ p.2.frame top, q.2.mem b = p.2.mem b

/-- Paths through the code of a function that was entered with the stack pointer at `top`. -/
def Path (code : List Expr) (top : Word) : List Expr × Machine → List Expr × Machine → Prop :=
  Relation.ReflTransGen fun p q => Step code top p q ∧ Spares top p q

/-- The size of the frame covers the stack area and is no wider than a word of it. -/
structure Framed (f : Frame) (n size : Nat) : Prop where
  covers : f.alloc.frame + 8 * n ≤ size
  small : size < 2 ^ 32
  aligned : f.makesCalls = true → (8 * f.saved.length + size) % 16 = 8

section Body

variable {f : Frame} {m₀ m m' : Machine} {n size : Nat} {e : Expr} {is : List Instr} {code rest : List Expr} {d : Nat}

/-- The bytes of saved registers lie in the frame, above the stack area. -/
theorem byte_mem_frame (hf : Housed f) (hsize : Framed f n size)
    (hsp : m.regs rsp = m₀.regs rsp - .ofNat 64 (8 * f.saved.length + size)) {i : Nat} (hi : i < f.saved.length) {b : Word}
    (hb : (b - m₀.savedAt i).toNat < 8) :
    size ≤ (b - m.regs rsp).toNat ∧ b ∈ m.frame (m₀.regs rsp) := by
  have hlen := length_saved hf
  have hlt := hsize.small
  have hdist : (b - m.regs rsp).toNat = 8 * f.saved.length + size - 8 * (i + 1) + (b - m₀.savedAt i).toNat := by
    unfold Machine.savedAt at hb ⊢
    rw [hsp]
    bv_omega
  have htop : (m₀.regs rsp - m.regs rsp).toNat = 8 * f.saved.length + size := by
    rw [hsp]
    bv_omega
  refine ⟨by omega, ?_⟩
  show (b - m.regs rsp).toNat < (m₀.regs rsp - m.regs rsp).toNat
  omega

/-- A callee keeps what its caller saved. -/
theorem Saved.call (hf : Housed f) (hsize : Framed f n size) (h : Saved f m₀ (8 * f.saved.length + size) f.saved.length m)
    (hregs : ∀ r ∈ preserved, m'.regs r = m.regs r) (hframe : ∀ a ∈ m.frame (m₀.regs rsp), m'.mem a = m.mem a) :
    Saved f m₀ (8 * f.saved.length + size) f.saved.length m' :=
  h.inside (fun r hr _ => hregs r hr) (hregs rsp (by decide)) fun _ hi b hb =>
    hframe b (byte_mem_frame hf hsize h.sp hi hb).2

theorem not_mem_changed (h : ∀ x, placeOf e = some x → Writable f n x) {r : HardReg} (hr : r ∈ preserved)
    (hnot : r ∉ f.saved) : Cell.reg r ∉ m.changed e := by
  intro hmem
  rcases Machine.reg_mem_changed hmem with rfl | rfl | ⟨q, hx, hq⟩
  · exact absurd hr (by decide)
  · exact absurd hr (by decide)
  · exact hnot (h _ hx r hq hr)

/-- An instruction of the body keeps what the function saved. -/
theorem Saved.tame (hf : Housed f) (hsize : Framed f n size) (h : Saved f m₀ (8 * f.saved.length + size) f.saved.length m)
    (he : Tame f n e) (hd : denote e = some is) (hrun : is.foldlM (fun m i => i.exec m) m = some m')
    (hspare : Spares (m₀.regs rsp) (e :: rest, m) (rest, m')) :
    Saved f m₀ (8 * f.saved.length + size) f.saved.length m' := by
  have hstack : movesStack e = false := by
    by_contra hmoves
    cases (he.stack (by simpa using hmoves)).symm.trans hd
  have hplace := fun x => he.place x hstack
  have hk := keeps_of_denote hd hstack hrun
  have hrsp : rsp ∉ f.saved := fun hmem => ne_rsp_of_saved hf hmem rfl
  refine h.inside (fun r hr hnot => hk.regs r (not_mem_changed hplace hr hnot))
    (hk.regs rsp (not_mem_changed hplace (by decide) hrsp)) fun i hi b hb => ?_
  obtain ⟨hlo, hframe⟩ := byte_mem_frame hf hsize h.sp hi hb
  by_cases hptr : ∃ k ro a, placeOf e = some (.memAt k ro a) ∧ rsp ∉ a.regs
  · obtain ⟨k, ro, a, hx, ha⟩ := hptr
    exact hspare e rest k ro a rfl hx ha b hframe
  · refine hk.bytes b ?_
    intro hmem
    obtain ⟨k, ro, a, hx, hc⟩ := Machine.byte_mem_changed hmem
    obtain ha | ⟨o, rfl, ho, harea⟩ := hplace _ hx
    · exact hptr ⟨k, ro, a, hx, ha⟩
    · have hcover := hsize.covers
      have hextent := extent_le e
      rw [address_slot rfl ho, mem_bytesAt_slot (by omega)] at hc
      omega

/-- So does an address that is put into a register. -/
theorem Saved.locate (hf : Housed f) (h : Saved f m₀ d f.saved.length m) {k : Kind} {x y : Expr} {r : HardReg} {w : Word}
    (he : Tame f n (.binary .assign k x y)) (hx : operand? x = some (.reg r)) :
    Saved f m₀ d f.saved.length (m.setReg 8 r w) := by
  obtain ⟨q, rfl, hq⟩ := operand?_eq_reg hx
  have hspend : Spends f r := he.place _ rfl rfl r hq
  have hother : ∀ g, g ≠ r → (m.setReg 8 r w).regs g = m.regs g := fun g hg => by
    rw [regs_setReg, Function.update_of_ne hg]
  refine h.inside (fun g hg hnot => hother g ?_) (hother rsp ?_) fun _ _ _ _ => rfl
  · rintro rfl
    exact hnot (hspend hg)
  · rintro rfl
    exact ne_rsp_of_saved hf (hspend (by decide)) rfl

theorem placed_frameMove (op : ArithOp) (size : Nat) : placed (frameMove op size) = [] := by
  unfold frameMove
  split <;> rfl

theorem placed_prologue : placed (prologue f size) = [] := by
  rw [prologue, placed_append, placed_frameMove, pushes, placed]
  simp

theorem placed_epilogue : placed (epilogue f size) = [] := by
  rw [epilogue, placed_append, placed_append, placed_frameMove, pops, placed, placed]
  simp

/-- The code behind a label of a function is a body. -/
theorem Body.of_suffix {l : Label} (h : Body f n size code) (hl : (.label l :: rest) <:+ code) : Body f n size rest := by
  induction h with
  | nil => cases List.suffix_nil.1 hl
  | cons _ hb ih =>
    rcases List.suffix_cons_iff.1 hl with heq | hl
    · cases heq
      exact hb
    · exact ih hl
  | leave _ ih => exact ih (suffix_of_placed_nil placed_epilogue hl)

end Body

/-! ## Steps at the ends of a function -/

section Ends

variable {code rest : List Expr} {top : Word} {m : Machine} {q : List Expr × Machine} {r : HardReg} {k : Kind} {size : Nat}

theorem operand?_fixed {o : Operand} (h : operand? (fixed k r) = some o) : o = .reg r := by
  have heq : operand? (fixed k r) = if r.arch = .amd64 ∧ r.index ≤ 15 then some (.reg r) else none := by
    simp only [operand?, operand, fixed, Reg.hard]
    split <;> rfl
  rw [heq] at h
  exact (Option.some.inj (Option.ite_none_right_eq_some.1 h).2).symm

theorem Step.push (h : Step code top (.unary .push k (fixed k r) :: rest, m) q) :
    ∃ m', (Instr.push r).exec m = some m' ∧ q = (rest, m') := by
  cases h with
  | @run _ is _ _ m' hd hrun =>
    obtain ⟨o, ho, hd⟩ := Option.bind_eq_some_iff.1 hd
    obtain rfl := operand?_fixed ho
    cases hd
    exact ⟨m', by simpa using hrun, rfl⟩

theorem Step.pop (h : Step code top (.unary .pop k (fixed k r) :: rest, m) q) :
    ∃ m', (Instr.pop r).exec m = some m' ∧ q = (rest, m') := by
  cases h with
  | @run _ is _ _ m' hd hrun =>
    obtain ⟨o, ho, hd⟩ := Option.bind_eq_some_iff.1 hd
    obtain rfl := operand?_fixed ho
    cases hd
    exact ⟨m', by simpa using hrun, rfl⟩

/-- A move of the stack pointer by the size of the frame. -/
theorem Step.adjust {op : ArithOp} {a : AluOp} (hop : op = .add ∧ a = .add ∨ op = .sub ∧ a = .sub)
    (h : Step code top (Item.adjust (.compound op) rsp size :: rest, m) q) :
    ∃ m', q = (rest, m') ∧ Keeps {.reg rsp} m m' ∧ m'.regs rsp = a.apply (m.regs rsp) (.ofNat 64 size) := by
  have himm : operand? (.const (Const.ptr (.ofNat 64 size))) = some (.imm (.ofNat 64 size)) := by
    have hc : immediate (Const.ptr (.ofNat 64 size)) = .ok (.ofNat 64 size) :=
      (immediate_eq rfl).trans (congrArg Except.ok (sext_eight _))
    simp only [operand?, operand, hc, Except.map, Except.toOption]
  have halu : ∀ {is}, ((operand? (fixed .ptr rsp)).bind fun dst =>
      (operand? (.const (Const.ptr (.ofNat 64 size)))).bind fun src => (size? Kind.ptr).bind fun n =>
        if fitsPair n dst src = true then some [Instr.alu a n dst src] else none) = some is →
      is = [.alu a 8 (.reg rsp) (.imm (.ofNat 64 size))] := by
    intro is hd
    rw [himm] at hd
    obtain ⟨dst, hdst, hd⟩ := Option.bind_eq_some_iff.1 hd
    obtain rfl := operand?_fixed hdst
    exact (Option.some.inj (Option.ite_none_right_eq_some.1 hd).2).symm
  cases h with
  | @run _ is _ _ m' hd hrun =>
    refine ⟨m', rfl, ?_⟩
    have his : is = [.alu a 8 (.reg rsp) (.imm (.ofNat 64 size))] := by
      rcases hop with ⟨rfl, rfl⟩ | ⟨rfl, rfl⟩
      · exact halu hd
      · exact halu hd
    subst his
    obtain rfl : _ = m' := by simpa [Instr.exec, Machine.read, Machine.write] using hrun
    exact ⟨(Keeps.setReg m 8 rsp _).trans (.flags _ _ _), by simp [regs_setReg]⟩

end Ends

/-! ## Positions -/

/-- A position in a function with a body, and what is saved there: before a register is pushed, before the room for the
stack area is made, in the body, before that room is given back, before a register is popped, and at the return. -/
inductive Position (f : Frame) (n size : Nat) (body : List Expr) (m₀ : Machine) : List Expr → Machine → Prop
  | push {j : Nat} {r : HardReg} {m : Machine} (hr : f.saved[j]? = some r) (hs : Saved f m₀ (8 * j) j m) :
      Position f n size body m₀ (.unary .push .int64 (fixed .int64 r) ::
        (pushes (f.saved.drop (j + 1)) ++ (frameMove .sub size ++ body))) m
  | reserve {m : Machine} (hsize : size ≠ 0) (hs : Saved f m₀ (8 * f.saved.length) f.saved.length m) :
      Position f n size body m₀ (Item.adjust (.compound .sub) rsp size :: body) m
  | instr {e : Expr} {rest : List Expr} {m : Machine} (he : Tame f n e) (hb : Body f n size rest)
      (hs : Saved f m₀ (8 * f.saved.length + size) f.saved.length m) : Position f n size body m₀ (e :: rest) m
  | stop {m : Machine} : Position f n size body m₀ [] m
  | restore {rest : List Expr} {m : Machine} (hsize : size ≠ 0)
      (hs : Saved f m₀ (8 * f.saved.length + size) f.saved.length m) : Position f n size body m₀
        (Item.adjust (.compound .add) rsp size :: (pops f.saved.reverse ++ .ret [] :: rest)) m
  | pop {j : Nat} {r : HardReg} {rest : List Expr} {m : Machine} (hr : f.saved[j]? = some r)
      (hs : Saved f m₀ (8 * (j + 1)) (j + 1) m) : Position f n size body m₀
        (.unary .pop .int64 (fixed .int64 r) :: (pops (f.saved.take j).reverse ++ .ret [] :: rest)) m
  | ret {rest : List Expr} {m : Machine} (hs : Saved f m₀ 0 0 m) : Position f n size body m₀ (.ret [] :: rest) m

namespace Position

variable {f : Frame} {n size j : Nat} {body rest : List Expr} {m₀ m m' : Machine}

theorem leaving (hj : j ≤ f.saved.length) (hs : Saved f m₀ (8 * j) j m) :
    Position f n size body m₀ (pops (f.saved.take j).reverse ++ .ret [] :: rest) m := by
  cases j with
  | zero => exact .ret hs
  | succ j =>
    have hget : f.saved[j]? = some f.saved[j] := List.getElem?_eq_getElem hj
    rw [List.take_add_one, hget]
    simp only [Option.toList_some, List.reverse_append, List.reverse_singleton]
    exact .pop hget hs

theorem leaving_all (hs : Saved f m₀ (8 * f.saved.length) f.saved.length m) :
    Position f n size body m₀ (pops f.saved.reverse ++ .ret [] :: rest) m := by
  rw [← List.take_length (l := f.saved)]
  exact leaving le_rfl hs

theorem inside (hb : Body f n size rest) (hs : Saved f m₀ (8 * f.saved.length + size) f.saved.length m) :
    Position f n size body m₀ rest m := by
  cases hb with
  | nil => exact .stop
  | cons he hb => exact .instr he hb hs
  | @leave rest hb =>
    rw [epilogue, frameMove, List.append_assoc, List.append_assoc, List.singleton_append]
    split
    · rename_i hsize
      rw [hsize] at hs
      exact leaving_all hs
    · rename_i hsize
      exact .restore hsize hs

theorem entering (hb : Body f n size body) (hj : j ≤ f.saved.length) (hs : Saved f m₀ (8 * j) j m) :
    Position f n size body m₀ (pushes (f.saved.drop j) ++ (frameMove .sub size ++ body)) m := by
  rcases Nat.lt_or_eq_of_le hj with hj | rfl
  · rw [List.drop_eq_getElem_cons hj]
    exact .push (List.getElem?_eq_getElem hj) hs
  · rw [List.drop_length, frameMove]
    split
    · rename_i hsize
      exact inside hb (hsize ▸ hs)
    · rename_i hsize
      exact .reserve hsize hs

/-- Every step leads to a position. -/
theorem step (hf : Housed f) (hsize : Framed f n size) (hb : Body f n size body) {p q : List Expr × Machine}
    (hp : Position f n size body m₀ p.1 p.2) (h : Step (prologue f size ++ body) (m₀.regs rsp) p q)
    (hspare : Spares (m₀.regs rsp) p q) : Position f n size body m₀ q.1 q.2 := by
  obtain ⟨c, m⟩ := p
  cases hp with
  | push hr hs =>
    obtain ⟨m', hx, rfl⟩ := h.push
    exact entering hb (List.getElem?_eq_some_iff.1 hr).1 (hs.push hf hr hx)
  | reserve _ hs =>
    obtain ⟨m', rfl, hk, hsp⟩ := h.adjust (.inr ⟨rfl, rfl⟩)
    refine inside hb (hs.move hf hk ?_)
    rw [hsp, AluOp.apply, hs.sp]
    bv_omega
  | instr he hrest hs =>
    cases h with
    | label => exact inside hrest hs
    | jump hl => exact inside (hb.of_suffix (suffix_of_placed_nil placed_prologue hl)) hs
    | stay => exact inside hrest hs
    | branch hl => exact inside (hb.of_suffix (suffix_of_placed_nil placed_prologue hl)) hs
    | call hregs hframe => exact inside hrest (hs.call hf hsize hregs hframe)
    | locate _ hx => exact inside hrest (hs.locate hf he hx)
    | run hd hrun => exact inside hrest (hs.tame hf hsize he hd hrun hspare)
  | stop => cases h
  | restore _ hs =>
    obtain ⟨m', rfl, hk, hsp⟩ := h.adjust (.inl ⟨rfl, rfl⟩)
    refine leaving_all (hs.move hf hk ?_)
    rw [hsp, AluOp.apply, hs.sp]
    bv_omega
  | pop hr hs =>
    obtain ⟨m', hx, rfl⟩ := h.pop
    exact leaving (List.getElem?_eq_some_iff.1 hr).1.le (hs.pop hf hr hx)
  | ret hs =>
    cases h with
    | run hd => cases hd

theorem at_ret (h : Position f n size body m₀ (.ret [] :: rest) m) : ∀ r ∈ preserved, m.regs r = m₀.regs r := by
  cases h with
  | instr he => exact absurd rfl he.ret
  | ret hs =>
    intro r hr
    by_cases hsp : r = rsp
    · subst hsp
      simpa using hs.sp
    · by_cases hmem : r ∈ f.saved
      · obtain ⟨i, hi⟩ := List.mem_iff_getElem?.1 hmem
        exact hs.held i (Nat.zero_le i) r hi
      · exact hs.kept r hr hsp hmem

theorem at_call (hsize : Framed f n size) {l : Label} {name : Option String} {sig : Signature} {args : List Expr}
    (h : Position f n size body m₀ (.call l name sig args :: rest) m) (htop : (m₀.regs rsp).toNat % 16 = 8) :
    (m.regs rsp).toNat % 16 = 0 := by
  cases h with
  | instr he _ hs =>
    have hmod := hsize.aligned (he.call rfl)
    rw [hs.sp]
    bv_omega

end Position

section Function

variable {f : Frame} {n size : Nat} {body : List Expr} {m₀ : Machine}

/-- Every path from the entry of a function leads to a position. -/
theorem position_of_path (hf : Housed f) (hsize : Framed f n size) (hb : Body f n size body) {q : List Expr × Machine}
    (h : Path (prologue f size ++ body) (m₀.regs rsp) (prologue f size ++ body, m₀) q) :
    Position f n size body m₀ q.1 q.2 := by
  induction h with
  | refl =>
    show Position f n size body m₀ (prologue f size ++ body) m₀
    rw [prologue, List.append_assoc]
    exact .entering hb (Nat.zero_le _) (Saved.entry f m₀)
  | tail _ h ih => exact ih.step hf hsize hb h.1 h.2

theorem framed_size {s : Session} (h : Roomy f s) : Framed f s.tempPeak (f.size s) := by
  obtain ⟨hcovers, hsmall, haligned⟩ := Frame.size_bounds h.area
  exact ⟨hcovers, hsmall, haligned⟩

end Function

/-! ## Functions -/

section Source

theorem isSoft_mkNot {x : Expr} (h : x.isSoft = true) : (Expr.mkNot x).isSoft = true := by
  unfold Expr.mkNot
  split
  · simpa [Expr.isSoft] using h
  · split <;> simpa [Expr.isSoft] using h
  · simpa [Expr.isSoft] using h

theorem isSoft_jumpIf {l : Label} {c j : Expr} (hc : c.isSoft = true) (hj : Expr.mkJumpIf l c = .ok j) :
    j.isSoft = true := by
  obtain rfl := mkJumpIf_eq_ok hj
  simpa [JitBackend.jumpIf, Expr.isSoft] using hc

theorem isTested_isSoft : Stmt.IsTested (·.isSoft = true) where
  true := rfl
  branch {l c d j} hc hd := by
    refine isSoft_jumpIf ?_
    obtain ⟨k, hk, ⟨hop, -⟩ | ⟨hop, -⟩ | ⟨-, c, -, rfl⟩ | ⟨-, rfl⟩ | rfl⟩ := Expr.mkUnary_eq_ok hd
    · cases hop
    · cases hop
    · rfl
    · exact isSoft_mkNot hc
    · simpa [Expr.isSoft] using hc
  jump := isSoft_jumpIf

/-- A function over soft registers flattens to code over soft registers, whose calls its frame is made for. -/
theorem source_of_flatten {f : Func} {flat : Flat} {log log₁ : Log} (hsoft : ∀ e ∈ Stmt.exprsL f.source, e.isSoft = true)
    (h : f.flatten log = (.ok flat, log₁)) : ∀ e ∈ flat.code.toList, Source (frameOf flat log₁) e := by
  have hyields := Func.flatten_yields (fun l => ⟨rfl, rfl⟩) (Stmt.yieldsL_of_exprsL isTested_isSoft f.source hsoft) h
  intro e he
  refine ⟨(hyields e he).2, fun hcall => ?_⟩
  show flat.code.any (·.containsOp .call) = true
  exact Array.any_eq_true'.2 ⟨e, Array.mem_toList_iff.1 he, (Expr.containsOp_call_iff e).2 hcall⟩

end Source

/-- A finished function has the code of its entry and then a body, within reach of displacements. -/
theorem body_of_select {F : Frame} {flat : Flat} {s₁ s : Session} (hf : Housed F)
    (hsource : ∀ e ∈ flat.code.toList, Source F e) (henter : Gives F enter { labels := flat.func.labels } () s₁)
    (hbody : Gives F (flat.selectBody select) s₁ () s) : Roomy F s ∧
    ∃ body, s.items.toList.flatMap (Item.finished (F.size s)) = prologue F (F.size s) ++ body ∧
      Body F s.tempPeak (F.size s) body := by
  obtain ⟨entry, ⟨htemps, hpeak, hentry⟩, hprologue⟩ := items_enter (F.size s) hf.regs henter
  have hroom : Roomy F s₁ := by
    have hspill := hf.spill
    refine ⟨by rw [htemps, hpeak], ?_⟩
    rw [hpeak]
    dsimp only
    omega
  have hlaw := BodyLaw.selectBody (L := tame hf s.tempPeak (F.size s)) hsource
  obtain ⟨hroom, ⟨items, hitems, hb⟩, -⟩ := hlaw hbody hroom le_rfl
  refine ⟨hroom, _, ?_, hb⟩
  rw [hitems, hentry, List.flatMap_append, List.flatMap_append, hprologue]
  rfl

/-- In lowered code every move of the stack pointer has the size of the frame, and on every path from the entry of the
function the preserved registers are handed back and calls find the stack aligned. -/
theorem Func.lower_balanced {f : Func} {flat : Flat} {registry : Registry} {l : Lowered} {log log₁ log' : Log}
    (hreg : registry.get .amd64 = .ok target) (hsoft : ∀ e ∈ Stmt.exprsL f.source, e.isSoft = true)
    (hflat : f.flatten log = (.ok flat, log₁)) (hspill : (scan.allocate flat log₁).1.frame ≤ 2 ^ 31)
    (h : f.lower registry .w64 .amd64 log = (.ok l, log')) :
    (∃ s₁ s, Gives (frameOf flat log₁) enter { labels := flat.func.labels } () s₁ ∧
      Gives (frameOf flat log₁) (flat.selectBody select) s₁ () s ∧ l.frame = (frameOf flat log₁).size s ∧
      l.program = s.items.toList.flatMap (Item.finished l.frame)) ∧
    ∀ m₀ rest m, Path l.program (m₀.regs rsp) (l.program, m₀) (rest, m) →
      (∀ k, rest = .ret [] :: k → ∀ r ∈ preserved, m.regs r = m₀.regs r) ∧
      ∀ c n sig args k, rest = .call c n sig args :: k → (m₀.regs rsp).toNat % 16 = 8 → (m.regs rsp).toNat % 16 = 0 := by
  obtain ⟨_, _, s₁, s, hflat', henter, hbody, rfl⟩ := Func.lower_eq_ok hreg h
  cases hflat.symm.trans hflat'
  have hprogram := Frame.program_code (frameOf flat log₁) s
  refine ⟨⟨s₁, s, henter, hbody, rfl, hprogram⟩, ?_⟩
  have hf : Housed (frameOf flat log₁) := ⟨rfl, fun h => LinearScan.allocate_places flat log₁ h, hspill⟩
  obtain ⟨hroom, body, hcode, hb⟩ := body_of_select hf (source_of_flatten hsoft hflat) henter hbody
  intro m₀ rest m hpath
  have hpos : Position (frameOf flat log₁) s.tempPeak ((frameOf flat log₁).size s) body m₀ rest m := by
    refine position_of_path hf (framed_size hroom) hb (q := (rest, m)) ?_
    rw [← hcode, ← hprogram]
    exact hpath
  refine ⟨?_, ?_⟩
  · rintro k rfl
    exact hpos.at_ret
  · rintro c n sig args k rfl
    exact hpos.at_call (framed_size hroom)

/-- A call, or an instruction on registers that never fails. -/
def Goes (e : Expr) : Prop := (placeOf e).any Expr.isMem = false ∧
  ((∃ l n sig args, e = .call l n sig args) ∨
    ∃ is : List Instr, denote e = some is ∧ ∀ m, ∃ m', is.foldlM (fun m i => i.exec m) m = some m')

theorem exists_path {code full rest : List Expr} {top : Word} (h : ∀ e ∈ code, Goes e) (m : Machine) :
    ∃ m', Path full top (code ++ rest, m) (rest, m') := by
  induction code generalizing m with
  | nil => exact ⟨m, .refl⟩
  | cons e code ih =>
    obtain ⟨⟨hplace, he⟩, hcode⟩ := List.forall_mem_cons.1 h
    have hspare : ∀ q, Spares top (e :: code ++ rest, m) q := by
      rintro q _ _ k ro a ⟨⟩ hx
      rw [hx] at hplace
      cases hplace
    have hnext : ∃ m₁, Step full top (e :: code ++ rest, m) (code ++ rest, m₁) := by
      rcases he with ⟨l, n, sig, args, rfl⟩ | ⟨is, hd, hrun⟩
      · exact ⟨m, .call (fun _ _ => rfl) fun _ _ => rfl⟩
      · obtain ⟨m₁, hm⟩ := hrun m
        exact ⟨m₁, .run hd hm⟩
    obtain ⟨m₁, hstep⟩ := hnext
    obtain ⟨m', hpath⟩ := ih hcode m₁
    exact ⟨m', .head ⟨hstep, hspare _⟩ hpath⟩

/-- The difference of the results of two calls, with a third call behind them. -/
def betweenCalls : Func :=
  let x : Expr := .reg (Func.softReg 0 .int64)
  let y : Expr := .reg (Func.softReg 1 .int64)
  let call : Expr := .call ⟨0⟩ none ⟨[], [.int64]⟩ []
  { name := "between", sig := ⟨[], [.int64]⟩, regs := [Func.softReg 0 .int64, Func.softReg 1 .int64],
    labels := (LabelPool.fresh {} none).2,
    source :=
      [.expr (.binary .assign .int64 x call), .expr (.binary .assign .int64 y call), .expr call,
       .expr (.ret [.binary (.arith .sub) .int64 x y])] }

/-- Its code up to the return: two registers are saved, so that eight more bytes align the stack. -/
def betweenCode : List Expr :=
  let reg (i : Nat) : Expr := fixed .int64 (gpr i)
  let call : Expr := .call ⟨0⟩ none ⟨[], [.int64]⟩ []
  pushes [gpr 3, gpr 12] ++ [Item.adjust (.compound .sub) rsp 8, call, .binary .assign .int64 (reg 3) (reg 0), call,
    .binary .assign .int64 (reg 12) (reg 0), call, .binary .assign .int64 (reg 0) (reg 3),
    .binary (.compound .sub) .int64 (reg 0) (reg 12), Item.adjust (.compound .add) rsp 8] ++ pops [gpr 12, gpr 3]

theorem goes_betweenCode : ∀ e ∈ betweenCode, Goes e := by
  have hcall : Goes (.call ⟨0⟩ none ⟨[], [.int64]⟩ []) := ⟨rfl, .inl ⟨_, _, _, _, rfl⟩⟩
  have hrun : ∀ {e : Expr} (i : Instr), (placeOf e).any Expr.isMem = false → denote e = some [i] →
      (∀ m, ∃ m', i.exec m = some m') → Goes e := fun i hplace hd hx =>
    ⟨hplace, .inr ⟨[i], hd, fun m => (hx m).imp fun m' hm => by simpa using hm⟩⟩
  simp only [betweenCode, pushes, pops, List.map_cons, List.map_nil, List.cons_append, List.nil_append, List.forall_mem_cons,
    hcall, true_and]
  refine ⟨?_, ?_, ?_, ?_, ?_, ?_, ?_, ?_, ?_, ?_, by simp⟩
  · exact hrun (.push (gpr 3)) rfl rfl fun _ => ⟨_, rfl⟩
  · exact hrun (.push (gpr 12)) rfl rfl fun _ => ⟨_, rfl⟩
  · exact hrun (.alu .sub 8 (.reg rsp) (.imm 8)) rfl rfl fun _ => ⟨_, rfl⟩
  · exact hrun (.mov 8 (.reg (gpr 3)) (.reg (gpr 0))) rfl rfl fun _ => ⟨_, rfl⟩
  · exact hrun (.mov 8 (.reg (gpr 12)) (.reg (gpr 0))) rfl rfl fun _ => ⟨_, rfl⟩
  · exact hrun (.mov 8 (.reg (gpr 0)) (.reg (gpr 3))) rfl rfl fun _ => ⟨_, rfl⟩
  · exact hrun (.alu .sub 8 (.reg (gpr 0)) (.reg (gpr 12))) rfl rfl fun _ => ⟨_, rfl⟩
  · exact hrun (.alu .add 8 (.reg rsp) (.imm 8)) rfl rfl fun _ => ⟨_, rfl⟩
  · exact hrun (.pop (gpr 12)) rfl rfl fun _ => ⟨_, rfl⟩
  · exact hrun (.pop (gpr 3)) rfl rfl fun _ => ⟨_, rfl⟩

theorem lower_balanced_betweenCalls : (∀ e ∈ Stmt.exprsL betweenCalls.source, e.isSoft = true) ∧
    ∃ flat log₁ l log', betweenCalls.flatten #[] = (.ok flat, log₁) ∧ (scan.allocate flat log₁).1.frame ≤ 2 ^ 31 ∧
      betweenCalls.lower ⟨[target]⟩ .w64 .amd64 #[] = (.ok l, log') ∧ l.program = betweenCode ++ [.ret []] ∧
      ∀ m₀ : Machine, ∃ m, Path l.program (m₀.regs rsp) (l.program, m₀) ([.ret []], m) ∧
        ∀ r ∈ preserved, m.regs r = m₀.regs r := by
  have hsoft : ∀ e ∈ Stmt.exprsL betweenCalls.source, e.isSoft = true := by decide
  have hrun : (betweenCalls.lower ⟨[target]⟩ .w64 .amd64 #[]).1.toOption.map Lowered.program =
      some (betweenCode ++ [.ret []]) := by cbv
  have hframe : (betweenCalls.flatten #[]).1.toOption.map
      (fun flat => (scan.allocate flat (betweenCalls.flatten #[]).2).1.frame) = some 0 := by cbv
  rcases hflat : betweenCalls.flatten #[] with ⟨_ | flat, log₁⟩
  · rw [hflat] at hframe
    cases hframe
  rcases hlower : betweenCalls.lower ⟨[target]⟩ .w64 .amd64 #[] with ⟨_ | l, log'⟩
  · rw [hlower] at hrun
    cases hrun
  rw [hflat] at hframe
  rw [hlower] at hrun
  have hspill : (scan.allocate flat log₁).1.frame ≤ 2 ^ 31 := (Option.some.inj hframe).trans_le (Nat.zero_le _)
  have hprogram : l.program = betweenCode ++ [.ret []] := Option.some.inj hrun
  refine ⟨hsoft, flat, log₁, l, log', rfl, hspill, rfl, hprogram, fun m₀ => ?_⟩
  have hgoes : ∃ m, Path l.program (m₀.regs rsp) (betweenCode ++ [.ret []], m₀) ([.ret []], m) :=
    exists_path goes_betweenCode m₀
  obtain ⟨m, hpath⟩ := hgoes
  rw [← hprogram] at hpath
  exact ⟨m, hpath, ((Func.lower_balanced rfl hsoft hflat hspill hlower).2 m₀ _ m hpath).1 [] rfl⟩

end Amd64

end JitBackend
