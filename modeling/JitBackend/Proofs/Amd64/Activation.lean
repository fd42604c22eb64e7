import Mathlib
import JitBackend.Proofs.Amd64.Machine
import JitBackend.Proofs.Amd64.Temporaries

/-!
# Activations

An activation is a function at work: its frame, the stack pointer, and how many stack temporaries it takes at most. At a
mark of the session the code may use the registers with a fixed job and the temporaries that are not taken (`free`).
Everything else it keeps (`Keeps`), apart from the place that it computes a value into (`Dest`).
-/

namespace JitBackend.Amd64

open Lower

/-! ## Cells -/

/-- What code can change. -/
inductive Cell
  | reg (r : HardReg) | byte (a : Word)

/-- The cells of `n` bytes at an address. -/
def bytesAt (a : Word) (n : Nat) : Set Cell := {c | ∃ b, c = .byte b ∧ (b - a).toNat < n}

/-- `m'` has what `m` has in every cell outside of `W`. -/
structure Keeps (W : Set Cell) (m m' : Machine) : Prop where
  regs : ∀ r, Cell.reg r ∉ W → m'.regs r = m.regs r
  bytes : ∀ b, Cell.byte b ∉ W → m'.mem b = m.mem b

namespace Keeps

variable {W W' : Set Cell} {m m₁ m' : Machine}

theorem refl (W : Set Cell) (m : Machine) : Keeps W m m := ⟨fun _ _ => rfl, fun _ _ => rfl⟩

theorem trans (h : Keeps W m m₁) (h' : Keeps W m₁ m') : Keeps W m m' :=
  ⟨fun r hr => (h'.regs r hr).trans (h.regs r hr), fun b hb => (h'.bytes b hb).trans (h.bytes b hb)⟩

theorem mono (h : Keeps W m m') (hW : W ⊆ W') : Keeps W' m m' :=
  ⟨fun r hr => h.regs r fun hw => hr (hW hw), fun b hb => h.bytes b fun hw => hb (hW hw)⟩

theorem flags (W : Set Cell) (m : Machine) (fl : Option Flags) : Keeps W m { m with flags := fl } :=
  ⟨fun _ _ => rfl, fun _ _ => rfl⟩

theorem term (h : Keeps W m m') {o : Option HardReg} (ho : ∀ r ∈ o, Cell.reg r ∉ W) : m'.term o = m.term o := by
  cases o with
  | none => rfl
  | some r => exact h.regs r (ho r rfl)

theorem address (h : Keeps W m m') {a : AddrMode} (ha : ∀ r ∈ a.regs, Cell.reg r ∉ W) : m'.address a = m.address a := by
  unfold Machine.address
  rw [h.term fun r hr => ha r (by simp [AddrMode.regs, Option.mem_def.1 hr]),
    h.term fun r hr => ha r (by simp [AddrMode.regs, Option.mem_def.1 hr])]

theorem read (h : Keeps W m m') {a : Word} {n : Nat} (ha : Disjoint (bytesAt a n) W) :
    m'.mem.read a n = m.mem.read a n := by
  apply Memory.read_congr
  intro i hi
  apply h.bytes
  refine Set.disjoint_left.1 ha ⟨_, rfl, ?_⟩
  rw [BitVec.add_comm a, BitVec.add_sub_cancel, BitVec.toNat_ofNat]
  exact lt_of_le_of_lt (Nat.mod_le _ _) hi

end Keeps

/-! ## Operands -/

/-- The operand holds the value `c`. -/
inductive Machine.Holds (m : Machine) (c : Const) : Expr → Prop
  | const : m.Holds c (.const c)
  | reg {k : Kind} {h : HardReg} {ro : Bool} (hk : k = c.kind) (hg : IsGpr h)
      (hv : low k.size (m.regs h) = low k.size c.re) : m.Holds c (.reg ⟨k, .hard h, ro⟩)
  | mem {k : Kind} {ro : Bool} {a : AddrMode} (hk : k = c.kind)
      (hv : m.mem.read (m.address a) k.size = low k.size c.re) : m.Holds c (.memAt k ro a)

/-- The cells that the value of an operand depends on. -/
def Machine.cells (m : Machine) : Expr → Set Cell
  | .reg r => {c | ∃ h, r.id = .hard h ∧ c = .reg h}
  | .memAt k _ a => {c | ∃ r ∈ a.regs, c = .reg r} ∪ bytesAt (m.address a) k.size
  | _ => ∅

section Holds

variable {m m' : Machine} {c : Const} {v : Expr} {W : Set Cell}

theorem Machine.Holds.kind (h : m.Holds c v) : v.kind = c.kind := by
  cases h with
  | const => rfl
  | reg hk => exact hk
  | mem hk => exact hk

theorem Machine.Holds.operand (hc : c.kind.isScalar = true) (h : m.Holds c v) :
    ∃ o, operand? v = some o ∧ m.read c.kind.size o = some (low c.kind.size c.re) := by
  cases h with
  | const =>
    refine ⟨.imm (sext c.kind.size c.re), ?_, ?_⟩
    · simp [operand?, Amd64.operand, immediate_eq hc, Except.map, Except.toOption]
    · exact congrArg some (low_sext (Kind.size_le_of_isScalar hc) _)
  | @reg k h ro hk hg hv =>
    subst hk
    refine ⟨.reg h, ?_, congrArg some hv⟩
    simp [operand?, Amd64.operand, hg.1, hg.2, Except.toOption]
  | @mem k ro a hk hv =>
    subst hk
    exact ⟨.mem a, rfl, congrArg some hv⟩

theorem Machine.Holds.keeps (h : m.Holds c v) (hk : Keeps W m m')
    (hd : Disjoint (m.cells v) W) : m'.Holds c v := by
  cases h with
  | const => exact .const
  | @reg k h ro hkind hg hv =>
    refine .reg hkind hg ?_
    rw [hk.regs h (Set.disjoint_left.1 hd ⟨h, rfl, rfl⟩)]
    exact hv
  | @mem k ro a hkind hv =>
    have haddr : m'.address a = m.address a := hk.address fun r hr => Set.disjoint_left.1 hd (.inl ⟨r, hr, rfl⟩)
    refine .mem hkind ?_
    rw [haddr, hk.read (hd.mono_left Set.subset_union_right)]
    exact hv

theorem Machine.cells_keeps (hk : Keeps W m m') (hd : Disjoint (m.cells v) W) : m'.cells v = m.cells v := by
  cases v with
  | memAt k ro a =>
    have haddr : m'.address a = m.address a := hk.address fun r hr => Set.disjoint_left.1 hd (.inl ⟨r, hr, rfl⟩)
    simp only [Machine.cells, haddr]
  | _ => rfl

end Holds

/-! ## Frames at work -/

/-- A function at work. Its stack area is within reach of a four-byte displacement. -/
structure Activation where
  frame : Frame
  sp : Word
  limit : Nat
  regs_eq : frame.regs = regFile
  fits : frame.alloc.frame + 8 * limit < 2 ^ 31

namespace Activation

variable (A : Activation)

/-- The bytes of the stack area. -/
def stack : Set Word := {b | (b - A.sp).toNat < A.frame.alloc.frame + 8 * A.limit}

/-- The cells that code may use at a mark. -/
def free (μ : Mark) : Set Cell := {c | match c with
  | .reg r => r ∈ [rax, rcx, rdx] ∨ ∃ i, scratch[i]? = some r ∧ μ.scratch ≤ i
  | .byte b => A.frame.alloc.frame + 8 * μ.temps ≤ (b - A.sp).toNat ∧ b ∈ A.stack}

variable {A} {μ ν : Mark} {r : HardReg} {b : Word}

theorem byte_mem_free :
    Cell.byte b ∈ A.free μ ↔ A.frame.alloc.frame + 8 * μ.temps ≤ (b - A.sp).toNat ∧ b ∈ A.stack := Iff.rfl

theorem free_anti (h : μ ≤ ν) : A.free ν ⊆ A.free μ := by
  intro c hc
  cases c with
  | reg r =>
    rcases hc with hc | ⟨i, hi, hle⟩
    · exact .inl hc
    · exact .inr ⟨i, hi, h.1.trans hle⟩
  | byte b =>
    have hle := h.2
    obtain ⟨hlo, hhi⟩ := byte_mem_free.1 hc
    exact ⟨by omega, hhi⟩

theorem not_free_of_home (h : r ∈ homes) : Cell.reg r ∉ A.free μ := by
  rintro (hr | ⟨i, hi, -⟩)
  · have hall : ∀ r ∈ homes, r ∉ [rax, rcx, rdx] := by decide
    exact hall r h hr
  · exact not_mem_homes hi h

theorem not_free_of_owned (h : Owned μ r ν) : Cell.reg r ∉ A.free ν := by
  rcases h with h | ⟨i, hi, -, hlt⟩
  · exact not_free_of_home h
  · rintro (hr | ⟨j, hj, hle⟩)
    · have hall : ∀ r ∈ scratch, r ∉ [rax, rcx, rdx] := by decide
      exact hall r (List.mem_of_getElem? hi) hr
    · have hij := scratch_inj hi hj
      omega

theorem rsp_not_free : Cell.reg rsp ∉ A.free μ := by
  rintro (hr | ⟨i, hi, -⟩)
  · revert hr
    decide
  · have hmem : rsp ∈ scratch := List.mem_of_getElem? hi
    revert hmem
    decide

end Activation

/-! ## Destinations -/

/-- A place that instructions can write to, and the cells `T` that this changes. -/
inductive Occupies (m : Machine) : Expr → Set Cell → Prop
  | reg {k : Kind} {h : HardReg} {ro : Bool} (hk : k.isScalar = true) (hg : IsGpr h) :
      Occupies m (.reg ⟨k, .hard h, ro⟩) {.reg h}
  | mem {k : Kind} {ro : Bool} {a : AddrMode} (hk : k.isScalar = true) :
      Occupies m (.memAt k ro a) (bytesAt (m.address a) k.size)

/-- A place that a value can be computed into at a mark, and the cells `T` that this changes: they are in use, and so
are the registers of its address, so that taking temporaries does not disturb it. -/
inductive Dest (A : Activation) (μ : Mark) (m : Machine) : Expr → Set Cell → Prop
  | reg {k : Kind} {h : HardReg} {ro : Bool} (hk : k.isScalar = true) (hg : IsGpr h) (hsp : h ≠ rsp)
      (hfree : Cell.reg h ∉ A.free μ) : Dest A μ m (.reg ⟨k, .hard h, ro⟩) {.reg h}
  | mem {k : Kind} {ro : Bool} {a : AddrMode} (hk : k.isScalar = true) (hregs : ∀ r ∈ a.regs, Cell.reg r ∉ A.free μ)
      (hfree : Disjoint (bytesAt (m.address a) k.size) (A.free μ)) :
      Dest A μ m (.memAt k ro a) (bytesAt (m.address a) k.size)

section Dest

variable {A : Activation} {μ ν : Mark} {m m' : Machine} {dst : Expr} {T : Set Cell}

theorem Occupies.isScalar (h : Occupies m dst T) : dst.kind.isScalar = true := by
  cases h with
  | reg hk => exact hk
  | mem hk => exact hk

theorem Dest.occupies (h : Dest A μ m dst T) : Occupies m dst T := by
  cases h with
  | reg hk hg => exact .reg hk hg
  | mem hk => exact .mem hk

theorem Dest.isScalar (h : Dest A μ m dst T) : dst.kind.isScalar = true := h.occupies.isScalar

theorem Dest.mono (h : Dest A μ m dst T) (hle : μ ≤ ν) : Dest A ν m dst T := by
  have hsub : A.free ν ⊆ A.free μ := Activation.free_anti hle
  cases h with
  | reg hk hg hsp hfree => exact .reg hk hg hsp fun hf => hfree (hsub hf)
  | mem hk hregs hfree => exact .mem hk (fun r hr hf => hregs r hr (hsub hf)) (hfree.mono_right hsub)

theorem reg_not_mem_bytesAt {r : HardReg} {a : Word} {n : Nat} : Cell.reg r ∉ bytesAt a n := by
  rintro ⟨b, hb, -⟩
  cases hb

theorem Dest.keeps (h : Dest A μ m dst T) (hk : Keeps (A.free μ ∪ T) m m') : Dest A μ m' dst T := by
  cases h with
  | reg hkind hg hsp hfree => exact .reg hkind hg hsp hfree
  | @mem k ro a hkind hregs hfree =>
    have haddr : m'.address a = m.address a := hk.address fun r hr hf =>
      hf.elim (hregs r hr) reg_not_mem_bytesAt
    rw [← haddr]
    exact .mem hkind hregs (by rw [haddr]; exact hfree)

/-- A register of `n` bytes after it was written. -/
theorem low_splice (n : Nat) (old w : Word) : low n (Machine.splice n old w) = low n w := by
  unfold Machine.splice
  split
  · exact low_low n w
  · apply BitVec.eq_of_getLsbD_eq
    intro i hi
    simp only [getLsbD_low, BitVec.getLsbD_or, BitVec.getLsbD_and, BitVec.getLsbD_not, hi, decide_true, Bool.true_and]
    by_cases hlt : i < 8 * n
    · have hone : (-1 : Word).getLsbD i = true := by
        rw [show (-1 : Word) = BitVec.allOnes 64 by decide, BitVec.getLsbD_allOnes]
        simpa using hi
      rw [hone]
      simp [hlt]
    · simp [hlt]

theorem Machine.setReg_self (m : Machine) (n : Nat) (r : HardReg) (w : Word) :
    (m.setReg n r w).regs r = splice n (m.regs r) w := Function.update_self _ _ _

theorem Machine.low_setReg (m : Machine) (n : Nat) (r : HardReg) (w : Word) :
    low n ((m.setReg n r w).regs r) = low n w := by
  rw [setReg_self, low_splice]

theorem Keeps.setReg (m : Machine) (n : Nat) (r : HardReg) (w : Word) : Keeps {.reg r} m (m.setReg n r w) :=
  ⟨fun _ hr => Function.update_of_ne (fun he => hr (by rw [he]; rfl)) _ _, fun _ _ => rfl⟩

/-- A write to a place changes its cells only, and it holds the value then. -/
theorem Occupies.write (h : Occupies m dst T) (w : Word) : ∃ o m', operand? dst = some o ∧
    m.write dst.kind.size o w = some m' ∧ m'.flags = m.flags ∧ Keeps T m m' ∧
      ∀ c : Const, c.kind = dst.kind → low dst.kind.size c.re = low dst.kind.size w → m'.Holds c dst := by
  cases h with
  | @reg k h ro hk hg =>
    refine ⟨.reg h, m.setReg k.size h w, ?_, rfl, rfl, .setReg m k.size h w, ?_⟩
    · simp [operand?, operand, hg.1, hg.2, Except.toOption]
    · intro c hc hw
      exact .reg hc.symm hg ((m.low_setReg k.size h w).trans hw.symm)
  | @mem k ro a hk =>
    refine ⟨.mem a, { m with mem := m.mem.write (m.address a) k.size w }, rfl, rfl, rfl, ⟨fun r hr => rfl, ?_⟩, ?_⟩
    · intro b hb
      apply Memory.write_of_ge
      by_contra hlt
      exact hb ⟨b, rfl, by omega⟩
    · intro c hc hw
      refine .mem hc.symm ?_
      exact (Memory.read_write m.mem (m.address a) k.size w).trans hw.symm

end Dest

end JitBackend.Amd64
