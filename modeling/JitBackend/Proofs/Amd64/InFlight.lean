import JitBackend.Proofs.Amd64.Assignment
import JitBackend.Proofs.Amd64.CallSites
import JitBackend.Proofs.Amd64.Footprint

/-!
# Values in flight

While an operand is computed, others wait: in scratch registers and stack temporaries in use, and in the places of the soft
registers that are live. Selection takes scratch registers, folds sums into them, gives them back early or at the end of a
scope, and saves them around calls; the code that it makes never changes a value that waits, apart from the place that it
is asked to compute into (`selection_keeps_inFlight`).

The argument fixes a set `W` of cells that may change. Code that is woven of instructions that only change `W` and of call
sites keeps all other cells on every path (`Woven.keeps`), and to make such code, without giving back a temporary that was
in use before, is a law of selection (`guarding`).
-/

namespace JitBackend.Amd64

open Lower

/-! ## Woven code -/

/-- An instruction that changes no cell outside of `W`, if none was changed since `m₀`. -/
structure Harmless (W : Set Cell) (m₀ : Machine) (e : Expr) : Prop where
  call : ∀ {l n sig args}, e ≠ .call l n sig args
  stack : movesStack e = false
  changed : ∀ {m}, Keeps W m₀ m → m.changed e ⊆ W

/-- Code without jumps that may change other cells meanwhile, but has restored them in the end. -/
structure Restores (top : Word) (W : Set Cell) (m₀ : Machine) (b : List Expr) : Prop where
  straight : ∀ e ∈ b, isStraight e = true
  keeps : ∀ {m m'}, Keeps W m₀ m → Through top b m m' → Keeps W m₀ m'

/-- Code made of harmless instructions and of blocks that restore what they change. -/
inductive Woven (top : Word) (W : Set Cell) (m₀ : Machine) : List Expr → Prop
  | nil : Woven top W m₀ []
  | cons {e : Expr} {rest : List Expr} (he : Harmless W m₀ e) (h : Woven top W m₀ rest) : Woven top W m₀ (e :: rest)
  | block {b rest : List Expr} (hb : Restores top W m₀ b) (h : Woven top W m₀ rest) : Woven top W m₀ (b ++ rest)

/-- A machine in the middle of woven code: the rest of a block, if any, will leave it with all other cells restored. -/
def Amid (top : Word) (W : Set Cell) (m₀ : Machine) (p : List Expr × Machine) : Prop :=
  ∃ b rest, p.1 = b ++ rest ∧ (∀ e ∈ b, isStraight e = true) ∧ (∀ m', Through top b p.2 m' → Keeps W m₀ m') ∧
    Woven top W m₀ rest

section Woven

variable {top : Word} {W : Set Cell} {m₀ m m' : Machine} {code a b rest : List Expr} {e : Expr} {p q : List Expr × Machine}

theorem Woven.append (ha : Woven top W m₀ a) (hb : Woven top W m₀ b) : Woven top W m₀ (a ++ b) := by
  induction ha with
  | nil => exact hb
  | cons he _ ih => exact .cons he ih
  | block hblock _ ih =>
    rw [List.append_assoc]
    exact .block hblock ih

/-- A jump does not lead into a block. -/
theorem Woven.of_suffix {l : Label} (h : Woven top W m₀ code) (hl : (.label l :: rest) <:+ code) : Woven top W m₀ rest := by
  induction h with
  | nil => cases List.suffix_nil.1 hl
  | cons _ h ih =>
    rcases List.suffix_cons_iff.1 hl with heq | hl
    · cases heq
      exact h
    · exact ih hl
  | block hb _ ih => exact ih (suffix_of_placed_nil (placed_of_isStraight hb.straight) hl)

theorem Woven.amid (h : Woven top W m₀ rest) (hk : Keeps W m₀ m) : Amid top W m₀ (rest, m) :=
  ⟨[], rest, rfl, by simp, fun m' h => by rw [show m' = m from h]; exact hk, h⟩

theorem Harmless.run {is : List Instr} (he : Harmless W m₀ e) (hk : Keeps W m₀ m) (hd : denote e = some is)
    (hrun : is.foldlM (fun m i => i.exec m) m = some m') : Keeps W m₀ m' :=
  hk.trans ((keeps_of_denote hd he.stack hrun).mono (he.changed hk))

theorem Harmless.locate {k : Kind} {x y : Expr} {r : HardReg} {w : Word} (he : Harmless W m₀ (.binary .assign k x y))
    (hk : Keeps W m₀ m) (hx : operand? x = some (.reg r)) : Keeps W m₀ (m.setReg 8 r w) :=
  hk.trans ((Keeps.setReg m 8 r w).mono
    (Set.singleton_subset_iff.2 (he.changed hk (.inr ⟨x, .reg r, rfl, hx, rfl⟩))))

/-- Within a block, one step leads to the rest of the block. -/
theorem Amid.straight (he : isStraight e = true) (hb : ∀ e ∈ b, isStraight e = true) (hrest : Woven top W m₀ rest)
    (hthrough : ∀ m', Through top (e :: b) m m' → Keeps W m₀ m') (h : Step code top (e :: (b ++ rest), m) q) :
    Amid top W m₀ q := by
  obtain ⟨m₁, rfl, h₁⟩ := h.of_isStraight he
  exact ⟨b, rest, rfl, hb, fun m' h => hthrough m' ⟨m₁, h₁, h⟩, hrest⟩

/-- A step from the start of woven code. -/
theorem Woven.step (hcode : Woven top W m₀ code) (h : Woven top W m₀ rest) (hk : Keeps W m₀ m)
    (hs : Step code top (rest, m) q) : Amid top W m₀ q := by
  induction h with
  | nil => cases hs
  | cons he h =>
    cases hs with
    | label | stay => exact h.amid hk
    | jump hl | branch hl => exact (hcode.of_suffix hl).amid hk
    | call => exact absurd rfl he.call
    | locate _ hx => exact h.amid (he.locate hk hx)
    | run hd hrun => exact h.amid (he.run hk hd hrun)
  | @block b rest hb h ih =>
    cases b with
    | nil => exact ih hs
    | cons e b =>
      obtain ⟨he, hstraight⟩ := List.forall_mem_cons.1 hb.straight
      exact Amid.straight he hstraight h (fun m' => hb.keeps hk) hs

/-- Each step leads from position to position. -/
theorem Amid.step (hcode : Woven top W m₀ code) (h : Amid top W m₀ p) (hs : Step code top p q) :
    Amid top W m₀ q := by
  obtain ⟨pos, m⟩ := p
  obtain ⟨b, rest, rfl, hstraight, hthrough, hrest⟩ := h
  cases b with
  | nil => exact hcode.step hrest (hthrough m rfl) hs
  | cons e b =>
    obtain ⟨he, hstraight⟩ := List.forall_mem_cons.1 hstraight
    exact .straight he hstraight hrest hthrough hs

/-- On every path through woven code, no cell outside of `W` is changed in the end. -/
theorem Woven.keeps (h : Woven top W m₀ code) (hpath : Relation.ReflTransGen (Step code top) (code, m₀) ([], m')) :
    Keeps W m₀ m' := by
  -- in the middle of a block other cells may have changed, so that the induction is about `Amid` and not about `Keeps`
  have hall : ∀ q, Relation.ReflTransGen (Step code top) (code, m₀) q → Amid top W m₀ q := by
    intro q hq
    induction hq with
    | refl => exact h.amid (.refl _ _)
    | tail _ hs ih => exact ih.step h hs
  obtain ⟨b, rest, hnil, -, hthrough, -⟩ := hall _ hpath
  obtain ⟨rfl, rfl⟩ := List.append_eq_nil_iff.1 hnil.symm
  exact hthrough m' rfl

end Woven

/-! ## Cells that selection may change -/

theorem mem_take_scratch {r : HardReg} {n : Nat} : r ∈ scratch.take n ↔ ∃ i < n, scratch[i]? = some r := by
  simp only [List.mem_iff_getElem?, List.getElem?_take, Option.ite_none_right_eq_some]

/-- What may change while the temporaries of a mark are in use: all that is free at the mark, but not the stack pointer. -/
structure Guards (A : Activation) (μ : Mark) (W : Set Cell) (m₀ : Machine) : Prop where
  sp : m₀.regs rsp = A.sp
  rsp : Cell.reg rsp ∉ W
  free : A.free μ ⊆ W

/-- What may change where there are calls: all that they may change, but for the scratch registers of the mark. -/
structure Outlasts (A : Activation) (top : Word) (μ : Mark) (W : Set Cell) : Prop where
  area : A.frame.alloc.frame + 8 * A.limit ≤ (top - A.sp).toNat
  regs : ∀ {r}, Cell.reg r ∉ W → r ∈ preserved ∨ r ∈ scratch.take μ.scratch
  bytes : ∀ {b}, Cell.byte b ∉ W → (b - A.sp).toNat < (top - A.sp).toNat

/-- The cells of a place may change, wherever it is after changes to `W` only. -/
def MayWrite (W : Set Cell) (m₀ : Machine) (d : Expr) : Prop :=
  ∀ ⦃m⦄, Keeps W m₀ m → ∀ ⦃o⦄, operand? d = some o → m.target (min 8 (max 1 d.kind.size)) o ⊆ W

section Guards

variable {A : Activation} {μ : Mark} {W : Set Cell} {m₀ m : Machine} {top : Word}

theorem Guards.sp_eq (hG : Guards A μ W m₀) (hk : Keeps W m₀ m) : m.regs Amd64.rsp = A.sp :=
  (hk.regs _ hG.rsp).trans hG.sp

theorem Guards.fixed (hG : Guards A μ W m₀) {r : HardReg} (hr : r ∈ [rax, rcx, rdx]) : Cell.reg r ∈ W := hG.free (.inl hr)

theorem Guards.divided (hG : Guards A μ W m₀) : divided ⊆ W := by
  rintro c (rfl | rfl)
  · exact hG.fixed (by simp)
  · exact hG.fixed (by simp)

/-- The bytes of a slot above the temporaries of the mark may change. -/
theorem Guards.slot (hG : Guards A μ W m₀) {o : Nat} (hlo : A.frame.alloc.frame + 8 * μ.temps ≤ o)
    (hhi : o + 8 ≤ A.frame.alloc.frame + 8 * A.limit) : bytesAt (A.sp + .ofNat 64 o) 8 ⊆ W := by
  have hfits := A.fits
  rintro c ⟨b, rfl, hb⟩
  have hb : Cell.byte b ∈ bytesAt (A.sp + .ofNat 64 o) 8 := ⟨b, rfl, hb⟩
  rw [mem_bytesAt_slot (by omega)] at hb
  refine hG.free (Activation.byte_mem_free.2 ⟨by omega, ?_⟩)
  show (b - A.sp).toNat < _
  omega

/-- A call site whose slots are above the temporaries of the mark restores the registers in use. -/
theorem restores_callSite (hG : Guards A μ W m₀) (hO : Outlasts A top μ W) {ps : List (HardReg × Nat)} {l : Label}
    {n : Option String} {sig : Signature} {args : List Expr}
    (hps : Sheltered (A.frame.alloc.frame + 8 * μ.temps) (A.frame.alloc.frame + 8 * A.limit) ps)
    (hregs : ∀ r ∈ scratch.take μ.scratch, r ∈ ps.map (·.1)) : Restores top W m₀ (callSite ps (.call l n sig args)) where
  straight := by
    simp only [callSite, saves, reloads, List.mem_append, List.mem_cons, List.mem_map]
    rintro e (⟨p, -, rfl⟩ | rfl | ⟨p, -, rfl⟩) <;> rfl
  keeps hk h := by
    refine hk.trans ((h.callSite hps A.fits hO.area (hG.sp_eq hk)).mono ?_)
    rintro c ((⟨r, rfl, hpres, hsaved⟩ | ⟨p, hp, hc⟩) | ⟨b, rfl, hout⟩)
    · by_contra hr
      rcases hO.regs hr with hr | hr
      · exact hpres hr
      · exact hsaved (hregs r hr)
    · exact hG.slot (hps.within p hp).1 (hps.within p hp).2 hc
    · by_contra hb
      have := hO.bytes hb
      omega

/-! ## Places and instructions -/

/-- An instruction of the width of the place, or any on a register, changes only what may change. -/
theorem MayWrite.target {d : Expr} {o : Operand} {n : Nat} (hd : MayWrite W m₀ d) (hk : Keeps W m₀ m)
    (ho : operand? d = some o) (hn : d.isReg = true ∨ n ≤ min 8 (max 1 d.kind.size)) : m.target n o ⊆ W := by
  rcases hn with hreg | hn
  · obtain ⟨r, rfl⟩ := Law.exists_of_isReg hreg
    obtain ⟨g, rfl, -⟩ := operand?_of_reg ho
    exact hd hk ho
  · exact (Machine.target_mono hn).trans (hd hk ho)

theorem mayWrite_reg {r : Reg} (h : ∀ g, r.id = .hard g → Cell.reg g ∈ W) : MayWrite W m₀ (.reg r) := by
  intro m _ o ho
  obtain ⟨g, rfl, hid⟩ := operand?_of_reg ho
  exact Set.singleton_subset_iff.2 (h g hid)

theorem mayWrite_fixed {k : Kind} {r : HardReg} (h : Cell.reg r ∈ W) : MayWrite W m₀ (fixed k r) :=
  mayWrite_reg (by rintro _ ⟨⟩; exact h)

theorem mayWrite_slot (hG : Guards A μ W m₀) {k : Kind} {ro : Bool} {o : Nat} (hlo : A.frame.alloc.frame + 8 * μ.temps ≤ o)
    (hhi : o + 8 ≤ A.frame.alloc.frame + 8 * A.limit) : MayWrite W m₀ (.memAt k ro (.ofBase rsp (.ofNat 32 o))) := by
  have hfits := A.fits
  rintro m hk _ ⟨⟩
  have haddr := address_slot (hG.sp_eq hk) (show o < 2 ^ 31 by omega)
  refine subset_trans ?_ (hG.slot hlo hhi)
  rw [← haddr]
  exact Machine.target_mono (o := .mem _) (min_le_left _ _)

theorem harmless_of_place {e : Expr} (hG : Guards A μ W m₀) (hcall : ∀ l n sig args, e ≠ .call l n sig args)
    (hstack : movesStack e = false)
    (h : ∀ {x o m}, placeOf e = some x → operand? x = some o → Keeps W m₀ m → m.target (extent e) o ⊆ W) :
    Harmless W m₀ e where
  call := hcall _ _ _ _
  stack := hstack
  changed hk := by
    rintro c (hc | ⟨x, o, hx, ho, hc⟩)
    · exact hG.divided hc
    · exact h hx ho hk hc

/-- Whether instructions of a kind may work on a place. -/
def FitsPlace (d : Expr) (k : Kind) : Prop := d.isReg = true ∨ k.size ≤ max 1 d.kind.size

theorem harmless_emitted {e : Expr} (hG : Guards A μ W m₀)
    (h : Emitted (MayWrite W m₀) FitsPlace (fun _ => True) (fun _ => True) e) : Harmless W m₀ e := by
  have hbool : Kind.bool.size = 1 := rfl
  cases h with
  | assign hd | compound hd | flip hd =>
    refine harmless_of_place hG (by simp) rfl ?_
    rintro x o m ⟨⟩ ho hk
    exact hd.target hk ho (.inr (by simp only [extent]; omega))
  | load hd =>
    refine harmless_of_place hG (by simp) rfl ?_
    rintro x o m ⟨⟩ ho hk
    exact hd.target hk ho (.inl rfl)
  | self hd hfit | setcc hd hfit =>
    refine harmless_of_place hG (by simp) rfl ?_
    rintro x o m ⟨⟩ ho hk
    exact hd.target hk ho (hfit.imp_right fun hfit => by simp only [extent]; omega)
  | cmp | test | jumpIf => exact harmless_of_place hG (by simp) rfl (by rintro _ _ _ ⟨⟩)
  | jump | jcc =>
    refine harmless_of_place hG (by simp [Expr.jumpTo]) rfl ?_
    rintro x o m ⟨⟩ ⟨⟩ _
    exact Set.empty_subset _

end Guards

/-! ## The law -/

/-- An assignment, plain or compound. -/
def IsAssign (e : Expr) : Prop := ∃ op k x y, e = .binary op k x y ∧ op.isAssign = true

/-- Well-kinded expressions over soft registers without assignments, and without calls where `C` fails. -/
structure Calm (C : Prop) (e : Expr) : Prop where
  soft : e.isSoft = true
  well : e.WellKinded
  pure : ¬e.Has IsAssign
  calls : e.Has Expr.IsCall → C

section Calm

variable {C : Prop} {e x y : Expr} {k : Kind}

theorem Calm.child (h : Calm C e) (hx : x ∈ e.children) (hsoft : x.isSoft = true) (hwell : x.WellKinded) : Calm C x :=
  ⟨hsoft, hwell, fun ha => h.pure (Expr.has_iff.2 (.inr ⟨x, hx, ha⟩)), fun hc => h.calls (Expr.has_iff.2 (.inr ⟨x, hx, hc⟩))⟩

theorem Calm.address {ro : Bool} (h : Calm C (.mem k ro x)) : Calm C x :=
  h.child (by simp [Expr.children]) (by simpa [Expr.isSoft] using h.soft) h.well.2.2

theorem Calm.unary {op : UnaryOp} (h : Calm C (.unary op k x)) : Calm C x :=
  h.child (by simp [Expr.children]) (by simpa [Expr.isSoft] using h.soft) h.well.2

theorem Calm.left {op : BinaryOp} (h : Calm C (.binary op k x y)) : Calm C x := by
  have hs : x.isSoft = true ∧ y.isSoft = true := by simpa [Expr.isSoft] using h.soft
  exact h.child (by simp [Expr.children]) hs.1 h.well.2.1

theorem Calm.right {op : BinaryOp} (h : Calm C (.binary op k x y)) : Calm C y := by
  have hs : x.isSoft = true ∧ y.isSoft = true := by simpa [Expr.isSoft] using h.soft
  exact h.child (by simp [Expr.children]) hs.2 h.well.2.2

theorem Calm.not_assign {op : BinaryOp} (h : Calm C (.binary op k x y)) : op.isAssign = false := by
  by_contra ha
  exact h.pure (Expr.has_iff.2 (.inl ⟨op, k, x, y, rfl, by simpa using ha⟩))

theorem Calm.kind_of_unary {op : UnaryOp} (h : Calm C (.unary op k x)) (hop : op = .neg ∨ op = .inv) : k = x.kind := by
  rcases hop with rfl | rfl
  · exact (Expr.checkUnary_eq_ok.1 h.well.1).2.2.symm
  · exact (Expr.checkUnary_eq_ok.1 h.well.1).2.2.symm

theorem Calm.kind_of_arith {op : ArithOp} (h : Calm C (.binary (.arith op) k x y)) : k = x.kind :=
  (Expr.checkBinary_eq_ok.1 h.well.1).2.2.symm

theorem size_of_isBool (h : k.isBool = true) : k.size = 1 := by
  cases k <;> first | rfl | cases h

theorem Calm.size_of_lnot (h : Calm C (.unary .lnot k x)) : x.kind.size = 1 :=
  size_of_isBool (Expr.checkUnary_eq_ok.1 h.well.1).1

theorem Calm.size_of_logic {op : LogicOp} (h : Calm C (.binary (.logic op) k x y)) : x.kind.size = 1 ∧ y.kind.size = 1 := by
  have hadmits : (x.kind == y.kind && x.kind.isBool) = true := (Expr.checkBinary_eq_ok.1 h.well.1).1
  simp only [Bool.and_eq_true, beq_iff_eq] at hadmits
  exact ⟨size_of_isBool hadmits.2, hadmits.1 ▸ size_of_isBool hadmits.2⟩

end Calm

section Law

variable {A : Activation} {μ : Mark} {W : Set Cell} {m₀ : Machine} {top : Word} {s s' : Session} {k : Kind} {p : Purpose}
  {t : Expr}

/-- The temporaries of the mark stay in use, and the code is woven. -/
def woven (μ : Mark) (top : Word) (W : Set Cell) (m₀ : Machine) : Discipline where
  Inv s := μ ≤ s.mark
  Code items := ∃ code : List Expr, items = code.map .instr ∧ Woven top W m₀ code
  nil := ⟨[], rfl, .nil⟩
  append := by
    rintro _ _ ⟨a, rfl, ha⟩ ⟨b, rfl, hb⟩
    exact ⟨a ++ b, (List.map_append).symm, ha.append hb⟩
  release h h₁ := ⟨le_min h.1 h₁.1, le_min h.2 h₁.2⟩

/-- The next scratch register was not in use at the mark. -/
theorem mayWrite_scratch (hG : Guards A μ W m₀) (hμ : μ ≤ s.mark) {g : HardReg}
    (hg : A.frame.regs.scratch[s.scratchUsed]? = some g) :
    MayWrite W m₀ (fixed k g) ∧ g ∉ scratch.take μ.scratch := by
  rw [A.regs_eq] at hg
  refine ⟨mayWrite_fixed (hG.free (.inr ⟨_, hg, hμ.1⟩)), fun hmem => ?_⟩
  obtain ⟨i, hlt, hi⟩ := mem_take_scratch.1 hmem
  have heq := scratch_inj hi hg
  have hle : μ.scratch ≤ s.scratchUsed := hμ.1
  omega

theorem mayWrite_stackTemp (hG : Guards A μ W m₀) (hμ : μ ≤ s.mark) (h : s.stackTemp A.frame k p = (.ok t, s'))
    (hpeak : s'.tempPeak ≤ A.limit) : MayWrite W m₀ t := by
  obtain ⟨sp, hsp, -, rfl, rfl⟩ := stackTemp_eq_ok h
  rw [A.regs_eq] at hsp
  cases hsp
  have hwords := (words_le k).1
  have hlast := (le_max_right _ _).trans hpeak
  have hoffset := slotOffset_eq (s := s) A.fits (by omega)
  have hmark : μ.temps ≤ s.temps := hμ.2
  exact mayWrite_slot (o := s.slotOffset A.frame) hG (by omega) (by omega)

theorem isTemp_mayWrite (hG : Guards A μ W m₀) (hμ : μ ≤ s.mark) (h : s.temp A.frame k p = (.ok t, s'))
    (hpeak : s'.tempPeak ≤ A.limit) : IsTemp (MayWrite W m₀) (· ∉ scratch.take μ.scratch) k t :=
  .of_temp h (fun _ hg => mayWrite_scratch hG hμ hg) fun hs => mayWrite_stackTemp hG hμ hs hpeak

/-- A scratch register is given back only if it was not in use at the mark. -/
theorem mark_freeScratch (hμ : μ ≤ s.mark) {r : HardReg} (hr : r ∉ scratch.take μ.scratch) :
    μ ≤ (s.freeScratch A.frame r).mark := by
  unfold Session.freeScratch
  split
  · rename_i hcond
    obtain ⟨hpos, hget⟩ := hcond
    rw [A.regs_eq] at hget
    have hmark : μ.scratch ≤ s.scratchUsed := hμ.1
    refine ⟨?_, hμ.2⟩
    show μ.scratch ≤ s.scratchUsed - 1
    by_contra hlt
    exact hr (mem_take_scratch.2 ⟨s.scratchUsed - 1, by omega, hget⟩)
  · exact hμ

/-- A scratch register that was not in use at the mark may be written. -/
theorem mayWrite_freed (hG : Guards A μ W m₀) {r : HardReg} (hr : r ∈ scratch) (hnot : r ∉ scratch.take μ.scratch) :
    MayWrite W m₀ (fixed k r) := by
  obtain ⟨i, hi⟩ := List.mem_iff_getElem?.1 hr
  refine mayWrite_fixed (hG.free (.inr ⟨i, hi, ?_⟩))
  by_contra hlt
  exact hnot (mem_take_scratch.2 ⟨i, by omega, hi⟩)

theorem woven_change {α : Type} {step : Frame → Session → Except Error α × Session} {Q : α → Prop}
    (h : ∀ {s a s'}, step A.frame s = (.ok a, s') → μ ≤ s.mark → s'.tempPeak ≤ A.limit →
      μ ≤ s'.mark ∧ s'.items = s.items ∧ Q a) : (woven μ top W m₀).Obeys A.frame A.limit (change step) Q :=
  .of_eq fun hg hμ hpeak => h hg.change hμ hpeak

theorem woven_emit {e : Expr} (he : Harmless W m₀ e) :
    (woven μ top W m₀).Obeys A.frame A.limit (emit e) fun _ => True := by
  intro s a s' hg hμ _
  obtain rfl := hg.emit
  exact ⟨hμ, ⟨[.instr e], by simp, [e], rfl, .cons he .nil⟩, trivial⟩

theorem woven_label (hG : Guards A μ W m₀) {body : Label → Lower Unit} (hg : ∀ l, Grows A.frame (body l))
    (hb : ∀ l, (woven μ top W m₀).Obeys A.frame A.limit (body l) fun _ => True) :
    (woven μ top W m₀).Obeys A.frame A.limit (do let l ← newLabel; body l; emit (.label l)) fun _ => True := by
  have hnew : (woven μ top W m₀).Obeys A.frame A.limit newLabel fun _ => True := .of_eq fun h hμ _ => by
    obtain ⟨-, rfl⟩ := h.newLabel
    exact ⟨hμ, rfl, trivial⟩
  have := fun l => hg l
  exact hnew.bind fun l _ => (hb l).bind fun _ _ =>
    woven_emit (harmless_of_place hG (by simp) rfl (by rintro _ _ _ ⟨⟩))

theorem woven_emitCall (hG : Guards A μ W m₀) (hO : Outlasts A top μ W) (l : Label) (n : Option String) (sig : Signature)
    (args : List Expr) : (woven μ top W m₀).Obeys A.frame A.limit (emitCall (.call l n sig args)) fun v =>
      v = if sig.value.isVoid then nothing else fixed sig.value rax := by
  intro s v s' hg hμ hpeak
  obtain ⟨ps, hregs, hps, hmark, hitems, hv⟩ := items_emitCall A.regs_eq A.fits hg hpeak
  have hle : μ.temps ≤ s.temps := hμ.2
  have hrestores : Restores top W m₀ (callSite ps (.call l n sig args)) := by
    refine restores_callSite hG hO (hps.mono (by omega)) fun r hr => ?_
    rw [hregs]
    exact List.take_subset_take_left _ hμ.1 hr
  refine ⟨show μ ≤ s'.mark from hmark ▸ hμ, ⟨_, hitems, _, rfl, ?_⟩, hv⟩
  rw [← List.append_nil (callSite ps _)]
  exact .block hrestores .nil

/-- Selection makes woven code, and keeps the temporaries of the mark in use. -/
def guarding (hf : Housed A.frame) (hG : Guards A μ W m₀) (top : Word) : Law A.frame where
  toRules := (woven μ top W m₀).rules A.frame A.limit
  Good := Calm (Outlasts A top μ W)
  -- nothing is assigned to
  Target _ := False
  Place := MayWrite W m₀
  Fits := FitsPlace
  Src _ := True
  Hard h := h ∉ Amd64.scratch.take μ.scratch
  Lab _ := True
  Marked m := μ ≤ m
  other _ _ := trivial
  good_reads _ _ _ _ := trivial
  scratch k p := woven_change fun h hμ _ => by
    obtain ⟨g, hg, rfl, rfl⟩ := scratch_eq_ok h
    obtain ⟨hwrite, hnot⟩ := mayWrite_scratch hG hμ hg
    exact ⟨⟨hμ.1.trans (Nat.le_succ _), hμ.2⟩, rfl, hwrite, g, rfl, hnot⟩
  temp k p := woven_change fun h hμ hpeak =>
    ⟨hμ.trans (temp_below h).2.2.2, (temp_below h).1, isTemp_mayWrite hG hμ h hpeak⟩
  refuge _ _ := woven_change fun h hμ hpeak => by
    obtain ⟨⟨hitems, -, -, hmark⟩, hall⟩ := refuge_below h
    refine ⟨hμ.trans hmark, hitems, fun c hc => ?_⟩
    obtain ⟨s₁, s₂, p, hc₁, hle, ht, hp⟩ := hall c hc
    have htemp := isTemp_mayWrite hG (hμ.trans hle) ht (hp.trans hpeak)
    exact ⟨hc₁ ▸ hμ.trans hle, htemp.place, htemp.kind⟩
  release hm := .of_eq fun hg hμ _ => by
    obtain rfl := hg.modify
    exact ⟨⟨le_min hm.1 hμ.1, le_min hm.2 hμ.2⟩, rfl, trivial⟩
  freeScratch hh := .of_eq fun hg hμ _ => by
    obtain ⟨g, s₁, hread, hm⟩ := hg.bind
    obtain ⟨rfl, rfl⟩ := hread.read
    obtain rfl := hm.modify
    refine ⟨mark_freeScratch hμ hh, ?_, trivial⟩
    unfold Session.freeScratch
    split <;> rfl
  emit h := woven_emit (harmless_emitted hG h)
  labelled hg hb := woven_label hG hg fun l => hb l trivial
  call hg := woven_emitCall hG (hg.calls (Expr.has_iff.2 (.inl ⟨_, _, _, _, rfl⟩))) _ _ _ _
  place_src _ := trivial
  place_fixed h := mayWrite_fixed (hG.fixed h)
  place_scratch h hh := mayWrite_freed hG (by rw [A.regs_eq] at h; exact h) hh
  src_const _ := trivial
  src_reg _ := trivial
  src_memAt _ _ _ := trivial
  src_unary _ := trivial
  fits_kind := .inr (le_max_right _ _)
  fits_unary hg hop hk := hg.kind_of_unary hop ▸ hk
  fits_lnot hg _ := .inr (hg.size_of_lnot.trans_le (le_max_left _ _))
  fits_arith hg hk := hg.kind_of_arith ▸ hk
  fits_compare _ _ := .inr (le_max_left _ _)
  fits_logic hg _ :=
    ⟨.inr (hg.size_of_logic.1.trans_le (le_max_left _ _)), .inr (hg.size_of_logic.2.trans_le (le_max_left _ _))⟩
  fits_assign hg := absurd hg.not_assign (by simp [BinaryOp.isAssign])
  good_src _ := trivial
  good_mem h := h.address
  good_unary h := h.unary
  good_left h := h.left
  good_right h := h.right
  good_reg h hv := ⟨trivial, by
    rintro q g rfl hq hmem
    rcases hf.resolve_cases (by simpa [Expr.isSoft] using h.soft) hv with ⟨g', hg', -, heq⟩ | ⟨_, _, heq⟩
    · cases heq
      cases hq
      exact (by decide : ∀ r ∈ allocatable, r ∉ Amd64.scratch) g hg' (List.mem_of_mem_take hmem)
    · cases heq⟩
  good_assign hg := absurd hg.not_assign (by simp [BinaryOp.isAssign])
  good_compound hg := absurd hg.not_assign (by simp [BinaryOp.isAssign])
  target_reg h := h.elim
  target_mem h := h.elim
  target_memAt h := h.elim

end Law

/-! ## Selected code -/

/-- Code for an expression: as an operand, as an address, or into a place. -/
inductive Selection (f : Frame) (e : Expr) (s s' : Session) : Option Expr → Prop
  | value {v : Expr} (h : Gives f (value e) s v s') : Selection f e s s' none
  | address {a : AddrMode} (h : Gives f (address e) s a s') : Selection f e s s' none
  | into {dst : Expr} {origin : Option Expr} {u : Unit} (h : Gives f (into dst e origin) s u s') :
      Selection f e s s' (some dst)

/-- The values in flight at a position: scratch registers and stack temporaries in use, and the places of the soft
registers whose intervals contain the position. -/
def Activation.inFlight (A : Activation) (flat : Flat) (p : Nat) (μ : Mark) (m : Machine) : Set Cell :=
  {c | ∃ r ∈ scratch.take μ.scratch, c = .reg r} ∪ bytesAt (A.sp + .ofNat 64 A.frame.alloc.frame) (8 * μ.temps) ∪
    {c | ∃ iv ∈ flat.intervals, iv.covers p = true ∧ ∃ q, A.frame.resolve iv.reg = .ok q ∧ c ∈ m.cells q}

/-- The cells of a place. -/
def Machine.occupied (m : Machine) (d : Expr) : Set Cell := {c | ∃ o, operand? d = some o ∧ c ∈ m.target d.kind.size o}

/-- A place for the value of `e` that stays where it is while the cells of `F` are kept: a register, but not the stack
pointer, or memory at an address of registers in `F`. -/
inductive Receives (F : Set Cell) (e : Expr) : Expr → Prop
  | reg {r : Reg} (h : r.id ≠ .hard rsp) : Receives F e (.reg r)
  | mem {k : Kind} {ro : Bool} {a : AddrMode} (hpos : 0 < k.size) (hfit : e.kind.size ≤ k.size)
      (hregs : ∀ r ∈ a.regs, r = rsp ∨ Cell.reg r ∈ F) : Receives F e (.memAt k ro a)

section Selection

variable {A : Activation} {flat : Flat} {log : Log} {μ : Mark} {W F : Set Cell} {m m' : Machine} {top : Word}
  {s s' : Session} {e d : Expr} {dst : Option Expr} {p : Nat}

theorem Selection.peak_le {f : Frame} (h : Selection f e s s' dst) : s.tempPeak ≤ s'.tempPeak := by
  cases h with
  | value h =>
    obtain ⟨_, hgrown⟩ := (lays e).value.grown h
    exact hgrown.peak
  | address h =>
    obtain ⟨_, hgrown⟩ := (lays_address (lays e)).grown h
    exact hgrown.peak
  | into h =>
    obtain ⟨_, hgrown⟩ := ((lays e).into _ _).grown h
    exact hgrown.peak

/-- All ways to select code obey the law. -/
theorem Selection.woven (hf : Housed A.frame) (hG : Guards A s.mark W m) (he : Calm (Outlasts A top s.mark W) e)
    (hd : ∀ d ∈ dst, MayWrite W m d ∧ FitsPlace d e.kind) (h : Selection A.frame e s s' dst)
    (hpeak : s'.tempPeak ≤ A.limit) : s.mark ≤ s'.mark ∧ ∃ code,
      s'.items.toList = s.items.toList ++ code.map .instr ∧ Woven top W m code := by
  have hsel : (guarding hf hG top).Selects e := Law.selects e he
  cases h with
  | value h =>
    obtain ⟨hmark, ⟨_, hitems, code, rfl, hcode⟩, -⟩ := hsel.value h le_rfl hpeak
    exact ⟨hmark, code, hitems, hcode⟩
  | address h =>
    obtain ⟨hmark, ⟨_, hitems, code, rfl, hcode⟩, -⟩ := Law.address hsel h le_rfl hpeak
    exact ⟨hmark, code, hitems, hcode⟩
  | into h =>
    obtain ⟨hwrite, hfit⟩ := hd _ rfl
    obtain ⟨hmark, ⟨_, hitems, code, rfl, hcode⟩, -⟩ := hsel.into _ _ hwrite hfit h le_rfl hpeak
    exact ⟨hmark, code, hitems, hcode⟩

/-- What code for an expression may change: all but the values in flight and the stack pointer, and its place. -/
def Activation.disposable (A : Activation) (flat : Flat) (p : Nat) (μ : Mark) (m : Machine) (dst : Option Expr) : Set Cell :=
  (A.inFlight flat p μ m ∪ {.reg rsp})ᶜ ∪ {c | ∃ d ∈ dst, c ∈ m.occupied d}

theorem inFlight_or_rsp {c : Cell} (h : c ∉ A.disposable flat p μ m dst) : c ∈ A.inFlight flat p μ m ∨ c = .reg rsp := by
  by_contra hc
  exact h (.inl hc)

/-- A cell that is free at the mark holds no value in flight. -/
theorem free_subset_disposable (hA : A.frame = frameOf flat log) (hsp : m.regs rsp = A.sp) (hle : μ.temps ≤ A.limit) :
    A.free μ ⊆ A.disposable flat p μ m dst := by
  have hfits := A.fits
  intro c hc
  refine .inl ?_
  rintro (((⟨r, hr, rfl⟩ | hbyte) | ⟨iv, hiv, hp, q, hq, hcell⟩) | rfl)
  · obtain ⟨i, hlt, hi⟩ := mem_take_scratch.1 hr
    exact Activation.not_free_of_owned (μ := ⟨0, 0⟩) (.inr ⟨i, hi, Nat.zero_le _, hlt⟩) hc
  · obtain ⟨b, rfl, -⟩ := id hbyte
    rw [mem_bytesAt_slot (by omega)] at hbyte
    have := (Activation.byte_mem_free.1 hc).1
    omega
  · exact Set.disjoint_left.1 ((placed_of_interval hA (spans_reg hiv hp)).stable hq hsp) hcell hc
  · exact Activation.rsp_not_free hc

/-- Neither does a call change a value in flight, but for the scratch registers in use. -/
theorem outlasts_disposable (hA : A.frame = frameOf flat log) {i : Nat} {stmt : Expr} (hi : flat.code[i]? = some stmt)
    (hcall : stmt.Has Expr.IsCall) (hsp : m.regs rsp = A.sp) (hle : μ.temps ≤ A.limit)
    (htop : A.frame.alloc.frame + 8 * A.limit ≤ (top - A.sp).toNat) :
    Outlasts A top μ (A.disposable flat (i + 1) μ m dst) where
  area := htop
  regs {r} hr := by
    rcases inFlight_or_rsp hr with ((⟨_, hr, ⟨⟩⟩ | ⟨b, hb, -⟩) | ⟨iv, hiv, hp, q, hq, hcell⟩) | heq
    · exact .inr hr
    · cases hb
    · -- the interval covers a call, so its register is one that calls preserve
      rcases resolve_interval hA (spans_reg hiv hp) with ⟨g, -, hget, hres⟩ | ⟨o, -, hget, hres⟩
      · cases hres.symm.trans hq
        obtain ⟨_, ⟨⟩, ⟨⟩⟩ := hcell
        have hacross : ∃ loc, (scan.allocate flat log).1.get? iv.id = some loc ∧
            ((∃ r ∈ scan.preserved, loc = .reg r) ∨ ∃ o, loc = .stack scan.stackPointer o) :=
          LinearScan.allocate_across flat log hiv (Flat.mem_callPositions hi hcall) hp
        obtain ⟨loc, hloc, hplace⟩ := hacross
        rw [hA] at hget
        cases hloc.symm.trans hget
        rcases hplace with ⟨_, hr, ⟨⟩⟩ | ⟨_, ⟨⟩⟩
        exact .inl ((by decide : ∀ r ∈ calleeSaved, r ∈ preserved) r hr)
      · cases hres.symm.trans hq
        rcases hcell with ⟨g, hg, ⟨⟩⟩ | ⟨b, hb, -⟩
        · obtain rfl : r = rsp := by simpa [AddrMode.regs, AddrMode.ofBase] using hg
          exact .inl (by decide)
        · cases hb
    · cases heq
      exact .inl (by decide)
  bytes {b} hb := by
    have hfits := A.fits
    rcases inFlight_or_rsp hb with ((⟨_, _, ⟨⟩⟩ | hbyte) | ⟨iv, hiv, hp, q, hq, hcell⟩) | heq
    · rw [mem_bytesAt_slot (by omega)] at hbyte
      omega
    · rcases (placed_of_interval hA (spans_reg hiv hp)).cells hq hsp hcell with ⟨_, ⟨⟩, -⟩ | ⟨_, ⟨⟩, hlt⟩
      omega
    · cases heq

theorem Receives.rsp_not_mem (h : Receives F e d) : Cell.reg rsp ∉ m.occupied d := by
  rintro ⟨o, ho, hc⟩
  cases h with
  | reg hne =>
    obtain ⟨g, rfl, hid⟩ := operand?_of_reg ho
    cases hc
    exact hne hid
  | mem =>
    cases ho
    exact reg_not_mem_bytesAt hc

/-- A place in memory stays where it is, since the registers of its address hold values in flight. -/
theorem Receives.mayWrite (h : Receives (A.inFlight flat p μ m) e d) (hd : d ∈ dst) :
    MayWrite (A.disposable flat p μ m dst) m d := by
  have hin : m.occupied d ⊆ A.disposable flat p μ m dst := fun c hc => .inr ⟨d, hd, hc⟩
  intro m' hk o ho
  cases h with
  | reg =>
    obtain ⟨g, rfl, -⟩ := operand?_of_reg ho
    exact Set.singleton_subset_iff.2 (hin ⟨.reg g, ho, rfl⟩)
  | @mem k ro a hpos _ hregs =>
    cases ho
    have haddr : m'.address a = m.address a := by
      refine hk.address fun r hr hmem => ?_
      rcases hmem with hfree | ⟨d', hd', o, ho, hc⟩
      · rcases hregs r hr with rfl | hflight
        · exact hfree (.inr rfl)
        · exact hfree (.inl hflight)
      · cases hd.symm.trans hd'
        cases ho
        exact reg_not_mem_bytesAt hc
    intro c hc
    have hc : c ∈ bytesAt (m'.address a) k.size :=
      Machine.target_mono (o := .mem a) (by show min 8 (max 1 k.size) ≤ k.size; omega) hc
    exact hin ⟨.mem a, rfl, by rw [haddr] at hc; exact hc⟩

theorem Receives.fits (h : Receives F e d) : FitsPlace d e.kind := by
  cases h with
  | reg => exact .inl rfl
  | mem _ hfit => exact .inr (hfit.trans (le_max_right _ _))

theorem guards_disposable (hA : A.frame = frameOf flat log) (hsp : m.regs rsp = A.sp) (hle : μ.temps ≤ A.limit)
    (hd : ∀ d ∈ dst, Receives (A.inFlight flat p μ m) e d) : Guards A μ (A.disposable flat p μ m dst) m where
  sp := hsp
  rsp := by
    rintro (hfree | ⟨d, hmem, hc⟩)
    · exact hfree (.inr rfl)
    · exact (hd d hmem).rsp_not_mem hc
  free := free_subset_disposable hA hsp hle

/-- Code for an expression of a statement, however it is selected, keeps every value in flight, apart from the place that
it computes into; and the temporaries in use stay in use. -/
theorem selection_keeps_inFlight (hA : A.frame = frameOf flat log) {i : Nat} {stmt : Expr} (hi : flat.code[i]? = some stmt)
    (hwithin : e.Within stmt) (hsoft : e.isSoft = true) (hwell : e.WellKinded) (hpure : ¬e.Has IsAssign)
    (hsel : Selection A.frame e s s' dst) (htemps : s.temps ≤ s.tempPeak) (hpeak : s'.tempPeak ≤ A.limit)
    (hsp : m.regs rsp = A.sp) (htop : A.frame.alloc.frame + 8 * A.limit ≤ (top - A.sp).toNat)
    (hdst : ∀ d ∈ dst, Receives (A.inFlight flat (i + 1) s.mark m) e d) :
    s.mark ≤ s'.mark ∧ ∃ code, s'.items.toList = s.items.toList ++ code.map .instr ∧
      ∀ m', Relation.ReflTransGen (Step code top) (code, m) ([], m') →
        Keeps ((A.inFlight flat (i + 1) s.mark m)ᶜ ∪ {c | ∃ d ∈ dst, c ∈ m.occupied d}) m m' := by
  have hf : Housed A.frame := by
    have hfits := A.fits
    refine ⟨A.regs_eq, ?_, by omega⟩
    rw [hA]
    exact fun h => LinearScan.allocate_places flat log h
  have hle : s.mark.temps ≤ A.limit := htemps.trans (hsel.peak_le.trans hpeak)
  have hG := guards_disposable hA hsp hle hdst
  have hcalm : Calm (Outlasts A top s.mark (A.disposable flat (i + 1) s.mark m dst)) e := by
    refine ⟨hsoft, hwell, hpure, fun hcall => outlasts_disposable hA hi ?_ hsp hle htop⟩
    obtain ⟨x, hx, hcall⟩ := hcall
    exact ⟨x, hx.trans hwithin, hcall⟩
  obtain ⟨hmark, code, hitems, hcode⟩ := hsel.woven hf hG hcalm
    (fun d hd => ⟨(hdst d hd).mayWrite hd, (hdst d hd).fits⟩) hpeak
  refine ⟨hmark, code, hitems, fun m' hpath => (hcode.keeps hpath).mono (Set.union_subset_union_left _ ?_)⟩
  exact Set.compl_subset_compl.2 Set.subset_union_left

end Selection

/-! ## A call in a loop -/

theorem allocate_callingLoop : (scan.allocate LinearScan.callingLoop #[]).1 =
    ⟨[(256, .reg (gpr 3)), (257, .reg (gpr 12)), (258, .reg (gpr 13))], 0⟩ := by cbv

theorem intervals_callingLoop :
    LinearScan.callingLoop.intervals = [⟨256, .int64, 0, 4⟩, ⟨257, .int64, 1, 4⟩, ⟨258, .int64, 1, 4⟩] := by cbv

/-- The call of the loop as an operand, with a scratch register and a stack temporary in use. -/
def loopCall : Expr := .call ⟨1⟩ none ⟨[], [.int64]⟩ []

def loopCallCode : List Expr :=
  callSite [(gpr 10, 8)] loopCall ++ [.binary .assign .int64 (fixed .int64 (gpr 11)) (fixed .int64 rax)]

theorem exists_path_loopCall (m : Machine) (top : Word) :
    ∃ m', Relation.ReflTransGen (Step loopCallCode top) (loopCallCode, m) ([], m') :=
  ⟨_, .head (.run rfl rfl) (.head (.call (fun _ _ => rfl) fun _ _ => rfl)
    (.head (.run rfl rfl) (.head (.run rfl rfl) .refl)))⟩

/-- The scratch register in use and the register of `s256`, which is live around the loop, are kept. -/
theorem selection_keeps_inFlight_loopCall :
    let A : Activation := ⟨frameOf LinearScan.callingLoop #[], 0x1000, 2, rfl, by simp [frameOf, allocate_callingLoop]⟩
    let s : Session := { labels := {}, scratchUsed := 1, temps := 1, tempPeak := 1 }
    let s' : Session :=
      { labels := {}, items := (loopCallCode.map .instr).toArray, scratchUsed := 2, temps := 1, tempPeak := 2 }
    Gives A.frame (value loopCall) s (fixed .int64 (gpr 11)) s' ∧ ∀ m : Machine, m.regs rsp = 0x1000 →
      s.mark ≤ s'.mark ∧ (∃ m', Relation.ReflTransGen (Step loopCallCode 0x1010) (loopCallCode, m) ([], m')) ∧
      ∀ m', Relation.ReflTransGen (Step loopCallCode 0x1010) (loopCallCode, m) ([], m') →
        m'.regs (gpr 10) = m.regs (gpr 10) ∧ m'.regs (gpr 3) = m.regs (gpr 3) ∧ m'.mem 0x1000 = m.mem 0x1000 := by
  intro A s s'
  have hgives : Gives A.frame (value loopCall) s (fixed .int64 (gpr 11)) s' :=
    ⟨#[], (loopCallCode.map fun e => .selected (.instr e)).toArray, by cbv⟩
  refine ⟨hgives, fun m hsp => ?_⟩
  have hwithin : loopCall.Within (.binary .assign .int64 (.reg (Func.softReg 2 .int64))
      (.binary (.arith .add) .int64 loopCall (.const (Const.int64 1)))) :=
    .child (c := .binary (.arith .add) .int64 loopCall (.const (Const.int64 1))) (by simp [Expr.children])
      (.child (c := loopCall) (by simp [Expr.children]) .refl)
  have hpure : ¬loopCall.Has IsAssign := by
    rw [Expr.has_iff]
    simp [loopCall, IsAssign, Expr.children]
  have hframe : A.frame.alloc.frame = 0 := by simp [A, frameOf, allocate_callingLoop]
  have htop : A.frame.alloc.frame + 8 * A.limit ≤ ((0x1010 : Word) - A.sp).toNat := by
    rw [hframe]
    decide
  obtain ⟨hmark, code, hitems, hkeeps⟩ := selection_keeps_inFlight (A := A) (i := 2) (m := m) rfl rfl hwithin rfl trivial
    hpure (.value hgives) le_rfl le_rfl hsp htop (by rintro _ ⟨⟩)
  obtain rfl : loopCallCode = code :=
    List.map_injective_iff.2 (fun _ _ h => Item.instr.inj h) (by simpa [s, s'] using hitems)
  refine ⟨hmark, exists_path_loopCall m _, fun m' hpath => ?_⟩
  have hkeep := hkeeps m' hpath
  have hin : ∀ c ∈ A.inFlight LinearScan.callingLoop 3 s.mark m,
      c ∉ (A.inFlight LinearScan.callingLoop 3 s.mark m)ᶜ ∪ {c | ∃ d ∈ (none : Option Expr), c ∈ m.occupied d} := by
    rintro c hc (hnot | ⟨d, ⟨⟩, -⟩)
    exact hnot hc
  refine ⟨hkeep.regs _ (hin _ (.inl (.inl ⟨_, by decide, rfl⟩))), hkeep.regs _ (hin _ (.inr ?_)),
    hkeep.bytes _ (hin _ (.inl (.inr ?_)))⟩
  · refine ⟨⟨256, .int64, 0, 4⟩, by simp [intervals_callingLoop], rfl, fixed .int64 (gpr 3), ?_, _, rfl, rfl⟩
    simp only [A, frameOf, allocate_callingLoop]
    rfl
  · rw [hframe]
    exact ⟨0x1000, rfl, by decide⟩

end JitBackend.Amd64
