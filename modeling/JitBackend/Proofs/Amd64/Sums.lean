import JitBackend.Proofs.Amd64.Compare

/-!
# Sums of terms

The terms of an address stand for a sum, which is the value of the expression they were collected from: all of it, or
its four low bytes for a result of that size. Adding a term may move what was collected to another register, but never
changes the sum of it. The registers of the terms are scratch registers of their own or homes of soft ones, so that the
code of further terms keeps them.
-/

namespace JitBackend.Amd64

open Lower

/-- The factor of the index. -/
def Terms.scale (t : Terms) : Scale := (t.index.map (·.2)).getD .one

/-- The sum that the terms stand for. -/
def Terms.sum (t : Terms) (m : Machine) : Word :=
  m.term t.base + m.term (t.index.map (·.1)) * .ofNat 64 t.scale.toNat + t.disp

section Terms

variable {t : Terms} {m m' : Machine} {n : Nat}

theorem Terms.sum_keeps {W : Set Cell} (h : Keeps W m m') (ht : ∀ r ∈ t.regs, Cell.reg r ∉ W) : t.sum m' = t.sum m := by
  unfold Terms.sum
  rw [h.term fun r hr => ht r (by simp [Terms.regs, Option.mem_def.1 hr]),
    h.term fun r hr => ht r (by simp only [Terms.regs, Option.mem_def.1 hr]; simp)]

/-- A register in a free slot is one more term. -/
theorem Terms.sum_put {r : HardReg} {s : Scale} (h : t.index = none ∨ s = .one ∧ t.base = none) :
    (t.put r s).sum m = t.sum m + m.regs r * .ofNat 64 s.toNat := by
  unfold Terms.put
  split
  · rename_i hone
    obtain ⟨rfl, hb⟩ := hone
    simp only [Terms.sum, Terms.scale, hb, Machine.term, Option.map_some, Option.map_none, Option.getD_some,
      Option.getD_none]
    simp only [Scale.toNat]
    grind
  · rename_i hno
    have hi := h.resolve_right hno
    simp only [Terms.sum, Terms.scale, hi, Machine.term, Option.map_some, Option.map_none, Option.getD_some,
      Option.getD_none]
    grind

/-- The address of the terms is their sum, as far as it counts. -/
theorem Terms.low_address {a : AddrMode} (h : t.mode = .ok a) (hn : n = 4 ∨ n = 8) (ht : t.narrow = (n == 4)) :
    low n (m.address a) = low n (t.sum m) := by
  obtain ⟨hfits, rfl⟩ := Terms.mode_eq_ok h
  unfold Machine.address Terms.sum
  refine low_add (by omega) rfl ?_
  rcases hn with rfl | rfl
  · exact low_sext (n := 4) (by omega) t.disp
  · have hfits : fitsDisp t.disp = true := hfits.resolve_left (by rw [ht]; decide)
    unfold fitsDisp at hfits
    rw [eq_of_beq hfits]

end Terms

theorem Owned.isGpr {μ ν : Mark} {r : HardReg} (h : Owned μ r ν) : IsGpr r := by
  have hall : ∀ r ∈ homes ++ scratch, IsGpr r := by decide
  rcases h with h | ⟨i, hi, -⟩
  · exact hall r (List.mem_append_left _ h)
  · exact hall r (List.mem_append_right _ (List.mem_of_getElem? hi))

section Slots

variable {A : Activation} {μ₀ μ ν : Mark} {m m' : Machine} {c d r : Const} {t : Terms} {e x y v : Expr} {n : Nat}
  {P : Machine → Prop} {lit : Bool}

theorem Terms.Owned.not_free (ho : t.Owned μ₀ μ) : ∀ r ∈ t.regs, Cell.reg r ∉ A.free μ :=
  fun r hr => Activation.not_free_of_owned (ho.2 r hr)

/-- The address computation of an instruction. -/
theorem does_lea {Q : Unit → Mark → Machine → Prop} {k k' k'' : Kind} {ro ro' : Bool} {h : HardReg} {a : AddrMode}
    (hk : k.isScalar = true) (h1 : k.size ≠ 1) (hg : IsGpr h) (hq : Q () μ (m.setReg k.size h (m.address a))) :
    Does A (emitAssign k (.reg ⟨k, .hard h, ro⟩) (.unary .lea k' (.memAt k'' ro' a))) μ m Q := by
  have hden : denote (.binary .assign k (.reg ⟨k, .hard h, ro⟩) (.unary .lea k' (.memAt k'' ro' a))) =
      some [.lea k.size h a] := by
    simp [denote, denoteAssign, operand?_reg hg, operand?_memAt, size?_of_isScalar hk, leaSize, h1]
  exact .emit (step_of_denote hden (foldlM_single rfl)) hq

theorem does_foldTarget {Q : HardReg → Mark → Machine → Prop} (ho : t.Owned μ₀ μ)
    (hq : ∀ r ν, IsGpr r → Cell.reg r ∈ A.free μ₀ → Q r ν m) : Does A t.foldTarget μ m Q := by
  refine .gives (P := fun r ν => ∃ i, Amd64.scratch[i]? = some r ∧ μ₀.scratch ≤ i ∧ i < ν.scratch)
    (fun hs hg => (t.owned_foldTarget A.regs_eq hg (hs ▸ ho)).2) ?_
  have hdone : ∀ r ν, (∃ i, Amd64.scratch[i]? = some r ∧ μ₀.scratch ≤ i ∧ i < ν.scratch) → Q r ν m := by
    rintro r ν ⟨i, hi, hle, hlt⟩
    exact hq r ν (Owned.isGpr (.inr ⟨i, hi, hle, hlt⟩ : Owned μ₀ r ν)) (.inr ⟨i, hi, hle⟩)
  unfold Terms.foldTarget
  refine .bind_of (.read ?_) ?_
  · dsimp only
    split
    · exact .pure (hdone _ _)
    · refine .bind_of (.scratch rfl fun r ν _ _ _ => .pure (hdone r ν)) ?_
      intro q
      split <;> infer_instance
  · intro f
    dsimp only
    split
    · infer_instance
    · refine Grows.bind inferInstance fun q => ?_
      split <;> infer_instance

theorem does_freeScratch {Q : Unit → Mark → Machine → Prop} {o : Option HardReg} (hq : ∀ ν, Q () ν m) :
    Does A (o.forM freeScratch) μ m Q := by
  cases o with
  | none => exact .pure (hq μ)
  | some r =>
    refine .of_eq fun hs hg => ?_
    obtain ⟨f, s₁, hread, hmod⟩ := Gives.bind hg
    obtain ⟨rfl, rfl⟩ := hread.read
    obtain rfl := hmod.modify
    refine ⟨?_, fun _ => hq _⟩
    unfold Session.freeScratch
    split <;> rfl

/-- Adding up base and index keeps the sum. -/
theorem does_fold {Q : Terms → Mark → Machine → Prop} (ho : t.Owned μ₀ μ)
    (hq : ∀ t' ν m', t'.Owned μ₀ ν → t'.index = none → t'.narrow = t.narrow → Keeps (A.free μ₀) m m' →
      t'.sum m' = t.sum m → Q t' ν m') : Does A t.fold μ m Q := by
  refine .gives (P := fun t' ν => t'.Owned μ₀ ν ∧ t'.index = none) (fun hs hg => t.fold_owned A.regs_eq hg (hs ▸ ho)) ?_
  unfold Terms.fold
  refine .bind (.lift fun mode hmode => ?_)
  refine .bind (does_foldTarget ho fun r ν hg hfree => ?_)
  refine .bind (does_lea rfl (by decide) hg (.bind (does_freeScratch fun ν' => .pure ?_)))
  rintro ⟨ho', hi⟩
  refine hq _ ν' _ ho' hi rfl ((Keeps.setReg ..).mono (Set.singleton_subset_iff.2 hfree)) ?_
  have haddr := Terms.low_address (m := m) (n := 8) hmode (.inr rfl) rfl
  have hr := m.low_setReg 8 r (m.address mode)
  rw [low_eight, low_eight] at haddr hr
  simp only [Terms.sum, Terms.scale, Machine.term, Option.map_some, Option.map_none, Option.getD_some, Option.getD_none]
    at haddr ⊢
  rw [show Kind.ptr.size = 8 from rfl, hr, haddr]
  grind

theorem does_makeRoom {Q : Terms → Mark → Machine → Prop} (ho : t.Owned μ₀ μ)
    (hq : ∀ t' ν m', t'.Owned μ₀ ν → (t'.index = none ∨ t'.base = none) → t'.narrow = t.narrow →
      Keeps (A.free μ₀) m m' → t'.sum m' = t.sum m → Q t' ν m') : Does A t.makeRoom μ m Q := by
  unfold Terms.makeRoom
  split
  · exact does_fold ho fun t' ν m' ho' hi => hq t' ν m' ho' (.inl hi)
  · rename_i hfree
    refine .pure (hq t μ m ho ?_ rfl (.refl _ _) rfl)
    cases hb : t.base <;> cases hi : t.index <;> simp_all

/-- An operand in a register. -/
theorem does_toHard {Q : HardReg → Mark → Machine → Prop} (hv : Avail A μ m c v) (hsc : c.kind.isScalar = true)
    (hq : ∀ h ν m', μ ≤ ν → Keeps (A.free μ) m m' → low c.kind.size (m'.regs h) = low c.kind.size c.re → Q h ν m') :
    Does A (toHard v) μ m Q := by
  unfold toHard
  refine .bind_of (does_toRegister hv hsc fun q ν m' hle hk ha => ?_) (fun q => by split <;> infer_instance)
  have hh := ha.holds
  cases hh with
  | @reg k h ro hkc hg hval =>
    subst hkc
    exact .pure (hq h ν m' hle hk hval)

/-! ## Terms in registers -/

/-- The value of an expression in a register of its own. -/
theorem does_inRegister {α : Type} {Q : α → Mark → Machine → Prop} {k : HardReg → Lower α} [∀ h, Grows A.frame (k h)]
    (he : Tidy A.frame e)
    (hy : Yields A P lit c (value e)) (hsc : c.kind.isScalar = true) (hm : P m)
    (hq : ∀ h ν m', μ ≤ ν → Keeps (A.free μ) m m' → Owned μ h ν → low c.kind.size (m'.regs h) = low c.kind.size c.re →
      Does A (k h) ν m' Q) :
    Does A (do let v ← value e; let h ← toHard v; k h) μ m Q := by
  have := he.value
  refine .bind (.gives (P := fun v ν => OwnedOperand μ v ν) (fun hs hg => hs ▸ he.owned hg)
    (hy hm fun v ν m₁ hle hk₁ hv _ hown => ?_))
  refine .bind (.gives (P := fun h ν' => Owned μ h ν')
    (fun hs hg => toHard_owned A.regs_eq hg (hs.symm ▸ hown) (hs.symm ▸ hle))
    (does_toHard hv hsc fun h ν' m₂ hle' hk₂ hval hown' => ?_))
  exact hq h ν' m₂ (hle.trans hle') (hk₁.trans (hk₂.mono (Activation.free_anti hle))) hown' hval

/-- Where `P` holds, the computation adds `w` to the sum of the terms, as far as `n` bytes count. -/
def Adds (A : Activation) (P : Machine → Prop) (n : Nat) (w : Word) (t : Terms) (act : Lower Terms) : Prop :=
  ∀ ⦃μ₀ μ m⦄ ⦃Q : Terms → Mark → Machine → Prop⦄, P m → t.Owned μ₀ μ →
    (∀ t' ν m', t'.Owned μ₀ ν → Keeps (A.free μ₀) m m' → t'.narrow = t.narrow →
      low n (t'.sum m') = low n (t.sum m + w) → Q t' ν m') → Does A act μ m Q

theorem Adds.congr {w w' : Word} {act : Lower Terms} (h : Adds A P n w t act) (hn : n ≤ 8) (hw : low n w' = low n w) :
    Adds A P n w' t act := by
  intro μ₀ μ m Q hm ho hq
  refine h hm ho fun t' ν m' ho' hk hnar hsum => hq t' ν m' ho' hk hnar ?_
  rw [hsum]
  exact low_add hn rfl hw.symm

/-- A scaled register is added to a free slot. -/
theorem adds_place {s : Scale} (hroom : t.index = none ∨ s = .one ∧ t.base = none) (he : Tidy A.frame e)
    (hy : Yields A P lit c (value e)) (hsc : c.kind.isScalar = true) :
    Adds A P c.kind.size (c.re * .ofNat 64 s.toNat) t (do t.place (← toHard (← value e)) s) := by
  intro μ₀ μ m Q hm ho hq
  have hn := Kind.size_le_of_isScalar hsc
  refine does_inRegister he hy hsc hm fun h ν m' hle hk hown hval => ?_
  rw [Terms.place_eq hroom]
  refine .pure (hq _ ν m' ((ho.mono hle).put (hown.mono ho.1 le_rfl) s) (hk.mono (Activation.free_anti ho.1)) ?_ ?_)
  · unfold Terms.put
    split <;> rfl
  · rw [Terms.sum_put hroom, Terms.sum_keeps hk ho.not_free]
    exact low_add hn rfl (low_mul hn hval rfl)

theorem adds_opaque (hP : Stable A P) (he : Tidy A.frame e) (hy : Yields A P lit c (value e))
    (hsc : c.kind.isScalar = true) : Adds A P c.kind.size c.re t (addOpaque t e) := by
  intro μ₀ μ m Q hm ho hq
  have := he.value
  rw [addOpaque]
  refine .bind (does_makeRoom ho fun t₁ ν m₁ ho₁ hfree hnar hk₁ hsum => ?_)
  refine adds_place (hfree.imp_right fun hb => ⟨rfl, hb⟩) he hy hsc (hP hm hk₁) ho₁ fun t' ν' m' ho' hk' hnar' hsum' => ?_
  refine hq t' ν' m' ho' (hk₁.trans hk') (hnar'.trans hnar) ?_
  rw [hsum', hsum]
  exact congrArg (fun w => low c.kind.size (t.sum m + w)) (BitVec.mul_one _)

/-- The address of the terms, with a wide displacement in a register. -/
theorem does_finish {Q : AddrMode → Mark → Machine → Prop} (ho : t.Owned μ₀ μ) (hn : n = 4 ∨ n = 8)
    (ht : t.narrow = (n == 4))
    (hq : ∀ a ν m', μ₀ ≤ ν → (∀ r ∈ a.regs, Owned μ₀ r ν) → Keeps (A.free μ₀) m m' →
      low n (m'.address a) = low n (t.sum m) → Q a ν m') : Does A t.finish μ m Q := by
  refine .gives (P := fun a ν => μ₀ ≤ ν ∧ ∀ r ∈ a.regs, Owned μ₀ r ν)
    (fun hs hg => Terms.finish_owned A.regs_eq hg (hs.symm ▸ ho)) ?_
  unfold Terms.finish
  split
  · refine .lift fun a ha => ?_
    rintro ⟨hle, hregs⟩
    exact hq a μ m hle hregs (.refl _ _) (Terms.low_address ha hn ht)
  · rename_i hwide
    have h8 : n = 8 := hn.resolve_left (by rintro rfl; rw [ht] at hwide; simp at hwide)
    subst h8
    have ho' : ({ t with disp := 0 } : Terms).Owned μ₀ μ := ho
    refine .bind (does_makeRoom ho' fun t₁ ν m₁ ho₁ hfree hnar hk₁ hsum => ?_)
    refine .bind (does_toHard (c := .ofBits .int64 t.disp 0) ⟨.const, by simp [Machine.cells]⟩ rfl
      fun h ν' m₂ hle hk₂ hval => ?_)
    rw [Terms.place_eq (hfree.imp_right fun hb => ⟨rfl, hb⟩), pure_bind]
    refine .lift fun a ha => ?_
    rintro ⟨hle', hregs⟩
    refine hq a ν' m₂ hle' hregs (hk₁.trans (hk₂.mono (Activation.free_anti ho₁.1))) ?_
    have hnar₂ : (t₁.put h .one).narrow = ((8 : Nat) == 4) := by
      rw [← ht, ← (show t₁.narrow = t.narrow from hnar)]
      unfold Terms.put
      split <;> rfl
    have hdisp : m₂.regs h = t.disp := by
      have hval : low 8 (m₂.regs h) = low 8 t.disp := hval
      rwa [low_eight, low_eight] at hval
    rw [Terms.low_address ha (.inr rfl) hnar₂, Terms.sum_put (hfree.imp_right fun hb => ⟨rfl, hb⟩),
      Terms.sum_keeps hk₂ ho₁.not_free, hsum, hdisp]
    congr 1
    simp only [Terms.sum, Terms.scale, Scale.toNat]
    grind

/-! ## Nodes -/

/-- What a node of a shape adds to the sum. -/
def Shape.apply (s : Shape) (a b : Word) : Word :=
  match s with
  | sum => a + b
  | difference c => a - c.re
  | scaled s => a * .ofNat 64 s.toNat
  | doubled s => a + a * .ofNat 64 s.toNat

theorem re_of_directScale {s : Scale} (hd : d.kind.isScalar = true) (h : directScale d = some s) :
    d.re = .ofNat 64 s.toNat := by
  have hint : d.re.toInt = s.toNat := by
    unfold directScale Const.asInt at h
    rw [Kind.not_isFloat_of_isScalar hd, if_neg (by simp)] at h
    unfold Scale.ofInt? at h
    split at h <;> cases h <;> assumption
  apply BitVec.eq_of_toInt_eq
  rw [hint]
  cases s <;> rfl

theorem re_of_doubledScale {s : Scale} (hd : d.kind.isScalar = true) (h : doubledScale d = some s) :
    d.re = 1 + .ofNat 64 s.toNat := by
  have hint : d.re.toInt = 1 + s.toNat := by
    unfold doubledScale Const.asInt at h
    rw [Kind.not_isFloat_of_isScalar hd, if_neg (by simp)] at h
    split at h <;> cases h <;> assumption
  apply BitVec.eq_of_toInt_eq
  rw [hint]
  cases s <;> rfl

theorem asNat_of_shiftScale {s : Scale} (hd : d.kind.isScalar = true) (h : shiftScale d = some s) :
    d.asNat < 64 ∧ (.ofNat 64 s.toNat : Word) = .twoPow 64 d.asNat := by
  have hint : ∃ j : Nat, j < 4 ∧ d.re.toInt = j ∧ s.toNat = 2 ^ j := by
    unfold shiftScale Const.asInt at h
    rw [Kind.not_isFloat_of_isScalar hd, if_neg (by simp)] at h
    split at h <;> cases h
    · exact ⟨0, by omega, by assumption, rfl⟩
    · exact ⟨1, by omega, by assumption, rfl⟩
    · exact ⟨2, by omega, by assumption, rfl⟩
    · exact ⟨3, by omega, by assumption, rfl⟩
  obtain ⟨j, hj, hint, hs⟩ := hint
  have hre : d.re = .ofNat 64 j := by
    apply BitVec.eq_of_toInt_eq
    rw [hint]
    interval_cases j <;> rfl
  have hasNat : d.asNat = j := by
    have hsize := Kind.size_of_isScalar hd
    unfold Const.asNat Kind.bits
    rw [hre]
    rcases hsize with h | h | h | h <;> rw [h] <;> interval_cases j <;> split <;> rfl
  rw [hasNat, hs]
  exact ⟨by omega, by interval_cases j <;> rfl⟩

/-- The low bytes of a node are those of its shape. -/
theorem Shape.low_apply {shape : Shape} {op : ArithOp} (hw : c.kind.isWord = true) (hd : d.kind.isScalar = true)
    (hy : ∀ c, y = .const c → d = c) (h : Shape.of? t op y = some shape) (hr : Const.arith op c d = .ok r) :
    low c.kind.size r.re = low c.kind.size (shape.apply c.re d.re) := by
  have hword : op ≠ .shl → op ≠ .shr → ∀ {w}, Const.wordArith c.kind.isSigned op c.re d.re = some w →
      low c.kind.size r.re = low c.kind.size w := by
    intro hl hr' w hw'
    obtain ⟨w', hw'', rfl⟩ := Const.arith_of_isWord hw hl hr' hr
    cases hw'.symm.trans hw''
    exact Const.low_re_ofBits hw w
  rcases Shape.of?_eq_some h with ⟨rfl, rfl⟩ | ⟨c', rfl, rfl, rfl⟩ | ⟨c', s, rfl, rfl, hs, -, rfl⟩ |
    ⟨c', s, rfl, rfl, hs, -, -, rfl⟩ | ⟨c', s, rfl, rfl, hs, -, rfl⟩
  · exact hword (by decide) (by decide) rfl
  · obtain rfl := hy c' rfl
    exact hword (by decide) (by decide) rfl
  · obtain rfl := hy c' rfl
    rw [hword (by decide) (by decide) (w := c.re * d.re) rfl, re_of_directScale hd hs]
    rfl
  · obtain rfl := hy c' rfl
    rw [hword (by decide) (by decide) (w := c.re * d.re) rfl, re_of_doubledScale hd hs, Shape.apply]
    congr 1
    grind
  · obtain rfl := hy c' rfl
    obtain ⟨hlt, hpow⟩ := asNat_of_shiftScale hd hs
    have hshift : Const.shift true c d = .ok r := hr
    obtain ⟨-, rfl⟩ := Const.shift_eq_ok hshift
    rw [Const.low_re_ofBits hw]
    simp only [shiftWord, if_true, Shape.apply, hpow, ← BitVec.shiftLeft_eq_mul_twoPow]
    rw [if_neg (by omega)]

theorem low_displacement (hd : d.kind.isScalar = true) (hn : d.kind.size = 4 ∨ d.kind.size = 8) :
    low d.kind.size (displacement d) = low d.kind.size d.re := by
  rcases hn with hn | hn <;> unfold displacement <;> rw [hn]
  · have hcut : BitVec.ofNat 32 d.asNat = d.re.setWidth 32 := by
      unfold Const.asNat Kind.bits
      rw [hn]
      split
      · exact (BitVec.ofNat_toNat 32 (d.re.setWidth 32)).trans (BitVec.setWidth_eq _)
      · exact BitVec.ofNat_toNat 32 d.re
    rw [if_pos le_rfl, hcut]
    exact low_sext (n := 4) (by omega) d.re
  · unfold Const.asInt
    rw [if_neg (by omega), Kind.not_isFloat_of_isScalar hd, if_neg (by simp), BitVec.ofInt_toInt]

theorem adds_const (hc : c.kind.isScalar = true) (hn : c.kind.size = 4 ∨ c.kind.size = 8) :
    Adds A P c.kind.size c.re t (addTerm t (.const c)) := by
  intro μ₀ μ m Q hm ho hq
  rw [addTerm]
  refine .pure (hq _ μ m ho (.refl _ _) rfl ?_)
  have hsum : ({ t with disp := t.disp + displacement c } : Terms).sum m = t.sum m + displacement c := by
    simp only [Terms.sum, Terms.scale]
    grind
  rw [hsum]
  exact low_add (by omega) rfl (low_displacement hc hn)

/-- A node adds the value of its shape. -/
theorem adds_node {shape : Shape} {op : ArithOp} (hn : c.kind.size = n) (hn' : n = 4 ∨ n = 8) (ht : t.narrow = (n == 4))
    (hshape : Shape.of? t op y = some shape) (hP : Stable A P) (hx : Tidy A.frame x) (hsc : c.kind.isScalar = true)
    (hvx : Yields A P lit c (value x)) (hax : ∀ t, t.narrow = (n == 4) → Adds A P n c.re t (addTerm t x))
    (hy : ∀ c, y = .const c → d = c) (hadm : Expr.arithAdmits op c.kind d.kind = true)
    (hay : op = .add → ∀ t, t.narrow = (n == 4) → Adds A P n d.re t (addTerm t y))
    (hg : ∀ t, Grows A.frame (addTerm t y)) :
    Adds A P n (shape.apply c.re d.re) t (addNode t shape x y) := by
  subst hn
  have hle := Kind.size_le_of_isScalar hsc
  have := hx.grows
  have := hx.value
  intro μ₀ μ m Q hm ho hq
  rw [addNode.eq_def]
  cases shape with
  | sum =>
    have hop : op = .add := by
      rcases Shape.of?_eq_some hshape with ⟨rfl, -⟩ | ⟨_, -, -, hs⟩ | ⟨_, _, -, -, -, -, hs⟩ | ⟨_, _, -, -, -, -, -, hs⟩ |
        ⟨_, _, -, -, -, -, hs⟩
      · rfl
      all_goals cases hs
    refine .bind (hax t ht hm ho fun t₁ ν m₁ ho₁ hk₁ hnar₁ hsum₁ => ?_)
    refine hay hop t₁ (hnar₁.trans ht) (hP hm hk₁) ho₁ fun t₂ ν' m₂ ho₂ hk₂ hnar₂ hsum₂ => ?_
    refine hq t₂ ν' m₂ ho₂ (hk₁.trans hk₂) (hnar₂.trans hnar₁) ?_
    rw [hsum₂, low_add hle hsum₁ rfl, Shape.apply, BitVec.add_assoc]
  | difference c' =>
    refine .bind (hax t ht hm ho fun t₁ ν m₁ ho₁ hk₁ hnar₁ hsum₁ => .pure ?_)
    refine hq _ ν m₁ ho₁ hk₁ hnar₁ ?_
    have hsub : op = .sub ∧ d = c' := by
      rcases Shape.of?_eq_some hshape with ⟨-, hs⟩ | ⟨_, hop, hyc, hs⟩ | ⟨_, _, -, -, -, -, hs⟩ | ⟨_, _, -, -, -, -, -, hs⟩ |
        ⟨_, _, -, -, -, -, hs⟩
      · cases hs
      · cases hs
        exact ⟨hop, hy _ hyc⟩
      all_goals cases hs
    obtain ⟨rfl, rfl⟩ := hsub
    have hk : d.kind = c.kind := kind_eq_of_admits (by decide) (by decide) hadm
    have hdisp := low_displacement (hk ▸ hsc) (hk ▸ hn')
    rw [hk] at hdisp
    have hsum : ({ t₁ with disp := t₁.disp - displacement d } : Terms).sum m₁ = t₁.sum m₁ - displacement d := by
      simp only [Terms.sum, Terms.scale]
      grind
    rw [hsum, low_sub hle hsum₁ hdisp, Shape.apply]
    congr 1
    grind
  | scaled s =>
    have hi := Shape.index_eq_none hshape
    dsimp only
    rw [Terms.makeRoom, if_neg (by simp [hi]), pure_bind]
    exact adds_place (.inl hi) hx hvx hsc hm ho hq
  | doubled s =>
    have hfree : t.index = none ∧ t.base = none := by
      rcases Shape.of?_eq_some hshape with ⟨-, hs⟩ | ⟨_, -, -, hs⟩ | ⟨_, _, -, -, -, -, hs⟩ | ⟨_, _, -, -, -, hi, hb, -⟩ |
        ⟨_, _, -, -, -, -, hs⟩
      · cases hs
      · cases hs
      · cases hs
      · exact ⟨hi, hb⟩
      · cases hs
    refine does_inRegister hx hvx hsc hm fun h ν m' hle' hk hown hval => .pure ?_
    refine hq _ ν m' ⟨ho.1.trans hle', ?_⟩ (hk.mono (Activation.free_anti ho.1)) rfl ?_
    · intro q hq
      have hq : q = h := by simpa [Terms.regs] using hq
      subst hq
      exact hown.mono ho.1 le_rfl
    · have hsum : ({ t with base := some h, index := some (h, s) } : Terms).sum m' =
          t.sum m + (m'.regs h + m'.regs h * .ofNat 64 s.toNat) := by
        simp only [Terms.sum, Terms.scale, hfree, Machine.term, Option.map_some, Option.map_none, Option.getD_some,
          Option.getD_none]
        grind
      rw [hsum, Shape.apply]
      exact low_add hle rfl (low_add hle hval (low_mul hle hval rfl))

/-! ## Addresses -/

/-- The address of an expression of four or eight bytes is its value, as far as its bytes count. -/
theorem does_synthesis {Q : AddrMode → Mark → Machine → Prop} (he : Tidy A.frame e) (hn : n = 4 ∨ n = 8)
    (hk : e.kind.size = n) (ha : ∀ t, t.narrow = (n == 4) → Adds A P n c.re t (addTerm t e)) (hm : P m)
    (hq : ∀ a ν m', μ ≤ ν → (∀ r ∈ a.regs, Owned μ r ν) → Keeps (A.free μ) m m' →
      low n (m'.address a) = low n c.re → Q a ν m') : Does A (address e) μ m Q := by
  have := he.grows
  rw [address, hk]
  refine .bind (ha _ rfl hm (Terms.owned_empty μ _ _) fun t ν m₁ ho hk₁ hnar hsum => ?_)
  refine does_finish ho hn hnar fun a ν' m' hle hregs hk₂ haddr => hq a ν' m' hle hregs (hk₁.trans hk₂) ?_
  rw [haddr, hsum]
  congr 1
  simp only [Terms.sum, Terms.scale, Machine.term, Option.map_none, Option.getD_none]
  grind

/-- The address that a pointer computes is its value. -/
theorem does_address {Q : AddrMode → Mark → Machine → Prop} (he : Tidy A.frame e) (hk : e.kind = .ptr)
    (ha : ∀ t, t.narrow = false → Adds A P 8 c.re t (addTerm t e)) (hm : P m)
    (hq : ∀ a ν m', μ ≤ ν → (∀ r ∈ a.regs, Owned μ r ν) → Keeps (A.free μ) m m' → m'.address a = c.re → Q a ν m') :
    Does A (address e) μ m Q := by
  refine does_synthesis he (.inr rfl) (by rw [hk]; rfl) ha hm fun a ν m' hle hregs hk' haddr => hq a ν m' hle hregs hk' ?_
  rwa [low_eight, low_eight] at haddr

theorem does_loadAddress {Q : Unit → Mark → Machine → Prop} {dst : Expr} {T : Set Cell} {a : AddrMode}
    (hd : Dest A μ m dst T) (hreg : dst.isReg = true) (hk : dst.kind = c.kind) (h1 : c.kind.size ≠ 1)
    (hregs : ∀ r ∈ a.regs, IsGpr r) (hval : low c.kind.size (m.address a) = low c.kind.size c.re)
    (hq : ∀ m', Keeps (A.free μ ∪ T) m m' → m'.Holds c dst → Q () μ m') : Does A (loadAddress dst c.kind a) μ m Q := by
  unfold loadAddress
  split
  · rename_i base hb hi hdisp
    refine does_mov hd (.reg rfl (hregs base (by simp [AddrMode.regs, hb])) ?_) hk hq
    rw [← hval]
    congr 1
    simp only [Machine.address, Machine.term, hb, hi, eq_of_beq hdisp, Option.map_some, Option.map_none, Option.getD_some,
      Option.getD_none]
    grind
  · cases hd with
    | mem => cases hreg
    | reg hkd hg hsp hfree =>
      simp only [Expr.kind] at hk
      subst hk
      refine does_lea hkd h1 hg (hq _ ((Keeps.setReg ..).mono Set.subset_union_right) (.reg rfl hg ?_))
      rw [Machine.low_setReg, hval]

theorem does_leaInto {Q : Bool → Mark → Machine → Prop} {op : ArithOp} {dst : Expr} {T : Set Cell} (hd : Dest A μ m dst T)
    (hreg : dst.isReg = true) (hdk : dst.kind = c.kind) (hn : c.kind.size = 4 ∨ c.kind.size = 8) (hw : c.kind.isWord = true)
    (hr : Const.arith op c d = .ok r) (hadm : Expr.arithAdmits op c.kind d.kind = true) (hP : Stable A P) (hm : P m)
    (hx : Tidy A.frame x) (hvx : Yields A P lit c (value x)) (hds : d.kind.isScalar = true)
    (hax : ∀ t, t.narrow = (c.kind.size == 4) → Adds A P c.kind.size c.re t (addTerm t x))
    (hyc : ∀ c, y = .const c → d = c) (hy : Tidy A.frame y)
    (hay : op = .add → ∀ t, t.narrow = (c.kind.size == 4) → Adds A P c.kind.size d.re t (addTerm t y))
    (hno : Q false μ m) (hq : ∀ ν m', Keeps (A.free μ ∪ T) m m' → m'.Holds r dst → Q true ν m') :
    Does A (leaInto dst c.kind op x y) μ m Q := by
  have hsc := Kind.isScalar_of_isWord hw
  have hrk := Const.kind_arith hw hr
  have := grows_addNode hx hy
  rw [leaInto]
  split
  · exact .pure hno
  rename_i shape hshape
  have hshape' : Shape.of? { narrow := c.kind.size == 4 } op y = some shape := hshape
  refine .bind (adds_node rfl hn rfl hshape' hP hx hsc hvx hax hyc hadm hay hy.grows hm (Terms.owned_empty μ _ _)
    fun t ν m₁ ho hk₁ hnar hsum => ?_)
  refine .bind (does_finish ho hn hnar fun a ν' m₂ hle' hregs hk₂ haddr => ?_)
  have hval : low c.kind.size (m₂.address a) = low c.kind.size r.re := by
    rw [haddr, hsum, Shape.low_apply hw hds hyc hshape hr]
    congr 1
    simp only [Terms.sum, Terms.scale, Machine.term, Option.map_none, Option.getD_none]
    grind
  have hk₂' : Keeps (A.free μ ∪ T) m m₂ := (hk₁.trans hk₂).mono Set.subset_union_left
  rw [← hrk] at hdk hval hn ⊢
  refine .bind (does_loadAddress ((hd.keeps hk₂').mono hle') hreg hdk (by omega) (fun q hq => (hregs q hq).isGpr) hval
    fun m' hk₃ hh₃ => .pure ?_)
  exact hq ν' m' (hk₂'.trans (hk₃.mono (Set.union_subset_union_left T (Activation.free_anti hle')))) hh₃

end Slots

end JitBackend.Amd64
