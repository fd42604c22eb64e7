import JitBackend.Proofs.Amd64.Arithmetic
import JitBackend.Proofs.Numbers

/-!
# Comparisons

The flags of a subtraction tell how its operands compare: equal patterns leave zero, an unsigned borrow is the carry,
and the sign differs from the overflow exactly if the left operand is less. So a condition taken from a comparison holds
of the flags if and only if the comparison holds of the values.
-/

namespace JitBackend

/-! ## Comparison of scalars -/

section Scalars

variable {c d : Const} {op : CompareOp}

theorem Kind.isUnsignedWord_of_isScalar {k : Kind} (h : k.isScalar = true) : k.isUnsignedWord = !k.isSigned := by
  cases k <;> first | rfl | cases h

theorem Cond.swapped_ofCompare (op : CompareOp) (k : Kind) :
    (Cond.ofCompare op k).swapped = Cond.ofCompare op.swapped k := by
  cases op <;> simp only [Cond.ofCompare, CompareOp.swapped] <;> cases k.isUnsignedWord <;> rfl

/-- Scalars of one kind are told apart by their low bytes. -/
theorem Const.re_eq_iff (hk : c.kind.isScalar = true) (hcc : c.Canonical) (hdc : d.Canonical) (hd : d.kind = c.kind) :
    low c.kind.size c.re = low c.kind.size d.re ↔ c.re = d.re := by
  constructor
  · intro h
    have hc := Const.re_eq_extend hk hcc
    have hd' := Const.re_eq_extend (hd ▸ hk) hdc
    rw [hd] at hd'
    rw [hc, hd', h, sext_congr h]
  · intro h
    rw [h]

end Scalars

namespace Amd64

open Lower

/-! ## Flags -/

section Flags

variable {n : Nat} {a b : Word}

theorem low_sub_eq_zero (hn : n ≤ 8) : low n (a - b) = 0 ↔ low n a = low n b := by
  constructor
  · intro h
    have hsum := low_add (b := b) hn (h.trans (low_zero_word n).symm) rfl
    rwa [BitVec.sub_add_cancel, show (0 : Word) + b = b from BitVec.zero_add b] at hsum
  · intro h
    have hdiff := low_sub (b := b) hn h rfl
    rw [BitVec.sub_self] at hdiff
    exact hdiff.trans (low_zero_word n)

theorem Flags.holds_negated (f : Flags) (c : Cond) : f.holds c.negated = !f.holds c := by
  cases c <;> simp [Cond.negated, Flags.holds, bne]

/-- After a subtraction the sign differs from the overflow exactly if the left operand is less. -/
theorem Flags.sign_ne_overflow (hn : n = 1 ∨ n = 2 ∨ n = 4 ∨ n = 8) :
    ((Flags.ofSub n a b).sign != (Flags.ofSub n a b).overflow) = decide ((sext n a).toInt < (sext n b).toInt) := by
  have hsub : (sext n (a - b)).toInt = ((sext n a).toInt - (sext n b).toInt).bmod (2 ^ (8 * n)) := by
    rw [toInt_sext (by omega), toInt_sext (by omega), toInt_sext (by omega), BitVec.sub_eq_add_neg,
      BitVec.setWidth_add _ _ (by omega), BitVec.setWidth_neg_of_le (by omega), ← BitVec.sub_eq_add_neg, BitVec.toInt_sub]
  obtain ⟨halo, hahi⟩ := toInt_bounds_of_sext hn (a := sext n a) (by rw [← sext_low, low_sext (by omega), sext_low])
  obtain ⟨hblo, hbhi⟩ := toInt_bounds_of_sext hn (a := sext n b) (by rw [← sext_low, low_sext (by omega), sext_low])
  simp only [Flags.ofSub, hsub]
  generalize (sext n a).toInt = x at *
  generalize (sext n b).toInt = y at *
  generalize hz : (x - y).bmod (2 ^ (8 * n)) = z
  -- the difference is exact, or it wrapped around and has the other sign
  have hcases : z = x - y ∨ (z < 0 ∧ y < x) ∨ (0 ≤ z ∧ x < y) := by
    rcases hn with rfl | rfl | rfl | rfl
    all_goals
      norm_num [Int.bmod] at halo hahi hblo hbhi hz
      omega
  by_cases hneg : z < 0 <;> by_cases hlt : x < y <;> by_cases heq : z = x - y <;> simp [hneg, hlt, heq] <;> omega

/-- A comparison holds of the flags if and only if it holds of the values. -/
theorem Flags.holds_ofSub {c d : Const} (hk : c.kind.isScalar = true) (hcc : c.Canonical) (hdc : d.Canonical)
    (hd : d.kind = c.kind) {op : CompareOp} {b : Bool} (hb : Const.compare op c d = .ok b) :
    (Flags.ofSub c.kind.size (low c.kind.size c.re) (low c.kind.size d.re)).holds (Cond.ofCompare op c.kind) = b := by
  have hsize := Kind.size_of_isScalar hk
  have hc := Const.re_eq_extend hk hcc
  have hd' := Const.re_eq_extend (hd ▸ hk) hdc
  rw [hd] at hd'
  rw [Const.compare_eq_ok hk hd] at hb
  cases hb
  have hsigned := Flags.sign_ne_overflow (a := low c.kind.size c.re) (b := low c.kind.size d.re) hsize
  generalize hf : Flags.ofSub c.kind.size (low c.kind.size c.re) (low c.kind.size d.re) = f at *
  have hzero : f.zero = decide (c.number = d.number) := by
    have hre : c.number = d.number ↔ c.re = d.re := by
      unfold Const.number
      rw [hd]
      split
      · exact BitVec.toInt_inj
      · rw [Nat.cast_inj, BitVec.toNat_inj]
    rw [← hf]
    simp only [Flags.ofSub, beq_eq_decide, low_sub_eq_zero (show c.kind.size ≤ 8 by omega), low_low,
      Const.re_eq_iff hk hcc hdc hd, hre]
  have hless : (if c.kind.isSigned then f.sign != f.overflow else f.carry) = decide (c.number < d.number) := by
    unfold Const.number
    rw [hd]
    cases hs : c.kind.isSigned with
    | true =>
      rw [hs, if_pos rfl] at hc hd'
      rw [if_pos rfl, hsigned, sext_low, sext_low, ← hc, ← hd']
      rfl
    | false =>
      rw [hs, if_neg (by simp)] at hc hd'
      rw [if_neg (by simp), ← hf]
      simp only [Flags.ofSub, ← hc, ← hd', Bool.false_eq_true, if_false, Nat.cast_lt]
  have hcmp : ∀ x y : Int, Ord.compare x y = if x < y then .lt else if x = y then .eq else .gt := fun _ _ => rfl
  have huns := Kind.isUnsignedWord_of_isScalar hk
  rw [hcmp]
  generalize c.number = x at *
  generalize d.number = y at *
  cases hs : c.kind.isSigned with
  | true =>
    rw [hs, if_pos rfl] at hless
    rw [hs] at huns
    cases op <;> simp only [Cond.ofCompare, huns, Flags.holds, hzero, hless, CompareOp.ofOrdering, Bool.not_true] <;> grind
  | false =>
    rw [hs, if_neg (by simp)] at hless
    rw [hs] at huns
    cases op <;> simp only [Cond.ofCompare, huns, Flags.holds, hzero, hless, CompareOp.ofOrdering, Bool.not_false] <;> grind

/-- The bits that two operands have in common are compared with zero. -/
theorem Flags.holds_ofAnd {r : Const} (hk : r.kind.isScalar = true) (hr : r.Canonical)
    (hlow : low r.kind.size r.re = low r.kind.size (a &&& b)) {op : CompareOp} (hop : op.isEquality = true) {t : Bool}
    (ht : Const.compare op r (Const.zero r.kind) = .ok t) :
    (Flags.ofAnd r.kind.size (low r.kind.size a) (low r.kind.size b)).holds (Cond.ofCompare op r.kind) = t := by
  have hzero : (Flags.ofAnd r.kind.size (low r.kind.size a) (low r.kind.size b)).zero =
      (Flags.ofSub r.kind.size (low r.kind.size r.re) (low r.kind.size (Const.zero r.kind).re)).zero := by
    have h0 : (Const.zero r.kind).re = 0 := by cases r.kind <;> rfl
    simp only [Flags.ofAnd, Flags.ofSub, h0, low_zero_word]
    rw [show low r.kind.size r.re - (0 : Word) = low r.kind.size r.re from BitVec.sub_zero _, low_low, hlow,
      low_and (low_low _ a) (low_low _ b)]
  rw [← Flags.holds_ofSub hk hr (Const.canonical_ofBits _ _ _) rfl ht]
  cases op with
  | eql => exact hzero
  | neq => exact congrArg not hzero
  | _ => cases hop

end Flags

/-! ## Instructions -/

section

variable {A : Activation} {μ ν : Mark} {m m' : Machine} {c d r : Const} {v w dst : Expr} {T : Set Cell}
  {P : Machine → Prop} {lit lit' : Bool} {Q : Unit → Mark → Machine → Prop}

theorem step_cmp {k : Kind} (hc : m.Holds c v) (hconst : v.isConst = false) (hd : m.Holds d w) (hsc : c.kind.isScalar = true)
    (hk : d.kind = c.kind) (hleg : isLegalSource v w = true) : step (.binary .cmp k v w) (.at m) =
      .at { m with flags := some (Flags.ofSub c.kind.size (low c.kind.size c.re) (low c.kind.size d.re)) } := by
  obtain ⟨o, ho, hread⟩ := hc.operand hsc
  obtain ⟨o', ho', hread'⟩ := hd.operand (hk ▸ hsc)
  have hfits := fitsPair_of_legal hc hconst hd (hk ▸ hsc) hleg ho ho'
  rw [hk] at hread' hfits
  have hden : denote (.binary .cmp k v w) = some [.cmp c.kind.size o o'] := by
    simp [denote, ho, ho', hc.kind, size?_of_isScalar hsc, hfits]
  refine step_of_denote hden (foldlM_single ?_)
  simp only [Instr.exec, hread, hread', Option.bind_eq_bind, Option.bind_some]

theorem does_test {k : Kind} (hc : m.Holds c v) (hconst : v.isConst = false) (hd : m.Holds d w)
    (hsc : c.kind.isScalar = true) (hk : d.kind = c.kind) (hleg : isLegalSource v w = true)
    (hq : Q () μ { m with flags := some (Flags.ofAnd c.kind.size (low c.kind.size c.re) (low c.kind.size d.re)) }) :
    Does A (emit (.binary .test k v w)) μ m Q := by
  obtain ⟨o, ho, hread⟩ := hc.operand hsc
  obtain ⟨o', ho', hread'⟩ := hd.operand (hk ▸ hsc)
  have hfits := fitsPair_of_legal hc hconst hd (hk ▸ hsc) hleg ho ho'
  rw [hk] at hread' hfits
  have hden : denote (.binary .test k v w) = some [.test c.kind.size o o'] ∨
      denote (.binary .test k v w) = some [.test c.kind.size o' o] := by
    simp only [denote, ho, ho', hc.kind, size?_of_isScalar hsc, hfits, Option.bind_eq_bind, Option.bind_some, if_true]
    split
    · exact .inr rfl
    · exact .inl rfl
  have hcomm : Flags.ofAnd c.kind.size (low c.kind.size d.re) (low c.kind.size c.re) =
      Flags.ofAnd c.kind.size (low c.kind.size c.re) (low c.kind.size d.re) := by
    simp only [Flags.ofAnd, BitVec.and_comm]
  rcases hden with hden | hden
  · refine .emit (step_of_denote hden (foldlM_single ?_)) hq
    simp only [Instr.exec, hread, hread', Option.bind_eq_bind, Option.bind_some]
  · refine .emit (step_of_denote hden (foldlM_single ?_)) hq
    simp only [Instr.exec, hread, hread', Option.bind_eq_bind, Option.bind_some, hcomm]

/-- A truth value made of the flags. -/
theorem does_setcc {cc : Cond} {f : Flags} (hd : Occupies m dst T) (hk : dst.kind = .bool) (hf : m.flags = some f)
    (hq : ∀ m', Keeps T m m' → m'.Holds (.bool (f.holds cc)) dst → Q () μ m') :
    Does A (emit (.unary (.setcc cc) .bool dst)) μ m Q := by
  obtain ⟨o, m', ho, hw, -, hkeep, hhold⟩ := hd.write (if f.holds cc then 1 else 0)
  have hden : denote (.unary (.setcc cc) .bool dst) = some [.setcc cc o] := by
    cases hd with
    | reg hkd hg =>
      rw [operand?_reg hg] at ho
      cases ho
      simp [denote, operand?_reg hg]
    | mem hkd =>
      cases ho
      simp [denote, operand?_memAt]
  rw [hk] at hw
  have hexec : (Instr.setcc cc o).exec m = some m' := by
    simp only [Instr.exec, hf, Option.bind_eq_bind, Option.bind_some]
    exact hw
  refine .emit (step_of_denote hden (foldlM_single hexec)) (hq m' hkeep (hhold _ hk.symm ?_))
  cases f.holds cc <;> rfl

/-- A truth value is negated in its lowest bit. -/
theorem does_lnot (hd : Occupies m dst T) (hc : m.Holds c dst) (hk : c.kind = .bool) (hcc : c.Canonical)
    (hq : ∀ m', Keeps T m m' → m'.Holds c.lnot dst → Q () μ m') :
    Does A (emit (.binary (.compound .xor) .bool dst (.const (Const.bool true)))) μ m Q := by
  have hkind : dst.kind = .bool := hc.kind.trans hk
  rw [← hkind]
  refine does_alu (rfl : aluOf .xor = some .xor) hd hc .const hk.symm rfl (r := c.lnot) hk.symm ?_ hq
  have hre := Const.re_of_canonical hcc
  rw [hk] at hre ⊢
  simp only [Kind.canonical] at hre
  unfold Const.lnot Const.asBool
  split at hre <;> rw [← hre] <;> decide

/-! ## Selection of comparisons -/

theorem does_testZero {op : CompareOp} {b : Bool} (hop : op.isEquality = true) (hv : Avail A μ m c v)
    (hsc : c.kind.isScalar = true) (hcc : c.Canonical) (hb : Const.compare op c (Const.zero c.kind) = .ok b)
    (hq : ∀ ν m' f, Keeps (A.free μ) m m' → m'.flags = some f → f.holds (Cond.ofCompare op c.kind) = b → Q () ν m') :
    Does A (testZero c.kind v) μ m Q := by
  have hcmp : ∀ {v ν m₁}, Keeps (A.free μ) m m₁ → m₁.Holds c v → v.isConst = false →
      Does A (emit (.binary .cmp c.kind v (.const (Const.zero c.kind)))) ν m₁ Q := by
    intro v ν m₁ hk₁ hv hconst
    refine .emit (step_cmp hv hconst .const hsc rfl ?_) (hq ν _ _ (hk₁.trans (.flags _ _ _)) rfl ?_)
    · have h0 : (Const.zero c.kind).re = 0 := by cases c.kind <;> rfl
      simp [isLegalSource, Const.fitsImmediate, h0]
    · exact Flags.holds_ofSub hsc hcc (Const.canonical_ofBits _ _ _) rfl hb
  unfold testZero
  have hh := hv.holds
  cases hh with
  | const =>
    dsimp only
    rw [if_neg (by simp [Expr.isMem])]
    simp only [pure_bind]
    exact .bind (does_toRegister hv hsc fun r ν m₁ hle hk₁ ha => hcmp hk₁ ha.holds rfl)
  | reg hk hg hval =>
    refine does_test (.reg hk hg hval) rfl (.reg hk hg hval) hsc rfl (by simp [isLegalSource, Expr.isMem]) ?_
    exact hq μ _ _ (.flags _ _ _) rfl (Flags.holds_ofAnd hsc hcc (by rw [BitVec.and_self]) hop hb)
  | mem hk hval =>
    dsimp only
    rw [if_pos (by simp [Expr.isMem]), pure_bind]
    exact hcmp (.refl _ _) (.mem hk hval) rfl

/-- Two operands, one after the other. -/
theorem does_operands {α : Type} {Q : α → Mark → Machine → Prop} {x y : Lower Expr} {k : Expr → Expr → Lower α}
    [Steady A.frame x] [Steady A.frame y] [∀ v w, Grows A.frame (k v w)] (hP : Stable A P) (hm : P m)
    (hx : Yields A P lit c x) (hy : Yields A P lit' d y)
    (h : ∀ v w ν m₁, Keeps (A.free μ) m m₁ → μ ≤ ν → Avail A ν m₁ c v → Avail A ν m₁ d w → Does A (k v w) ν m₁ Q) :
    Does A (do let v ← x; let w ← y; k v w) μ m Q := by
  refine .bind (hx hm fun v ν m₁ hle hk₁ hv _ => ?_)
  refine .bind (hy (hP hm hk₁) fun w ν' m₂ hle' hk₂ hw _ => ?_)
  exact h v w ν' m₂ (hk₁.trans (hk₂.mono (Activation.free_anti hle))) (hle.trans hle') ((hv.keeps hk₂).mono hle') hw

theorem does_toPlace {Q : Expr → Mark → Machine → Prop} (hv : Avail A μ m c v) (hsc : c.kind.isScalar = true)
    (hq : ∀ v' ν m', μ ≤ ν → Keeps (A.free μ) m m' → Avail A ν m' c v' → v'.isConst = false → Q v' ν m') :
    Does A (toPlace v) μ m Q := by
  unfold toPlace
  split
  · exact .bind (does_toRegister hv hsc fun r ν m' hle hk ha => .pure (hq _ ν m' hle hk ha rfl))
  · rename_i hno
    refine .pure (hq v μ m le_rfl (.refl _ _) hv ?_)
    cases v <;> first | rfl | exact absurd rfl hno

theorem does_compareOperands {op : CompareOp} {b : Bool} (hv : Avail A μ m c v) (hw : Avail A μ m d w)
    (hsc : c.kind.isScalar = true) (hk : d.kind = c.kind) (hcc : c.Canonical) (hdc : d.Canonical)
    (hb : Const.compare op c d = .ok b)
    (hq : ∀ ν m' f, Keeps (A.free μ) m m' → m'.flags = some f → f.holds (Cond.ofCompare op c.kind) = b → Q () ν m') :
    Does A (compareOperands c.kind v w) μ m Q := by
  unfold compareOperands
  refine .bind (does_toPlace hv hsc fun v' ν m₁ hle hk₁ hv' hconst => ?_)
  refine .bind (does_legalSource ((hw.keeps hk₁).mono hle) (hk ▸ hsc) fun w' ν' m₂ hle' hk₂ hw' hleg => ?_)
  have hk₂' : Keeps (A.free μ) m m₂ := hk₁.trans (hk₂.mono (Activation.free_anti hle))
  exact .emit (step_cmp (hv'.keeps hk₂).holds hconst hw'.holds hsc hk hleg)
    (hq ν' _ _ (hk₂'.trans (.flags _ _ _)) rfl (Flags.holds_ofSub hsc hcc hdc hk hb))

theorem does_compareFlags {Q : Cond → Mark → Machine → Prop} {op : CompareOp} {b : Bool} {x y : Lower Expr}
    [Steady A.frame x] [Steady A.frame y] (hP : Stable A P) (hm : P m) (hx : Yields A P lit c x) (hy : Yields A P lit' d y)
    (hsc : c.kind.isScalar = true) (hk : d.kind = c.kind) (hcc : c.Canonical) (hdc : d.Canonical)
    (hb : Const.compare op c d = .ok b)
    (hq : ∀ cc ν m' f, Keeps (A.free μ) m m' → m'.flags = some f → f.holds cc = b → Q cc ν m') :
    Does A (compareFlags c.kind (Cond.ofCompare op c.kind) x y) μ m Q := by
  unfold compareFlags
  refine does_operands hP hm hx hy fun v w ν m₁ hk₁ hle hv hw => ?_
  have hsub : A.free ν ⊆ A.free μ := Activation.free_anti hle
  split
  · rw [← hk] at hsc ⊢
    rw [← Const.compare_swapped (hk ▸ hsc) hk] at hb
    refine .bind (does_compareOperands hw hv hsc hk.symm hdc hcc hb fun ν' m' f hk₂ hf hh => .pure ?_)
    rw [Cond.swapped_ofCompare]
    exact hq _ ν' m' f (hk₁.trans (hk₂.mono hsub)) hf hh
  · refine .bind (does_compareOperands hv hw hsc hk hcc hdc hb fun ν' m' f hk₂ hf hh => .pure ?_)
    exact hq _ ν' m' f (hk₁.trans (hk₂.mono hsub)) hf hh

theorem does_testOperands {op : CompareOp} {b : Bool} (hop : op.isEquality = true) (hv : Avail A μ m c v)
    (hw : Avail A μ m d w) (hsc : c.kind.isScalar = true) (hk : d.kind = c.kind) (hr : r.Canonical) (hrk : r.kind = c.kind)
    (hlow : low r.kind.size r.re = low r.kind.size (c.re &&& d.re))
    (hb : Const.compare op r (Const.zero r.kind) = .ok b)
    (hq : ∀ ν m' f, Keeps (A.free μ) m m' → m'.flags = some f → f.holds (Cond.ofCompare op r.kind) = b → Q () ν m') :
    Does A (testOperands c.kind v w) μ m Q := by
  have hflags := Flags.holds_ofAnd (hrk ▸ hsc) hr hlow hop hb
  have hflags' := Flags.holds_ofAnd (a := d.re) (b := c.re) (hrk ▸ hsc) hr (hlow.trans (by rw [BitVec.and_comm])) hop hb
  rw [hrk] at hflags hflags' hq
  unfold testOperands
  refine .bind (does_toPlace hv hsc fun v' ν m₁ hle hk₁ hv' hconst => ?_)
  have hw₁ := hw.keeps hk₁
  split
  · rename_i hmem
    have hconst' : w.isConst = false := by cases w <;> first | rfl | cases hmem
    refine does_test hw₁.holds hconst' hv'.holds (hk ▸ hsc) hk.symm ?_ ?_
    · cases v' <;> first | rfl | simp [Expr.isReg] at hmem
    · rw [hk]
      exact hq ν _ _ (hk₁.trans (.flags _ _ _)) rfl hflags'
  · refine .bind (does_legalSource (hw₁.mono hle) (hk ▸ hsc) fun w' ν' m₂ hle' hk₂ hw' hleg => ?_)
    have hk₂' : Keeps (A.free μ) m m₂ := hk₁.trans (hk₂.mono (Activation.free_anti hle))
    exact does_test (hv'.keeps hk₂).holds hconst hw'.holds hsc hk hleg
      (hq ν' _ _ (hk₂'.trans (.flags _ _ _)) rfl hflags)

theorem does_testBits {op : CompareOp} {b : Bool} {x y : Lower Expr} [Steady A.frame x] [Steady A.frame y]
    (hop : op.isEquality = true) (hP : Stable A P) (hm : P m) (hx : Yields A P lit c x) (hy : Yields A P lit' d y)
    (hsc : c.kind.isScalar = true) (hk : d.kind = c.kind) (hr : r.Canonical) (hrk : r.kind = c.kind)
    (hlow : low r.kind.size r.re = low r.kind.size (c.re &&& d.re))
    (hb : Const.compare op r (Const.zero r.kind) = .ok b)
    (hq : ∀ ν m' f, Keeps (A.free μ) m m' → m'.flags = some f → f.holds (Cond.ofCompare op r.kind) = b → Q () ν m') :
    Does A (testBits c.kind x y) μ m Q := by
  unfold testBits
  refine does_operands hP hm hx hy fun v w ν m₁ hk₁ hle hv hw => ?_
  have hq' : ∀ ν' m' f, Keeps (A.free ν) m₁ m' → m'.flags = some f → f.holds (Cond.ofCompare op r.kind) = b → Q () ν' m' :=
    fun ν' m' f hk₂ => hq ν' m' f (hk₁.trans (hk₂.mono (Activation.free_anti hle)))
  split
  · rw [← hk] at hsc ⊢
    exact does_testOperands hop hw hv hsc hk.symm hr (hrk.trans hk.symm) (hlow.trans (by rw [BitVec.and_comm])) hb hq'
  · exact does_testOperands hop hv hw hsc hk hr hrk hlow hb hq'

end

end Amd64

end JitBackend
