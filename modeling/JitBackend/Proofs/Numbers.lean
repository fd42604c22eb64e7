import Mathlib.Data.Int.Bitwise
import JitBackend.Proofs.Words

/-!
# Arithmetic of numbers

A scalar constant stands for a number, and a number for a constant of each kind: integer kinds take it modulo their width.
Folding computes with patterns. Its results are those of exact arithmetic on the numbers, taken at the kind of the left
operand: for quotients truncated toward zero, for bitwise operations on patterns that extend without end, for shifts by
counts of any size.
-/

namespace JitBackend

/-! ## Operations on numbers -/

/-- The exact result of an operation on numbers. A zero divisor and a negative shift count have none. -/
def ArithOp.exact (op : ArithOp) (a b : Int) : Option Int :=
  match op with
  | .add => some (a + b)
  | .sub => some (a - b)
  | .mul => some (a * b)
  | .quo => if b = 0 then none else some (a.tdiv b)
  | .rem => if b = 0 then none else some (a.tmod b)
  | .and => some (a.land b)
  | .or => some (a.lor b)
  | .xor => some (a.xor b)
  | .andNot => some (a.ldiff b)
  | .shl => if b < 0 then none else some (a * 2 ^ b.toNat)
  | .shr => if b < 0 then none else some (a / 2 ^ b.toNat)

theorem ArithOp.exact_comm {op : ArithOp} (h : op.isCommutative = true) (a b : Int) : op.exact b a = op.exact a b := by
  cases op with
  | add => exact congrArg some (Int.add_comm b a)
  | mul => exact congrArg some (Int.mul_comm b a)
  | and => cases a <;> cases b <;> simp [exact, Int.land, Nat.land_comm, Nat.lor_comm]
  | or => cases a <;> cases b <;> simp [exact, Int.lor, Nat.land_comm, Nat.lor_comm]
  | xor => cases a <;> cases b <;> simp [exact, Int.xor, Nat.xor_comm]
  | sub | quo | rem | andNot | shl | shr => cases h

theorem ArithOp.exact_isSome {op : ArithOp} (h : op.isCommutative = true) (a b : Int) : (op.exact a b).isSome = true := by
  cases op <;> first | rfl | cases h

/-- Whether a comparison holds of two numbers. -/
def CompareOp.holds (op : CompareOp) (a b : Int) : Bool :=
  match op with
  | .eql => a = b
  | .neq => a ≠ b
  | .lss => a < b
  | .leq => a ≤ b
  | .gtr => b < a
  | .geq => b ≤ a

/-- Whether a logical operation holds of two truth values. -/
def LogicOp.holds (op : LogicOp) (a b : Bool) : Bool :=
  match op with
  | .and => a && b
  | .or => a || b

/-- The number that is left of `i` at a scalar kind: it is taken modulo the width, and a truth value tells zero from the
rest. -/
def Kind.wrap (k : Kind) (i : Int) : Int :=
  if k.isSigned then i.bmod (2 ^ k.bits) else if k.isBool then if i = 0 then 0 else 1 else i % 2 ^ k.bits

/-! ## Numbers and constants -/

theorem Kind.not_isFloat_of_isScalar {k : Kind} (h : k.isScalar = true) : k.isFloat = false := by
  cases k <;> first | rfl | cases h

theorem Kind.eq_bool_of_isScalar {k : Kind} (h : k.isScalar = true) (hw : ¬k.isWord = true) : k = .bool := by
  simpa [Kind.isScalar, hw, Kind.isBool] using h

namespace Const

open Ieee

variable {c d x y : Const} {k : Kind}

/-- The number that a scalar stands for. -/
def number (c : Const) : Int := if c.kind.isSigned then c.re.toInt else c.re.toNat

/-- The constant of kind `k` for a number, which it stands for up to the width of a scalar kind (`number_ofNumber`); a float
is rounded from the eight-byte format. -/
def ofNumber (k : Kind) (i : Int) : Const :=
  if k.isWord then ofBits k (.ofInt 64 i) 0
  else if k.isBool then bool (i ≠ 0)
  else if k.isFloat then float k (Ieee.ofInt binary64 i)
  else if k.isComplex then complex k (Ieee.ofInt binary64 i) 0
  else zero k

theorem ofNumber_of_isWord (hk : k.isWord = true) (i : Int) : ofNumber k i = ofBits k (.ofInt 64 i) 0 := if_pos hk

theorem ofNumber_bool (i : Int) : ofNumber .bool i = bool (i ≠ 0) := rfl

/-- The pattern of a scalar is that of its number. -/
theorem ofInt_number (c : Const) : BitVec.ofInt 64 c.number = c.re := by
  unfold number
  split
  · exact BitVec.ofInt_toInt
  · rw [BitVec.ofInt_natCast, BitVec.ofNat_toNat, BitVec.setWidth_eq]

/-- A canonical scalar is the constant for its number. -/
theorem ofNumber_number (hk : c.kind.isScalar = true) (hc : c.Canonical) : ofNumber c.kind c.number = c := by
  have hcan : ofBits c.kind c.re c.im = c := hc
  by_cases hw : c.kind.isWord = true
  · rw [ofNumber_of_isWord hw, ofInt_number]
    conv_rhs => rw [← hcan]
    simp only [ofBits, Kind.not_isComplex_of_isScalar hk, Bool.false_eq_true, if_false]
  · have hb : c.kind = .bool := Kind.eq_bool_of_isScalar hk hw
    rw [hb] at hcan ⊢
    conv_rhs => rw [← hcan]
    by_cases h : c.re = 0
    · have hn : c.number = 0 := by simp [number, hb, Kind.isSigned, h]
      rw [hn, h]
      rfl
    · have hn : c.number ≠ 0 := by
        intro hn
        rw [← ofInt_number, hn] at h
        exact h rfl
      rw [ofNumber_bool, decide_eq_true hn]
      simp only [bool, ofBits, Kind.canonical, Kind.isComplex, if_neg h]
      rfl

theorem setWidth_ofInt {m n : Nat} (h : n ≤ m) (i : Int) : (BitVec.ofInt m i).setWidth n = BitVec.ofInt n i := by
  apply BitVec.eq_of_toNat_eq
  rw [BitVec.toNat_setWidth, BitVec.toNat_ofInt, BitVec.toNat_ofInt]
  have hdvd : ((2 ^ n : Nat) : Int) ∣ ((2 ^ m : Nat) : Int) := Int.natCast_dvd_natCast.2 (Nat.pow_dvd_pow 2 h)
  have hpos : ∀ n, i % ((2 ^ n : Nat) : Int) = (i % ((2 ^ n : Nat) : Int)).toNat := fun n =>
    (Int.toNat_of_nonneg (Int.emod_nonneg _ (by positivity))).symm
  rw [← Int.natCast_inj, Int.natCast_emod, ← hpos, ← hpos, Int.emod_emod_of_dvd _ hdvd]

/-- The constant for a number stands for what its kind leaves of the number. -/
theorem number_ofNumber (hk : k.isScalar = true) (i : Int) : (ofNumber k i).number = k.wrap i := by
  by_cases hw : k.isWord = true
  · have hle : 8 * k.size ≤ 64 := by
      have := Kind.size_le_of_isScalar hk
      omega
    rw [ofNumber_of_isWord hw]
    by_cases hs : k.isSigned = true
    · simp only [number, ofBits, hs, if_true, Kind.wrap, Kind.canonical_of_isSigned hs, Kind.bits]
      rw [toInt_sext (Kind.size_le_of_isScalar hk), setWidth_ofInt hle, BitVec.toInt_ofInt]
    · have hb : k.isBool = false := by
        cases k <;> first | rfl | cases hw
      simp only [number, ofBits, hs, hb, Bool.false_eq_true, if_false, Kind.wrap, Kind.bits,
        Kind.canonical_of_not_isSigned hw (by simpa using hs)]
      have hlt : (BitVec.ofInt (8 * k.size) i).toNat < 2 ^ 64 :=
        lt_of_lt_of_le (BitVec.isLt _) (Nat.pow_le_pow_right (by omega) hle)
      rw [low, BitVec.toNat_setWidth, setWidth_ofInt hle, Nat.mod_eq_of_lt hlt, BitVec.toNat_ofInt,
        Int.toNat_of_nonneg (Int.emod_nonneg _ (by positivity)), Nat.cast_pow, Nat.cast_ofNat]
  · obtain rfl := Kind.eq_bool_of_isScalar hk hw
    by_cases h : i = 0
    · subst h
      rfl
    · rw [ofNumber_bool, decide_eq_true h, Kind.wrap]
      simp only [h]
      rfl

/-! ## Patterns of results -/

theorem ofInt_sub (a b : Int) : BitVec.ofInt 64 (a - b) = BitVec.ofInt 64 a - BitVec.ofInt 64 b := by
  rw [Int.sub_eq_add_neg, BitVec.ofInt_add, BitVec.ofInt_neg, BitVec.sub_eq_add_neg]

theorem getLsbD_ofInt (i : Int) {j : Nat} (hj : j < 64) : (BitVec.ofInt 64 i).getLsbD j = i.testBit j := by
  cases i with
  | ofNat n => 
    rw [Int.ofNat_eq_natCast, BitVec.ofInt_natCast, BitVec.getLsbD_ofNat]
    simp [hj, Int.testBit]
  | negSucc n =>
    rw [BitVec.ofInt_negSucc_eq_not_ofNat, BitVec.getLsbD_not, BitVec.getLsbD_ofNat]
    simp [hj, Int.testBit]

theorem ofInt_bitwise {f : Bool → Bool → Bool} {g : Int → Int → Int} {h : Word → Word → Word}
    (hg : ∀ a b j, (g a b).testBit j = f (a.testBit j) (b.testBit j))
    (hh : ∀ u v j, j < 64 → (h u v).getLsbD j = f (u.getLsbD j) (v.getLsbD j)) (a b : Int) :
    BitVec.ofInt 64 (g a b) = h (.ofInt 64 a) (.ofInt 64 b) := by
  apply BitVec.eq_of_getLsbD_eq
  intro j hj
  rw [getLsbD_ofInt _ hj, hg, hh _ _ j hj, getLsbD_ofInt _ hj, getLsbD_ofInt _ hj]

theorem number_eq_zero : c.number = 0 ↔ c.re = 0 := by
  constructor
  · intro h
    rw [← ofInt_number, h]
    rfl
  · intro h
    simp [number, h]

theorem ofInt_tdiv (hk : y.kind = x.kind) : BitVec.ofInt 64 (x.number.tdiv y.number) =
    if x.kind.isSigned = true then x.re.sdiv y.re else x.re / y.re := by
  unfold number
  rw [hk]
  split
  · apply BitVec.eq_of_toInt_eq
    rw [BitVec.toInt_ofInt, BitVec.toInt_sdiv]
  · rw [← Int.ofNat_tdiv, BitVec.ofInt_natCast, BitVec.udiv_def]

theorem ofInt_tmod (hk : y.kind = x.kind) : BitVec.ofInt 64 (x.number.tmod y.number) =
    if x.kind.isSigned = true then x.re.srem y.re else x.re % y.re := by
  unfold number
  rw [hk]
  split
  · rw [← BitVec.toInt_srem, BitVec.ofInt_toInt]
  · rw [← Int.ofNat_tmod, BitVec.ofInt_natCast, BitVec.umod_def]

/-- Arithmetic on patterns is exact arithmetic on the numbers. -/
theorem wordArith_eq {op : ArithOp} (hshl : op ≠ .shl) (hshr : op ≠ .shr) (hk : y.kind = x.kind) :
    wordArith x.kind.isSigned op x.re y.re = (op.exact x.number y.number).map (.ofInt 64) := by
  have hx := ofInt_number x
  have hy := ofInt_number y
  cases op with
  | add => simp only [wordArith, ArithOp.exact, Option.map_some, BitVec.ofInt_add, hx, hy]
  | sub => simp only [wordArith, ArithOp.exact, Option.map_some, ofInt_sub, hx, hy]
  | mul => simp only [wordArith, ArithOp.exact, Option.map_some, BitVec.ofInt_mul, hx, hy]
  | quo =>
    simp only [wordArith, ArithOp.exact, ← number_eq_zero (c := y)]
    split
    · rfl
    · rw [Option.map_some, ofInt_tdiv hk]
  | rem =>
    simp only [wordArith, ArithOp.exact, ← number_eq_zero (c := y)]
    split
    · rfl
    · rw [Option.map_some, ofInt_tmod hk]
  | and =>
    simp only [wordArith, ArithOp.exact, Option.map_some,
      ofInt_bitwise (h := (· &&& ·)) Int.testBit_land (fun u v j _ => BitVec.getLsbD_and), hx, hy]
  | or =>
    simp only [wordArith, ArithOp.exact, Option.map_some,
      ofInt_bitwise (h := (· ||| ·)) Int.testBit_lor (fun u v j _ => BitVec.getLsbD_or), hx, hy]
  | xor =>
    simp only [wordArith, ArithOp.exact, Option.map_some,
      ofInt_bitwise (h := (· ^^^ ·)) Int.testBit_lxor (fun u v j _ => BitVec.getLsbD_xor), hx, hy]
  | andNot =>
    simp only [wordArith, ArithOp.exact, Option.map_some,
      ofInt_bitwise (f := fun a b => a && !b) (h := fun u v => u &&& ~~~v)
      Int.testBit_ldiff (fun u v j hj => by simp [hj]), hx, hy]
  | shl => exact absurd rfl hshl
  | shr => exact absurd rfl hshr

theorem ofInt_two_pow (n : Nat) : BitVec.ofInt 64 (2 ^ n) = BitVec.twoPow 64 n := by
  apply BitVec.eq_of_toNat_eq
  rw [show (2 : Int) ^ n = ((2 ^ n : Nat) : Int) by push_cast; rfl, BitVec.ofInt_natCast, BitVec.toNat_ofNat,
    BitVec.toNat_twoPow]

/-- Beyond the width, a quotient by a power of two is the sign. -/
theorem div_two_pow_of_le {i : Int} {m n : Nat} (hlo : -2 ^ m ≤ i) (hhi : i < 2 ^ m) (hn : m ≤ n) :
    i / 2 ^ n = if i < 0 then -1 else 0 := by
  have hpow : (2 : Int) ^ m ≤ 2 ^ n := pow_le_pow_right₀ (by norm_num) hn
  split
  · exact ((Int.ediv_emod_unique (by positivity)).2 ⟨(by ring : i + 2 ^ n + 2 ^ n * -1 = i), by omega, by omega⟩).1
  · exact Int.ediv_eq_zero_of_lt (by omega) (by omega)

/-- A shift to the left multiplies by a power of two, a shift to the right divides by it. -/
theorem shiftWord_eq (left : Bool) (n : Nat) : shiftWord x.kind.isSigned left x.re n =
    .ofInt 64 (if left = true then x.number * 2 ^ n else x.number / 2 ^ n) := by
  unfold shiftWord
  cases left with
  | true =>
    have hzero : 64 ≤ n → x.re <<< n = 0 := fun h => BitVec.shiftLeft_eq_zero h
    simp only [if_true, BitVec.ofInt_mul, ofInt_number, ofInt_two_pow, ← BitVec.shiftLeft_eq_mul_twoPow]
    split
    · rw [hzero ‹_›]
    · rfl
  | false =>
    simp only [Bool.false_eq_true, if_false]
    by_cases hs : x.kind.isSigned = true
    · have hlo := BitVec.le_toInt x.re
      have hhi := BitVec.toInt_lt (x := x.re)
      have hdiv : x.re.toInt / 2 ^ min n 63 = x.re.toInt / 2 ^ n := by
        by_cases h : n ≤ 63
        · rw [Nat.min_eq_left h]
        · rw [Nat.min_eq_right (by omega), div_two_pow_of_le hlo hhi le_rfl, div_two_pow_of_le hlo hhi (by omega)]
      simp only [hs, if_true, number]
      rw [← hdiv, ← BitVec.ofInt_toInt (x := x.re.sshiftRight (min n 63)), BitVec.toInt_sshiftRight,
        Int.shiftRight_eq_div_pow, Nat.cast_pow, Nat.cast_ofNat]
    · have hdiv : (x.re.toNat : Int) / 2 ^ n = ((x.re.toNat / 2 ^ n : Nat) : Int) := by push_cast; rfl
      simp only [hs, Bool.false_eq_true, if_false, number]
      rw [hdiv, BitVec.ofInt_natCast]
      apply BitVec.eq_of_toNat_eq
      have hlt : x.re.toNat < 2 ^ 64 := x.re.isLt
      have hle : x.re.toNat / 2 ^ n ≤ x.re.toNat := Nat.div_le_self _ _
      rw [BitVec.toNat_ofNat, Nat.mod_eq_of_lt (by omega)]
      split
      · rename_i h
        have hpow : 2 ^ 64 ≤ 2 ^ n := Nat.pow_le_pow_right (by omega) h
        rw [Nat.div_eq_of_lt (by omega)]
        rfl
      · rw [BitVec.toNat_ushiftRight, Nat.shiftRight_eq_div_pow]

/-- A count that is not negative is the pattern read at the width of its kind. -/
theorem asNat_of_nonneg (hk : c.kind.isScalar = true) (hc : c.Canonical) (h : ¬c.number < 0) :
    c.asNat = c.number.toNat := by
  unfold asNat number at *
  by_cases hs : c.kind.isSigned = true
  · rw [if_pos hs] at h ⊢
    rw [if_pos hs]
    have hre := re_eq_extend hk hc
    rw [if_pos hs] at hre
    have hint := toInt_sext (Kind.size_le_of_isScalar hk) c.re
    rw [← hre] at hint
    rw [hint] at h ⊢
    have hnat := BitVec.toInt_eq_toNat_cond (c.re.setWidth (8 * c.kind.size))
    rw [hnat] at h ⊢
    show (c.re.setWidth (8 * c.kind.size)).toNat = _
    have hlt := (c.re.setWidth (8 * c.kind.size)).isLt
    split at h <;> omega
  · rw [if_neg hs] at h ⊢
    rw [if_neg hs, Int.toNat_natCast]

theorem toOption_shift (left : Bool) (hx : x.kind.isWord = true) (hy : y.kind.isScalar = true) (hyc : y.Canonical) :
    (shift left x y).toOption = if y.number < 0 then none else
      some (ofNumber x.kind (if left = true then x.number * 2 ^ y.number.toNat else x.number / 2 ^ y.number.toNat)) := by
  have hneg : (y.kind.isSigned && decide (y.asInt < 0)) = decide (y.number < 0) := by
    unfold asInt number
    rw [Kind.not_isFloat_of_isScalar hy]
    cases y.kind.isSigned <;> simp
  have heq : shift left x y = if y.number < 0 then .error (.negativeShift y.asInt) else
      .ok (ofBits x.kind (shiftWord x.kind.isSigned left x.re y.asNat) 0) := by
    unfold shift
    rw [hneg]
    simp only [decide_eq_true_eq]
    rfl
  rw [heq]
  split
  · rfl
  · rename_i h
    rw [asNat_of_nonneg hy hyc h, shiftWord_eq, ← ofNumber_of_isWord hx]
    rfl

theorem toOption_wordArith {op : ArithOp} (hx : x.kind.isWord = true) (hshl : op ≠ .shl) (hshr : op ≠ .shr) :
    (arith op x y).toOption = (wordArith x.kind.isSigned op x.re y.re).map (ofBits x.kind · 0) := by
  obtain ⟨k, re, im⟩ := x
  cases op <;> first | exact absurd rfl hshl | exact absurd rfl hshr | skip
  all_goals
    cases k <;> cases hx
    all_goals
      simp only [arith]
      split
      · rename_i w hw
        rw [hw]
        rfl
      · rename_i hw
        rw [hw]
        rfl

/-- Folding is exact arithmetic on the numbers, taken at the kind of the left operand. -/
theorem toOption_arith {op : ArithOp} (hx : x.kind.isWord = true) (hyc : y.Canonical)
    (hadm : Expr.arithAdmits op x.kind y.kind = true) :
    (arith op x y).toOption = (op.exact x.number y.number).map (ofNumber x.kind) := by
  have hshift : ∀ left : Bool, y.kind.isInteger = true → _ := fun left hy => toOption_shift left hx
    (Kind.isScalar_of_isWord (by simp [Kind.isWord, hy])) hyc
  by_cases hl : op = .shl
  · subst hl
    simp only [Expr.arithAdmits, Bool.and_eq_true] at hadm
    refine (hshift true hadm.2).trans ?_
    simp only [ArithOp.exact, if_true]
    split <;> rfl
  by_cases hr : op = .shr
  · subst hr
    simp only [Expr.arithAdmits, Bool.and_eq_true] at hadm
    refine (hshift false hadm.2).trans ?_
    simp only [ArithOp.exact, Bool.false_eq_true, if_false]
    split <;> rfl
  · have hk : y.kind = x.kind := kind_eq_of_admits hl hr hadm
    rw [toOption_wordArith hx hl hr, wordArith_eq hl hr hk, Option.map_map]
    exact congrArg (Option.map · _) (funext fun i => (ofNumber_of_isWord hx i).symm)

/-! ## Comparison, negation and conversion -/

theorem compare_eq_ok (hc : c.kind.isScalar = true) (hk : d.kind = c.kind) (op : CompareOp) :
    Const.compare op c d = .ok (op.ofOrdering (Ord.compare c.number d.number)) := by
  have hnat : ∀ a b : Nat, Ord.compare (a : Int) (b : Int) = Ord.compare a b := by
    intro a b
    show (if (a : Int) < b then Ordering.lt else if (a : Int) = b then .eq else .gt) =
      if a < b then .lt else if a = b then .eq else .gt
    simp only [Nat.cast_lt, Nat.cast_inj]
  unfold Const.compare Const.number Const.asInt Const.asNat
  rw [hk, Kind.not_isFloat_of_isScalar hc, Kind.not_isComplex_of_isScalar hc]
  cases c.kind.isSigned <;> simp [hnat]

theorem compare_swapped (hc : c.kind.isScalar = true) (hk : d.kind = c.kind) (op : CompareOp) :
    Const.compare op.swapped d c = Const.compare op c d := by
  rw [Const.compare_eq_ok hc hk, Const.compare_eq_ok (hk ▸ hc) hk.symm, ← Int.compare_swap]
  cases op <;> cases Ord.compare c.number d.number <;> rfl

/-- Folding compares the numbers. -/
theorem compare_eq_holds (hc : c.kind.isScalar = true) (hk : d.kind = c.kind) (op : CompareOp) :
    Const.compare op c d = .ok (op.holds c.number d.number) := by
  have hcmp : ∀ a b : Int, Ord.compare a b = if a < b then .lt else if a = b then .eq else .gt := fun _ _ => rfl
  rw [compare_eq_ok hc hk, hcmp]
  cases op <;> simp only [CompareOp.ofOrdering, CompareOp.holds] <;> grind

theorem neg_eq (hk : c.kind.isWord = true) : c.neg = ofNumber c.kind (-c.number) := by
  rw [neg_of_isWord hk, ofNumber_of_isWord hk, BitVec.ofInt_neg, ofInt_number]

theorem inv_eq (hk : c.kind.isWord = true) : c.inv = ofNumber c.kind (-c.number - 1) := by
  have hnot : ~~~c.re = -c.re - 1 := by
    rw [BitVec.neg_eq_not_add]
    bv_omega
  rw [inv, ofNumber_of_isWord hk, ofInt_sub, BitVec.ofInt_neg, ofInt_number, hnot]
  rfl

/-- A scalar converts to the constant for its number. -/
theorem convert_eq (hc : c.kind.isScalar = true) (hcc : c.Canonical) (hk : Expr.castAdmits c.kind k = true) :
    c.convert k = .ok (ofNumber k c.number) := by
  by_cases hw : k.isWord = true
  · rw [convert_of_isWord hc hw, ofNumber_of_isWord hw, ofInt_number]
  have hcomplex := Kind.not_isComplex_of_isScalar hc
  have hfloat : c.asFloat = Ieee.ofInt binary64 c.number := by
    obtain ⟨g, re, im⟩ := c
    cases g <;> first | rfl | cases hc
  have hpair : c.asComplex = (c.asFloat, 0) := by
    obtain ⟨g, re, im⟩ := c
    cases g <;> first | rfl | cases hc
  unfold convert ofNumber
  simp only [hcomplex, Bool.false_and, Bool.false_eq_true, if_false, hw, ← hfloat, hpair]
  by_cases hb : k.isBool = true
  · obtain rfl : k = .bool := by simpa [Kind.isBool] using hb
    have hg : c.kind = .bool := by
      revert hk hc
      cases c.kind <;> decide
    have hself := ofNumber_number hc hcc
    rw [hg] at hself
    simp only [hg]
    exact congrArg Except.ok hself.symm
  · have hvoid : k ≠ .void := by
      rintro rfl
      revert hk hc
      cases c.kind <;> decide
    cases k <;> first | rfl | exact absurd rfl hvoid | exact absurd rfl hw | exact absurd rfl hb

end Const

end JitBackend
