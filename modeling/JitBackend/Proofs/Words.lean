import Mathlib.Tactic
import JitBackend.Proofs.Checked

/-!
# Low bytes of words

An operand of `n` bytes is a word of which the `n` low bytes count. `low` cuts a word down to them and `sext` extends
them by their sign. Sums, products and bitwise operations depend on the low bytes of their operands only; the canonical
pattern of a kind is `low` or `sext` of any word with the right low bytes.
-/

namespace JitBackend

/-- The `n` low bytes of a word. -/
def low (n : Nat) (w : Word) : Word := (w.setWidth (8 * n)).setWidth 64

/-- The `n` low bytes of a word, extended by their sign. -/
def sext (n : Nat) (w : Word) : Word := (w.setWidth (8 * n)).signExtend 64

section Low

variable {m n : Nat} {a a' b b' w : Word}

theorem getLsbD_low (n : Nat) (w : Word) (i : Nat) : (low n w).getLsbD i = (decide (i < 8 * n) && w.getLsbD i) := by
  simp only [low, BitVec.getLsbD_setWidth]
  by_cases hi : i < 64
  · simp [hi]
  · simp [hi, BitVec.getLsbD_of_ge w i (by omega)]

@[simp] theorem low_low (n : Nat) (w : Word) : low n (low n w) = low n w := by
  apply BitVec.eq_of_getLsbD_eq
  intro i _
  simp [getLsbD_low]

theorem low_low_of_le (h : m ≤ n) (w : Word) : low m (low n w) = low m w := by
  apply BitVec.eq_of_getLsbD_eq
  intro i _
  simp only [getLsbD_low]
  by_cases hi : i < 8 * m
  · simp [hi, show i < 8 * n by omega]
  · simp [hi]

@[simp] theorem low_eight (w : Word) : low 8 w = w := by simp [low]

@[simp] theorem low_zero_word (n : Nat) : low n 0 = 0 := by simp [low]

theorem toNat_low (n : Nat) (w : Word) : (low n w).toNat = w.toNat % 2 ^ (8 * n) := by
  have h := Nat.mod_le w.toNat (2 ^ (8 * n))
  simp only [low, BitVec.toNat_setWidth]
  exact Nat.mod_eq_of_lt (lt_of_le_of_lt h w.isLt)

theorem low_eq_iff : low n a = low n b ↔ a.setWidth (8 * n) = b.setWidth (8 * n) := by
  constructor
  · intro hab
    have hcut : ∀ w : Word, (low n w).setWidth (8 * n) = w.setWidth (8 * n) := by
      intro w
      apply BitVec.eq_of_getLsbD_eq
      intro i hi
      simp [getLsbD_low, hi]
    rw [← hcut a, ← hcut b, hab]
  · intro hab
    unfold low
    rw [hab]

/-! ### Operations on the low bytes -/

theorem low_add (h : n ≤ 8) (ha : low n a = low n a') (hb : low n b = low n b') : low n (a + b) = low n (a' + b') := by
  rw [low_eq_iff] at *
  rw [BitVec.setWidth_add _ _ (by omega), BitVec.setWidth_add _ _ (by omega), ha, hb]

theorem low_neg (h : n ≤ 8) (ha : low n a = low n a') : low n (-a) = low n (-a') := by
  rw [low_eq_iff] at *
  rw [BitVec.setWidth_neg_of_le (by omega), BitVec.setWidth_neg_of_le (by omega), ha]

theorem low_sub (h : n ≤ 8) (ha : low n a = low n a') (hb : low n b = low n b') : low n (a - b) = low n (a' - b') := by
  rw [BitVec.sub_eq_add_neg, BitVec.sub_eq_add_neg]
  exact low_add h ha (low_neg h hb)

theorem low_mul (h : n ≤ 8) (ha : low n a = low n a') (hb : low n b = low n b') : low n (a * b) = low n (a' * b') := by
  rw [low_eq_iff] at *
  rw [BitVec.setWidth_mul _ _ (by omega), BitVec.setWidth_mul _ _ (by omega), ha, hb]

theorem low_and (ha : low n a = low n a') (hb : low n b = low n b') :
    low n (a &&& b) = low n (a' &&& b') := by
  rw [low_eq_iff] at *
  rw [BitVec.setWidth_and, BitVec.setWidth_and, ha, hb]

theorem low_or (ha : low n a = low n a') (hb : low n b = low n b') :
    low n (a ||| b) = low n (a' ||| b') := by
  rw [low_eq_iff] at *
  rw [BitVec.setWidth_or, BitVec.setWidth_or, ha, hb]

theorem low_xor (ha : low n a = low n a') (hb : low n b = low n b') :
    low n (a ^^^ b) = low n (a' ^^^ b') := by
  rw [low_eq_iff] at *
  rw [BitVec.setWidth_xor, BitVec.setWidth_xor, ha, hb]

theorem low_not (h : n ≤ 8) (ha : low n a = low n a') : low n (~~~a) = low n (~~~a') := by
  rw [low_eq_iff] at *
  rw [BitVec.setWidth_not (by omega), BitVec.setWidth_not (by omega), ha]

theorem low_shiftLeft (ha : low n a = low n a') (c : Nat) : low n (a <<< c) = low n (a' <<< c) := by
  apply BitVec.eq_of_getLsbD_eq
  intro i hi
  have h := congrArg (fun w : Word => w.getLsbD (i - c)) ha
  simp only [getLsbD_low] at h
  simp only [getLsbD_low, BitVec.getLsbD_shiftLeft]
  by_cases hn : i < 8 * n
  · simp only [show i - c < 8 * n by omega, decide_true, Bool.true_and] at h
    rw [h]
  · simp [hn]

/-! ### Sign extension -/

theorem low_sext (h : n ≤ 8) (w : Word) : low n (sext n w) = low n w := by
  rw [low_eq_iff, sext, setWidth_signExtend (by omega)]

theorem sext_congr (ha : low n a = low n a') : sext n a = sext n a' := by
  rw [low_eq_iff] at ha
  unfold sext
  rw [ha]

@[simp] theorem sext_low (n : Nat) (w : Word) : sext n (low n w) = sext n w := sext_congr (low_low n w)

theorem sext_zero_word (n : Nat) : sext n 0 = 0 := by
  apply BitVec.eq_of_toInt_eq
  by_cases h : 8 * n ≤ 64
  · rw [sext, BitVec.toInt_signExtend_of_le h]
    simp
  · simp [sext, BitVec.signExtend_eq_setWidth_of_le _ (by omega : 64 ≤ 8 * n)]

theorem sext_eight (w : Word) : sext 8 w = w := by simp [sext]

theorem toInt_sext (h : n ≤ 8) (w : Word) : (sext n w).toInt = (w.setWidth (8 * n)).toInt := by
  rw [sext, BitVec.toInt_signExtend_of_le (by omega)]

end Low

/-! ## Bytes -/

namespace Memory

variable {m m' : Memory} {a : Word} {n : Nat}

theorem getLsbD_read (m : Memory) : ∀ (n : Nat) (a : Word) (i : Nat), i < 64 →
    (m.read a n).getLsbD i = (decide (i < 8 * n) && (m (a + .ofNat 64 (i / 8))).getLsbD (i % 8)) := by
  intro n
  induction n with
  | zero => simp [read]
  | succ n ih =>
    intro a i hi
    simp only [read, BitVec.getLsbD_or, BitVec.getLsbD_shiftLeft, BitVec.getLsbD_setWidth, hi, decide_true, Bool.true_and]
    by_cases h8 : i < 8
    · simp [h8, show i / 8 = 0 by omega, show i % 8 = i by omega, show i < 8 * (n + 1) by omega]
    · have hstep : a + 1 + BitVec.ofNat 64 ((i - 8) / 8) = a + BitVec.ofNat 64 (i / 8) := by
        rw [BitVec.add_assoc, show i / 8 = 1 + (i - 8) / 8 by omega, BitVec.ofNat_add]
        rfl
      have hbyte : (m a).getLsbD i = false := BitVec.getLsbD_of_ge _ _ (by omega)
      rw [ih (a + 1) (i - 8) (by omega), hstep, hbyte, show (i - 8) % 8 = i % 8 by omega]
      simp [h8, show (i - 8 < 8 * n) = (i < 8 * (n + 1)) by apply propext; omega]

theorem read_congr (h : ∀ i < n, m (a + .ofNat 64 i) = m' (a + .ofNat 64 i)) : m.read a n = m'.read a n := by
  apply BitVec.eq_of_getLsbD_eq
  intro i hi
  rw [getLsbD_read m n a i hi, getLsbD_read m' n a i hi]
  by_cases hn : i < 8 * n
  · rw [h (i / 8) (by omega)]
  · simp [hn]

/-- Fewer bytes are the low ones. -/
theorem low_read (m : Memory) (a : Word) {j n : Nat} (h : j ≤ n) : low j (m.read a n) = m.read a j := by
  apply BitVec.eq_of_getLsbD_eq
  intro i hi
  rw [getLsbD_low, getLsbD_read m n a i hi, getLsbD_read m j a i hi]
  by_cases hj : i < 8 * j
  · simp [hj, show i < 8 * n by omega]
  · simp [hj]

theorem read_write (m : Memory) (a : Word) (n : Nat) (w : Word) : (m.write a n w).read a n = low n w := by
  apply BitVec.eq_of_getLsbD_eq
  intro i hi
  rw [getLsbD_read _ n a i hi, getLsbD_low]
  by_cases hn : i < 8 * n
  · have hdist : (a + BitVec.ofNat 64 (i / 8) - a).toNat = i / 8 := by
      rw [BitVec.add_comm a, BitVec.add_sub_cancel, BitVec.toNat_ofNat]
      exact Nat.mod_eq_of_lt (by omega)
    simp only [write, hdist, show i / 8 < n by omega, if_true, BitVec.getLsbD_setWidth, BitVec.getLsbD_ushiftRight]
    simp [hn, show 8 * (i / 8) + i % 8 = i by omega, show i % 8 < 8 by omega]
  · simp [hn]

theorem write_of_ge {b w : Word} (h : n ≤ (b - a).toNat) : m.write a n w b = m b := by
  unfold write
  rw [if_neg (by omega)]

/-- A memory that reads as a word has the bytes of that word. -/
theorem eq_write_of_read {b w : Word} (hn : n ≤ 8) (h : m.read a n = low n w) (hb : (b - a).toNat < n) :
    m b = m'.write a n w b := by
  unfold write
  rw [if_pos hb]
  apply BitVec.eq_of_getLsbD_eq
  intro i hi
  have hbit := congrArg (fun v : Word => v.getLsbD (8 * (b - a).toNat + i)) h
  simp only [getLsbD_read m n a _ (show 8 * (b - a).toNat + i < 64 by omega), getLsbD_low,
    show 8 * (b - a).toNat + i < 8 * n by omega, decide_true, Bool.true_and,
    show (8 * (b - a).toNat + i) / 8 = (b - a).toNat by omega, show (8 * (b - a).toNat + i) % 8 = i by omega,
    BitVec.ofNat_toNat, BitVec.setWidth_eq] at hbit
  rw [BitVec.add_comm, BitVec.sub_add_cancel] at hbit
  rw [hbit, BitVec.getLsbD_setWidth, BitVec.getLsbD_ushiftRight]
  simp [hi]

end Memory

/-! ## Patterns of kinds -/

namespace Kind

theorem size_of_isScalar {k : Kind} (h : k.isScalar = true) : k.size = 1 ∨ k.size = 2 ∨ k.size = 4 ∨ k.size = 8 := by
  cases k <;> simp_all [isScalar, isWord, isInteger, isSigned, isUnsigned, isPtr, isBool, size]

theorem size_le_of_isScalar {k : Kind} (h : k.isScalar = true) : k.size ≤ 8 := by
  have := size_of_isScalar h
  omega

theorem isScalar_of_isWord {k : Kind} (h : k.isWord = true) : k.isScalar = true := by simp [isScalar, h]

theorem not_isComplex_of_isScalar {k : Kind} (h : k.isScalar = true) : k.isComplex = false := by
  cases k <;> first | rfl | cases h

theorem canonical_of_isSigned {k : Kind} (h : k.isSigned = true) (w : Word) : k.canonical w = sext k.size w := by
  cases k <;> simp_all [isSigned, canonical, sext, size]

theorem canonical_of_not_isSigned {k : Kind} (hw : k.isWord = true) (h : k.isSigned = false) (w : Word) :
    k.canonical w = low k.size w := by
  cases k <;> simp_all [isWord, isInteger, isUnsigned, isPtr, isSigned, canonical, low, size]

theorem low_canonical {k : Kind} (h : k.isWord = true) (w : Word) : low k.size (k.canonical w) = low k.size w := by
  by_cases hs : k.isSigned = true
  · rw [canonical_of_isSigned hs, low_sext (size_le_of_isScalar (isScalar_of_isWord h))]
  · rw [canonical_of_not_isSigned h (by simpa using hs), low_low]

end Kind

namespace Const

variable {c d x y : Const} {k : Kind}

theorem at_eq (hk : c.kind = k) (hc : c.Canonical) : c.at k = c := by
  subst hk
  exact hc

theorem re_of_canonical (hc : c.Canonical) : c.kind.canonical c.re = c.re := congrArg Const.re hc

/-- A canonical pattern is the extension of its low bytes. -/
theorem re_eq_extend (hk : c.kind.isScalar = true) (hc : c.Canonical) :
    c.re = if c.kind.isSigned = true then sext c.kind.size c.re else low c.kind.size c.re := by
  have hre := re_of_canonical hc
  split
  · rename_i hs
    rw [Kind.canonical_of_isSigned hs] at hre
    exact hre.symm
  · rename_i hs
    by_cases hw : c.kind.isWord = true
    · rw [Kind.canonical_of_not_isSigned hw (by simpa using hs)] at hre
      exact hre.symm
    · have hb : c.kind = .bool := by simpa [Kind.isScalar, hw, Kind.isBool] using hk
      rw [hb] at hre ⊢
      simp only [Kind.canonical] at hre
      split at hre <;> rw [← hre] <;> rfl

theorem low_re_ofBits (hk : k.isWord = true) (w : Word) : low k.size (ofBits k w 0).re = low k.size w :=
  Kind.low_canonical hk w

theorem convert_of_isWord (hc : c.kind.isScalar = true) (hk : k.isWord = true) :
    c.convert k = .ok (ofBits k c.re 0) := by
  have hcomplex : c.kind.isComplex = false := Kind.not_isComplex_of_isScalar hc
  have hfloat : c.kind.isFloat = false := by
    cases h : c.kind <;> rw [h] at hc <;> first | rfl | cases hc
  simp [convert, hcomplex, hfloat, hk]

theorem neg_of_isWord (hk : c.kind.isWord = true) : c.neg = ofBits c.kind (-c.re) 0 := by
  have hcomplex : c.kind.isComplex = false := Kind.not_isComplex_of_isScalar (Kind.isScalar_of_isWord hk)
  have hfloat : c.kind.isFloat = false := by
    cases h : c.kind <;> rw [h] at hk <;> first | rfl | cases hk
  simp [neg, hcomplex, hfloat]

/-- Arithmetic on words other than shifts. -/
theorem arith_of_isWord {op : ArithOp} (hx : x.kind.isWord = true) (hshl : op ≠ .shl) (hshr : op ≠ .shr)
    (h : arith op x y = .ok c) : ∃ w, wordArith x.kind.isSigned op x.re y.re = some w ∧ c = ofBits x.kind w 0 := by
  obtain ⟨k, re, im⟩ := x
  cases op <;> first | exact absurd rfl hshl | exact absurd rfl hshr | skip
  all_goals
    cases k <;> cases hx
    all_goals
      simp only [arith] at h
      split at h
      · rename_i w hw
        cases h
        exact ⟨w, hw, rfl⟩
      · cases h

theorem arith_comm {op : ArithOp} (hx : x.kind.isWord = true) (hk : y.kind = x.kind) (hop : op.isCommutative = true) :
    arith op y x = arith op x y := by
  obtain ⟨k, re, im⟩ := x
  obtain ⟨k', re', im'⟩ := y
  obtain rfl : k' = k := hk
  cases op <;> cases hop
  all_goals
    cases k' <;> cases hx
    all_goals simp only [arith, wordArith, BitVec.add_comm re', BitVec.mul_comm re', BitVec.and_comm re',
      BitVec.or_comm re', BitVec.xor_comm re']

theorem kind_arith {op : ArithOp} (hx : x.kind.isWord = true) (h : arith op x y = .ok c) : c.kind = x.kind := by
  have hshift : ∀ {left}, shift left x y = .ok c → c.kind = x.kind := by
    intro left h
    unfold shift at h
    split at h <;> cases h
    rfl
  by_cases hl : op = .shl
  · subst hl
    exact hshift h
  by_cases hr : op = .shr
  · subst hr
    exact hshift h
  obtain ⟨w, -, rfl⟩ := arith_of_isWord hx hl hr h
  rfl

end Const

/-! ## Admitted kinds -/

theorem isWord_of_admits {op : ArithOp} {k g : Kind} (hk : k.isScalar = true)
    (h : Expr.arithAdmits op k g = true) : k.isWord = true := by
  cases k <;> first | rfl | (cases op <;> revert h <;> cases g <;> decide) | cases hk

theorem kind_eq_of_admits {op : ArithOp} {k g : Kind} (hl : op ≠ .shl) (hr : op ≠ .shr)
    (h : Expr.arithAdmits op k g = true) : g = k := by
  cases op <;> simp_all [Expr.arithAdmits]

/-! ## Shifts -/

/-- The pattern of a shift by `q`. -/
def shiftWord (signed left : Bool) (a : Word) (q : Nat) : Word :=
  if left then if 64 ≤ q then 0 else a <<< q
  else if signed then a.sshiftRight (min q 63)
  else if 64 ≤ q then 0 else a >>> q

theorem Const.shift_eq_ok {left : Bool} {x y c : Const} (h : shift left x y = .ok c) :
    (y.kind.isSigned && decide (y.asInt < 0)) = false ∧
      c = ofBits x.kind (shiftWord x.kind.isSigned left x.re y.asNat) 0 := by
  unfold shift at h
  split at h
  · cases h
  · rename_i hneg
    cases h
    exact ⟨by simpa using hneg, rfl⟩

/-- From its sign bit on, a sign-extended word has one bit. -/
theorem getLsbD_of_sext {n : Nat} {a : Word} (h0 : 0 < n) (hn : n ≤ 8) (ha : sext n a = a) {i : Nat} (hi : i < 64)
    (hle : 8 * n - 1 ≤ i) : a.getLsbD i = a.msb := by
  have hbit : ∀ j, 8 * n - 1 ≤ j → j < 64 → a.getLsbD j = (a.setWidth (8 * n)).msb := by
    intro j hj hj'
    conv_lhs => rw [← ha, sext, BitVec.getLsbD_signExtend]
    simp only [hj', decide_true, Bool.true_and]
    split
    · rw [BitVec.msb_eq_getLsbD_last, show j = 8 * n - 1 by omega]
    · rfl
  rw [hbit i hle hi, ← hbit 63 (by omega) (by omega), BitVec.msb_eq_getLsbD_last a]

theorem sshiftRight_of_sext {n : Nat} {a : Word} (h0 : 0 < n) (hn : n ≤ 8) (ha : sext n a = a) {p q : Nat}
    (hp : 8 * n - 1 ≤ p) (hq : 8 * n - 1 ≤ q) : a.sshiftRight p = a.sshiftRight q := by
  apply BitVec.eq_of_getLsbD_eq
  intro i hi
  rw [BitVec.getLsbD_sshiftRight, BitVec.getLsbD_sshiftRight]
  have hbit : ∀ p, 8 * n - 1 ≤ p → (if p + i < 64 then a.getLsbD (p + i) else a.msb) = a.msb := by
    intro p hp
    split
    · exact getLsbD_of_sext h0 hn ha (by omega) (by omega)
    · rfl
  rw [hbit p hp, hbit q hq]

/-! ## Quotients -/

theorem toInt_sext_ofInt {n : Nat} (hn : n = 1 ∨ n = 2 ∨ n = 4 ∨ n = 8) {q : Int} (hlo : -2 ^ (8 * n - 1) ≤ q)
    (hhi : q < 2 ^ (8 * n - 1)) : (sext n (.ofInt 64 q)).toInt = q := by
  rw [toInt_sext (by omega), BitVec.toInt_setWidth, BitVec.toNat_ofInt]
  rcases hn with rfl | rfl | rfl | rfl
  all_goals
    norm_num at hlo hhi ⊢
    unfold Int.bmod
    simp only
    split <;> omega

theorem toInt_bounds_of_sext {n : Nat} (hn : n = 1 ∨ n = 2 ∨ n = 4 ∨ n = 8) {a : Word} (ha : sext n a = a) :
    -2 ^ (8 * n - 1) ≤ a.toInt ∧ a.toInt < 2 ^ (8 * n - 1) := by
  have h := toInt_sext (by omega) a (n := n)
  rw [ha] at h
  rw [h]
  exact ⟨BitVec.le_toInt _, BitVec.toInt_lt⟩

/-- A quotient fits unless it is that of the least number by minus one. -/
theorem tdiv_bounds {b : Nat} {x y : Int} (hlo : -2 ^ b ≤ x) (hhi : x < 2 ^ b) (hy : y ≠ 0) (h : ¬(x = -2 ^ b ∧ y = -1)) :
    -2 ^ b ≤ x.tdiv y ∧ x.tdiv y < 2 ^ b := by
  have hx : x.natAbs ≤ 2 ^ b := by
    have : ((2 ^ b : Nat) : Int) = 2 ^ b := by norm_cast
    omega
  have hp : 0 < 2 ^ b := Nat.two_pow_pos b
  have hcast : ((2 ^ b : Nat) : Int) = 2 ^ b := by norm_cast
  by_cases h1 : y = 1
  · subst h1
    rw [Int.tdiv_one]
    omega
  by_cases h2 : y = -1
  · subst h2
    rw [Int.tdiv_neg, Int.tdiv_one]
    omega
  have habs : (x.tdiv y).natAbs = x.natAbs / y.natAbs := Int.natAbs_tdiv x y
  have hlt : x.natAbs / y.natAbs < 2 ^ b := by
    refine lt_of_le_of_lt (Nat.div_le_div hx (show 2 ≤ y.natAbs by omega) (by omega)) ?_
    omega
  omega

/-- The two halves of a dividend that was extended by its sign make the number itself. -/
theorem toInt_of_halves {n : Nat} (hn : n = 1 ∨ n = 2 ∨ n = 4 ∨ n = 8) (a : Word) :
    (if (sext n a).toInt < 0 then -1 else 0) * 2 ^ (8 * n) + ((low n a).toNat : Int) = (sext n a).toInt := by
  rw [toInt_sext (by omega), toNat_low]
  have h := BitVec.toInt_eq_toNat_cond (a.setWidth (8 * n))
  rw [BitVec.toNat_setWidth] at h
  rcases hn with rfl | rfl | rfl | rfl
  all_goals
    norm_num at h ⊢
    split at h <;> split <;> omega

end JitBackend
