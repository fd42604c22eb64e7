import Mathlib
import JitBackend.Proofs.Amd64.Arithmetic
import JitBackend.Proofs.Amd64.Numbering
import JitBackend.Proofs.Numbers

/-!
# Encoded division

What is appended for a division extends `rax` into `rdx`, divides by the operand, and for a remainder moves `rdx` to `rax`.
The divisor is read after the extension, so `rdx` must not be in its way: a divisor in `rax` or `rdx` is refused, but an
address that `rdx` takes part in is not (`exec_divisorAtRdx`). Where `rdx` is not in the address, the quotient or the
remainder by what the operand holds at the start is left in `rax` (`encode_division`).
-/

namespace JitBackend

/-! ## Numbers in words -/

/-- The number that the low bytes of a word stand for at a kind. -/
def Kind.numberOf (k : Kind) (w : Word) : Int := (Const.ofBits k w 0).number

/-- The kind has a pattern for the number. -/
def Kind.Represents (k : Kind) (i : Int) : Prop := k.wrap i = i

instance (k : Kind) (i : Int) : Decidable (k.Represents i) := inferInstanceAs (Decidable (_ = _))

section Numbers

variable {k : Kind} {w w' : Word} {a : Int}

theorem Kind.numberOf_congr (hk : k.isWord = true) (h : low k.size w = low k.size w') : k.numberOf w = k.numberOf w' := by
  suffices hcanon : k.canonical w = k.canonical w' by
    unfold numberOf Const.ofBits
    rw [hcanon]
  cases hs : k.isSigned with
  | true => rw [canonical_of_isSigned hs, canonical_of_isSigned hs, sext_congr h]
  | false => rw [canonical_of_not_isSigned hk hs, canonical_of_not_isSigned hk hs, h]

theorem Kind.numberOf_ofInt (hk : k.isWord = true) (i : Int) : k.numberOf (.ofInt 64 i) = k.wrap i := by
  rw [Kind.numberOf, ← Const.ofNumber_of_isWord hk, Const.number_ofNumber (Kind.isScalar_of_isWord hk)]

theorem Kind.represents_numberOf (hk : k.isWord = true) (w : Word) : k.Represents (k.numberOf w) := by
  have hsc := Kind.isScalar_of_isWord hk
  rw [Represents, ← Const.number_ofNumber hsc]
  exact congrArg Const.number (Const.ofNumber_number (c := .ofBits k w 0) hsc (Const.canonical_ofBits k w 0))

theorem Kind.numberOf_ne_zero (hk : k.isWord = true) (h : low k.size w ≠ 0) : k.numberOf w ≠ 0 := by
  intro h0
  rw [← Const.low_re_ofBits hk, Const.number_eq_zero.1 h0, low_zero_word] at h
  exact h rfl

/-- A remainder stays within the range of the dividend. -/
theorem Kind.Represents.tmod (hk : k.isWord = true) (h : k.Represents a) (b : Int) : k.Represents (a.tmod b) := by
  have habs : (a.tmod b).natAbs ≤ a.natAbs := by
    rw [Int.natAbs_tmod]
    exact Nat.mod_le _ _
  have hbool : k.isBool = false := by
    cases k <;> first | rfl | cases hk
  unfold Represents wrap at *
  cases hs : k.isSigned with
  | true =>
    rw [hs, if_pos rfl] at h
    have hpos : 0 < 2 ^ k.bits := Nat.two_pow_pos _
    have hlo := Int.le_bmod (x := a) hpos
    have hhi := Int.bmod_lt (x := a) hpos
    rw [h] at hlo hhi
    have hsign : (0 ≤ a → 0 ≤ a.tmod b) ∧ (a ≤ 0 → a.tmod b ≤ 0) := by
      refine ⟨Int.tmod_nonneg b, fun ha => ?_⟩
      have hneg := Int.tmod_nonneg b (Int.neg_nonneg_of_nonpos ha)
      rw [Int.neg_tmod] at hneg
      omega
    exact Int.bmod_eq_of_le (by omega) (by omega)
  | false =>
    simp only [hs, hbool, Bool.false_eq_true, if_false] at h ⊢
    have hnonneg : 0 ≤ a := h ▸ Int.emod_nonneg a (by positivity)
    have hlt : a < 2 ^ k.bits := h ▸ Int.emod_lt_of_pos a (by positivity)
    exact Int.emod_eq_of_lt (Int.tmod_nonneg b hnonneg) (by omega)

end Numbers

namespace Amd64

/-! ## The instructions of a division -/

section Execution

variable {k : Kind} {m m' : Machine} {o : Operand} {v w : Word}

/-- The machine with the extension of `rax` in `rdx`. -/
def Machine.extended (k : Kind) (m : Machine) : Option Machine :=
  (if k.isSigned then Instr.extendRax k.size else .alu .xor 4 (.reg rdx) (.reg rdx)).exec m

/-- A quotient that fits does not fault. -/
theorem faults_eq_false (hk : k.isWord = true) (hv : low k.size v ≠ 0)
    (hq : k.Represents ((k.numberOf w).tdiv (k.numberOf v))) :
    Const.faults false .quo (.ofBits k w 0) (.ofBits k v 0) = false := by
  have hzero : k.canonical v ≠ 0 := fun h0 => Kind.numberOf_ne_zero hk hv (Const.number_eq_zero.2 h0)
  have hedge : ¬(k.isSigned = true ∧ k.canonical w = -BitVec.twoPow 64 (k.bits - 1) ∧ k.canonical v = -1) := by
    rintro ⟨hs, hw, hv⟩
    have hnumber : ∀ u, k.numberOf u = (k.canonical u).toInt := fun u => if_pos hs
    rw [Kind.Represents, hnumber, hnumber, hw, hv] at hq
    cases k with
    | int8 | int16 | int32 | int64 =>
      revert hq
      decide
    | _ => cases hs
  simp only [Const.faults, Const.ofBits, Bool.or_eq_false_iff, beq_eq_false_iff_ne]
  refine ⟨hzero, Bool.eq_false_iff.2 fun h => hedge ?_⟩
  simpa only [Bool.and_eq_true, beq_iff_eq, and_assoc] using h

theorem low_of_read {n : Nat} (h : m.read n o = some v) : low n v = v := by
  cases o with
  | reg | imm =>
    cases h
    exact low_low n _
  | mem a =>
    cases h
    exact Memory.low_read _ _ le_rfl
  | label => cases h

/-- Quotient and remainder by what the operand holds once `rdx` is extended. -/
theorem exec_divisionInstrs (hk : k.isWord = true) (hext : m.extended k = some m') (hread : m'.read k.size o = some v)
    (hv : v ≠ 0) (hq : k.Represents ((k.numberOf (m.regs rax)).tdiv (k.numberOf v))) :
    ∃ m₂, (divisionInstrs k o).foldlM (fun m i => i.exec m) m = some m₂ ∧ Keeps {.reg rax, .reg rdx} m m₂ ∧
      k.numberOf (m₂.regs rax) = (k.numberOf (m.regs rax)).tdiv (k.numberOf v) ∧
      k.numberOf (m₂.regs rdx) = (k.numberOf (m.regs rax)).tmod (k.numberOf v) := by
  have hsc := Kind.isScalar_of_isWord hk
  have hlow := low_of_read hread
  set c := Const.ofBits k (m.regs rax) 0 with hc
  set d := Const.ofBits k v 0 with hd
  have hlowc : low c.kind.size c.re = low c.kind.size (m.regs rax) := Const.low_re_ofBits hk _
  have hlowd : low c.kind.size d.re = v := (Const.low_re_ofBits hk v).trans hlow
  obtain ⟨m₁, hm₁, hk₁, hrdx⟩ := exec_extend (c := c) (m := m) hsc
  cases hext.symm.trans hm₁
  have hsame : m'.regs rax = m.regs rax := hk₁.regs rax (by simp [rax, rdx, gpr])
  obtain ⟨q, t, hquo, hrem, hdiv⟩ := Machine.divide_eq (c := c) (d := d) hk (Const.canonical_ofBits ..)
    (Const.canonical_ofBits ..) rfl (faults_eq_false hk (hlow.symm ▸ hv) hq) (by rw [hsame, hlowc])
    (by rw [sext_congr hlowc]; exact hrdx)
  -- the words are those of the exact results
  have hnz : d.number ≠ 0 := Kind.numberOf_ne_zero hk (hlow.symm ▸ hv)
  have hkind : d.kind = c.kind := rfl
  rw [Const.wordArith_eq (by decide) (by decide) hkind] at hquo hrem
  simp only [ArithOp.exact, if_neg hnz, Option.map_some, Option.some.injEq] at hquo hrem
  rw [hlowd] at hdiv
  have hfold : (divisionInstrs k o).foldlM (fun m i => i.exec m) m =
      some { (m'.setReg k.size rax q).setReg k.size rdx t with flags := none } := by
    simp only [divisionInstrs, List.foldlM_cons, List.foldlM_nil, Option.bind_eq_bind]
    rw [show Instr.exec _ m = some m' from hext, Option.bind_some, Instr.exec, hread]
    exact congrArg (Option.bind · _) hdiv
  refine ⟨_, hfold, ?_, ?_, ?_⟩
  · exact (hk₁.mono (by simp)).trans <| ((Keeps.setReg m' _ rax q).mono (by simp)).trans <|
      ((Keeps.setReg _ _ rdx t).mono (by simp)).trans (.flags _ _ none)
  · refine Eq.trans ?_ hq
    rw [← Kind.numberOf_ofInt hk]
    refine Kind.numberOf_congr hk (Eq.trans ?_ (congrArg (low k.size) hquo.symm))
    rw [← m'.low_setReg k.size rax q]
    exact congrArg (low k.size) ((Keeps.setReg _ k.size rdx t).regs rax (by simp [rax, rdx, gpr]))
  · refine Eq.trans ?_ ((Kind.represents_numberOf hk (m.regs rax)).tmod hk (k.numberOf v))
    rw [← Kind.numberOf_ofInt hk]
    exact Kind.numberOf_congr hk ((Machine.low_setReg _ _ _ t).trans (congrArg (low k.size) hrem.symm))

theorem Machine.keeps_extended (hk : k.isWord = true) (h : m.extended k = some m') : Keeps {.reg rdx} m m' := by
  obtain ⟨_, hm, hkeep, -⟩ := exec_extend (c := .zero k) (m := m) (Kind.isScalar_of_isWord hk)
  cases h.symm.trans hm
  exact hkeep

/-- An operand that `rdx` has no part in. -/
theorem Keeps.read_operand {n : Nat} (h : Keeps {.reg rdx} m m') (hreg : o ≠ .reg rdx)
    (hmem : ∀ a, o = .mem a → rdx ∉ a.regs) :
    m'.read n o = m.read n o := by
  cases o with
  | reg r =>
    have hr : r ≠ rdx := fun he => hreg (by rw [he])
    simp only [Machine.read, h.regs r (by simpa using hr)]
  | mem a =>
    have hno := hmem a rfl
    simp only [Machine.read]
    rw [h.address fun r hr hcell => hno (by cases hcell; exact hr), h.read (by simp [bytesAt])]
  | imm | label => rfl

end Execution

/-! ## The code of a division -/

theorem denoteCompound_division {op : ArithOp} {k : Kind} {x y : Expr} {is : List Instr} (hop : op = .quo ∨ op = .rem)
    (h : denoteCompound op k x y = some is) : operand? x = some (.reg rax) ∧ ∃ o, operand? y = some o ∧ o ≠ .reg rdx ∧
      is = divisionInstrs k o ++ if op = .rem then [.mov k.size (.reg rax) (.reg rdx)] else [] := by
  unfold denoteCompound at h
  obtain ⟨dst, hdst, hd⟩ := Option.bind_eq_some_iff.1 h
  obtain ⟨src, hsrc, hs⟩ := Option.bind_eq_some_iff.1 hd
  clear h hd
  rcases hop with rfl | rfl
  all_goals
    obtain ⟨n, hn, hdiv⟩ := Option.bind_eq_some_iff.1 hs
    clear hs
    obtain ⟨rfl, -⟩ := size_of_size? hn
    split at hdiv
    · cases hdiv
    rename_i hno
    simp only [not_or, not_not] at hno
    obtain ⟨-, rfl, -, hrdx⟩ := hno
    refine ⟨hdst, src, hsrc, hrdx, ?_⟩
    cases src with
    | reg | mem =>
      cases hdiv
      rfl
    | imm | label => cases hdiv

theorem operand?_of_numbered {x : Expr} {r : HardReg} (h : operand? x.numbered = some (.reg r)) :
    operand? x = some (.reg r) := by
  cases x with
  | memAt => cases h
  | _ => exact h

/-- Bytes that read as plain instructions, and what those do. -/
theorem Spells.exists_plain {bs : List Byte} {is : List Instr} (h : Spells bs (is.map .plain)) :
    ∃ js : List Instr, decode bs = some (js.map .plain) ∧
      ∀ m, js.foldlM (fun m i => i.exec m) m = is.foldlM (fun m i => i.exec m) m := by
  obtain ⟨cs, hcs, hnormal⟩ := h.decodes
  obtain ⟨js, rfl, hjs⟩ := Coded.exists_plain hnormal
  refine ⟨js, hcs, fun m => ?_⟩
  rw [← run_normal js, hjs, run_normal]

section Encoding

variable {op : ArithOp} {k : Kind} {x y : Expr} {b b' : Buffer} {log log' : Log}

/-- What is appended for an accepted division divides by what the operand holds once `rdx` is extended. -/
theorem decode_division (hop : op = .quo ∨ op = .rem) (hk : k.isWord = true)
    (h : encode (.binary (.compound op) k x y) b log = ((.ok (), b'), log')) :
    operand? x = some (.reg rax) ∧ ∃ (is : List Instr) (o : Operand),
      decode (b'.code.toList.drop b.code.size) = some (is.map .plain) ∧ operand? y.numbered = some o ∧ o ≠ .reg rdx ∧
      ∀ m m₁ v, m.extended k = some m₁ → m₁.read k.size o = some v → v ≠ 0 →
        k.Represents ((k.numberOf (m.regs rax)).tdiv (k.numberOf v)) →
          ∃ m', is.foldlM (fun m i => i.exec m) m = some m' ∧ Keeps {.reg rax, .reg rdx} m m' ∧
            op.exact (k.numberOf (m.regs rax)) (k.numberOf v) = some (k.numberOf (m'.regs rax)) := by
  obtain ⟨hdirect, _, hwritten⟩ := mirrors_encode h
  obtain ⟨cs, hcs, hspells⟩ := spells_encode hdirect.usesGpr hwritten
  obtain ⟨is, his, rfl⟩ := Option.map_eq_some_iff.1 hcs
  obtain ⟨hx, o, ho, hreg, rfl⟩ := denoteCompound_division hop his
  obtain ⟨js, hjs, hrun⟩ := hspells.exists_plain
  refine ⟨operand?_of_numbered hx, js, o, hjs, ho, hreg, fun m m₁ v hext hread hv hq => ?_⟩
  obtain ⟨m₂, hdiv, hkeep, hrax, hrem⟩ := exec_divisionInstrs hk hext hread hv hq
  have hnz : k.numberOf v ≠ 0 := Kind.numberOf_ne_zero hk ((low_of_read hread).symm ▸ hv)
  rw [hrun]
  rcases hop with rfl | rfl
  · refine ⟨m₂, by simpa using hdiv, hkeep, ?_⟩
    rw [ArithOp.exact, if_neg hnz, hrax]
  · refine ⟨m₂.setReg k.size rax (low k.size (m₂.regs rdx)), ?_, hkeep.trans ((Keeps.setReg ..).mono (by simp)), ?_⟩
    · rw [List.foldlM_append, hdiv]
      rfl
    · rw [ArithOp.exact, if_neg hnz, ← hrem]
      refine congrArg some (Kind.numberOf_congr hk ?_)
      rw [Machine.low_setReg, low_low]

/-- What is appended for an accepted division leaves in `rax` the quotient or the remainder by what the divisor holds at the
start, if the address of the divisor does without `rdx`. -/
theorem encode_division (hop : op = .quo ∨ op = .rem) (hk : k.isWord = true)
    (h : encode (.binary (.compound op) k x y) b log = ((.ok (), b'), log'))
    (hrdx : ∀ a, operand? y.numbered = some (.mem a) → rdx ∉ a.regs) :
    operand? x = some (.reg rax) ∧ ∃ (is : List Instr) (o : Operand),
      decode (b'.code.toList.drop b.code.size) = some (is.map .plain) ∧ operand? y.numbered = some o ∧
      ∀ m v, m.read k.size o = some v → v ≠ 0 → k.Represents ((k.numberOf (m.regs rax)).tdiv (k.numberOf v)) →
        ∃ m', is.foldlM (fun m i => i.exec m) m = some m' ∧ Keeps {.reg rax, .reg rdx} m m' ∧
          op.exact (k.numberOf (m.regs rax)) (k.numberOf v) = some (k.numberOf (m'.regs rax)) := by
  obtain ⟨hx, is, o, his, ho, hreg, hdivides⟩ := decode_division hop hk h
  refine ⟨hx, is, o, his, ho, fun m v hv hv0 hq => ?_⟩
  obtain ⟨m₁, hext, -⟩ := exec_extend (c := .zero k) (m := m) (Kind.isScalar_of_isWord hk)
  have hread : m₁.read k.size o = m.read k.size o :=
    (Machine.keeps_extended hk hext).read_operand hreg fun a ha => hrdx a (ha ▸ ho)
  exact hdivides m m₁ v hext (hread.trans hv) hv0 hq

/-- The remainder of `eax` by the four bytes at `r9`. -/
def remainderAtR9 : Expr :=
  .binary (.compound .rem) .int32 (.reg (.hard .int32 rax)) (.memAt .int32 false ⟨some (gpr 9), none, .one, 0⟩)

/-- Minus seven in `rax`, and two where `r9` points to. -/
def minusSeven : Machine where
  regs r := if r = rax then -7 else if r = gpr 9 then 0x1000 else 0
  mem a := if a = 0x1000 then 2 else 0
  flags := none

theorem encode_division_minusSeven : ∃ (b : Buffer) (log : Log) (is : List Instr) (m : Machine),
    encode remainderAtR9 {} #[] = ((.ok (), b), log) ∧ decode b.code.toList = some (is.map .plain) ∧
      is.foldlM (fun m i => i.exec m) minusSeven = some m ∧ Kind.int32.numberOf (m.regs rax) = -1 := by
  obtain ⟨b, log, hrun⟩ : ∃ b log, encode remainderAtR9 {} #[] = ((.ok (), b), log) := ⟨_, _, rfl⟩
  obtain ⟨-, is, o, his, ho, hdivides⟩ := encode_division (.inr rfl) rfl hrun (by rintro a ⟨⟩; decide)
  cases ho
  obtain ⟨m, hm, -, hrem⟩ := hdivides minusSeven 2 (by decide) (by decide) (by decide)
  exact ⟨b, log, is, m, hrun, his, hm, (Option.some.inj hrem).symm.trans (by decide)⟩

/-- The quotient of `rax` by the eight bytes at `rdx`. -/
def quotientAtRdx : Expr :=
  .binary (.compound .quo) .int64 (.reg (.hard .int64 rax)) (.memAt .int64 false ⟨some rdx, none, .one, 0⟩)

/-- Six in `rax`, two where `rdx` points to, and three at address zero. -/
def sixByTwo : Machine where
  regs r := if r = rax then 6 else if r = rdx then 0x1000 else 0
  mem a := if a = 0x1000 then 2 else if a = 0 then 3 else 0
  flags := none

/-- A divisor whose address is in `rdx` is accepted, and another one is read in its place. -/
theorem exec_divisorAtRdx : ∃ (b : Buffer) (log : Log) (is : List Instr) (m : Machine),
    encode quotientAtRdx {} #[] = ((.ok (), b), log) ∧ decode b.code.toList = some (is.map .plain) ∧
      sixByTwo.read 8 (.mem ⟨some rdx, none, .one, 0⟩) = some 2 ∧ is.foldlM (fun m i => i.exec m) sixByTwo = some m ∧
      Kind.int64.numberOf (sixByTwo.regs rax) = 6 ∧ Kind.int64.numberOf (m.regs rax) = 2 := by
  obtain ⟨b, log, hrun⟩ : ∃ b log, encode quotientAtRdx {} #[] = ((.ok (), b), log) := ⟨_, _, rfl⟩
  obtain ⟨-, is, o, his, ho, -, hdivides⟩ := decode_division (.inl rfl) rfl hrun
  cases ho
  obtain ⟨m, hm, -, hquo⟩ := hdivides sixByTwo _ 3 rfl (by decide) (by decide) (by decide)
  exact ⟨b, log, is, m, hrun, his, by decide, hm, by decide, (Option.some.inj hquo).symm.trans (by decide)⟩

end Encoding

end Amd64

end JitBackend
