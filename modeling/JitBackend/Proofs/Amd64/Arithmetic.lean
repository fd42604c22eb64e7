import JitBackend.Proofs.Amd64.Moves

/-!
# Arithmetic

What the instructions of arithmetic leave in a destination: the low bytes of the value that the operation has on whole
words.
-/

namespace JitBackend.Amd64

open Lower

section

variable {A : Activation} {μ ν : Mark} {m m' : Machine} {c d r : Const} {v dst src : Expr} {T : Set Cell}
  {P : Machine → Prop} {lit : Bool} {Q : Unit → Mark → Machine → Prop}

theorem Machine.Holds.flags (h : m.Holds c v) (fl : Option Flags) : ({ m with flags := fl } : Machine).Holds c v := by
  cases h with
  | const => exact .const
  | reg hk hg hv => exact .reg hk hg hv
  | mem hk hv => exact .mem hk hv

/-- Code that writes a word to a destination and may change the flags. -/
theorem does_update {e : Expr} {is : List Instr} {o : Operand} {w : Word} (hd : Occupies m dst T)
    (ho : operand? dst = some o) (hden : denote e = some is)
    (hexec : ∀ m', m.write dst.kind.size o w = some m' → m'.flags = m.flags →
      ∃ fl, is.foldlM (fun m i => i.exec m) m = some { m' with flags := fl })
    (hk : r.kind = dst.kind) (hr : low dst.kind.size r.re = low dst.kind.size w)
    (hq : ∀ m', Keeps T m m' → m'.Holds r dst → Q () μ m') : Does A (emit e) μ m Q := by
  obtain ⟨o', m', ho', hw, hfl, hkeep, hhold⟩ := hd.write w
  cases ho.symm.trans ho'
  obtain ⟨fl, hfold⟩ := hexec m' hw hfl
  exact .emit (step_of_denote hden hfold) (hq _ (hkeep.trans (.flags T m' fl)) ((hhold r hk hr).flags fl))

/-! ## Two operands -/

/-- The instruction of an operation that works on any two legal operands. -/
def aluOf : ArithOp → Option AluOp
  | .add => some .add
  | .sub => some .sub
  | .and => some .and
  | .or => some .or
  | .xor => some .xor
  | _ => none

theorem wordArith_of_alu {op : ArithOp} {o : AluOp} (h : aluOf op = some o) (s : Bool) (a b : Word) :
    Const.wordArith s op a b = some (o.apply a b) := by
  cases op <;> cases h <;> rfl

theorem AluOp.low_apply (o : AluOp) {n : Nat} (hn : n ≤ 8) (a b : Word) :
    low n (o.apply (low n a) (low n b)) = low n (o.apply a b) := by
  cases o with
  | add => exact low_add hn (low_low n a) (low_low n b)
  | sub => exact low_sub hn (low_low n a) (low_low n b)
  | and => exact low_and (low_low n a) (low_low n b)
  | or => exact low_or (low_low n a) (low_low n b)
  | xor => exact low_xor (low_low n a) (low_low n b)

/-- Legal operands can stand in one instruction. -/
theorem fitsPair_of_legal {o o' : Operand} (hc : m.Holds c dst) (hconst : dst.isConst = false) (hd : m.Holds d src)
    (hsc : d.kind.isScalar = true) (hleg : isLegalSource dst src = true) (ho : operand? dst = some o)
    (ho' : operand? src = some o') : fitsPair d.kind.size o o' = true := by
  have hfits : fitsOperand d.kind.size o' = true := by
    cases hd with
    | const =>
      rw [operand?_const hsc] at ho'
      cases ho'
      simp only [fitsOperand, fitsDword_of_fitsImmediate hsc hleg, Bool.or_true]
    | reg hk hg hv =>
      rw [operand?_reg hg] at ho'
      cases ho'
      rfl
    | mem hk hv =>
      cases ho'
      rfl
  cases hc with
  | const => cases hconst
  | reg hk hg hv =>
    rw [operand?_reg hg] at ho
    cases ho
    exact hfits
  | mem hk hv =>
    cases ho
    cases hd with
    | const =>
      rw [operand?_const hsc] at ho'
      cases ho'
      exact hfits
    | reg hk hg hv =>
      rw [operand?_reg hg] at ho'
      cases ho'
      rfl
    | mem hk hv => cases hleg

theorem Occupies.isConst (hd : Occupies m dst T) : dst.isConst = false := by
  cases hd <;> rfl

theorem does_alu {op : ArithOp} {o : AluOp} (hop : aluOf op = some o) (hd : Occupies m dst T) (hc : m.Holds c dst)
    (hs : m.Holds d src) (hk : d.kind = c.kind) (hleg : isLegalSource dst src = true) (hr : r.kind = c.kind)
    (hv : low c.kind.size r.re = low c.kind.size (o.apply c.re d.re))
    (hq : ∀ m', Keeps T m m' → m'.Holds r dst → Q () μ m') :
    Does A (emit (.binary (.compound op) dst.kind dst src)) μ m Q := by
  have hkind := hc.kind
  have hsc : c.kind.isScalar = true := hkind ▸ hd.isScalar
  obtain ⟨a, ha, hra⟩ := hc.operand hsc
  obtain ⟨b, hb, hrb⟩ := hs.operand (hk ▸ hsc)
  have hfits := fitsPair_of_legal hc hd.isConst hs (hk ▸ hsc) hleg ha hb
  rw [hk] at hrb hfits
  have hden : denote (.binary (.compound op) dst.kind dst src) = some [.alu o c.kind.size a b] := by
    cases op <;> cases hop <;> simp [denote, denoteCompound, ha, hb, hkind, size?_of_isScalar hsc, hfits]
  refine does_update (w := o.apply (low c.kind.size c.re) (low c.kind.size d.re)) hd ha hden ?_ (hr.trans hkind.symm) ?_ hq
  · intro m' hw _
    refine ⟨none, foldlM_single ?_⟩
    rw [hkind] at hw
    simp only [Instr.exec, hra, hrb, Option.bind_eq_bind, Option.bind_some, hw]
  · rw [hkind, AluOp.low_apply o (Kind.size_le_of_isScalar hsc)]
    exact hv

/-! ## One operand -/

theorem does_neg (hd : Occupies m dst T) (hc : m.Holds c dst) (hw : c.kind.isWord = true)
    (hq : ∀ m', Keeps T m m' → m'.Holds (.ofBits c.kind (-c.re) 0) dst → Q () μ m') :
    Does A (emitAssign dst.kind dst (.unary .neg dst.kind dst)) μ m Q := by
  have hkind := hc.kind
  have hsc := Kind.isScalar_of_isWord hw
  obtain ⟨o, ho, hread⟩ := hc.operand hsc
  have hden : denote (.binary .assign dst.kind dst (.unary .neg dst.kind dst)) = some [.neg c.kind.size o] := by
    simp [denote, denoteAssign, ho, hkind, size?_of_isScalar hsc]
  refine does_update (r := .ofBits c.kind (-c.re) 0) (w := -low c.kind.size c.re) hd ho hden ?_ hkind.symm ?_ hq
  · intro m' hwr _
    refine ⟨none, foldlM_single ?_⟩
    rw [hkind] at hwr
    simp only [Instr.exec, hread, Option.bind_eq_bind, Option.bind_some, hwr]
  · rw [hkind, Const.low_re_ofBits hw]
    exact low_neg (Kind.size_le_of_isScalar hsc) (low_low _ _).symm

theorem does_inv (hd : Occupies m dst T) (hc : m.Holds c dst) (hw : c.kind.isWord = true)
    (hq : ∀ m', Keeps T m m' → m'.Holds (.ofBits c.kind (~~~c.re) 0) dst → Q () μ m') :
    Does A (emitAssign dst.kind dst (.unary .inv dst.kind dst)) μ m Q := by
  have hkind := hc.kind
  have hsc := Kind.isScalar_of_isWord hw
  obtain ⟨o, ho, hread⟩ := hc.operand hsc
  have hden : denote (.binary .assign dst.kind dst (.unary .inv dst.kind dst)) = some [.inv c.kind.size o] := by
    simp [denote, denoteAssign, ho, hkind, size?_of_isScalar hsc]
  refine does_update (r := .ofBits c.kind (~~~c.re) 0) (w := ~~~low c.kind.size c.re) hd ho hden ?_ hkind.symm ?_ hq
  · intro m' hwr _
    refine ⟨m'.flags, foldlM_single ?_⟩
    rw [hkind] at hwr
    simp only [Instr.exec, hread, Option.bind_eq_bind, Option.bind_some, hwr]
  · rw [hkind, Const.low_re_ofBits hw]
    exact low_not (Kind.size_le_of_isScalar hsc) (low_low _ _).symm

/-! ## Products -/

theorem does_mul {q : Reg} (hd : Occupies m (.reg q) T) (hc : m.Holds c (.reg q)) (hs : m.Holds d src)
    (hk : d.kind = c.kind) (hw : c.kind.isWord = true) (h1 : c.kind.size ≠ 1) (hleg : isLegalSource (.reg q) src = true)
    (hq : ∀ m', Keeps T m m' → m'.Holds (.ofBits c.kind (c.re * d.re) 0) (.reg q) → Q () μ m') :
    Does A (emit (.binary (.compound .mul) c.kind (.reg q) src)) μ m Q := by
  have hsc := Kind.isScalar_of_isWord hw
  have hsize := Kind.size_le_of_isScalar hsc
  obtain ⟨b, hb, hrb⟩ := hs.operand (hk ▸ hsc)
  cases hc with
  | @reg k h ro hkc hg hv =>
    subst hkc
    have hfits := fitsPair_of_legal (.reg rfl hg hv) rfl hs (hk ▸ hsc) hleg (operand?_reg hg) hb
    rw [hk] at hrb hfits
    have hden : denote (.binary (.compound .mul) c.kind (.reg ⟨c.kind, .hard h, ro⟩) src) = some [.mul c.kind.size h b] := by
      have hfit : fitsOperand c.kind.size b = true := hfits
      simp [denote, denoteCompound, operand?_reg hg, hb, size?_of_isScalar hsc, h1, hfit]
    refine does_update (r := .ofBits c.kind (c.re * d.re) 0) (w := m.regs h * low c.kind.size d.re) hd (operand?_reg hg)
      hden ?_ rfl ?_ hq
    · intro m' hwr _
      refine ⟨none, foldlM_single ?_⟩
      cases hwr
      simp only [Instr.exec, hrb, Option.bind_eq_bind, Option.bind_some]
      rfl
    · rw [show (Expr.reg ⟨c.kind, .hard h, ro⟩).kind = c.kind from rfl, Const.low_re_ofBits hw]
      exact low_mul hsize hv.symm (low_low _ _).symm

/-! ## Shifts -/

/-- The instruction of a shift. -/
def shiftOf (signed left : Bool) : ShiftOp := if left then .shl else if signed then .sar else .shr

/-- The part of a count that the machine shifts values of kind `k` by. -/
def takenCount (k : Kind) (n : Nat) : Nat := n % (if k.size = 8 then 64 else 32)

theorem takenCount_of_lt_bits {k : Kind} {n : Nat} (hk : k.isScalar = true) (h : n < k.bits) : takenCount k n = n := by
  have hsize := Kind.size_of_isScalar hk
  unfold Kind.bits at h
  apply Nat.mod_eq_of_lt
  split <;> omega

/-- A shift of the low bytes shifts the value by the part of the count that is taken. -/
theorem low_shift_apply {c : Const} (hw : c.kind.isWord = true) (hc : c.Canonical) (left : Bool) (count : Word) :
    low c.kind.size ((shiftOf c.kind.isSigned left).apply c.kind.size (low c.kind.size c.re) count) =
      low c.kind.size (shiftWord c.kind.isSigned left c.re (takenCount c.kind (low 1 count).toNat)) := by
  have hre := Const.re_eq_extend (Kind.isScalar_of_isWord hw) hc
  have hlt : takenCount c.kind (low 1 count).toNat < 64 := by
    unfold takenCount
    split <;> omega
  have htaken : (low 1 count).toNat % (if c.kind.size = 8 then 64 else 32) = takenCount c.kind (low 1 count).toNat := rfl
  have h64 : ¬64 ≤ takenCount c.kind (low 1 count).toNat := by omega
  cases left with
  | true =>
    simp only [shiftOf, if_true, ShiftOp.apply, htaken, shiftWord, h64, if_false]
    exact low_shiftLeft (low_low _ _) _
  | false =>
    cases hs : c.kind.isSigned with
    | true =>
      rw [hs, if_pos rfl] at hre
      simp only [shiftOf, if_true, Bool.false_eq_true, if_false, ShiftOp.apply, htaken, shiftWord, sext_low]
      rw [← hre, Nat.min_eq_left (by omega)]
    | false =>
      rw [hs, if_neg (by simp)] at hre
      simp only [shiftOf, Bool.false_eq_true, if_false, ShiftOp.apply, htaken, shiftWord, low_low, h64]
      rw [← hre]

/-- A signed shift to the right by the width or more is one by all bits but one. -/
theorem shiftWord_sar {c : Const} (hs : c.kind.isSigned = true) (hw : c.kind.isWord = true) (hc : c.Canonical) {q : Nat}
    (hle : c.kind.bits ≤ q) : shiftWord true false c.re q = shiftWord true false c.re (c.kind.bits - 1) := by
  have hsize := Kind.size_of_isScalar (Kind.isScalar_of_isWord hw)
  have hre := Const.re_eq_extend (Kind.isScalar_of_isWord hw) hc
  rw [hs, if_pos rfl] at hre
  unfold Kind.bits at *
  simp only [shiftWord, Bool.false_eq_true, if_false, if_true]
  exact sshiftRight_of_sext (by omega) (by omega) hre.symm (by omega) (by omega)

/-- Any other shift by the width or more leaves nothing. -/
theorem low_shiftWord_eq_zero {c : Const} {left : Bool} (h : left = true ∨ c.kind.isSigned = false)
    (hw : c.kind.isWord = true) (hc : c.Canonical) {q : Nat} (hle : c.kind.bits ≤ q) :
    low c.kind.size (shiftWord c.kind.isSigned left c.re q) = 0 := by
  have hre := Const.re_eq_extend (Kind.isScalar_of_isWord hw) hc
  unfold Kind.bits at hle
  apply BitVec.eq_of_getLsbD_eq
  intro i hi
  rw [getLsbD_low]
  by_cases hlt : i < 8 * c.kind.size
  · cases left with
    | true =>
      simp only [shiftWord, if_true]
      split
      · simp
      · simp [BitVec.getLsbD_shiftLeft, show i < q by omega]
    | false =>
      have hs : c.kind.isSigned = false := by simpa using h
      rw [hs, if_neg (by simp)] at hre
      simp only [shiftWord, hs, Bool.false_eq_true, if_false]
      split
      · simp
      · rw [hre]
        simp [BitVec.getLsbD_ushiftRight, getLsbD_low, show ¬q + i < 8 * c.kind.size by omega]
  · simp [hlt]

/-- What is taken of a count shows in its lowest byte. -/
theorem takenCount_low_one (k : Kind) (hd : d.kind.isScalar = true) :
    takenCount k (low 1 d.re).toNat = takenCount k d.asNat := by
  have hmod : (low 1 d.re).toNat % 256 = d.asNat % 256 := by
    rw [toNat_low]
    unfold Const.asNat
    split
    · have hdvd : 256 ∣ 2 ^ d.kind.bits := by
        have hsize := Kind.size_of_isScalar hd
        exact Nat.pow_dvd_pow 2 (show 8 ≤ d.kind.bits by unfold Kind.bits; omega)
      rw [BitVec.toNat_setWidth, Nat.mod_mod_of_dvd _ hdvd]
      exact Nat.mod_mod _ _
    · exact Nat.mod_mod _ _
  unfold takenCount
  split <;> omega

theorem Machine.Holds.congr (h : m.Holds c v) (hv : v.isConst = false) (hk : r.kind = c.kind)
    (hr : low c.kind.size r.re = low c.kind.size c.re) : m.Holds r v := by
  cases h with
  | const => cases hv
  | reg hkc hg hval =>
    subst hkc
    exact .reg hk.symm hg (hval.trans hr.symm)
  | mem hkc hval =>
    subst hkc
    exact .mem hk.symm (hval.trans hr.symm)

/-- A shift by a constant or by `rcx`. -/
theorem does_shift {left : Bool} {count : Expr} {e : Const} (hd : Occupies m dst T) (hc : m.Holds c dst)
    (hw : c.kind.isWord = true) (hcan : c.Canonical) (he : m.Holds e count) (hek : e.kind = .uint8)
    (hcount : (∃ e, count = .const e) ∨ count = fixed .uint8 rcx)
    (hq : ∀ m', Keeps T m m' →
      m'.Holds (.ofBits c.kind (shiftWord c.kind.isSigned left c.re (takenCount c.kind (low 1 e.re).toNat)) 0) dst →
        Q () μ m') :
    Does A (emit (.binary (.compound (if left then .shl else .shr)) dst.kind dst count)) μ m Q := by
  have hkind := hc.kind
  have hsc := Kind.isScalar_of_isWord hw
  obtain ⟨o, ho, hread⟩ := hc.operand hsc
  obtain ⟨o', ho', hread'⟩ := he.operand (by rw [hek]; rfl)
  rw [hek] at hread'
  have hden : denote (.binary (.compound (if left then .shl else .shr)) dst.kind dst count) =
      some [.shift (shiftOf c.kind.isSigned left) c.kind.size o o'] := by
    have hsize : size? dst.kind = some c.kind.size := by rw [hkind]; exact size?_of_isScalar hsc
    have hsign : dst.kind.isSigned = c.kind.isSigned := by rw [hkind]
    rcases hcount with ⟨e', rfl⟩ | rfl
    · cases he
      rw [operand?_const (by rw [hek]; rfl)] at ho'
      cases ho'
      cases left <;>
        simp [denote, denoteCompound, ho, operand?_const (show e.kind.isScalar = true by rw [hek]; rfl), hsize,
          hsign, shiftOf]
    · have hrcx : operand? (fixed .uint8 rcx) = some (.reg rcx) := operand?_reg (by decide)
      cases hrcx.symm.trans ho'
      cases left <;> simp [denote, denoteCompound, ho, hrcx, hsize, hsign, shiftOf]
  refine does_update (r := .ofBits c.kind (shiftWord c.kind.isSigned left c.re (takenCount c.kind (low 1 e.re).toNat)) 0)
    (w := (shiftOf c.kind.isSigned left).apply c.kind.size (low c.kind.size c.re) (low 1 e.re))
    hd ho hden ?_ hkind.symm ?_ hq
  · intro m' hwr _
    refine ⟨none, foldlM_single ?_⟩
    rw [hkind] at hwr
    simp only [Instr.exec, hread, show m.read 1 o' = some (low 1 e.re) from hread', Option.bind_eq_bind,
      Option.bind_some, hwr]
  · have hone := low_shift_apply hw hcan left (low 1 e.re)
    rw [hkind, Const.low_re_ofBits hw, hone, low_low]

theorem rcx_mem_free : Cell.reg rcx ∈ A.free μ := .inl (by decide)

/-- The value after a shift by a count, which is taken whole if it is a constant. -/
def shifted (left : Bool) (c d : Const) (lit : Bool) : Const :=
  .ofBits c.kind (shiftWord c.kind.isSigned left c.re (if lit then d.asNat else takenCount c.kind d.asNat)) 0

theorem shifted_eq (left : Bool) (hc : c.kind.isScalar = true) (h : lit = false → d.asNat < c.kind.bits) :
    shifted left c d lit = .ofBits c.kind (shiftWord c.kind.isSigned left c.re d.asNat) 0 := by
  cases lit with
  | true => rfl
  | false => rw [shifted, if_neg (by simp), takenCount_of_lt_bits hc (h rfl)]

/-- A shift by a count that is no constant: the count goes through `rcx`. -/
theorem does_shiftByRcx {left : Bool} (hd : Dest A μ m dst T) (hc : m.Holds c dst) (hw : c.kind.isWord = true)
    (hcan : c.Canonical) (hv : m.Holds d v) (hsc : d.kind.isScalar = true)
    (hq : ∀ m', Keeps (A.free μ ∪ T) m m' → m'.Holds (shifted left c d false) dst → Q () μ m') :
    Does A (do
      mov (fixed v.kind rcx) v
      emit (.binary (.compound (if left then .shl else .shr)) dst.kind dst (fixed .uint8 rcx))) μ m Q := by
  have hrcx : Occupies m (fixed v.kind rcx) {.reg rcx} := .reg (by rw [hv.kind]; exact hsc) (by decide)
  refine .bind (does_movReg hrcx hv hv.kind fun m₁ hk₁ hh₁ => ?_)
  have hk₁' : Keeps (A.free μ ∪ T) m m₁ := hk₁.mono (Set.singleton_subset_iff.2 (.inl rcx_mem_free))
  have hc₁ : m₁.Holds c dst := ((hd.avail hc).keeps (hk₁.mono (Set.singleton_subset_iff.2 rcx_mem_free))).holds
  have hsize := Kind.size_of_isScalar hsc
  have hcl : m₁.Holds (.ofBits .uint8 d.re 0) (fixed .uint8 rcx) :=
    holds_atKind (k := .uint8) rfl (show 1 ≤ d.kind.size by omega) hh₁ rfl
  have hval : takenCount c.kind (low 1 (Const.ofBits .uint8 d.re 0).re).toNat = takenCount c.kind d.asNat := by
    rw [show low 1 (Const.ofBits .uint8 d.re 0).re = low 1 d.re from Const.low_re_ofBits (k := .uint8) rfl d.re,
      takenCount_low_one _ hsc]
  refine does_shift (hd.keeps hk₁').occupies hc₁ hw hcan hcl rfl (.inr rfl) fun m' hk₂ hh₂ => ?_
  refine hq m' (hk₁'.trans (hk₂.mono Set.subset_union_right)) ?_
  rw [hval] at hh₂
  exact hh₂

/-- A shift by a constant: a count below the width that gives the same is an immediate. -/
theorem does_shiftByImmediate {left : Bool} {q : Nat} (hd : Occupies m dst T) (hc : m.Holds c dst)
    (hw : c.kind.isWord = true) (hcan : c.Canonical) (hlt : q < c.kind.bits)
    (hsame : shiftWord c.kind.isSigned left c.re q = shiftWord c.kind.isSigned left c.re d.asNat)
    (hq : ∀ m', Keeps T m m' → m'.Holds (shifted left c d true) dst → Q () μ m') :
    Does A (emit (.binary (.compound (if left then .shl else .shr)) dst.kind dst (.const (Const.uint8 q)))) μ m Q := by
  have hsc := Kind.isScalar_of_isWord hw
  have hbits : c.kind.bits ≤ 64 := by
    have := Kind.size_le_of_isScalar hsc
    unfold Kind.bits
    omega
  have hval : (low 1 (Const.uint8 q).re).toNat = q := by
    rw [show low 1 (Const.uint8 q).re = low 1 (.ofNat 64 q) from Const.low_re_ofBits (k := .uint8) rfl _, toNat_low,
      BitVec.toNat_ofNat]
    omega
  refine does_shift hd hc hw hcan .const rfl (.inl ⟨_, rfl⟩) fun m' hk hh => hq m' hk ?_
  rw [hval, takenCount_of_lt_bits hsc hlt, hsame] at hh
  exact hh

theorem does_shiftInto {left : Bool} {y : Lower Expr} [Steady A.frame y] (hd : Dest A μ m dst T) (hc : m.Holds c dst)
    (hw : c.kind.isWord = true) (hcan : c.Canonical) (hd' : d.kind.isScalar = true)
    (hneg : (d.kind.isSigned && decide (d.asInt < 0)) = false) (hy : Yields A P lit d y) (hm : P m)
    (hq : ∀ ν m', Keeps (A.free μ ∪ T) m m' → m'.Holds (shifted left c d lit) dst → Q () ν m') :
    Does A (shiftInto dst left y) μ m Q := by
  have hkind := hc.kind
  have hsc := Kind.isScalar_of_isWord hw
  unfold shiftInto
  refine does_operand hd hy hm hq (fun v ν m₁ hv hlit hd₁ hkept hfinal => ?_)
    (fun v => by dsimp only; split <;> infer_instance)
  have hc₁ := hkept c hc
  dsimp only
  have himmediate : ∀ q, v.isConst = true → q < c.kind.bits →
      shiftWord c.kind.isSigned left c.re q = shiftWord c.kind.isSigned left c.re d.asNat →
      Does A (emit (.binary (.compound (if left then .shl else .shr)) dst.kind dst (.const (Const.uint8 q)))) ν m₁ Q :=
    fun q hconst hlt hsame => does_shiftByImmediate hd₁.occupies hc₁ hw hcan hlt hsame fun m' hk hh =>
      hfinal ν m' (hk.mono Set.subset_union_right) (by rw [← hlit, hconst]; exact hh)
  have hcomputed : v.isConst = false → Does A (do
      mov (fixed v.kind rcx) v
      emit (.binary (.compound (if left then .shl else .shr)) dst.kind dst (fixed .uint8 rcx))) ν m₁ Q :=
    fun hconst => does_shiftByRcx hd₁ hc₁ hw hcan hv.holds hd' fun m' hk hh =>
      hfinal ν m' hk (by rw [← hlit, hconst]; exact hh)
  cases hv.holds with
  | const =>
    dsimp only
    rw [if_neg (by simp [hneg])]
    split
    · rename_i hcount
      rw [hkind] at hcount
      exact himmediate _ rfl hcount rfl
    · rename_i hcount
      rw [hkind] at hcount
      split
      · rename_i hsigned
        simp only [hkind, Bool.and_eq_true, Bool.not_eq_true'] at hsigned
        obtain ⟨rfl, hs⟩ := hsigned
        refine himmediate (dst.kind.bits - 1) rfl ?_ ?_
        · have hsize := Kind.size_of_isScalar hsc
          rw [hkind]
          unfold Kind.bits
          omega
        · rw [hs, hkind]
          exact (shiftWord_sar hs hw hcan (by omega)).symm
      · rename_i hother
        have hzero : low c.kind.size (shiftWord c.kind.isSigned left c.re d.asNat) = 0 := by
          refine low_shiftWord_eq_zero ?_ hw hcan (by omega)
          rw [hkind] at hother
          cases left <;> simp_all
        refine does_storeConst hd₁ rfl fun m' hk₃ hh₃ => hfinal ν m' hk₃ (hh₃.congr hd₁.occupies.isConst hkind.symm ?_)
        rw [show (Const.zero dst.kind).kind = c.kind from hkind, shifted, ← hlit,
          show (Expr.const d).isConst = true from rfl, if_pos rfl, Const.low_re_ofBits hw, hzero]
        rw [hkind]
        exact (Const.low_re_ofBits hw 0).trans (low_zero_word _) |>.symm
  | reg => exact hcomputed rfl
  | mem => exact hcomputed rfl

/-! ## Quotients -/

theorem divide_signed {n : Nat} {a b : Word} {m : Machine} (hn : n = 1 ∨ n = 2 ∨ n = 4 ∨ n = 8) (ha : sext n a = a)
    (hb : sext n b = b) (hb0 : b ≠ 0) (hmin : ¬(a = -BitVec.twoPow 64 (8 * n - 1) ∧ b = -1))
    (hrax : low n (m.regs rax) = low n a) (hrdx : (sext n (m.regs rdx)).toInt = if (sext n a).toInt < 0 then -1 else 0) :
    m.divide n true (low n b) =
      some { (m.setReg n rax (a.sdiv b)).setReg n rdx (a.srem b) with flags := none } := by
  have hd : (sext n (m.regs rdx)).toInt * 2 ^ (8 * n) + ((low n (m.regs rax)).toNat : Int) = a.toInt := by
    rw [hrdx, hrax, toInt_of_halves hn, ha]
  have hlow : low n (low n b) ≠ 0 := by
    intro h0
    rw [low_low] at h0
    exact hb0 (by rw [← hb, ← sext_low, h0, sext_zero_word])
  have hq : BitVec.ofInt 64 (a.toInt.tdiv b.toInt) = a.sdiv b := by
    apply BitVec.eq_of_toInt_eq
    rw [BitVec.toInt_ofInt, BitVec.toInt_sdiv]
  have hr : BitVec.ofInt 64 (a.toInt.tmod b.toInt) = a.srem b := by
    rw [← BitVec.toInt_srem, BitVec.ofInt_toInt]
  have hbz : b.toInt ≠ 0 := fun h0 => hb0 (BitVec.eq_of_toInt_eq h0)
  have hedge : ¬(a.toInt = -2 ^ (8 * n - 1) ∧ b.toInt = -1) := by
    rintro ⟨hae, hbe⟩
    refine hmin ⟨BitVec.eq_of_toInt_eq ?_, BitVec.eq_of_toInt_eq hbe⟩
    rw [hae]
    rcases hn with rfl | rfl | rfl | rfl <;> decide
  obtain ⟨hlo, hhi⟩ := toInt_bounds_of_sext hn ha
  obtain ⟨hqlo, hqhi⟩ := tdiv_bounds hlo hhi hbz hedge
  have hfits : (sext n (a.sdiv b)).toInt = a.toInt.tdiv b.toInt := by
    rw [← hq]
    exact toInt_sext_ofInt hn hqlo hqhi
  unfold Machine.divide
  simp only [if_true, sext_low, hb, hd, hq, hr]
  rw [if_pos ⟨hlow, hfits⟩]

theorem divide_unsigned {n : Nat} {a b : Word} {m : Machine} (ha : low n a = a) (hb : low n b = b) (hb0 : b ≠ 0)
    (hrax : low n (m.regs rax) = low n a) (hrdx : (low n (m.regs rdx)).toNat = 0) :
    m.divide n false (low n b) = some { (m.setReg n rax (a / b)).setReg n rdx (a % b) with flags := none } := by
  have hq : BitVec.ofInt 64 ((a.toNat / b.toNat : Nat) : Int) = a / b := by
    rw [BitVec.ofInt_natCast]
    apply BitVec.eq_of_toNat_eq
    rw [BitVec.toNat_udiv, BitVec.toNat_ofNat]
    exact Nat.mod_eq_of_lt (lt_of_le_of_lt (Nat.div_le_self _ _) a.isLt)
  have hr : BitVec.ofInt 64 ((a.toNat % b.toNat : Nat) : Int) = a % b := by
    rw [BitVec.ofInt_natCast]
    apply BitVec.eq_of_toNat_eq
    rw [BitVec.toNat_umod, BitVec.toNat_ofNat]
    exact Nat.mod_eq_of_lt (lt_of_le_of_lt (Nat.mod_le _ _) a.isLt)
  have hfits : ((low n (a / b)).toNat : Int) = ((a.toNat / b.toNat : Nat) : Int) := by
    have hlt : a.toNat % 2 ^ (8 * n) = a.toNat := by rw [← toNat_low, ha]
    have hpos : 0 < 2 ^ (8 * n) := Nat.two_pow_pos _
    rw [toNat_low, BitVec.toNat_udiv]
    congr 1
    refine Nat.mod_eq_of_lt (lt_of_le_of_lt (Nat.div_le_self _ _) ?_)
    rw [← hlt]
    exact Nat.mod_lt _ hpos
  unfold Machine.divide
  simp only [Bool.false_eq_true, if_false, hrax, hrdx, ha, hb, Nat.zero_mul, Nat.zero_add, hq, hr]
  rw [if_pos ⟨hb0, hfits⟩]

/-- The division instruction gives quotient and remainder where the operation does not fault. -/
theorem Machine.divide_eq {c d : Const} {m : Machine} (hw : c.kind.isWord = true) (hc : c.Canonical) (hd : d.Canonical)
    (hk : d.kind = c.kind) (hf : Const.faults lit .quo c d = false)
    (hrax : low c.kind.size (m.regs rax) = low c.kind.size c.re)
    (hrdx : if c.kind.isSigned then
        (sext c.kind.size (m.regs rdx)).toInt = if (sext c.kind.size c.re).toInt < 0 then -1 else 0
      else (low c.kind.size (m.regs rdx)).toNat = 0) :
    ∃ q r, Const.wordArith c.kind.isSigned .quo c.re d.re = some q ∧
      Const.wordArith c.kind.isSigned .rem c.re d.re = some r ∧
      m.divide c.kind.size c.kind.isSigned (low c.kind.size d.re) =
        some { (m.setReg c.kind.size rax q).setReg c.kind.size rdx r with flags := none } := by
  have hsc := Kind.isScalar_of_isWord hw
  have hre := Const.re_eq_extend hsc hc
  have hre' := Const.re_eq_extend (hk ▸ hsc) hd
  rw [hk] at hre'
  simp only [Const.faults, Bool.or_eq_false_iff, beq_eq_false_iff_ne, Bool.and_eq_false_iff] at hf
  obtain ⟨h0, hmin⟩ := hf
  cases hs : c.kind.isSigned with
  | true =>
    rw [hs, if_pos rfl] at hre hre' hrdx
    refine ⟨c.re.sdiv d.re, c.re.srem d.re, if_neg h0, if_neg h0, ?_⟩
    refine divide_signed (Kind.size_of_isScalar hsc) hre.symm hre'.symm h0 ?_ hrax hrdx
    rintro ⟨ha, hb⟩
    rcases hmin with (hmin | hmin) | hmin
    · rw [hs] at hmin
      cases hmin
    · exact hmin ha
    · exact hmin hb
  | false =>
    rw [hs, if_neg (by simp)] at hre hre' hrdx
    refine ⟨c.re / d.re, c.re % d.re, if_neg h0, if_neg h0, ?_⟩
    exact divide_unsigned hre.symm hre'.symm h0 hrax hrdx

/-- The upper half of the dividend. -/
theorem exec_extend (hk : c.kind.isScalar = true) : ∃ m',
    (if c.kind.isSigned then Instr.extendRax c.kind.size else .alu .xor 4 (.reg rdx) (.reg rdx)).exec m = some m' ∧
      Keeps {.reg rdx} m m' ∧ if c.kind.isSigned then
        (sext c.kind.size (m'.regs rdx)).toInt = if (sext c.kind.size (m.regs rax)).toInt < 0 then -1 else 0
      else (low c.kind.size (m'.regs rdx)).toNat = 0 := by
  cases hs : c.kind.isSigned with
  | true =>
    refine ⟨_, rfl, .setReg .., ?_⟩
    rw [if_pos rfl, sext_congr (m.low_setReg ..)]
    split
    · rcases Kind.size_of_isScalar hk with h | h | h | h <;> rw [h] <;> decide
    · rw [sext_zero_word]
      rfl
  | false =>
    refine ⟨_, rfl, (Keeps.setReg m 4 rdx _).trans (.flags _ _ none), ?_⟩
    rw [if_neg (by simp), Machine.setReg_self, Machine.splice, if_pos le_rfl, AluOp.apply, BitVec.xor_self]
    exact congrArg BitVec.toNat ((congrArg (low _) (low_zero_word 4)).trans (low_zero_word _))

/-- The instructions of a division. -/
def divisionInstrs (k : Kind) (o : Operand) : List Instr :=
  [if k.isSigned then .extendRax k.size else .alu .xor 4 (.reg rdx) (.reg rdx), .div k.size k.isSigned o]

/-- A division in `rax` by an operand that is not in the way. -/
theorem does_divide {op : ArithOp} (hop : op = .quo ∨ op = .rem) (hc : m.Holds c (fixed c.kind rax)) (hs : m.Holds d src)
    (hconst : src.isConst = false) (hk : d.kind = c.kind) (hw : c.kind.isWord = true) (h1 : c.kind.size ≠ 1)
    (hcc : c.Canonical) (hdc : d.Canonical) (hcells : Disjoint (m.cells src) {.reg rax, .reg rdx})
    (hr : Const.arith? lit op c d = some r)
    (hq : ∀ m', Keeps {.reg rax, .reg rdx} m m' → m'.Holds r (fixed c.kind rax) → Q () μ m') :
    Does A (emit (.binary (.compound op) c.kind (fixed c.kind rax) src)) μ m Q := by
  have hsc := Kind.isScalar_of_isWord hw
  have hop' : op ≠ .shl ∧ op ≠ .shr := by rcases hop with rfl | rfl <;> decide
  obtain ⟨w, hword, rfl⟩ := Const.arith_of_isWord hw hop'.1 hop'.2 (arith_of_arith? hr)
  have hf : Const.faults lit .quo c d = false := by
    unfold Const.arith? at hr
    split at hr
    · cases hr
    · rename_i hno
      rcases hop with rfl | rfl
      · exact Bool.eq_false_iff.2 hno
      · exact Bool.eq_false_iff.2 hno
  -- the operands of the division
  have hrax : operand? (fixed c.kind rax) = some (.reg rax) := operand?_reg (by decide)
  obtain ⟨o, ho, -⟩ := hs.operand (hk ▸ hsc)
  have hplace : (∃ h, o = .reg h ∧ h ≠ rax ∧ h ≠ rdx) ∨ ∃ a, o = .mem a := by
    cases hs with
    | const => cases hconst
    | @reg k h ro hkd hg hv =>
      rw [operand?_reg hg] at ho
      cases ho
      have hno := Set.disjoint_left.1 hcells ⟨h, rfl, rfl⟩
      exact .inl ⟨h, rfl, fun he => hno (by simp [he]), fun he => hno (by simp [he])⟩
    | @mem k ro a hkd hv =>
      cases ho
      exact .inr ⟨a, rfl⟩
  have hlow : low c.kind.size (m.regs rax) = low c.kind.size c.re := by
    cases hc with
    | reg hkc hg hv => exact hv
  -- what the instructions do
  obtain ⟨m₁, hext, hk₁, hrdx⟩ := exec_extend (m := m) hsc
  have hsame : m₁.regs rax = m.regs rax := hk₁.regs rax (by simp [rax, rdx, gpr])
  obtain ⟨q, t, hquo, hrem, hdiv⟩ := Machine.divide_eq hw hcc hdc hk hf (hsame.symm ▸ hlow)
    (by rw [← sext_congr hlow]; exact hrdx)
  have hs₁ := hs.keeps hk₁ (hcells.mono_right (by simp))
  obtain ⟨o', ho', hread⟩ := hs₁.operand (hk ▸ hsc)
  cases ho.symm.trans ho'
  rw [hk] at hread
  have hfold : (divisionInstrs c.kind o).foldlM (fun m i => i.exec m) m =
      some { (m₁.setReg c.kind.size rax q).setReg c.kind.size rdx t with flags := none } := by
    simp only [divisionInstrs, List.foldlM_cons, List.foldlM_nil, hext, Option.bind_eq_bind, Option.bind_some]
    simp only [Instr.exec, hread, Option.bind_eq_bind, Option.bind_some, hdiv, Option.pure_def]
  set m₂ : Machine := { (m₁.setReg c.kind.size rax q).setReg c.kind.size rdx t with flags := none } with hm₂
  have hk₂ : Keeps {.reg rax, .reg rdx} m m₂ :=
    (hk₁.mono (by simp)).trans <| ((Keeps.setReg m₁ _ rax q).mono (by simp)).trans <|
      ((Keeps.setReg _ _ rdx t).mono (by simp)).trans (.flags _ _ none)
  have hden : ∀ rest : List Instr, (op = .quo ∧ rest = []) ∨ (op = .rem ∧ rest = [.mov c.kind.size (.reg rax) (.reg rdx)]) →
      denote (.binary (.compound op) c.kind (fixed c.kind rax) src) = some (divisionInstrs c.kind o ++ rest) := by
    intro rest hrest
    rcases hrest with ⟨rfl, rfl⟩ | ⟨rfl, rfl⟩ <;> rcases hplace with ⟨h, rfl, hne, hne'⟩ | ⟨a, rfl⟩
    · simp [denote, denoteCompound, divisionInstrs, hrax, ho, size?_of_isScalar hsc, h1, hne, hne']
    · simp [denote, denoteCompound, divisionInstrs, hrax, ho, size?_of_isScalar hsc, h1]
    · simp [denote, denoteCompound, divisionInstrs, hrax, ho, size?_of_isScalar hsc, h1, hne, hne']
    · simp [denote, denoteCompound, divisionInstrs, hrax, ho, size?_of_isScalar hsc, h1]
  rcases hop with rfl | rfl
  · cases hquo.symm.trans hword
    refine .emit (step_of_denote (hden [] (.inl ⟨rfl, rfl⟩)) ?_) (hq m₂ hk₂ (.reg rfl (by decide) ?_))
    · rw [List.append_nil, hfold]
    · rw [Const.low_re_ofBits hw, ← m₁.low_setReg c.kind.size rax w]
      exact congrArg (low c.kind.size) ((Keeps.setReg _ c.kind.size rdx t).regs rax (by simp [rax, rdx, gpr]))
  · cases hrem.symm.trans hword
    refine .emit (step_of_denote (hden _ (.inr ⟨rfl, rfl⟩)) ?_)
      (hq (m₂.setReg c.kind.size rax (low c.kind.size (m₂.regs rdx))) (hk₂.trans ((Keeps.setReg ..).mono (by simp)))
        (.reg rfl (by decide) ?_))
    · rw [List.foldlM_append, hfold]
      rfl
    · rw [Const.low_re_ofBits hw, Machine.low_setReg, low_low]
      exact (m₁.setReg c.kind.size rax q).low_setReg c.kind.size rdx w

theorem rax_mem_free : Cell.reg rax ∈ A.free μ := .inl (by decide)

theorem rdx_mem_free : Cell.reg rdx ∈ A.free μ := .inl (by decide)

theorem does_divideInto {op : ArithOp} {y : Lower Expr} [Steady A.frame y] (hop : op = .quo ∨ op = .rem)
    (hd : Dest A μ m dst T) (hc : m.Holds c dst) (hw : c.kind.isWord = true) (h1 : c.kind.size ≠ 1) (hcc : c.Canonical)
    (hdc : d.Canonical) (hk : d.kind = c.kind) (hr : Const.arith? lit op c d = some r) (hy : Yields A P lit d y) (hm : P m)
    (hq : ∀ ν m', Keeps (A.free μ ∪ T) m m' → m'.Holds r dst → Q () ν m') : Does A (divideInto dst op y) μ m Q := by
  have hkind := hc.kind
  have hsc := Kind.isScalar_of_isWord hw
  unfold divideInto
  rw [if_neg (by rw [hkind]; exact h1)]
  refine does_operand hd hy hm hq (fun v ν m₁ hv _ hd₁ hkept hfinal => ?_) fun _ => inferInstance
  have hc₁ := hkept c hc
  -- the dividend goes to `rax` and the result comes back from there
  have hrest : ∀ w ν' m₂, ν ≤ ν' → Keeps (A.free ν) m₁ m₂ → Avail A ν' m₂ d w → w.isConst = false → Does A (do
      mov (fixed dst.kind rax) dst
      emit (.binary (.compound op) dst.kind (fixed dst.kind rax) w)
      mov dst (fixed dst.kind rax)) ν' m₂ Q := by
    intro w ν' m₂ hle hk₂ hw₂ hconst
    have hk₂' : Keeps (A.free ν ∪ T) m₁ m₂ := hk₂.mono Set.subset_union_left
    have hd₂ := (hd₁.keeps hk₂').mono hle
    have hfree : ({.reg rax, .reg rdx} : Set Cell) ⊆ A.free ν' :=
      Set.insert_subset rax_mem_free (Set.singleton_subset_iff.2 rdx_mem_free)
    rw [hkind]
    refine .bind (does_movReg (.reg hsc (by decide)) (((hd₁.avail hc₁).keeps hk₂).holds) rfl fun m₃ hk₃ hh₃ => ?_)
    have hk₃' : Keeps (A.free ν') m₂ m₃ := hk₃.mono (Set.singleton_subset_iff.2 rax_mem_free)
    have hw₃ := hw₂.keeps hk₃'
    refine .bind (does_divide hop hh₃ hw₃.holds hconst hk hw h1 hcc hdc (hw₃.stable.mono_right hfree) hr
      fun m₄ hk₄ hh₄ => ?_)
    have hk₄' : Keeps (A.free ν' ∪ T) m₂ m₄ := (hk₃'.trans (hk₄.mono hfree)).mono Set.subset_union_left
    have hrk : r.kind = c.kind := Const.kind_arith hw (arith_of_arith? hr)
    refine does_mov (hd₂.keeps hk₄') hh₄ (hkind.trans hrk.symm) fun m' hk₅ hh₅ => hfinal ν' m' ?_ hh₅
    exact hk₂'.trans ((hk₄'.trans hk₅).mono (Set.union_subset_union_left T (Activation.free_anti hle)))
  split
  · rename_i hplace
    rw [pure_bind]
    refine hrest v ν m₁ le_rfl (.refl _ _) hv ?_
    cases v <;> first | rfl | cases hplace
  · simp only [pure_bind]
    exact .bind (does_toRegister hv (hk ▸ hsc) fun q ν' m₂ hle hk₂ ha => hrest (.reg q) ν' m₂ hle hk₂ ha rfl)

/-! ## Compound assignment -/

/-- What the operations on two words ask of their operands. -/
theorem does_aluInto {op : ArithOp} {o : AluOp} {y : Lower Expr} [Steady A.frame y] (hop : aluOf op = some o)
    (hd : Dest A μ m dst T) (hc : m.Holds c dst) (hw : c.kind.isWord = true) (hk : d.kind = c.kind)
    (hr : Const.arith? lit op c d = some r) (hy : Yields A P lit d y) (hm : P m)
    (hq : ∀ ν m', Keeps (A.free μ ∪ T) m m' → m'.Holds r dst → Q () ν m') :
    Does A (do emit (.binary (.compound op) dst.kind dst (← legalSource dst (← y)))) μ m Q := by
  have hsc := Kind.isScalar_of_isWord hw
  have hshift : op ≠ .shl ∧ op ≠ .shr := by cases op <;> cases hop <;> decide
  obtain ⟨w, hword, rfl⟩ := Const.arith_of_isWord hw hshift.1 hshift.2 (arith_of_arith? hr)
  cases (wordArith_of_alu hop _ _ _).symm.trans hword
  refine does_operand hd hy hm hq (fun v ν m₁ hv _ hd₁ hkept hfinal => ?_) fun _ => inferInstance
  refine .bind (does_legalSource hv (hk ▸ hsc) fun v' ν' m₂ hle hk₂ hv' hleg => ?_)
  have hk₂' : Keeps (A.free ν ∪ T) m₁ m₂ := hk₂.mono Set.subset_union_left
  have hc₂ := ((hd₁.avail (hkept c hc)).keeps hk₂).holds
  refine does_alu (r := .ofBits c.kind (o.apply c.re d.re) 0) hop (hd₁.keeps hk₂').occupies hc₂ hv'.holds hk hleg rfl
    (Const.low_re_ofBits hw _) fun m' hk₃ hh₃ => ?_
  exact hfinal ν' m' (hk₂'.trans (hk₃.mono Set.subset_union_right)) hh₃

theorem does_mulInto {q : Reg} {y : Lower Expr} [Steady A.frame y] (hd : Dest A μ m (.reg q) T) (hc : m.Holds c (.reg q))
    (hw : c.kind.isWord = true) (h1 : c.kind.size ≠ 1) (hk : d.kind = c.kind) (hy : Yields A P lit d y) (hm : P m)
    (hq : ∀ ν m', Keeps (A.free μ ∪ T) m m' → m'.Holds (.ofBits c.kind (c.re * d.re) 0) (.reg q) → Q () ν m') :
    Does A (do emit (.binary (.compound .mul) c.kind (.reg q) (← legalSource (.reg q) (← y)))) μ m Q := by
  have hsc := Kind.isScalar_of_isWord hw
  refine does_operand hd hy hm hq (fun v ν m₁ hv _ hd₁ hkept hfinal => ?_) fun _ => inferInstance
  refine .bind (does_legalSource hv (hk ▸ hsc) fun v' ν' m₂ hle hk₂ hv' hleg => ?_)
  have hk₂' : Keeps (A.free ν ∪ T) m₁ m₂ := hk₂.mono Set.subset_union_left
  have hc₂ := ((hd₁.avail (hkept c hc)).keeps hk₂).holds
  refine does_mul (hd₁.keeps hk₂').occupies hc₂ hv'.holds hk hw h1 hleg fun m' hk₃ hh₃ => ?_
  exact hfinal ν' m' (hk₂'.trans (hk₃.mono Set.subset_union_right)) hh₃

theorem does_inverted {Q : Expr → Mark → Machine → Prop} (hd : dst.kind.isWord = true) (hk : dst.kind = c.kind)
    (hv : Avail A μ m c v)
    (hq : ∀ v' ν m', μ ≤ ν → Keeps (A.free μ) m m' → m'.Holds (.ofBits c.kind (~~~c.re) 0) v' →
      isLegalSource dst v' = true → Q v' ν m') : Does A (inverted dst v) μ m Q := by
  have hsc := Kind.isScalar_of_isWord hd
  have hcomputed : ∀ {p : Purpose}, Does A (do
      let t := Expr.reg (← Lower.scratch dst.kind p)
      mov t v
      emitAssign dst.kind t (.unary .inv dst.kind t)
      return t) μ m Q := by
    intro p
    refine .bind (.scratch hsc fun r ν hle hfree hr => ?_)
    have hsub : A.free ν ∪ {.reg r} ⊆ A.free μ :=
      Set.union_subset (Activation.free_anti hle) (Set.singleton_subset_iff.2 hfree)
    refine .bind (does_mov (hr m) hv.holds hk fun m₁ hk₁ hh₁ => .bind ?_)
    apply does_inv (hr m₁).occupies hh₁ (hk ▸ hd)
    intro m₂ hk₂ hh₂
    refine .pure ?_
    exact hq _ ν m₂ hle ((hk₁.mono hsub).trans (hk₂.mono (Set.singleton_subset_iff.2 hfree))) hh₂
      (by simp [isLegalSource, Expr.isMem])
  unfold inverted
  cases hv.holds with
  | const =>
    rw [hk]
    refine does_legalSource ⟨.const, by simp [Machine.cells]⟩ (show c.kind.isScalar = true from hk ▸ hsc) ?_
    exact fun v' ν m' hle hk' hv' => hq v' ν m' hle hk' hv'.holds
  | reg => exact hcomputed
  | mem => exact hcomputed

/-- A product in memory is computed in a register. -/
theorem does_mulMem {y : Lower Expr} [Steady A.frame y] {p : Purpose} (hd : Dest A μ m dst T) (hc : m.Holds c dst)
    (hw : c.kind.isWord = true) (h1 : c.kind.size ≠ 1) (hk : d.kind = c.kind) (hP : Stable A P) (hy : Yields A P lit d y)
    (hm : P m) (hq : ∀ ν m', Keeps (A.free μ ∪ T) m m' → m'.Holds (.ofBits c.kind (c.re * d.re) 0) dst → Q () ν m') :
    Does A (do
      let t := Expr.reg (← Lower.scratch dst.kind p)
      mov t dst
      releasing do emit (.binary (.compound .mul) dst.kind t (← legalSource t (← y)))
      mov dst t) μ m Q := by
  have hkind := hc.kind
  refine .bind (.scratch hd.isScalar fun t ν hle hfree ht => ?_)
  refine .bind (does_mov (ht m) hc hkind fun m₁ hk₁ hh₁ => ?_)
  have hsub : A.free ν ∪ {.reg t} ⊆ A.free μ :=
    Set.union_subset (Activation.free_anti hle) (Set.singleton_subset_iff.2 hfree)
  have hk₁' : Keeps (A.free μ) m m₁ := hk₁.mono hsub
  simp only [hkind] at hh₁ ht ⊢
  refine .bind (.releasing (does_mulInto (ht m₁) hh₁ hw h1 hk hy (hP hm hk₁') fun ν' m₂ hk₂ hh₂ => ?_))
  have hk₂' : Keeps (A.free μ ∪ T) m m₂ := (hk₁'.trans (hk₂.mono hsub)).mono Set.subset_union_left
  refine does_mov ((hd.keeps hk₂').mono hle) hh₂ hkind fun m' hk₃ => hq ν m' (hk₂'.trans (hk₃.mono ?_))
  exact Set.union_subset_union_left T (Activation.free_anti hle)

/-- The bits of an operand are cleared with its inverse. -/
theorem does_andNotInto {y : Lower Expr} [Steady A.frame y] (hd : Dest A μ m dst T) (hc : m.Holds c dst)
    (hw : c.kind.isWord = true) (hk : d.kind = c.kind) (hy : Yields A P lit d y) (hm : P m)
    (hq : ∀ ν m', Keeps (A.free μ ∪ T) m m' → m'.Holds (.ofBits c.kind (c.re &&& ~~~d.re) 0) dst → Q () ν m') :
    Does A (do emit (.binary (.compound .and) dst.kind dst (← inverted dst (← y)))) μ m Q := by
  have hkind := hc.kind
  refine does_operand hd hy hm hq (fun v ν m₁ hv _ hd₁ hkept hfinal => ?_) fun _ => inferInstance
  refine .bind (does_inverted (by rw [hkind]; exact hw) (hkind.trans hk.symm) hv fun v' ν' m₂ hle hk₂ hh₂ hleg => ?_)
  have hk₂' : Keeps (A.free ν ∪ T) m₁ m₂ := hk₂.mono Set.subset_union_left
  have hc₂ := ((hd₁.avail (hkept c hc)).keeps hk₂).holds
  rw [hk] at hh₂
  refine does_alu (rfl : aluOf .and = some .and) (hd₁.keeps hk₂').occupies hc₂ hh₂ rfl hleg
    (r := .ofBits c.kind (c.re &&& ~~~d.re) 0) rfl ?_ ?_
  · rw [Const.low_re_ofBits hw]
    exact low_and rfl (Const.low_re_ofBits hw _).symm
  · intro m' hk₃ hh₃
    exact hfinal ν' m' (hk₂'.trans (hk₃.mono Set.subset_union_right)) hh₃

/-- The operation on a destination that holds the left operand leaves the value there. -/
theorem does_opAssign {op : ArithOp} {y : Lower Expr} [Steady A.frame y] (hd : Dest A μ m dst T) (hc : m.Holds c dst)
    (hw : c.kind.isWord = true) (hcc : c.Canonical) (hdc : d.Canonical) (hadm : Expr.arithAdmits op c.kind d.kind = true)
    (hb : c.kind.size = 1 → op ≠ .mul ∧ op ≠ .quo ∧ op ≠ .rem) (hr : Const.arith? lit op c d = some r)
    (hP : Stable A P) (hy : Yields A P lit d y) (hm : P m)
    (hq : ∀ m', Keeps (A.free μ ∪ T) m m' → m'.Holds r dst → Q () μ m') : Does A (opAssign dst op y) μ m Q := by
  have hkind := hc.kind
  have hsc := Kind.isScalar_of_isWord hw
  have hsame : op ≠ .shl → op ≠ .shr → d.kind = c.kind := fun hl hr => kind_eq_of_admits hl hr hadm
  have hshift : ∀ left : Bool, Expr.arithAdmits (if left then .shl else .shr) c.kind d.kind = true →
      Const.arith? lit (if left then .shl else .shr) c d = some r →
      Does A (shiftInto dst left y) μ m fun a _ m' => Q a μ m' := by
    intro left hadm hr
    have har : Const.shift left c d = .ok r := by cases left <;> exact arith_of_arith? hr
    obtain ⟨hneg, rfl⟩ := Const.shift_eq_ok har
    have hcount : lit = false → d.asNat < c.kind.bits := by
      rintro rfl
      unfold Const.arith? at hr
      by_contra hno
      cases left <;> simp [Const.faults, show c.kind.bits ≤ d.asNat by omega] at hr
    rw [← shifted_eq left hsc hcount] at hq
    refine does_shiftInto hd hc hw hcc ?_ hneg hy hm fun _ => hq
    apply Kind.isScalar_of_isWord
    cases left <;> simp_all [Expr.arithAdmits, Kind.isWord]
  have hdivide : ∀ op, op = .quo ∨ op = .rem → d.kind = c.kind → (c.kind.size = 1 → False) →
      Const.arith? lit op c d = some r → Does A (divideInto dst op y) μ m fun a _ m' => Q a μ m' := by
    intro op hop hk h1 hr
    exact does_divideInto hop hd hc hw h1 hcc hdc hk hr hy hm fun _ => hq
  unfold opAssign
  cases op with
  | add | sub | and | or | xor =>
    exact .releasing (does_aluInto rfl hd hc hw (hsame (by decide) (by decide)) hr hy hm fun _ => hq)
  | shl => exact .releasing (hshift true hadm hr)
  | shr => exact .releasing (hshift false hadm hr)
  | quo => exact .releasing (hdivide .quo (.inl rfl) (hsame (by decide) (by decide)) (fun h => (hb h).2.1 rfl) hr)
  | rem => exact .releasing (hdivide .rem (.inr rfl) (hsame (by decide) (by decide)) (fun h => (hb h).2.2 rfl) hr)
  | mul =>
    have h1 : c.kind.size ≠ 1 := fun h => (hb h).1 rfl
    have hk := hsame (by decide) (by decide)
    obtain ⟨w, hword, rfl⟩ := Const.arith_of_isWord hw (by decide) (by decide) (arith_of_arith? hr)
    cases hword
    refine .releasing ?_
    dsimp only
    rw [if_neg (by rw [hkind]; exact h1)]
    split
    · exact does_mulMem hd hc hw h1 hk hP hy hm fun _ => hq
    · rename_i hmem
      cases hd with
      | mem => exact absurd rfl hmem
      | reg hkd hg hsp hfree =>
        rw [hkind]
        exact does_mulInto (.reg hkd hg hsp hfree) hc hw h1 hk hy hm fun _ => hq
  | andNot =>
    have hk := hsame (by decide) (by decide)
    obtain ⟨w, hword, rfl⟩ := Const.arith_of_isWord hw (by decide) (by decide) (arith_of_arith? hr)
    cases hword
    exact .releasing (does_andNotInto hd hc hw hk hy hm fun _ => hq)

end

end JitBackend.Amd64
