import JitBackend.Proofs.Amd64.Runs

/-!
# Moves

What the instructions between operands do. `Avail` is an operand that holds a value and does not depend on free cells,
so that code which takes temporaries keeps it; a computation that `Yields` a value leaves such an operand.
-/

namespace JitBackend.Amd64

open Lower

/-! ## Available operands -/

/-- The operand holds the value, and does not depend on what is free at the mark. -/
structure Avail (A : Activation) (μ : Mark) (m : Machine) (c : Const) (v : Expr) : Prop where
  holds : m.Holds c v
  stable : Disjoint (m.cells v) (A.free μ)

section

variable {A : Activation} {μ ν : Mark} {m m' : Machine} {c d : Const} {v dst src : Expr} {T : Set Cell}
  {P : Machine → Prop} {lit : Bool}

theorem Avail.mono (h : Avail A μ m c v) (hle : μ ≤ ν) : Avail A ν m c v :=
  ⟨h.holds, h.stable.mono_right (Activation.free_anti hle)⟩

theorem Avail.keeps (h : Avail A μ m c v) (hk : Keeps (A.free μ) m m') : Avail A μ m' c v :=
  ⟨h.holds.keeps hk h.stable, by rw [Machine.cells_keeps hk h.stable]; exact h.stable⟩

/-- What a destination holds is available. -/
theorem Dest.avail (hd : Dest A μ m dst T) (h : m.Holds c dst) : Avail A μ m c dst := by
  refine ⟨h, ?_⟩
  cases hd with
  | reg hk hg hsp hfree =>
    rw [Set.disjoint_left]
    rintro x ⟨r, hr, rfl⟩
    cases hr
    exact hfree
  | mem hk hregs hfree =>
    rw [Machine.cells, Set.disjoint_union_left]
    refine ⟨?_, hfree⟩
    rw [Set.disjoint_left]
    rintro x ⟨r, hr, rfl⟩
    exact hregs r hr

/-- A property of machines that code keeps as long as it changes free cells only. -/
def Stable (A : Activation) (P : Machine → Prop) : Prop := ∀ ⦃μ m m'⦄, P m → Keeps (A.free μ) m m' → P m'

/-- Where `P` holds, the computation leaves an operand that holds `c`; the operand is a constant if `lit`. -/
def Yields (A : Activation) (P : Machine → Prop) (lit : Bool) (c : Const) (y : Lower Expr) : Prop :=
  ∀ ⦃μ m⦄ ⦃Q : Expr → Mark → Machine → Prop⦄, P m → (∀ v ν m', μ ≤ ν → Keeps (A.free μ) m m' → Avail A ν m' c v →
    v.isConst = lit → Q v ν m') → Does A y μ m Q

/-! ## Instructions -/

theorem step_of_denote {e : Expr} {is : List Instr} (he : denote e = some is)
    (hm : is.foldlM (fun m i => i.exec m) m = some m') : step e (.at m) = .at m' := by
  unfold step
  split
  · rename_i heq
    cases heq
  · rename_i heq
    cases heq
  · rename_i m₀ heq
    cases heq
    split
    · cases he
    · cases he
    · cases he
    · simp [he, hm]

theorem size?_of_isScalar {k : Kind} (hk : k.isScalar = true) : size? k = some k.size := by
  have h := Kind.size_of_isScalar hk
  simp [size?, width, h, Except.toOption]

theorem operand?_const (hc : c.kind.isScalar = true) : operand? (.const c) = some (.imm (sext c.kind.size c.re)) := by
  simp [operand?, operand, immediate_eq hc, Except.map, Except.toOption]

theorem operand?_reg {k : Kind} {h : HardReg} {ro : Bool} (hg : IsGpr h) :
    operand? (.reg ⟨k, .hard h, ro⟩) = some (.reg h) := by
  simp [operand?, operand, hg.1, hg.2, Except.toOption]

theorem operand?_memAt {k : Kind} {ro : Bool} {a : AddrMode} : operand? (.memAt k ro a) = some (.mem a) := rfl

/-- An assignment of an operand is a move, or nothing if the operand is the destination. -/
theorem denoteAssign_operand (hd : Occupies m dst T) (hsrc : m.Holds c src) (hk : dst.kind = c.kind)
    (hleg : dst.isMem = true → isLegalSource dst src = true) : ∃ o o', operand? dst = some o ∧ operand? src = some o' ∧
      denoteAssign dst.kind dst src = some (if o = o' then [] else [.mov dst.kind.size o o']) := by
  have hsize := size?_of_isScalar hd.isScalar
  have hsc : c.kind.isScalar = true := hk ▸ hd.isScalar
  cases hd with
  | reg hkd hg =>
    cases hsrc with
    | const =>
      refine ⟨_, _, operand?_reg hg, operand?_const hsc, ?_⟩
      simp [denoteAssign, operand?_reg hg, operand?_const hsc, hsize]
    | reg hkc hg' hv =>
      refine ⟨_, _, operand?_reg hg, operand?_reg hg', ?_⟩
      simp only [denoteAssign, operand?_reg hg, operand?_reg hg', hsize, Option.bind_eq_bind, Option.bind_some]
      split <;> rfl
    | mem hkc hv =>
      refine ⟨_, _, operand?_reg hg, operand?_memAt, ?_⟩
      simp [denoteAssign, operand?_reg hg, operand?_memAt, hsize]
  | mem hkd =>
    cases hsrc with
    | const =>
      refine ⟨_, _, operand?_memAt, operand?_const hsc, ?_⟩
      have hfit : ¬(c.kind.size = 8 ∧ fitsDword (sext c.kind.size c.re) = false) := by
        rintro ⟨-, hno⟩
        rw [fitsDword_of_fitsImmediate hsc (hleg rfl)] at hno
        cases hno
      simp only [Expr.kind] at hk
      subst hk
      simp [denoteAssign, operand?_memAt, operand?_const hsc, Expr.kind, size?_of_isScalar hsc, hfit]
    | reg hkc hg' hv =>
      refine ⟨_, _, operand?_memAt, operand?_reg hg', ?_⟩
      simp [denoteAssign, operand?_memAt, operand?_reg hg', hsize]
    | mem hkc hv => cases hleg rfl

/-- An operand that is the destination is there already. -/
theorem holds_of_operand_eq (hsc : c.kind.isScalar = true) (hd : Occupies m dst T) (hsrc : m.Holds c src)
    (hk : dst.kind = c.kind) (he : operand? dst = operand? src) : m.Holds c dst := by
  cases hd with
  | @reg k h ro hkd hg =>
    cases hsrc with
    | const => simp [operand?_reg hg, operand?_const hsc] at he
    | @reg k' h' ro' hkc hg' hv =>
      rw [operand?_reg hg, operand?_reg hg'] at he
      cases he
      obtain rfl : k = k' := hk.trans hkc.symm
      exact .reg hk hg hv
    | mem hkc hv => simp [operand?_reg hg, operand?_memAt] at he
  | @mem k ro a hkd =>
    cases hsrc with
    | const => simp [operand?_memAt, operand?_const hsc] at he
    | reg hkc hg' hv => simp [operand?_memAt, operand?_reg hg'] at he
    | @mem k' ro' a' hkc hv =>
      rw [operand?_memAt, operand?_memAt] at he
      cases he
      obtain rfl : k = k' := hk.trans hkc.symm
      exact .mem hk hv

theorem foldlM_single {i : Instr} (h : i.exec m = some m') : [i].foldlM (fun m i => i.exec m) m = some m' := by
  simp [h]

theorem does_assign {Q : Unit → Mark → Machine → Prop} (hd : Occupies m dst T) (hsrc : m.Holds c src)
    (hk : dst.kind = c.kind) (hleg : dst.isMem = true → isLegalSource dst src = true)
    (hq : ∀ m', Keeps T m m' → m'.Holds c dst → Q () μ m') : Does A (emitAssign dst.kind dst src) μ m Q := by
  have hsc : c.kind.isScalar = true := hk ▸ hd.isScalar
  obtain ⟨o, o', ho, ho', hden⟩ := denoteAssign_operand hd hsrc hk hleg
  split at hden
  · rename_i heq
    subst heq
    exact .emit (step_of_denote hden rfl) (hq m (.refl _ _) (holds_of_operand_eq hsc hd hsrc hk (ho.trans ho'.symm)))
  · obtain ⟨o₁, ho₁, hread⟩ := hsrc.operand hsc
    obtain ⟨o₂, m', ho₂, hw, -, hkeep, hhold⟩ := hd.write (low c.kind.size c.re)
    cases ho'.symm.trans ho₁
    cases ho.symm.trans ho₂
    have hexec : (Instr.mov dst.kind.size o o').exec m = some m' := by
      rw [hk] at hw ⊢
      simp only [Instr.exec, hread, Option.bind_eq_bind, Option.bind_some, hw]
    exact .emit (step_of_denote hden (foldlM_single hexec)) (hq m' hkeep (hhold c hk.symm (by rw [hk, low_low])))

/-! ## Moves by way of a register -/

/-- A move by way of a scratch register. -/
theorem does_assignVia {Q : Unit → Mark → Machine → Prop} {p : Purpose} (hd : Dest A μ m dst T) (hsrc : m.Holds c src)
    (hk : dst.kind = c.kind) (hq : ∀ ν m', Keeps (A.free μ ∪ T) m m' → m'.Holds c dst → Q () ν m') :
    Does A (do
      let t := Expr.reg (← Lower.scratch dst.kind p)
      emitAssign dst.kind t src
      emitAssign dst.kind dst t) μ m Q := by
  refine .bind (.scratch hd.isScalar fun r ν hle hfree hr => ?_)
  refine .bind ?_
  apply does_assign (hr m).occupies hsrc hk (by rintro ⟨⟩)
  intro m₁ hk₁ hh₁
  have hk₁' : Keeps (A.free μ ∪ T) m m₁ := hk₁.mono (Set.singleton_subset_iff.2 (.inl hfree))
  refine does_assign ((hd.keeps hk₁').mono hle).occupies hh₁ hk (fun _ => by simp [isLegalSource, Expr.isMem])
    fun m' hk₂ hh₂ => ?_
  exact hq ν m' (hk₁'.trans (hk₂.mono Set.subset_union_right)) hh₂

theorem does_storeConst {Q : Unit → Mark → Machine → Prop} (hd : Dest A μ m dst T) (hk : dst.kind = c.kind)
    (hq : ∀ m', Keeps (A.free μ ∪ T) m m' → m'.Holds c dst → Q () μ m') : Does A (storeConst dst c) μ m Q := by
  unfold storeConst
  refine .releasing ?_
  split
  · exact does_assignVia hd .const hk fun _ => hq
  · rename_i hfit
    refine does_assign hd.occupies .const hk (fun hmem => ?_) fun m' hk' hh' => hq m' (hk'.mono Set.subset_union_right) hh'
    simpa [hmem, isLegalSource] using hfit

/-- An operand that is the same place is there already. -/
theorem holds_of_samePlace (hsrc : m.Holds c src) (hk : dst.kind = c.kind) (h : samePlace dst src = true) :
    m.Holds c dst := by
  cases hsrc with
  | const => cases dst <;> cases h
  | @reg k g ro hkc hg hv =>
    cases dst with
    | reg r =>
      obtain ⟨k', id, ro'⟩ := r
      simp only [samePlace, Bool.and_eq_true, beq_iff_eq] at h
      obtain ⟨rfl, -⟩ := h
      obtain rfl : k' = k := hk.trans hkc.symm
      exact .reg hkc hg hv
    | _ => cases h
  | @mem k ro a hkc hv =>
    cases dst with
    | memAt k' ro' a' =>
      simp only [samePlace, Bool.and_eq_true, beq_iff_eq] at h
      obtain ⟨rfl, -⟩ := h
      obtain rfl : k' = k := hk.trans hkc.symm
      exact .mem hkc hv
    | _ => cases h

theorem does_mov {Q : Unit → Mark → Machine → Prop} (hd : Dest A μ m dst T) (hsrc : m.Holds c src)
    (hk : dst.kind = c.kind) (hq : ∀ m', Keeps (A.free μ ∪ T) m m' → m'.Holds c dst → Q () μ m') :
    Does A (mov dst src) μ m Q := by
  unfold mov
  split
  · rename_i hsame
    exact .pure (hq m (.refl _ _) (holds_of_samePlace hsrc hk hsame))
  · have hdirect : (dst.isMem = true → isLegalSource dst src = true) →
        Does A (emitAssign dst.kind dst src) μ m fun a _ m' => Q a μ m' := by
      intro hleg
      exact does_assign hd.occupies hsrc hk hleg fun m' hk' hh' => hq m' (hk'.mono Set.subset_union_right) hh'
    cases hsrc with
    | const => exact .releasing (does_storeConst hd hk hq)
    | reg hkc hg hv =>
      refine .releasing ?_
      dsimp only
      rw [if_neg (by simp [Expr.isMem]), if_neg (by simp [Expr.isLabel])]
      exact hdirect fun _ => by simp [isLegalSource, Expr.isMem]
    | mem hkc hv =>
      refine .releasing ?_
      dsimp only
      split
      · exact does_assignVia hd (.mem hkc hv) hk fun _ => hq
      · rename_i hno
        rw [if_neg (by simp [Expr.isLabel])]
        exact hdirect fun hmem => absurd (by rw [hmem]; rfl) hno

/-- A move to a register takes no temporary. -/
theorem does_movReg {Q : Unit → Mark → Machine → Prop} {r : Reg} (hd : Occupies m (.reg r) T) (hsrc : m.Holds c src)
    (hk : r.kind = c.kind) (hq : ∀ m', Keeps T m m' → m'.Holds c (.reg r) → Q () μ m') :
    Does A (mov (.reg r) src) μ m Q := by
  have hassign : Does A (emitAssign (Expr.reg r).kind (.reg r) src) μ m fun a _ m' => Q a μ m' := by
    refine does_assign hd hsrc hk ?_ hq
    rintro ⟨⟩
  unfold mov
  split
  · rename_i hsame
    exact .pure (hq m (.refl _ _) (holds_of_samePlace hsrc hk hsame))
  · cases hsrc with
    | const =>
      refine .releasing ?_
      dsimp only
      rw [storeConst, if_neg (by simp [Expr.isMem])]
      exact .releasing hassign
    | reg hkc hg hv | mem hkc hv =>
      refine .releasing ?_
      dsimp only
      rw [if_neg (by simp [Expr.isMem]), if_neg (by simp [Expr.isMem])]
      exact hassign

theorem does_toRegister {Q : Reg → Mark → Machine → Prop} (hv : Avail A μ m c v) (hsc : c.kind.isScalar = true)
    (hq : ∀ r ν m', μ ≤ ν → Keeps (A.free μ) m m' → Avail A ν m' c (.reg r) → Q r ν m') :
    Does A (toRegister v) μ m Q := by
  have hvia : ∀ {p : Purpose}, v.kind.isVoid = false → Does A (do
      let t ← Lower.scratch (if v.kind.isVoid then .ptr else v.kind) p
      mov (.reg t) v
      return t) μ m Q := by
    intro p hvoid
    rw [if_neg (by simp [hvoid]), hv.holds.kind]
    refine .bind (.scratch hsc fun r ν hle hfree hr => .bind (does_mov (hr m) hv.holds rfl fun m' hk hh => .pure ?_))
    refine hq _ ν m' hle (hk.mono ?_) ((hr m').avail hh)
    exact Set.union_subset (Activation.free_anti hle) (Set.singleton_subset_iff.2 hfree)
  have hvoid : v.kind.isVoid = false := by
    rw [hv.holds.kind]
    cases h : c.kind <;> rw [h] at hsc <;> first | rfl | cases hsc
  unfold toRegister
  have hh := hv.holds
  cases hh with
  | const => exact hvia hvoid
  | reg hk hg hval => exact .pure (hq _ μ m le_rfl (.refl _ _) hv)
  | mem hk hval => exact hvia hvoid

/-- An operand that can stand against `dst` in an instruction. -/
theorem does_legalSource {Q : Expr → Mark → Machine → Prop} (hv : Avail A μ m c v) (hsc : c.kind.isScalar = true)
    (hq : ∀ v' ν m', μ ≤ ν → Keeps (A.free μ) m m' → Avail A ν m' c v' → isLegalSource dst v' = true → Q v' ν m') :
    Does A (legalSource dst v) μ m Q := by
  unfold legalSource
  split
  · rename_i hleg
    exact .pure (hq v μ m le_rfl (.refl _ _) hv hleg)
  · refine .bind (does_toRegister hv hsc fun r ν m' hle hk ha => .pure (hq _ ν m' hle hk ha ?_))
    simp [isLegalSource, Expr.isMem]

/-- Once the operand is there, the destination is as it was, and the rest of the code may still use what is free. -/
theorem does_operand {Q : Unit → Mark → Machine → Prop} {y : Lower Expr} {k : Expr → Lower Unit} [Steady A.frame y]
    {r : Const} (hd : Dest A μ m dst T) (hy : Yields A P lit d y) (hm : P m)
    (hq : ∀ ν m', Keeps (A.free μ ∪ T) m m' → m'.Holds r dst → Q () ν m')
    (h : ∀ v ν m₁, Avail A ν m₁ d v → v.isConst = lit → Dest A ν m₁ dst T → (∀ c, m.Holds c dst → m₁.Holds c dst) →
      (∀ ν' m', Keeps (A.free ν ∪ T) m₁ m' → m'.Holds r dst → Q () ν' m') → Does A (k v) ν m₁ Q)
    (hk : ∀ v, Grows A.frame (k v)) : Does A (y >>= k) μ m Q := by
  refine .bind_of (hy hm fun v ν m₁ hle hk₁ hv hlit => ?_) hk
  have hk₁' : Keeps (A.free μ ∪ T) m m₁ := hk₁.mono Set.subset_union_left
  refine h v ν m₁ hv hlit ((hd.keeps hk₁').mono hle) (fun c hc => ((hd.avail hc).keeps hk₁).holds) ?_
  intro ν' m' hk₂ hh₂
  exact hq ν' m' (hk₁'.trans (hk₂.mono (Set.union_subset_union_left T (Activation.free_anti hle)))) hh₂

/-! ## Casts -/

/-- The low bytes of an operand are the narrower value. -/
theorem holds_atKind {k : Kind} (hw : k.isWord = true) (hle : k.size ≤ c.kind.size) (hv : m.Holds c v)
    (hconst : v.isConst = false) : m.Holds (.ofBits k c.re 0) (atKind k v) := by
  cases hv with
  | const => cases hconst
  | @reg k' h ro hk hg hval =>
    subst hk
    refine .reg rfl hg ?_
    rw [Const.low_re_ofBits hw, ← low_low_of_le hle, hval, low_low_of_le hle]
  | @mem k' ro a hk hval =>
    subst hk
    refine .mem rfl ?_
    rw [Const.low_re_ofBits hw, ← Memory.low_read _ _ hle, hval, low_low_of_le hle]

/-- An assignment to a register that extends a narrower operand. -/
theorem does_extend {Q : Unit → Mark → Machine → Prop} {k : Kind} (hd : Occupies m dst T) (hreg : dst.isReg = true)
    (hk : dst.kind = k) (hw : k.isWord = true) (hlt : c.kind.size < k.size) (hsc : c.kind.isScalar = true)
    (hcan : c.Canonical) (hv : m.Holds c v)
    (hq : ∀ m', Keeps T m m' → m'.Holds (.ofBits k c.re 0) dst → Q () μ m') :
    Does A (emitAssign k dst (.unary .cast k v)) μ m Q := by
  obtain ⟨o, ho, hread⟩ := hv.operand hsc
  obtain ⟨o', m', ho', hwr, -, hkeep, hhold⟩ := hd.write
    (if c.kind.isSigned then sext c.kind.size (low c.kind.size c.re) else low c.kind.size c.re)
  have hval : low k.size (Const.ofBits k c.re 0).re =
      low k.size (if c.kind.isSigned then sext c.kind.size (low c.kind.size c.re) else low c.kind.size c.re) := by
    rw [Const.low_re_ofBits hw, sext_low, ← Const.re_eq_extend hsc hcan]
  subst hk
  cases hd with
  | mem => cases hreg
  | @reg k h ro hkd hg =>
    rw [operand?_reg hg] at ho'
    cases ho'
    have hexec : (Instr.extend k.size h c.kind.size c.kind.isSigned o).exec m = some m' := by
      simp only [Instr.exec, hread, Option.bind_eq_bind, Option.bind_some]
      exact hwr
    refine .emit (step_of_denote ?_ (foldlM_single hexec)) (hq m' hkeep (hhold _ rfl hval))
    have hsize := size?_of_isScalar hkd
    have hsize' := size?_of_isScalar hsc
    simp only [Expr.kind] at hlt hw ⊢
    simp [denote, denoteAssign, operand?_reg hg, ho, hv.kind, hsize, hsize', show ¬k.size ≤ c.kind.size by omega]

theorem does_widen {Q : Unit → Mark → Machine → Prop} {k : Kind} (hd : Dest A μ m dst T) (hk : dst.kind = k)
    (hw : k.isWord = true) (hlt : c.kind.size < k.size) (hsc : c.kind.isScalar = true) (hcan : c.Canonical)
    (hv : m.Holds c v) (hq : ∀ ν m', Keeps (A.free μ ∪ T) m m' → m'.Holds (.ofBits k c.re 0) dst → Q () ν m') :
    Does A (widen dst k v) μ m Q := by
  have hlabel : v.isLabel = false := by cases hv <;> rfl
  unfold widen
  simp only [hlabel, Bool.false_eq_true, if_false, pure_bind]
  split
  · rename_i hreg
    exact does_extend hd.occupies hreg hk hw hlt hsc hcan hv fun m' hk' => hq μ m' (hk'.mono Set.subset_union_right)
  · refine .bind (.scratch (Kind.isScalar_of_isWord hw) fun r ν hle hfree hr => ?_)
    refine .bind (does_extend (hr m).occupies rfl rfl hw hlt hsc hcan hv fun m₁ hk₁ hh₁ => ?_)
    have hk₁' : Keeps (A.free μ ∪ T) m m₁ := hk₁.mono (Set.singleton_subset_iff.2 (.inl hfree))
    refine does_mov ((hd.keeps hk₁').mono hle) hh₁ hk fun m' hk₂ => hq ν m' (hk₁'.trans (hk₂.mono ?_))
    exact Set.union_subset_union_left T (Activation.free_anti hle)

theorem does_castInto {Q : Unit → Mark → Machine → Prop} {k : Kind} {x : Lower Expr} [Steady A.frame x]
    (hd : Dest A μ m dst T) (hk : dst.kind = k) (hw : k.isWord = true) (hsc : c.kind.isScalar = true) (hcan : c.Canonical)
    (hx : Yields A P lit c x) (hm : P m)
    (hq : ∀ ν m', Keeps (A.free μ ∪ T) m m' → m'.Holds (.ofBits k c.re 0) dst → Q () ν m') :
    Does A (castInto dst c.kind k x) μ m Q := by
  unfold castInto
  refine does_operand hd hx hm hq (fun v ν m₁ hv _ hd₁ _ hfinal => ?_) (fun v => by split <;> infer_instance)
  -- a computed operand is narrowed by its place or extended by an instruction
  have hcomputed : v.isConst = false →
      Does A (if k.size ≤ c.kind.size then mov dst (atKind k v) else widen dst k v) ν m₁ Q := by
    intro hconst
    split
    · rename_i hnarrow
      exact does_mov hd₁ (holds_atKind hw hnarrow hv.holds hconst) hk (hfinal ν)
    · rename_i hwide
      exact does_widen hd₁ hk hw (by omega) hsc hcan hv.holds hfinal
  cases hv.holds with
  | const =>
    refine .bind (.lift fun d hd' => ?_)
    rw [Const.convert_of_isWord hsc hw] at hd'
    cases hd'
    exact does_storeConst hd₁ hk (hfinal ν)
  | reg => exact hcomputed rfl
  | mem => exact hcomputed rfl

end

end JitBackend.Amd64
