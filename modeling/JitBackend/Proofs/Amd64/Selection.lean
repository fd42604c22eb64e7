import JitBackend.Proofs.Amd64.Views

/-!
# Selection of expressions

What the code of a plain expression does in a machine that shows a store: `value` leaves an operand with the value of
the expression, `into` leaves in a place the value that is computed there (`Expr.inPlace`), `addTerm` adds the value to
the terms of an address, and `flags` compares. The four are proved together, by induction on the expression, since each
calls the others on operands.
-/

namespace JitBackend.Amd64

open Lower

/-- Every register of the expression is live. -/
def View.Covers {A : Activation} (V : View A) (e : Expr) : Prop := ∀ r ∈ e.regs, V.live r

/-- `value` gives an operand with the value of the expression. -/
def HasValue (A : Activation) (e : Expr) : Prop := ∀ ⦃V : View A⦄ ⦃σ : Store⦄ ⦃c : Const⦄, V.Covers e →
  e.eval V.readable σ = some c → Yields A (V.Shows σ) e.isConst c (value e)

/-- `into` leaves the value that is computed in a place. -/
def Computes (A : Activation) (e : Expr) : Prop := ∀ ⦃V : View A⦄ ⦃σ : Store⦄ ⦃after : Const → Store⦄ ⦃dst : Expr⦄
  ⦃T : Set Cell⦄ ⦃origin : Option Expr⦄ ⦃μ : Mark⦄ ⦃m : Machine⦄ ⦃c : Const⦄ ⦃Q : Unit → Mark → Machine → Prop⦄,
  Sink V σ after dst T → Dest A μ m dst T → V.Shows σ m → dst.kind = e.kind → V.Covers e →
  (∀ x v, origin = some x → x.eval V.readable σ = some v → m.Holds v dst) →
  e.inPlace V.readable after origin σ = some c →
  (∀ ν m', μ ≤ ν → Keeps (A.free μ ∪ T) m m' → m'.Holds c dst → Q () ν m') → Does A (into dst e origin) μ m Q

/-- `addTerm` adds the value of the expression. -/
def IsTerm (A : Activation) (e : Expr) : Prop := ∀ ⦃V : View A⦄ ⦃σ : Store⦄ ⦃c : Const⦄, V.Covers e →
  e.eval V.readable σ = some c → c.kind.size = 4 ∨ c.kind.size = 8 → ∀ t : Terms, t.narrow = (c.kind.size == 4) →
    Adds A (V.Shows σ) c.kind.size c.re t (addTerm t e)

/-- `flags` leaves flags that tell how the values compare. -/
def Compares (A : Activation) (x y : Expr) : Prop := ∀ ⦃V : View A⦄ ⦃σ : Store⦄ ⦃c d : Const⦄ ⦃op : CompareOp⦄ ⦃b : Bool⦄
  ⦃μ : Mark⦄ ⦃m : Machine⦄ ⦃Q : Cond → Mark → Machine → Prop⦄, V.Covers x → V.Covers y → x.eval V.readable σ = some c →
  y.eval V.readable σ = some d → Const.compare op c d = .ok b → V.Shows σ m →
  (∀ cc m' f, Keeps (A.free μ) m m' → m'.flags = some f → f.holds cc = b → Q cc μ m') → Does A (flags op x y) μ m Q

/-- What selection does with an expression. -/
structure Selects (A : Activation) (e : Expr) : Prop where
  value : HasValue A e
  into : Computes A e
  term : IsTerm A e
  flags : ∀ {y}, Plain A.frame y → y.kind = e.kind → HasValue A y → Compares A e y

section Operands

variable {A : Activation} {e x y : Expr}

/-- An operation is computed into a temporary. -/
theorem hasValue_of_computes (h : Plain A.frame e) (hconst : e.isConst = false)
    (hv : value e = do let t ← temp e.kind (.value e); into t e none; return t) (hi : Computes A e) : HasValue A e := by
  intro V σ c hcov hc μ m Q hm hq
  have := (h.tidy A.regs_eq).into
  rw [hv]
  refine .bind (.temp h.isScalar fun t ν T hle htk hT hdest => .bind ?_)
  have hd := hdest m hm.sp
  have hin : e.inPlace V.readable (fun _ => σ) none σ = some c := by
    rw [Expr.inPlace_of_eq V.readable (fun _ => rfl)]
    exact hc
  refine hi (Sink.temp hT) hd hm htk hcov (by rintro x v ⟨⟩) hin fun ν' m' hle' hk' hh' => .pure ?_
  refine hq t ν' m' (hle.trans hle') (hk'.mono (Set.union_subset (Activation.free_anti hle) hT))
    (((hd.keeps hk').avail hh').mono hle') ?_
  rw [hconst]
  exact hd.occupies.isConst

/-- An operand is moved to its place. -/
theorem computes_of_hasValue (h : Plain A.frame e) (hv : HasValue A e)
    (hi : ∀ dst origin, into dst e origin = releasing (do let v ← value e; mov dst v))
    (hin : ∀ {readable after origin σ}, e.inPlace readable after origin σ = e.eval readable σ) : Computes A e := by
  intro V σ after dst T origin μ m c Q hs hd hm hdk hcov ho hc hq
  have := (h.tidy A.regs_eq).value
  rw [hin] at hc
  rw [hi]
  refine .releasing (does_operand hd (hv hcov hc) hm (fun _ m' => hq μ m' le_rfl) (fun v ν m₁ hv' _ hd₁ _ hfinal => ?_)
    fun _ => inferInstance)
  exact does_mov hd₁ hv'.holds (hdk.trans (h.eval_kind hc).1.symm) (hfinal ν)

theorem isTerm_of_hasValue (h : Plain A.frame e) (hv : HasValue A e) (hterm : ∀ t, addTerm t e = addOpaque t e) :
    IsTerm A e := by
  intro V σ c hcov hc _ t _
  rw [hterm]
  exact adds_opaque (V.stable σ) (h.tidy A.regs_eq) (hv hcov hc) (by rw [(h.eval_kind hc).1]; exact h.isScalar)

/-- A constant with the value zero is the zero of its kind. -/
theorem eq_zero_of_isZero {c : Const} (hk : c.kind.isScalar = true) (hc : c.Canonical) (h0 : c.isZero = true) :
    c = Const.zero c.kind := by
  unfold Const.isZero at h0
  rw [Kind.not_isFloat_of_isScalar hk, Kind.not_isComplex_of_isScalar hk] at h0
  have hre : c.re = 0 := by simpa using h0
  have hcan : Const.ofBits c.kind c.re c.im = c := hc
  rw [← hcan, hre]
  simp only [Const.zero, Const.ofBits, Kind.not_isComplex_of_isScalar hk, Bool.false_eq_true, if_false]

/-- Comparisons by their operands; a conjunction compared with zero is tested by its own operands. -/
theorem compares_of_hasValue (hx : Plain A.frame x) (hy : Plain A.frame y) (hk : y.kind = x.kind) (hvx : HasValue A x)
    (hvy : HasValue A y) (hand : ∀ k a b, x = .binary (.arith .and) k a b →
      k = a.kind ∧ Expr.arithAdmits .and a.kind b.kind = true ∧ Plain A.frame a ∧ Plain A.frame b ∧
        HasValue A a ∧ HasValue A b) : Compares A x y := by
  intro V σ c d op b μ m Q hcx hcy hc hd hb hm hq
  have hxt := (hx.tidy A.regs_eq).value
  have hyt := (hy.tidy A.regs_eq).value
  obtain ⟨hck, hcc⟩ := hx.eval_kind hc
  obtain ⟨hdk, hdc⟩ := hy.eval_kind hd
  have hsc : c.kind.isScalar = true := hck ▸ hx.isScalar
  unfold flags
  dsimp only
  rw [← hck]
  split
  · rename_i hzero
    simp only [Bool.and_eq_true] at hzero
    obtain ⟨hop, hzero⟩ := hzero
    obtain rfl : d = Const.zero c.kind := by
      cases hy with
      | const hky hcy' =>
        cases hd
        rw [hck, ← hk]
        exact eq_zero_of_isZero hky hcy' hzero
      | _ => cases hzero
    split
    · rename_i k a a'
      obtain ⟨rfl, hadm, ha, ha', hva, hva'⟩ := hand _ _ _ rfl
      have := (ha.tidy A.regs_eq).value
      have := (ha'.tidy A.regs_eq).value
      simp only [Expr.eval, Option.bind_eq_some_iff] at hc
      obtain ⟨v, hv, w, hw, har⟩ := hc
      obtain ⟨hvk, -⟩ := ha.eval_kind hv
      obtain ⟨hwk, -⟩ := ha'.eval_kind hw
      have hak : a'.kind = a.kind := kind_eq_of_admits (by decide) (by decide) hadm
      have hword : v.kind.isWord = true := by rw [hvk]; exact isWord_of_admits ha.isScalar hadm
      have hlow : low c.kind.size c.re = low c.kind.size (v.re &&& w.re) := by
        obtain ⟨_, hand', rfl⟩ := Const.arith_of_isWord hword (by decide) (by decide) (arith_of_arith? har)
        cases hand'
        exact Const.low_re_ofBits hword _
      have hcv : c.kind = v.kind := hck.trans hvk.symm
      refine .releasing (.bind ?_)
      rw [hvk.symm]
      exact does_testBits hop (V.stable σ) hm (hva (fun r hr => hcx r (List.mem_append_left _ hr)) hv)
        (hva' (fun r hr => hcx r (List.mem_append_right _ hr)) hw) (hcv ▸ hsc) (hwk.trans (hak.trans hvk.symm))
        hcc hcv hlow hb
        fun ν m' f hk' hf hh => .pure (hq _ m' f hk' hf hh)
    · refine .releasing (.bind (hvx hcx hc hm fun v ν m₁ hle hk₁ hv _ => .bind ?_))
      rw [← hck]
      refine does_testZero hop hv hsc hcc hb fun ν' m' f hk₂ hf hh => .pure (hq _ m' f ?_ hf hh)
      exact hk₁.trans (hk₂.mono (Activation.free_anti hle))
  · exact .releasing (does_compareFlags (V.stable σ) hm (hvx hcx hc) (hvy hcy hd) hsc (hdk.trans (hk.trans hck.symm)) hcc hdc
      hb fun cc _ m' f => hq cc m' f)

end Operands

/-! ## Leaves -/

section Leaves

variable {A : Activation} {a e x y : Expr}

theorem selects_const {c : Const} (h : Plain A.frame (.const c)) : Selects A (.const c) := by
  have hv : HasValue A (.const c) := by
    intro V σ d _ hc μ m Q hm hq
    cases hc
    rw [value]
    exact .pure (hq _ μ m le_rfl (.refl _ _) ⟨.const, by simp [Machine.cells]⟩ rfl)
  refine ⟨hv, ?_, ?_, fun hy hk hvy => compares_of_hasValue h hy hk hv hvy (by rintro k a b ⟨⟩)⟩
  · intro V σ after dst T origin μ m d Q hs hd hm hdk hcov ho hc hq
    rw [Expr.inPlace] at hc
    · cases hc
      rw [into]
      exact does_storeConst hd hdk fun m' => hq μ m' le_rfl
    all_goals simp
  · intro V σ d _ hc hn t _
    cases hc
    exact adds_const h.isScalar hn

theorem selects_reg {r : Reg} (h : Plain A.frame (.reg r)) : Selects A (.reg r) := by
  have hv : HasValue A (.reg r) := by
    intro V σ d hcov hc μ m Q hm hq
    cases hc
    have hr : V.live r := hcov r (by simp [Expr.regs])
    rw [value]
    refine .resolve fun p hp => hq p μ m le_rfl (.refl _ _) ⟨hm.regs hr hp, (V.placed hr).stable hp hm.sp⟩ ?_
    cases V.placed hr with
    | reg g hmem he =>
      cases he.symm.trans hp
      rfl
    | slot o hle he =>
      cases he.symm.trans hp
      rfl
  refine ⟨hv, computes_of_hasValue h hv ?_ ?_, isTerm_of_hasValue h hv fun t => by rw [addTerm]; all_goals simp,
    fun hy hk hvy => compares_of_hasValue h hy hk hv hvy (by rintro k a b ⟨⟩)⟩
  · intro dst origin
    rw [into, value]
  · intro readable after origin σ
    rw [Expr.inPlace]
    all_goals simp

theorem selects_mem {k : Kind} {ro : Bool} (hk : k.isScalar = true) (hp : a.kind = .ptr) (ha : Plain A.frame a)
    (hs : Selects A a) : Selects A (.mem k ro a) := by
  have h : Plain A.frame (.mem k ro a) := .mem ro hk hp ha
  have hta := ha.tidy A.regs_eq
  have hv : HasValue A (.mem k ro a) := by
    intro V σ d hcov hc μ m Q hm hq
    simp only [Expr.eval, Option.bind_eq_some_iff] at hc
    obtain ⟨p, hpe, hload⟩ := hc
    have hpk : p.kind = .ptr := (ha.eval_kind hpe).1.trans hp
    have := steady_address A.regs_eq hta
    have hadds : ∀ t : Terms, t.narrow = false → Adds A (V.Shows σ) 8 p.re t (addTerm t a) := by
      intro t ht
      have h8 : p.kind.size = 8 := by rw [hpk]; rfl
      rw [← h8]
      exact hs.term hcov hpe (.inr h8) t (by rw [h8, ht]; rfl)
    rw [value]
    refine .bind (does_address hta hp hadds hm fun mode ν m' hle hregs hk' haddr => .pure ?_)
    have hm' := V.stable σ hm hk'
    obtain ⟨hdk, hread, hdisj⟩ := hm'.load (μ := ν) hk hload
    refine hq _ ν m' hle hk' ⟨.mem hdk.symm (by rw [haddr]; exact hread), ?_⟩ rfl
    rw [Machine.cells, Set.disjoint_union_left, haddr]
    refine ⟨Set.disjoint_left.2 ?_, hdisj⟩
    rintro _ ⟨r, hr, rfl⟩
    exact Activation.not_free_of_owned (hregs r hr)
  refine ⟨hv, computes_of_hasValue h hv ?_ ?_, isTerm_of_hasValue h hv fun t => by rw [addTerm]; all_goals simp,
    fun hy hk hvy => compares_of_hasValue h hy hk hv hvy (by rintro k a b ⟨⟩)⟩
  · intro dst origin
    rw [into, value, bind_assoc]
    simp only [pure_bind]
  · intro readable after origin σ
    rw [Expr.inPlace]
    all_goals simp

end Leaves

/-! ## One operand -/

section Unary

variable {A : Activation} {e x y : Expr}

/-- An operation that is a single term of an address. -/
theorem selects_of_computes (h : Plain A.frame e) (hi : Computes A e) (hconst : e.isConst = false)
    (hv : value e = do let t ← temp e.kind (.value e); into t e none; return t)
    (hterm : ∀ t, addTerm t e = addOpaque t e) (hand : ∀ k a b, e ≠ .binary (.arith .and) k a b) : Selects A e :=
  have hval := hasValue_of_computes h hconst hv hi
  ⟨hval, hi, isTerm_of_hasValue h hval hterm, fun hy hk hvy =>
    compares_of_hasValue h hy hk hval hvy fun k a b he => absurd he (hand k a b)⟩

/-- An operation on the value that its operand leaves in the place. -/
theorem computes_unary {op : UnaryOp} {k : Kind} (g : Const → Const) (emitOp : Expr → Lower Unit) (hx : Plain A.frame x)
    (hs : Selects A x) (hk : x.kind = k) [∀ p, Steady A.frame (emitOp p)]
    (hinto : ∀ dst origin, dst.kind = k → into dst (.unary op k x) origin = do into dst x none; emitOp dst)
    (hin : ∀ {readable after origin σ}, (Expr.unary op k x).inPlace readable after origin σ =
      (x.inPlace readable after none σ).map g)
    (hop : ∀ {μ m dst T c} {Q : Unit → Mark → Machine → Prop}, Occupies m dst T → m.Holds c dst → c.kind = k → c.Canonical →
      (∀ m', Keeps T m m' → m'.Holds (g c) dst → Q () μ m') → Does A (emitOp dst) μ m Q) :
    Computes A (.unary op k x) := by
  intro V σ after dst T origin μ m c Q hsink hd hm hdk hcov ho hc hq
  have := (hx.tidy A.regs_eq).into
  rw [hin, Option.map_eq_some_iff] at hc
  obtain ⟨d, hd', rfl⟩ := hc
  obtain ⟨hdk', hdc⟩ := hx.inPlace_kind hd'
  rw [hinto dst origin hdk]
  refine .bind (hs.into hsink hd hm (hdk.trans hk.symm) hcov (by rintro x v ⟨⟩) hd' fun ν m₁ hle hk₁ hh₁ => ?_)
  refine hop (hd.keeps hk₁).occupies hh₁ (hdk'.trans hk) hdc fun m' hk' hh' => ?_
  exact hq ν m' hle (hk₁.trans (hk'.mono Set.subset_union_right)) hh'

theorem selects_neg (hk : x.kind.isWord = true) (hx : Plain A.frame x) (hs : Selects A x) :
    Selects A (.unary .neg x.kind x) := by
  refine selects_of_computes (.neg hk hx) ?_ rfl (by rw [value]; all_goals simp) (fun t => by rw [addTerm]; all_goals simp)
    (by rintro k a b ⟨⟩)
  refine computes_unary Const.neg (fun p => emitAssign p.kind p (.unary .neg p.kind p)) hx hs rfl ?_ ?_ ?_
  · intro dst origin hdk
    rw [into, if_pos hk, hdk]
  · intro readable after origin σ
    rw [Expr.inPlace]
  · intro μ m dst T c Q hd hc hck _ hq
    refine does_neg hd hc (hck ▸ hk) fun m' hk' hh' => hq m' hk' ?_
    rw [Const.neg_of_isWord (hck ▸ hk)]
    exact hh'

theorem selects_inv (hk : x.kind.isWord = true) (hx : Plain A.frame x) (hs : Selects A x) :
    Selects A (.unary .inv x.kind x) := by
  refine selects_of_computes (.inv hk hx) ?_ rfl (by rw [value]; all_goals simp) (fun t => by rw [addTerm]; all_goals simp)
    (by rintro k a b ⟨⟩)
  refine computes_unary Const.inv (fun p => emitAssign p.kind p (.unary .inv p.kind p)) hx hs rfl ?_ ?_ ?_
  · intro dst origin hdk
    rw [into, if_pos hk, hdk]
  · intro readable after origin σ
    rw [Expr.inPlace]
  · intro μ m dst T c Q hd hc hck _ hq
    exact does_inv hd hc (hck ▸ hk) hq

theorem selects_lnot (hk : x.kind = .bool) (hx : Plain A.frame x) (hs : Selects A x) :
    Selects A (.unary .lnot .bool x) := by
  refine selects_of_computes (.lnot hk hx) ?_ rfl (by rw [value]; all_goals simp) (fun t => by rw [addTerm]; all_goals simp)
    (by rintro k a b ⟨⟩)
  refine computes_unary Const.lnot (fun p => emit (.binary (.compound .xor) .bool p (.const (Const.bool true)))) hx hs hk
    ?_ ?_ ?_
  · intro dst origin _
    rw [into]
  · intro readable after origin σ
    rw [Expr.inPlace]
  · intro μ m dst T c Q hd hc hck hcc hq
    exact does_lnot hd hc hck hcc hq

theorem selects_cast {k : Kind} (hk : k.isWord = true) (hx : Plain A.frame x) (hs : Selects A x) :
    Selects A (.unary .cast k x) := by
  have h : Plain A.frame (.unary .cast k x) := .cast hk hx
  have := (hx.tidy A.regs_eq).value
  -- the value of a cast is that of its operand, cut or extended
  have hvalue : ∀ {readable : Word → Bool} {σ c}, (Expr.unary .cast k x).eval readable σ = some c →
      ∃ d, x.eval readable σ = some d ∧ d.kind = x.kind ∧ d.Canonical ∧ c = .ofBits k d.re 0 := by
    intro readable σ c hc
    simp only [Expr.eval, Option.bind_eq_some_iff] at hc
    obtain ⟨d, hd, hc⟩ := hc
    obtain ⟨hdk, hdc⟩ := hx.eval_kind hd
    rw [Const.convert_of_isWord (by rw [hdk]; exact hx.isScalar) hk] at hc
    cases hc
    exact ⟨d, hd, hdk, hdc, rfl⟩
  have hi : Computes A (.unary .cast k x) := by
    intro V σ after dst T origin μ m c Q hsink hd hm hdk hcov ho hc hq
    rw [Expr.inPlace] at hc
    · obtain ⟨d, hd', hdk', hdc, rfl⟩ := hvalue hc
      rw [into, if_pos (by simp [hx.isScalar, Kind.isScalar_of_isWord hk]), ← hdk']
      exact .releasing (does_castInto hd hdk hk (hdk' ▸ hx.isScalar) hdc (hs.value hcov hd') hm fun _ m' => hq μ m' le_rfl)
    all_goals simp
  have hval : value (.unary .cast k x) = do
      let t ← temp (Expr.unary .cast k x).kind (.value (.unary .cast k x))
      into t (.unary .cast k x) none
      return t := by
    rw [value]
    all_goals simp
  have hv := hasValue_of_computes h rfl hval hi
  refine ⟨hv, hi, ?_, fun hy hk hvy => compares_of_hasValue h hy hk hv hvy (by rintro k a b ⟨⟩)⟩
  intro V σ c hcov hc hn t ht
  rw [addTerm]
  split
  · -- eight bytes are taken as they are
    rename_i hkeep
    simp only [keepsWord, Bool.and_eq_true, beq_iff_eq] at hkeep
    obtain ⟨⟨⟨-, hk8⟩, hxw⟩, hx8⟩ := hkeep
    obtain ⟨d, hd, hdk, hdc, rfl⟩ := hvalue hc
    have hre : (Const.ofBits k d.re 0).re = d.re := by
      have hlow := Const.low_re_ofBits hk d.re
      rwa [hk8, low_eight, low_eight] at hlow
    have hsize : (Const.ofBits k d.re 0).kind.size = d.kind.size := by rw [hdk, hx8]; exact hk8
    rw [hre, hsize]
    rw [hsize] at hn ht
    exact hs.term hcov hd hn t ht
  · exact adds_opaque (V.stable σ) (h.tidy A.regs_eq) (hv hcov hc) (by rw [(h.eval_kind hc).1]; exact h.isScalar)

/-! ## Comparisons -/

theorem selects_compare {op : CompareOp} (hk : x.kind = y.kind) (hx : Plain A.frame x) (hy : Plain A.frame y)
    (hsx : Selects A x) (hsy : Selects A y) : Selects A (.binary (.compare op) .bool x y) := by
  have := (hx.tidy A.regs_eq).flags op y (hy.tidy A.regs_eq).value
  refine selects_of_computes (.compare op hk hx hy) ?_ rfl (by rw [value]; all_goals simp)
    (fun t => by rw [addTerm]; all_goals simp) (by rintro k a b ⟨⟩)
  intro V σ after dst T origin μ m c Q hsink hd hm hdk hcov ho hc hq
  rw [Expr.inPlace] at hc
  · simp only [Expr.eval, Option.bind_eq_some_iff, Option.map_eq_some_iff] at hc
    obtain ⟨a, ha, b, hb, r, hr, rfl⟩ := hc
    rw [into, if_pos hx.isScalar]
    refine .bind (hsx.flags hy hk.symm hsy.value (fun r hr => hcov r (List.mem_append_left _ hr))
      (fun r hr => hcov r (List.mem_append_right _ hr)) ha hb (eq_ok_of_toOption hr) hm fun cc m₁ f hk₁ hf hh => ?_)
    have hk₁' : Keeps (A.free μ ∪ T) m m₁ := hk₁.mono Set.subset_union_left
    refine does_setcc (hd.keeps hk₁').occupies hdk hf fun m' hk' hh' => hq μ m' le_rfl (hk₁'.trans (hk'.mono ?_)) ?_
    · exact Set.subset_union_right
    · rw [← hh]
      exact hh'
  all_goals simp

end Unary

end JitBackend.Amd64
