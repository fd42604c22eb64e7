import JitBackend.Proofs.Amd64.Selection

/-!
# Selection of binary operations

Arithmetic is computed in the destination, or next to it where the right operand still needs what is there; a logical
operation jumps over its right operand. With them, selection is correct for every plain expression (`Plain.selects`).
-/

namespace JitBackend.Amd64

open Lower

/-! ## Arithmetic -/

section Arithmetic

variable {A : Activation} {V : View A} {σ : Store} {after : Const → Store} {dst x y : Expr} {T : Set Cell} {μ : Mark}
  {m : Machine} {origin : Option Expr} {c d r : Const} {op : ArithOp} {lit lit' : Bool}

theorem samePlace_comm (a b : Expr) : samePlace a b = samePlace b a := by
  cases a <;> cases b <;> simp only [samePlace, Bool.beq_comm]

/-- An operand that is the destination already: its value is there, and the operation takes it from there. -/
theorem Sink.holds_of_isPlace (hs : Sink V σ after dst T) (hm : V.Shows σ m) (hx : Plain A.frame x) (hcov : V.Covers x)
    (hk : dst.kind = x.kind) (ho : ∀ x v, origin = some x → x.eval V.readable σ = some v → m.Holds v dst)
    (hp : isPlace A.frame x dst origin = .ok true) :
    (origin = some x ∨ ∀ c, after c = σ) ∧ ∀ {v}, x.eval V.readable σ = some v → m.Holds v dst := by
  obtain ⟨b, hb, htrue, -⟩ := @isPlace_eq_ok A.frame x dst origin hx
  cases hp.symm.trans hb
  rcases htrue rfl with horigin | ⟨r, p, rfl, hres, hsame⟩
  · exact ⟨.inl horigin, ho x _ horigin⟩
  have hlive : V.live r := hcov r (by simp [Expr.regs])
  rcases hs.origin with hl | ⟨-, hsep⟩
  · refine ⟨.inr hl, ?_⟩
    rintro v ⟨⟩
    exact holds_of_samePlace (hm.regs hlive hres) hk (by rwa [samePlace_comm])
  · rw [hsep r p hlive hres] at hsame
    cases hsame

theorem arith?_comm (hw : c.kind.isWord = true) (hk : d.kind = c.kind) (hop : op.isCommutative = true)
    (h : Const.arith? lit op c d = some r) : Const.arith? lit' op d c = some r := by
  have hfaults : ∀ {lit c d}, Const.faults lit op c d = false := by
    intro lit c d
    cases op <;> cases hop <;> rfl
  rw [Const.arith?, hfaults, if_neg (by simp)] at h ⊢
  rw [Const.arith_comm hw hk hop]
  exact h

/-- The operation on a destination that holds the value of `x`, with the value of `y`. -/
theorem does_operate {Q : Unit → Mark → Machine → Prop} (ha : Expr.arithAdmits op x.kind y.kind = true)
    (hb : x.kind.size = 1 → op ≠ .mul ∧ op ≠ .quo ∧ op ≠ .rem) (hsc : x.kind.isScalar = true) (hy : Plain A.frame y)
    (hsy : Selects A y) (hcov : V.Covers y) (hd : Dest A μ m dst T) (hc : m.Holds c dst) (hck : c.kind = x.kind)
    (hcc : c.Canonical) (hdv : y.eval V.readable σ = some d) (hr : Const.arith? y.isConst op c d = some r)
    (hm : V.Shows σ m) (hq : ∀ m', Keeps (A.free μ ∪ T) m m' → m'.Holds r dst → Q () μ m') :
    Does A (opAssign dst op (value y)) μ m Q := by
  have := (hy.tidy A.regs_eq).value
  obtain ⟨hdk, hdc⟩ := hy.eval_kind hdv
  refine does_opAssign hd hc ?_ hcc hdc ?_ ?_ hr (V.stable σ) (hsy.value hcov hdv) hm hq
  · rw [hck]
    exact isWord_of_admits hsc ha
  · rw [hck, hdk]
    exact ha
  · rw [hck]
    exact hb

/-- The operation computed in the destination, or in a temporary if the right operand still reads the destination. -/
def accumulate (dst : Expr) (k : Kind) (op : ArithOp) (x y : Expr) : Lower Unit := do
  if ← hazard (← read) y dst then releasing do
    let t ← temp k (.note "operand")
    into t x none
    opAssign t op (value y)
    mov dst t
  else
    into dst x none
    opAssign dst op (value y)

theorem arith_eq (dst : Expr) (k : Kind) (op : ArithOp) (x y : Expr) (origin : Option Expr) :
    arith dst k op x y origin = (do
      if ← isPlace (← read) x dst origin then opAssign dst op (value y)
      else if ← (if op.isCommutative then do isPlace (← read) y dst origin else pure false : Lower Bool) then
        opAssign dst op (value x)
      else if ← (if dst.isReg && isAddressLike k op x y then releasing (leaInto dst k op x y) else pure false) then pure ()
      else accumulate dst k op x y) := by
  rw [arith]
  rfl

theorem steady_accumulate (hx : Tidy A.frame x) (hy : Tidy A.frame y) (dst : Expr) (k : Kind) (op : ArithOp) :
    Steady A.frame (accumulate dst k op x y) := by
  have := hx.into
  have := hy.value
  unfold accumulate
  infer_instance

/-- Registers that do not live in the destination stay covered once it holds something else. -/
theorem View.Covers.without (h : V.Covers y) (hno : ¬ReadsPlace A.frame dst y) : (V.without dst).Covers y := by
  refine fun r hr => ⟨h r hr, fun p hp => ?_⟩
  by_contra hsame
  exact hno ⟨r, hr, p, hp, by simpa using hsame⟩

/-- A destination that is read by a register is no memory of the program. -/
theorem Sink.after_eq (hs : Sink V σ after dst T) (hcov : V.Covers y) (h : ReadsPlace A.frame dst y) (c : Const) :
    after c = σ := by
  rcases hs.origin with hl | ⟨-, hsep⟩
  · exact hl c
  · obtain ⟨r, hr, p, hp, hsame⟩ := h
    rw [hsep r p (hcov r hr) hp] at hsame
    cases hsame

/-- With `v` in a place and `w` the value of `y`, the operation leaves `r` in that place. -/
def Operates (A : Activation) (op : ArithOp) (y : Expr) (v w r : Const) : Prop :=
  ∀ {V : View A} {σ : Store} {dst : Expr} {T : Set Cell} {μ : Mark} {m : Machine} {Q : Unit → Mark → Machine → Prop},
    V.Covers y → Dest A μ m dst T → m.Holds v dst → y.eval V.readable σ = some w → V.Shows σ m →
    (∀ m', Keeps (A.free μ ∪ T) m m' → m'.Holds r dst → Q () μ m') → Does A (opAssign dst op (value y)) μ m Q

theorem does_accumulate {Q : Unit → Mark → Machine → Prop} {v w : Const} (hx : Plain A.frame x) (hy : Plain A.frame y)
    (hsx : Selects A x) (hop : Operates A op y v w c) (hsink : Sink V σ after dst T) (hd : Dest A μ m dst T)
    (hm : V.Shows σ m) (hdk : dst.kind = x.kind) (hck : c.kind = x.kind) (hcx : V.Covers x) (hcy : V.Covers y)
    (hv : x.inPlace V.readable after none σ = some v) (hw : y.eval V.readable (after v) = some w)
    (hq : ∀ ν m', μ ≤ ν → Keeps (A.free μ ∪ T) m m' → m'.Holds c dst → Q () ν m') :
    Does A (accumulate dst x.kind op x y) μ m Q := by
  have hxt := hx.tidy A.regs_eq
  have hyt := hy.tidy A.regs_eq
  have := hxt.into
  have := hyt.value
  have hnone : ∀ z v, (none : Option Expr) = some z → z.eval V.readable σ = some v → m.Holds v dst := by rintro z v ⟨⟩
  unfold accumulate
  obtain ⟨b, hhaz, hreads⟩ := hazard_eq_ok hy hd
  refine .bind (.read (.bind (.lift fun b' hb' => ?_)))
  cases hhaz.symm.trans hb'
  cases b with
  | true =>
    have hafter := hsink.after_eq hcy (hreads.1 rfl)
    rw [hafter] at hw
    rw [Expr.inPlace_of_eq V.readable hafter] at hv
    refine .releasing (.bind (.temp hx.isScalar fun t ν S hle htk hS hdest => ?_))
    have hdt := hdest m hm.sp
    refine .bind (hsx.into (Sink.temp hS) hdt hm htk hcx (by rintro z v ⟨⟩)
      ((Expr.inPlace_of_eq V.readable (fun _ => rfl) x none).trans hv) fun ν' m₁ hle' hk₁ hh₁ => ?_)
    have hsub : A.free ν ∪ S ⊆ A.free μ := Set.union_subset (Activation.free_anti hle) hS
    have hsub' : A.free ν' ∪ S ⊆ A.free μ := Set.union_subset (Activation.free_anti (hle.trans hle')) hS
    have hk₁' : Keeps (A.free μ) m m₁ := hk₁.mono hsub
    refine .bind (hop hcy ((hdt.keeps hk₁).mono hle') hh₁ hw (V.stable σ hm hk₁') fun m₂ hk₂ hh₂ => ?_)
    have hk₂' : Keeps (A.free μ ∪ T) m m₂ := (hk₁'.trans (hk₂.mono hsub')).mono Set.subset_union_left
    refine does_mov ((hd.keeps hk₂').mono (hle.trans hle')) hh₂ (hdk.trans hck.symm) fun m' hk₃ hh₃ =>
      hq μ m' le_rfl (hk₂'.trans ?_) hh₃
    exact hk₃.mono (Set.union_subset_union_left T (Activation.free_anti (hle.trans hle')))
  | false =>
    refine .bind (hsx.into hsink hd hm hdk hcx hnone hv fun ν m₁ hle hk₁ hh₁ => ?_)
    have hno : ¬ReadsPlace A.frame dst y := fun h => by simpa using hreads.2 h
    refine hop (hcy.without hno) ((hd.keeps hk₁).mono hle) hh₁ hw (hsink.store (.inl hm) hd hk₁ hh₁) fun m' hk₂ hh₂ =>
      hq ν m' hle (hk₁.trans ?_) hh₂
    exact hk₂.mono (Set.union_subset_union_left T (Activation.free_anti hle))

/-- A sum computed as an address. -/
theorem does_sum {Q : Bool → Mark → Machine → Prop} (ha : Expr.arithAdmits op x.kind y.kind = true) (hx : Plain A.frame x)
    (hy : Plain A.frame y) (hsx : Selects A x) (hsy : Selects A y) (hd : Dest A μ m dst T) (hreg : dst.isReg = true)
    (hm : V.Shows σ m) (hdk : dst.kind = x.kind) (hcx : V.Covers x) (hcy : V.Covers y)
    (hn : x.kind.size = 4 ∨ x.kind.size = 8) (hc : x.eval V.readable σ = some c) (hdv : y.eval V.readable σ = some d)
    (hr : Const.arith? lit op c d = some r) (hno : Q false μ m)
    (hq : ∀ ν m', Keeps (A.free μ ∪ T) m m' → m'.Holds r dst → Q true ν m') :
    Does A (leaInto dst x.kind op x y) μ m Q := by
  obtain ⟨hck, -⟩ := hx.eval_kind hc
  obtain ⟨hdk', -⟩ := hy.eval_kind hdv
  have hw : c.kind.isWord = true := by rw [hck]; exact isWord_of_admits hx.isScalar ha
  have hadm : Expr.arithAdmits op c.kind d.kind = true := by rw [hck, hdk']; exact ha
  rw [← hck] at hn hdk ⊢
  refine does_leaInto hd hreg hdk hn hw (arith_of_arith? hr) hadm (V.stable σ) hm (hx.tidy A.regs_eq) (hsx.value hcx hc)
    (hdk' ▸ hy.isScalar) (hsx.term hcx hc hn) ?_ (hy.tidy A.regs_eq) ?_ hno hq
  · rintro d' rfl
    cases hdv
    rfl
  · rintro rfl
    have hk : d.kind = c.kind := kind_eq_of_admits (by decide) (by decide) hadm
    rw [← hk] at hn ⊢
    exact hsy.term hcy hdv hn

/-- An operation that takes an operand from the destination, or that is not stored, has its own value. -/
theorem eval_arith_of_inPlace (hc : (Expr.binary (.arith op) x.kind x y).inPlace V.readable after origin σ = some c)
    (h : (origin = some x ∨ op.isCommutative = true ∧ origin = some y) ∨ ∀ c, after c = σ) :
    ∃ v, x.eval V.readable σ = some v ∧ ∃ w, y.eval V.readable σ = some w ∧ Const.arith? y.isConst op v w = some c := by
  have heval : (Expr.binary (.arith op) x.kind x y).eval V.readable σ = some c := by
    rcases h with h | h
    · rw [Expr.inPlace, if_pos h] at hc
      exact hc
    · rw [Expr.inPlace_of_eq V.readable h] at hc
      exact hc
  simpa only [Expr.eval, Option.bind_eq_some_iff] using heval

/-- Only an operation that commutes looks for its right operand in the destination. -/
theorem does_isSecondPlace {Q : Bool → Mark → Machine → Prop} (hy : Plain A.frame y)
    (hyes : op.isCommutative = true → isPlace A.frame y dst origin = .ok true → Q true μ m)
    (hno : (op.isCommutative = true → origin ≠ some y) → Q false μ m) :
    Does A (if op.isCommutative then do isPlace (← read) y dst origin else pure false : Lower Bool) μ m Q := by
  split
  · rename_i hop
    refine .bind (.read (.lift fun b hb => ?_))
    obtain ⟨b', hb', -, hfalse⟩ := @isPlace_eq_ok A.frame y dst origin hy
    cases hb'.symm.trans hb
    cases b with
    | true => exact hyes hop hb
    | false => exact hno fun _ => hfalse rfl
  · rename_i hop
    exact .pure (hno fun h => absurd h hop)

/-- The attempt to compute the operation as an address, which is made for registers only. -/
theorem does_asAddress {Q : Bool → Mark → Machine → Prop} (ha : Expr.arithAdmits op x.kind y.kind = true)
    (hx : Plain A.frame x) (hy : Plain A.frame y) (hsx : Selects A x) (hsy : Selects A y) (hsink : Sink V σ after dst T)
    (hd : Dest A μ m dst T) (hm : V.Shows σ m) (hdk : dst.kind = x.kind) (hcx : V.Covers x) (hcy : V.Covers y)
    (hc : (Expr.binary (.arith op) x.kind x y).inPlace V.readable after origin σ = some c) (hno : Q false μ m)
    (hq : ∀ m', Keeps (A.free μ ∪ T) m m' → m'.Holds c dst → Q true μ m') :
    Does A (if dst.isReg && isAddressLike x.kind op x y then releasing (leaInto dst x.kind op x y) else pure false)
      μ m Q := by
  have := steady_leaInto A.regs_eq (hx.tidy A.regs_eq) (hy.tidy A.regs_eq)
  split
  · rename_i hlea
    simp only [Bool.and_eq_true, isAddressLike, Bool.or_eq_true, beq_iff_eq] at hlea
    have hafter : ∀ c, after c = σ := hsink.origin.resolve_right fun h => by simp [hlea.1] at h
    obtain ⟨v, hv, w, hw, hr⟩ := eval_arith_of_inPlace hc (.inr hafter)
    exact .releasing (does_sum ha hx hy hsx hsy hd hlea.1 hm hdk hcx hcy hlea.2.1.1 hv hw hr hno fun _ => hq)
  · exact .pure hno

theorem computes_arith (ha : Expr.arithAdmits op x.kind y.kind = true)
    (hb : x.kind.size = 1 → op ≠ .mul ∧ op ≠ .quo ∧ op ≠ .rem) (hx : Plain A.frame x) (hy : Plain A.frame y)
    (hsx : Selects A x) (hsy : Selects A y) : Computes A (.binary (.arith op) x.kind x y) := by
  intro V σ after dst T origin μ m c Q hsink hd hm hdk hcov ho hc hq
  have hxt := hx.tidy A.regs_eq
  have hyt := hy.tidy A.regs_eq
  have := hxt.value
  have := hyt.value
  have := hxt.into
  have := steady_leaInto A.regs_eq hxt hyt
  have := steady_accumulate hxt hyt
  have hcx : V.Covers x := fun r hr => hcov r (List.mem_append_left _ hr)
  have hcy : V.Covers y := fun r hr => hcov r (List.mem_append_right _ hr)
  have hword := isWord_of_admits hx.isScalar ha
  have hxk {v} (hv : x.eval V.readable σ = some v) := hx.eval_kind hv
  have hvalue := eval_arith_of_inPlace hc
  rw [into, if_pos hword, arith_eq]
  refine .bind (.read (.bind (.lift fun b hfirst => ?_)))
  cases b with
  | true =>
    obtain ⟨hor, hhold⟩ := hsink.holds_of_isPlace hm hx hcx hdk ho hfirst
    obtain ⟨v, hv, w, hw, hr⟩ := hvalue (hor.imp_left .inl)
    exact does_operate ha hb hx.isScalar hy hsy hcy hd (hhold hv) (hxk hv).1 (hxk hv).2 hw hr hm fun m' => hq μ m' le_rfl
  | false =>
    refine .bind (does_isSecondPlace hy (fun hop hplace => ?_) fun hsecond => ?_)
    · have hk : y.kind = x.kind :=
        kind_eq_of_admits (by rintro rfl; cases hop) (by rintro rfl; cases hop) ha
      obtain ⟨hor, hhold⟩ := hsink.holds_of_isPlace hm hy hcy (hdk.trans hk.symm) ho hplace
      obtain ⟨v, hv, w, hw, hr⟩ := hvalue (hor.imp_left fun h => .inr ⟨hop, h⟩)
      obtain ⟨hwk, hwc⟩ := hy.eval_kind hw
      have hvw : v.kind = x.kind := (hxk hv).1
      refine does_operate (x := y) ?_ ?_ hy.isScalar hx hsx hcx hd (hhold hw) hwk hwc hv
        (arith?_comm (hvw ▸ hword) (hwk.trans (hk.trans hvw.symm)) hop hr) hm fun m' => hq _ m' le_rfl
      · rw [hk] at ha ⊢
        exact ha
      · rw [hk]
        exact hb
    · refine .bind (does_asAddress ha hx hy hsx hsy hsink hd hm hdk hcx hcy hc ?_ fun m₁ hk hh =>
        .pure (hq μ m₁ le_rfl hk hh))
      have hfirst' : origin ≠ some x := by
        obtain ⟨b, hb, -, hfalse⟩ := @isPlace_eq_ok A.frame x dst origin hx
        cases hb.symm.trans hfirst
        exact hfalse rfl
      rw [Expr.inPlace, if_neg (by rintro (h | ⟨hop, h⟩); exacts [hfirst' h, hsecond hop h])] at hc
      simp only [Option.bind_eq_some_iff] at hc
      obtain ⟨v, hv, w, hw, hr⟩ := hc
      obtain ⟨hvk, hvc⟩ := hx.inPlace_kind hv
      have hck : c.kind = x.kind := (Const.kind_arith (hvk ▸ hword) (arith_of_arith? hr)).trans hvk
      exact does_accumulate hx hy hsx (fun hcov hd hc hdv hm hq => does_operate ha hb hx.isScalar hy hsy hcov hd hc hvk hvc
        hdv hr hm hq) hsink hd hm hdk hck hcx hcy hv hw hq

theorem selects_arith (ha : Expr.arithAdmits op x.kind y.kind = true)
    (hb : x.kind.size = 1 → op ≠ .mul ∧ op ≠ .quo ∧ op ≠ .rem) (hx : Plain A.frame x) (hy : Plain A.frame y)
    (hsx : Selects A x) (hsy : Selects A y) : Selects A (.binary (.arith op) x.kind x y) := by
  have h : Plain A.frame (.binary (.arith op) x.kind x y) := .arith ha hb hx hy
  have hi := computes_arith ha hb hx hy hsx hsy
  have hv := hasValue_of_computes h rfl (by rw [value]; all_goals simp) hi
  refine ⟨hv, hi, ?_, fun hz hk hvz => compares_of_hasValue h hz hk hv hvz ?_⟩
  · intro V σ c hcov hc hn t ht
    have hck := (h.eval_kind hc).1
    rw [addTerm]
    split
    · rename_i shape hshape
      simp only [Expr.eval, Option.bind_eq_some_iff] at hc
      obtain ⟨v, hv, w, hw, hr⟩ := hc
      obtain ⟨hvk, -⟩ := hx.eval_kind hv
      obtain ⟨hwk, -⟩ := hy.eval_kind hw
      have hcx : V.Covers x := fun r hr => hcov r (List.mem_append_left _ hr)
      have hcy : V.Covers y := fun r hr => hcov r (List.mem_append_right _ hr)
      have hcv : c.kind = v.kind := hck.trans hvk.symm
      have hyc : ∀ c, y = .const c → w = c := by
        rintro c rfl
        cases hw
        rfl
      have hadm : Expr.arithAdmits op v.kind w.kind = true := by rw [hvk, hwk]; exact ha
      have hlow := Shape.low_apply (by rw [hvk]; exact isWord_of_admits hx.isScalar ha) (by rw [hwk]; exact hy.isScalar)
        hyc hshape (arith_of_arith? hr)
      rw [hcv] at hn ht ⊢
      have hadds := adds_node rfl hn ht hshape (V.stable σ) (hx.tidy A.regs_eq) (by rw [hvk]; exact hx.isScalar)
        (hsx.value hcx hv) (hsx.term hcx hv hn) hyc hadm ?_ (hy.tidy A.regs_eq).grows
      · exact hadds.congr (by omega) hlow
      · rintro rfl
        have hk : w.kind = v.kind := kind_eq_of_admits (by decide) (by decide) hadm
        rw [← hk] at hn ⊢
        exact hsy.term hcy hw hn
    · exact adds_opaque (V.stable σ) (h.tidy A.regs_eq) (hv hcov hc) (by rw [hck]; exact h.isScalar)
  · rintro k a b ⟨⟩
    exact ⟨rfl, ha, hx, hy, hsx.value, hsy.value⟩

end Arithmetic

/-! ## Logical operations -/

section Logic

variable {A : Activation} {V : View A} {σ : Store} {after : Const → Store} {dst x y : Expr} {T : Set Cell} {μ : Mark}
  {m : Machine} {c : Const} {op : LogicOp} {p : Expr} {b : Bool}

/-- A run on its way to a label passes code that does not place it. -/
theorem exec_seek {l : Label} : ∀ {code : List Expr}, l ∉ placed code → exec code (.seek l m) = .seek l m
  | [], _ => rfl
  | e :: code, h => by
    have hne : e ≠ .label l := by
      rintro rfl
      simp at h
    have hrest : l ∉ placed code := fun hl => h (by
      rw [← List.singleton_append, placed_append]
      exact List.mem_append_right _ hl)
    have hstep : step e (.seek l m) = .seek l m := by
      unfold step
      exact if_neg hne
    show exec code (step e (.seek l m)) = _
    rw [hstep]
    exact exec_seek hrest

/-- A truth value by its pattern. -/
theorem eq_bool_of_canonical (hk : c.kind = .bool) (hc : c.Canonical) : c = .bool c.asBool := by
  have hcan : Const.ofBits c.kind c.re c.im = c := hc
  rw [hk] at hcan
  rw [← hcan]
  unfold Const.asBool Const.bool Const.ofBits Kind.canonical
  by_cases h : c.re = 0 <;> simp [h, Kind.isComplex]

/-- The test of the left operand finds out whether it settles the operation. -/
theorem holds_logicTest (op : LogicOp) (b : Bool) :
    (Flags.ofSub 1 (low 1 (Const.bool b).re) (low 1 (Const.bool false).re)).holds
        (match op with | .and => .eq | .or => .ne) =
      op.settledBy (.bool b) := by
  cases op <;> cases b <;> rfl

theorem step_logicTest (hh : m.Holds (.bool b) p) (hconst : p.isConst = false) : step (logicTest p) (.at m) =
    .at { m with flags := some (Flags.ofSub 1 (low 1 (Const.bool b).re) (low 1 (Const.bool false).re)) } :=
  step_cmp hh hconst .const rfl rfl (by simp [isLegalSource, Const.fitsImmediate, Const.bool, Const.ofBits, Kind.size])

/-- Up to the right operand: where the left one settles the operation, the run is on its way to the label. -/
theorem exec_logicTest (op : LogicOp) (l : Label) (hh : m.Holds (.bool b) p) (hconst : p.isConst = false) :
    ∃ f, exec [logicTest p, logicJump op l] (.at m) =
      if op.settledBy (.bool b) then .seek l { m with flags := f } else .at { m with flags := f } := by
  refine ⟨some (Flags.ofSub 1 (low 1 (Const.bool b).re) (low 1 (Const.bool false).re)), ?_⟩
  rw [← holds_logicTest op b]
  show step (logicJump op l) (step (logicTest p) (.at m)) = _
  rw [step_logicTest hh hconst]
  rfl

/-- The label of a logical operation is not in the code of its right operand. -/
theorem not_placed_right {s s₁ s₂ : Session} {e e' : Expr} {left right : List Expr}
    (hleft : Session.Grown { s with labels := (s.labels.fresh none).2 } s₁ left)
    (hright : Session.Grown { s₁ with items := (s₁.items.push (.instr e)).push (.instr e') } s₂ right) :
    (⟨s.labels.size⟩ : Label) ∉ placed right := by
  refine not_placed_of_grown hright ?_
  have hle := hleft.fresh.le
  simp only [LabelPool.fresh, LabelPool.size, List.length_append, List.length_singleton] at hle ⊢
  omega

/-- A logical operation in a place: either the left operand settles it, or the right operand follows. -/
theorem does_logicAt {left right : Expr → Lower Unit} {Q : Unit → Mark → Machine → Prop} [hl : Steady A.frame (left p)]
    [hr : Steady A.frame (right p)] (hconst : p.isConst = false)
    (hleft : Does A (left p) μ m fun _ ν m₁ => ∃ b, m₁.Holds (.bool b) p ∧
      ∀ f, if op.settledBy (.bool b) then ∀ ν', ν ≤ ν' → Q () ν' { m₁ with flags := f }
        else Does A (right p) ν { m₁ with flags := f } Q) : Does A (logicAt op p left right) μ m Q := by
  intro s u s' code hs hg hpeak hgrown
  obtain ⟨s₁, s₂, hgl, hgr, rfl⟩ := logicAt_gives hg
  obtain ⟨a, ha⟩ := hl.grown hgl
  obtain ⟨b, hb⟩ := hr.grown hgr
  obtain rfl := code_eq_of_grown hgrown (grown_logic ha hb)
  obtain ⟨m₁, hm₁, v, hv, hrest⟩ := hleft.run hgl hs (hb.peak.trans hpeak) ha
  obtain ⟨f, hf⟩ := exec_logicTest op ⟨s.labels.size⟩ hv hconst
  have hexec : exec (a ++ (logicTest p :: logicJump op ⟨s.labels.size⟩ :: (b ++ [.label ⟨s.labels.size⟩]))) (.at m) =
      exec [.label ⟨s.labels.size⟩] (exec b (if op.settledBy (.bool v) then
        .seek ⟨s.labels.size⟩ { m₁ with flags := f } else .at { m₁ with flags := f })) := by
    rw [exec_append, hm₁, ← hf, ← exec_append, ← exec_append]
    rfl
  rw [hexec]
  have hrest := hrest f
  split at hrest
  · rename_i hset
    have hbelow := hr.below hgr
    refine ⟨_, ?_, hrest _ hbelow⟩
    rw [if_pos hset, exec_seek (not_placed_right ha hb)]
    exact if_pos rfl
  · rename_i hset
    obtain ⟨m₂, hm₂, hq⟩ := hrest.run hgr rfl hpeak hb
    refine ⟨m₂, ?_, hq⟩
    rw [if_neg hset, hm₂]
    rfl

/-- Both operands of a logical operation are computed in one place that the right one does not read. -/
theorem does_logic {Q : Unit → Mark → Machine → Prop} (hkx : x.kind = .bool) (hky : y.kind = .bool) (hx : Plain A.frame x)
    (hy : Plain A.frame y) (hsx : Selects A x) (hsy : Selects A y) (hsink : Sink V σ after p T) (hd : Dest A μ m p T)
    (hm : V.Shows σ m) (hpk : p.kind = .bool) (hcx : V.Covers x) (hcy : V.Covers y) (hno : ¬ReadsPlace A.frame p y)
    (hc : (Expr.binary (.logic op) .bool x y).inPlace V.readable after none σ = some c)
    (hq : ∀ ν m', μ ≤ ν → Keeps (A.free μ ∪ T) m m' → m'.Holds c p → Q () ν m') :
    Does A (logicAt op p (fun p => into p x none) (fun p => into p y none)) μ m Q := by
  have := (hx.tidy A.regs_eq).into
  have := (hy.tidy A.regs_eq).into
  rw [Expr.inPlace, Option.bind_eq_some_iff] at hc
  obtain ⟨v, hv, hc⟩ := hc
  obtain ⟨hvk, hvc⟩ := hx.inPlace_kind hv
  have hvb := eq_bool_of_canonical (hvk.trans hkx) hvc
  refine does_logicAt hd.occupies.isConst (hsx.into hsink hd hm (hpk.trans hkx.symm) hcx (by rintro z v ⟨⟩) hv ?_)
  intro ν m₁ hle hk₁ hh₁
  refine ⟨v.asBool, hvb ▸ hh₁, fun f => ?_⟩
  have hk₁' : Keeps (A.free μ ∪ T) m { m₁ with flags := f } := hk₁.trans (.flags _ _ _)
  have hh₁' : Machine.Holds { m₁ with flags := f } v p := hh₁.keeps (.flags ∅ _ _) (Set.disjoint_empty _)
  rw [← hvb]
  split at hc
  · rename_i hset
    cases hc
    rw [if_pos hset]
    exact fun ν' hle' => hq ν' _ (hle.trans hle') hk₁' hh₁'
  · rename_i hset
    rw [if_neg hset]
    refine hsy.into (hsink.rest v) ((hd.keeps hk₁').mono hle) (hsink.store (.inl hm) hd hk₁' hh₁') (hpk.trans hky.symm)
      (hcy.without hno) (by rintro z v ⟨⟩) hc fun ν' m' hle' hk₂ hh₂ => hq ν' m' (hle.trans hle') (hk₁'.trans ?_) hh₂
    exact hk₂.mono (Set.union_subset_union_left T (Activation.free_anti hle))

theorem does_release {Q : Unit → Mark → Machine → Prop} {ν : Mark} (hq : ∀ ν', Q () ν' m) :
    Does A (modify (Session.release ν) : Lower Unit) μ m Q :=
  .of_eq fun _ hg => by
    obtain rfl := hg.modify
    exact ⟨rfl, fun _ => hq _⟩

theorem selects_logic (hkx : x.kind = .bool) (hky : y.kind = .bool) (hx : Plain A.frame x) (hy : Plain A.frame y)
    (hsx : Selects A x) (hsy : Selects A y) : Selects A (.binary (.logic op) .bool x y) := by
  have := (hx.tidy A.regs_eq).into
  have := (hy.tidy A.regs_eq).into
  refine selects_of_computes (.logic op hkx hky hx hy) ?_ rfl (by rw [value]; all_goals simp)
    (fun t => by rw [addTerm]; all_goals simp) (by rintro k a b ⟨⟩)
  intro V σ after dst T origin μ m c Q hsink hd hm hdk hcov ho hc hq
  have hcx : V.Covers x := fun r hr => hcov r (List.mem_append_left _ hr)
  have hcy : V.Covers y := fun r hr => hcov r (List.mem_append_right _ hr)
  have hc : (Expr.binary (.logic op) .bool x y).inPlace V.readable after none σ = some c := by
    rw [Expr.inPlace] at hc ⊢
    exact hc
  rw [into, logicInto]
  obtain ⟨b, hhaz, hreads⟩ := hazard_eq_ok hy hd
  refine .bind (.read (.bind (.lift fun b' hb' => ?_)))
  cases hhaz.symm.trans hb'
  cases b with
  | false =>
    have hno : ¬ReadsPlace A.frame dst y := fun h => by simpa using hreads.2 h
    exact does_logic hkx hky hx hy hsx hsy hsink hd hm hdk hcx hcy hno hc hq
  | true =>
    have hafter := hsink.after_eq hcy (hreads.1 rfl)
    rw [Expr.inPlace_of_eq V.readable hafter, ← Expr.inPlace_of_eq V.readable (fun _ => rfl) _ none] at hc
    refine .releasing (.bind (does_refuge hy hm.sp hhaz fun t ν S hle htk hS hdest => ?_))
    have hdt := hdest m hm.sp
    have hno : ¬ReadsPlace A.frame t y := by
      obtain ⟨b, hb, hiff⟩ := hazard_eq_ok hy hdt
      cases hb.symm.trans (hazard_temp hy hm.sp hdt hS)
      exact fun h => by simpa using hiff.2 h
    refine .bind (does_logic hkx hky hx hy hsx hsy (Sink.temp hS) hdt hm htk hcx hcy hno hc fun ν' m₁ hle' hk₁ hh₁ => ?_)
    have hh₁ : m₁.Holds c t := hh₁
    have hk₁' : Keeps (A.free μ ∪ T) m m₁ :=
      hk₁.mono ((Set.union_subset (Activation.free_anti hle) hS).trans Set.subset_union_left)
    rw [unwind, unwind, pure_bind]
    refine .bind (does_mov ((hd.keeps hk₁').mono (hle.trans hle')) hh₁ ?_ fun m' hk₂ hh₂ => does_release fun _ => ?_)
    · rw [← hh₁.kind, htk, hdk]
      rfl
    · refine hq μ m' le_rfl (hk₁'.trans (hk₂.mono ?_)) hh₂
      exact Set.union_subset_union_left T (Activation.free_anti (hle.trans hle'))

end Logic

/-! ## Plain expressions -/

/-- Selection is correct for plain expressions. -/
theorem Plain.selects {A : Activation} {e : Expr} (h : Plain A.frame e) : Selects A e := by
  induction h with
  | const hk hc => exact selects_const (.const hk hc)
  | reg hk hs hr => exact selects_reg (.reg hk hs hr)
  | mem ro hk hp ha ih => exact selects_mem hk hp ha ih
  | neg hk hx ih => exact selects_neg hk hx ih
  | inv hk hx ih => exact selects_inv hk hx ih
  | lnot hk hx ih => exact selects_lnot hk hx ih
  | cast hk hx ih => exact selects_cast hk hx ih
  | arith ha hb hx hy ihx ihy => exact selects_arith ha hb hx hy ihx ihy
  | compare op hk hx hy ihx ihy => exact selects_compare hk hx hy ihx ihy
  | logic op hkx hky hx hy ihx ihy => exact selects_logic hkx hky hx hy ihx ihy

end JitBackend.Amd64
