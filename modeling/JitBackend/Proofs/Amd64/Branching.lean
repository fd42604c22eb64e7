import JitBackend.Proofs.Amd64.Assignment
import JitBackend.Proofs.Amd64.Skipping

/-!
# Jumps on conditions

What the code of a conditional jump does in a machine that shows a store: it leads to the label if the condition has the
wanted value, and behind its own end if not (`Plain.jumps`). The right operand of a conjunction or a disjunction, at any
depth of the condition, is evaluated only if the left one does not settle it (`ShortCircuits`).
-/

namespace JitBackend.Amd64

open Lower

/-- The operand that settles a conjunction is a false one, and the one that settles a disjunction is a true one. -/
theorem settledBy_eq (op : LogicOp) (c : Const) : op.settledBy c = (c.asBool == !(op == .and)) := by
  cases op <;> cases h : c.asBool <;> simp [LogicOp.settledBy, h]

/-- The code that selection gives for a jump on a condition. -/
def JumpsOn (f : Frame) (c : Expr) (code : List Expr) : Prop :=
  ∃ l sense s s', Gives f (jumpIf l c sense) s () s' ∧ s.Grown s' code

/-- The code of a conjunction or a disjunction is that of a jump on its left operand and that of a jump on its right one.
Where the left operand settles the operation, the run executes nothing of the latter. So in every operand that is a
condition of this kind itself. The logical operations that stand in any other condition are computed as values, and the
code of each skips the right operand in the machines of `M`. -/
def ShortCircuits (f : Frame) (M : Machine → Prop) (val : Expr → Option Const) : Expr → List Expr → Machine → Prop
  | .unary .lnot _ x, code, m => ShortCircuits f M val x code m
  | .binary (.logic op) _ x y, code, m => ∃ left right,
      (code = left ++ right ∨ ∃ skip, code = left ++ right ++ [.label skip]) ∧ JumpsOn f x left ∧ JumpsOn f y right ∧
      ShortCircuits f M val x left m ∧ ∀ c, val x = some c →
        if op.settledBy c then executed right (exec left (.at m)) = []
        else ∃ m₁, exec left (.at m) = .at m₁ ∧ ShortCircuits f M val y right m₁
  | c, code, _ => ∀ op k x y, (Expr.binary (.logic op) k x y).Within c → Skips f M val op x y code

/-! ## Conditions -/

section Conditions

variable {A : Activation} {V : View A} {σ : Store} {c x y : Expr} {v a : Const}

/-- A jump on a plain condition keeps what is in use. -/
theorem Plain.steady_jumpIf {f : Frame} (h : Plain f c) (hf : f.regs = regFile) :
    ∀ l sense, Steady f (jumpIf l c sense) := by
  have htest : ∀ {c}, Plain f c → (∀ l sense, jumpIf l c sense = do
      releasing do testZero .bool (← value c)
      jcc (if sense then .ne else .eq) l) → ∀ l sense, Steady f (jumpIf l c sense) := by
    intro c hc hj l sense
    have := (hc.tidy hf).value
    rw [hj]
    infer_instance
  induction h with
  | const hk hc =>
    intro l sense
    have := steady_emit (f := f) (e := .jumpTo l) rfl
    rw [jumpIf]
    infer_instance
  | lnot hk hx ih =>
    intro l sense
    rw [jumpIf]
    exact ih l _
  | compare op hk hx hy =>
    intro l sense
    have := (hx.tidy hf).flags op _ (hy.tidy hf).value
    rw [jumpIf, if_pos hx.isScalar]
    infer_instance
  | logic op hkx hky hx hy ihx ihy =>
    intro l sense
    refine .of_grows (grows_jumpIf _ l sense) fun hg => ?_
    rw [jumpIf] at hg
    split at hg
    · obtain ⟨skip, s₀, hnew, h₀⟩ := hg.bind
      obtain ⟨⟨⟩, s₁, hgx, h₁⟩ := h₀.bind
      obtain ⟨⟨⟩, s₂, hgy, h₂⟩ := h₁.bind
      obtain ⟨rfl, rfl⟩ := hnew.newLabel
      obtain rfl := h₂.emit
      have hle := (ihy _ _).below hgy
      exact ((ihx _ _).below hgx).trans hle
    · obtain ⟨⟨⟩, s₁, hgx, hgy⟩ := hg.bind
      exact ((ihx _ _).below hgx).trans ((ihy _ _).below hgy)
  | reg hk hs hr => exact htest (.reg hk hs hr) fun l sense => by rw [jumpIf]; all_goals simp
  | mem ro hk hp ha => exact htest (.mem ro hk hp ha) fun l sense => by rw [jumpIf]; all_goals simp
  | neg hk hx => exact htest (.neg hk hx) fun l sense => by rw [jumpIf]; all_goals simp
  | inv hk hx => exact htest (.inv hk hx) fun l sense => by rw [jumpIf]; all_goals simp
  | cast hk hx => exact htest (.cast hk hx) fun l sense => by rw [jumpIf]; all_goals simp
  | arith ha hb hx hy => exact htest (.arith ha hb hx hy) fun l sense => by rw [jumpIf]; all_goals simp

/-- The code leads to the label if `b`, and behind its own end if not; it changes nothing that is in use. -/
def Leads (A : Activation) (μ : Mark) (code : List Expr) (l : Label) (b : Bool) (m : Machine) : Prop :=
  ∃ m', exec code (.at m) = (if b then .seek l m' else .at m') ∧ Keeps (A.free μ) m m'

/-- What a jump on a condition with the value `v` does. -/
def Jumps (A : Activation) (V : View A) (σ : Store) (c : Expr) (v : Const) : Prop :=
  ∀ l sense s s' code m, V.Shows σ m → l.index < s.labels.size → Gives A.frame (jumpIf l c sense) s () s' →
    s'.tempPeak ≤ A.limit → s.Grown s' code →
    ShortCircuits A.frame (V.Shows σ) (·.eval V.readable σ) c code m ∧ Leads A s.mark code l (v.asBool == sense) m

/-- A jump on flags. -/
theorem leads_jcc {α : Type} {act : Lower α} (cc : α → Cond) {l : Label} {b : Bool} {s s' : Session} {code : List Expr}
    {m : Machine} [hact : Grows A.frame act] (hg : Gives A.frame (do let r ← act; jcc (cc r) l) s () s')
    (hpeak : s'.tempPeak ≤ A.limit) (hgr : s.Grown s' code)
    (h : Does A act s.mark m fun r _ m' => Keeps (A.free s.mark) m m' ∧ ∃ f, m'.flags = some f ∧ f.holds (cc r) = b) :
    Leads A s.mark code l b m := by
  obtain ⟨r, s₁, h₁, hjcc⟩ := hg.bind
  obtain ⟨pre, hpre⟩ := hact.grown h₁
  obtain rfl := Gives.emit hjcc
  obtain ⟨m₁, hexec, hk, f, hf, rfl⟩ := h.run h₁ rfl hpeak hpre
  obtain rfl := code_eq_of_grown hgr (hpre.trans (Session.emit_grown s₁ rfl))
  refine ⟨m₁, ?_, hk⟩
  rw [exec_append, hexec]
  simp only [exec, List.foldl_cons, List.foldl_nil, step, hf]

theorem jumps_const : Jumps A V σ (.const v) v := by
  intro l sense s s' code m hm hl hg hpeak hgr
  rw [jumpIf] at hg
  have hleaf : ∀ op k x y, ¬(Expr.binary (.logic op) k x y).Within (.const v) := by
    rintro op k x y (_ | ⟨⟨⟩, -⟩)
  refine ⟨fun op k x y hz => absurd hz (hleaf op k x y), m, ?_, .refl _ _⟩
  split at hg
  · rename_i hb
    obtain rfl := hg.emit
    obtain rfl := code_eq_of_grown hgr (Session.emit_grown s rfl)
    rw [if_pos hb]
    rfl
  · rename_i hb
    obtain ⟨-, rfl⟩ := hg.pure
    obtain rfl := code_eq_of_grown hgr (.refl _)
    rw [if_neg hb]
    rfl

theorem jumps_lnot (hx : Jumps A V σ x v) : Jumps A V σ (.unary .lnot .bool x) v.lnot := by
  intro l sense s s' code m hm hl hg hpeak hgr
  rw [jumpIf] at hg
  obtain ⟨hsc, m', hexec, hk⟩ := hx l (!sense) s s' code m hm hl hg hpeak hgr
  refine ⟨hsc, m', ?_, hk⟩
  have hsense : (v.lnot.asBool == sense) = (v.asBool == !sense) := by
    rw [Const.lnot, Expr.asBool_bool]
    cases v.asBool <;> cases sense <;> rfl
  rw [hexec, hsense]

/-- A comparison is tested by its flags. -/
theorem jumps_compare {op : CompareOp} {b : Bool} {d : Const} (hk : x.kind = y.kind) (hx : Plain A.frame x)
    (hy : Plain A.frame y) (hcx : V.Covers x) (hcy : V.Covers y) (ha : x.eval V.readable σ = some a)
    (hd : y.eval V.readable σ = some d) (hb : Const.compare op a d = .ok b) :
    Jumps A V σ (.binary (.compare op) .bool x y) (.bool b) := by
  intro l sense s s' code m hm hl hg hpeak hgr
  rw [jumpIf, if_pos hx.isScalar] at hg
  have hsense : ∀ (cc : Cond) (f : Flags), f.holds cc = b →
      f.holds (if sense then cc else cc.negated) = ((Const.bool b).asBool == sense) := by
    rintro cc f rfl
    rw [Expr.asBool_bool]
    cases sense <;> simp [Flags.holds_negated]
  refine ⟨fun o k z w hz => ?_, leads_jcc _ hg hpeak hgr (hx.selects.flags hy hk.symm hy.selects.value hcx hcy ha hd hb hm
    fun cc m' f hkeep hf hh => ⟨hkeep, f, hf, hsense cc f hh⟩)⟩
  have hsx := hx.spots_skipping hcx σ o k z w
  have hsy := hy.spots_skipping hcy σ o k z w
  refine skips_of_finds ((hsx.flags op hx.isScalar hsy.value).first fun _ => leaves_of_grows) ?_ hg hgr hpeak
  have hhas : (Expr.binary (.compare op) .bool x y).Has (· = .binary (.logic o) k z w) := ⟨_, hz, rfl⟩
  exact (Expr.has_binary.1 hhas).resolve_left (by simp)

/-- Any other condition is tested by its value. -/
theorem jumps_value (hc : Plain A.frame c) (hk : c.kind = .bool) (hcov : V.Covers c) (hv : c.eval V.readable σ = some v)
    (hj : ∀ l sense, jumpIf l c sense = do
      releasing do testZero .bool (← value c)
      jcc (if sense then .ne else .eq) l)
    (hsc : ∀ code m, (∀ op k x y, (Expr.binary (.logic op) k x y).Within c →
      Skips A.frame (V.Shows σ) (·.eval V.readable σ) op x y code) →
        ShortCircuits A.frame (V.Shows σ) (·.eval V.readable σ) c code m) : Jumps A V σ c v := by
  intro l sense s s' code m hm hl hg hpeak hgr
  have := (hc.tidy A.regs_eq).value
  obtain ⟨hvk, hvc⟩ := hc.eval_kind hv
  have hvb : v.kind = .bool := hvk.trans hk
  have hne : Const.compare .neq v (Const.zero v.kind) = .ok v.asBool := by
    rw [eq_bool_of_canonical hvb hvc]
    cases v.asBool <;> rfl
  have hsense : ∀ f : Flags, f.holds .ne = v.asBool → f.holds (if sense then .ne else .eq) = (v.asBool == sense) := by
    intro f hf
    have heq : f.holds .eq = !v.asBool := by
      rw [← hf]
      exact Flags.holds_negated f .ne
    cases sense <;> simp [hf, heq]
  rw [hj] at hg
  refine ⟨hsc code m fun o k z w hz => ?_, leads_jcc (fun _ => if sense then .ne else .eq) hg hpeak hgr
    (.releasing (.bind ?_))⟩
  · have hspots := hc.spots_skipping hcov σ o k z w
    refine skips_of_finds (.first (.releasing (hspots.value.first fun u => ?_)) fun _ => ?_) ⟨_, hz, rfl⟩ hg hgr hpeak
    · exact leaves_of_grows
    · exact leaves_of_grows
  refine hc.selects.value hcov hv hm fun p ν m₁ hle hk₁ hp _ => ?_
  rw [← hvb]
  refine does_testZero (by rfl) hp (hvb ▸ rfl) hvc hne fun _ m' f hk₂ hf hh => ⟨?_, f, hf, hsense f hh⟩
  exact hk₁.trans (hk₂.mono (Activation.free_anti hle))

theorem shortCircuits_logic {f : Frame} {M : Machine → Prop} {val : Expr → Option Const} (op : LogicOp) {m : Machine}
    {left right code : List Expr} (hcode : code = left ++ right ∨ ∃ skip, code = left ++ right ++ [.label skip])
    (hx : JumpsOn f x left) (hy : JumpsOn f y right) (hsc : ShortCircuits f M val x left m) (ha : val x = some a)
    (h : if op.settledBy a then executed right (exec left (.at m)) = []
      else ∃ m₁, exec left (.at m) = .at m₁ ∧ ShortCircuits f M val y right m₁) :
    ShortCircuits f M val (.binary (.logic op) .bool x y) code m :=
  ⟨left, right, hcode, hx, hy, hsc, fun c hc => by
    cases ha.symm.trans hc
    exact h⟩

/-- Where both operands have to have the wanted value, the left one may lead behind the right one. -/
theorem jumps_skip {op : LogicOp} {l : Label} {sense : Bool} {s s' : Session} {code : List Expr} {m : Machine}
    (hshape : (op == .and) = sense) (hpx : Plain A.frame x) (ha : x.eval V.readable σ = some a) (hx : Jumps A V σ x a)
    (hset : op.settledBy a = true → v = a) (hy : op.settledBy a = false → Jumps A V σ y v) (hm : V.Shows σ m)
    (hl : l.index < s.labels.size) (hpeak : s'.tempPeak ≤ A.limit) (hgr : s.Grown s' code)
    (hg : Gives A.frame (do
      let skip ← newLabel
      jumpIf skip x !sense
      jumpIf l y sense
      emit (.label skip)) s () s') :
    ShortCircuits A.frame (V.Shows σ) (·.eval V.readable σ) (.binary (.logic op) .bool x y) code m ∧
      Leads A s.mark code l (v.asBool == sense) m := by
  obtain ⟨skip, s₀, hnew, h₀⟩ := hg.bind
  obtain ⟨⟨⟩, s₁, hgx, h₁⟩ := h₀.bind
  obtain ⟨⟨⟩, s₂, hgy, h₂⟩ := h₁.bind
  obtain ⟨rfl, rfl⟩ := hnew.newLabel
  obtain rfl := h₂.emit
  obtain ⟨left, hleft⟩ := (grows_jumpIf x _ _).grown hgx
  obtain ⟨right, hright⟩ := (grows_jumpIf y _ _).grown hgy
  obtain rfl := code_eq_of_grown hgr (grown_skip hleft hright)
  have hskip : (s.labels.fresh none).2.size = s.labels.size + 1 := by simp [LabelPool.fresh, LabelPool.size]
  have hle := hleft.fresh.le
  simp only [hskip] at hle
  obtain ⟨hsc, m₁, hexec, hk₁⟩ := hx ⟨s.labels.size⟩ (!sense) _ s₁ left m hm (by simp [hskip]) hgx
    (hright.peak.trans hpeak) hleft
  rw [← hshape, ← settledBy_eq] at hexec
  have hsettles : op.settledBy a = (a.asBool == !sense) := by rw [settledBy_eq, hshape]
  have hshort := shortCircuits_logic op (.inr ⟨⟨s.labels.size⟩, rfl⟩) ⟨_, _, _, _, hgx, hleft⟩ ⟨_, _, _, _, hgy, hright⟩
    hsc ha
  cases hb : op.settledBy a with
  | true =>
    rw [hb, if_pos rfl] at hexec
    obtain rfl := hset hb
    have hnot := not_placed_of_grown (l := ⟨s.labels.size⟩) hright hle
    refine ⟨hshort (by rw [if_pos hb, hexec, executed_seek hnot]), m₁, ?_, hk₁⟩
    have hvalue : (v.asBool == sense) = false := by
      rw [beq_iff_eq.1 (hsettles.symm.trans hb)]
      cases sense <;> rfl
    rw [exec_append, exec_append, hexec, exec_seek hnot, hvalue]
    exact if_pos rfl
  | false =>
    rw [hb, if_neg (by simp)] at hexec
    have hm₁ : V.Shows σ m₁ := V.stable σ hm hk₁
    obtain ⟨hsc₂, m₂, hexec₂, hk₂⟩ := hy hb l sense s₁ s₂ right m₁ hm₁ (by omega) hgy hpeak hright
    refine ⟨hshort (by rw [if_neg (by simp [hb])]; exact ⟨m₁, hexec, hsc₂⟩), m₂, ?_, ?_⟩
    · have hne : l ∉ placed [.label ⟨s.labels.size⟩] := by
        rintro (_ | ⟨_, ⟨⟩⟩)
        exact hl.false
      rw [exec_append, exec_append, hexec, hexec₂]
      split
      · exact exec_seek hne
      · rfl
    · exact hk₁.trans (hk₂.mono (Activation.free_anti ((hpx.steady_jumpIf A.regs_eq _ _).below hgx)))

/-- Where one operand with the wanted value is enough, both lead to the label. -/
theorem jumps_both {op : LogicOp} {l : Label} {sense : Bool} {s s' : Session} {code : List Expr} {m : Machine}
    (hshape : (op == .and) = !sense) (hpx : Plain A.frame x) (ha : x.eval V.readable σ = some a) (hx : Jumps A V σ x a)
    (hset : op.settledBy a = true → v = a) (hy : op.settledBy a = false → Jumps A V σ y v) (hm : V.Shows σ m)
    (hl : l.index < s.labels.size) (hpeak : s'.tempPeak ≤ A.limit) (hgr : s.Grown s' code)
    (hg : Gives A.frame (do jumpIf l x sense; jumpIf l y sense) s () s') :
    ShortCircuits A.frame (V.Shows σ) (·.eval V.readable σ) (.binary (.logic op) .bool x y) code m ∧
      Leads A s.mark code l (v.asBool == sense) m := by
  obtain ⟨⟨⟩, s₁, hgx, hgy⟩ := hg.bind
  obtain ⟨left, hleft⟩ := (grows_jumpIf x _ _).grown hgx
  obtain ⟨right, hright⟩ := (grows_jumpIf y _ _).grown hgy
  obtain rfl := code_eq_of_grown hgr (hleft.trans hright)
  have hle := hleft.fresh.le
  obtain ⟨hsc, m₁, hexec, hk₁⟩ := hx l sense s s₁ left m hm hl hgx (hright.peak.trans hpeak) hleft
  have hsettles : op.settledBy a = (a.asBool == sense) := by rw [settledBy_eq, hshape, Bool.not_not]
  rw [← hsettles] at hexec
  have hshort := shortCircuits_logic op (.inl rfl) ⟨_, _, _, _, hgx, hleft⟩ ⟨_, _, _, _, hgy, hright⟩ hsc ha
  cases hb : op.settledBy a with
  | true =>
    rw [hb, if_pos rfl] at hexec
    obtain rfl := hset hb
    have hnot := not_placed_of_grown (l := l) hright (by omega)
    refine ⟨hshort (by rw [if_pos hb, hexec, executed_seek hnot]), m₁, ?_, hk₁⟩
    rw [exec_append, hexec, exec_seek hnot, ← hsettles, hb, if_pos rfl]
  | false =>
    rw [hb, if_neg (by simp)] at hexec
    have hm₁ : V.Shows σ m₁ := V.stable σ hm hk₁
    obtain ⟨hsc₂, m₂, hexec₂, hk₂⟩ := hy hb l sense s₁ s' right m₁ hm₁ (by omega) hgy hpeak hright
    refine ⟨hshort (by rw [if_neg (by simp [hb])]; exact ⟨m₁, hexec, hsc₂⟩), m₂, ?_, ?_⟩
    · rw [exec_append, hexec, hexec₂]
    · exact hk₁.trans (hk₂.mono (Activation.free_anti ((hpx.steady_jumpIf A.regs_eq _ _).below hgx)))

theorem jumps_logic {op : LogicOp} (hpx : Plain A.frame x) (ha : x.eval V.readable σ = some a) (hx : Jumps A V σ x a)
    (hset : op.settledBy a = true → v = a) (hy : op.settledBy a = false → Jumps A V σ y v) :
    Jumps A V σ (.binary (.logic op) .bool x y) v := by
  intro l sense s s' code m hm hl hg hpeak hgr
  rw [jumpIf] at hg
  split at hg
  · rename_i hshape
    exact jumps_skip (beq_iff_eq.1 hshape) hpx ha hx hset hy hm hl hpeak hgr hg
  · rename_i hshape
    exact jumps_both (by cases h : op == .and <;> cases sense <;> simp_all) hpx ha hx hset hy hm hl hpeak hgr hg

/-- A jump on a plain condition leads to its label exactly if the condition has the wanted value. -/
theorem Plain.jumps (h : Plain A.frame c) : ∀ {v}, c.kind = .bool → V.Covers c → c.eval V.readable σ = some v →
    Jumps A V σ c v := by
  have hword : ∀ {k : Kind}, k.isWord = true → k ≠ .bool := by
    rintro _ hk rfl
    cases hk
  induction h with
  | const hk hc =>
    rintro v - - ⟨⟩
    exact jumps_const
  | lnot hk hx ih =>
    intro v _ hcov hv
    simp only [Expr.eval, Option.bind_eq_some_iff] at hv
    obtain ⟨d, hd, hv⟩ := hv
    cases hv
    exact jumps_lnot (ih hk hcov hd)
  | compare op hk hx hy =>
    intro v _ hcov hv
    simp only [Expr.eval, Option.bind_eq_some_iff, Option.map_eq_some_iff] at hv
    obtain ⟨a, ha, d, hd, b, hb, rfl⟩ := hv
    exact jumps_compare hk hx hy (fun r hr => hcov r (List.mem_append_left _ hr))
      (fun r hr => hcov r (List.mem_append_right _ hr)) ha hd (eq_ok_of_toOption hb)
  | logic op hkx hky hx hy ihx ihy =>
    intro v _ hcov hv
    have hcx : V.Covers _ := fun r hr => hcov r (List.mem_append_left _ hr)
    have hcy : V.Covers _ := fun r hr => hcov r (List.mem_append_right _ hr)
    simp only [Expr.eval, Option.bind_eq_some_iff] at hv
    obtain ⟨a, ha, hv⟩ := hv
    refine jumps_logic hx ha (ihx hkx hcx ha) (fun hset => ?_) fun hset => ihy hky hcy ?_
    · rw [if_pos hset] at hv
      exact (Option.some.inj hv).symm
    · rwa [if_neg (by simp [hset])] at hv
  | reg hk hs hr =>
    intro v hkind hcov hv
    exact jumps_value (.reg hk hs hr) hkind hcov hv (fun l sense => by rw [jumpIf]; all_goals simp) fun _ _ h => h
  | mem ro hk hp ha =>
    intro v hkind hcov hv
    exact jumps_value (.mem ro hk hp ha) hkind hcov hv (fun l sense => by rw [jumpIf]; all_goals simp) fun _ _ h => h
  -- the other operations give words
  | neg hk hx | inv hk hx => exact fun hkind => absurd hkind (hword hk)
  | cast hk hx => exact fun hkind => absurd hkind (hword hk)
  | arith ha hb hx hy => exact fun hkind => absurd hkind (hword (isWord_of_admits hx.isScalar ha))

/-- The code of a jump on a condition takes a machine that represents a store to one that represents the same store, at
the label if the condition has the wanted value and behind the code if not. -/
theorem exec_condition (w : World) {flat : Flat} {log : Log} {i : Nat} {stmt : Expr} {m : Machine} {s s' : Session}
    {l : Label} {sense : Bool} (hA : A.frame = frameOf flat log) (hone : flat.OneKind) (hi : flat.code[i]? = some stmt)
    (hregs : ∀ r ∈ c.regs, r ∈ stmt.regs) (hb : c.Built) (hint : c.isIntegral = true) (hfree : c.isEffectFree = true)
    (hk : c.kind = .bool) (hv : c.eval A.isOutside σ = some v) (hl : l.index < s.labels.size)
    (hs : Gives A.frame (jumpIf l c sense) s () s') (hpeak : s'.tempPeak ≤ A.limit) (hm : Represents A flat (i + 1) σ m) :
    c.run w σ = some (v, σ) ∧ ∃ code, s'.items.toList = s.items.toList ++ code.map .instr ∧
      ShortCircuits A.frame (Represents A flat (i + 1) σ) (·.eval A.isOutside σ) c code m ∧
      ∃ m', exec code (.at m) = (if v.asBool = sense then .seek l m' else .at m') ∧
        Represents A flat (i + 1) σ m' ∧ Keeps (A.free s.mark) m m' := by
  have hcov : (viewAt A hA (i + 1)).Covers c := by
    intro r hr
    obtain ⟨hsc, hsoft⟩ := scalar_of_isIntegral c hint r hr
    exact ⟨hsc, hone.spans hi (hregs r hr) hsoft⟩
  have hplain : Plain A.frame c :=
    plain_of_isIntegral c hb.wellKinded hint hfree fun r hr => (viewAt A hA (i + 1)).placed (hcov r hr)
  obtain ⟨code, hgrown⟩ := (grows_jumpIf c l sense).grown hs
  obtain ⟨hsc, m', hexec, hkeep⟩ := hplain.jumps hk hcov hv l sense s s' code m (hm.shows hA) hl hs hpeak hgrown
  have hshows : (viewAt A hA (i + 1)).Shows σ = Represents A flat (i + 1) σ :=
    funext fun _ => propext ⟨represents_of_shows hA, fun h => h.shows hA⟩
  rw [hshows] at hsc
  refine ⟨hplain.run_eq w hv, code, hgrown.items, hsc, m', ?_, ?_, hkeep⟩
  · rw [hexec]
    simp only [beq_iff_eq]
  · exact represents_of_shows hA ((viewAt A hA (i + 1)).stable σ (hm.shows hA) hkeep)

/-- A quotient that is asked for only if its divisor is not zero. -/
def guardedQuotient : Expr :=
  let x := Expr.reg (Func.softReg 0 .int64)
  .binary (.logic .and) .bool (.binary (.compare .neq) .bool x (.const (.int64 0)))
    (.binary (.compare .gtr) .bool (.binary (.arith .quo) .int64 (.const (.int64 10)) x) (.const (.int64 1)))

def guardedJump : Flat where
  func := Func.empty "quotient" ⟨[.int64], []⟩
  code := #[.binary .jumpIf .void (.label ⟨0⟩) guardedQuotient]

theorem built_guardedQuotient : guardedQuotient.Built := by
  have hdiv : (Expr.binary (.arith .quo) .int64 (.const (.int64 10)) (.reg (Func.softReg 0 .int64))).Built :=
    .binary (x := .const (.int64 10)) (y := .reg (Func.softReg 0 .int64)) (.arith .quo) (.const (by decide)) (.reg _) rfl
  have hleft : (Expr.binary (.compare .neq) .bool (.reg (Func.softReg 0 .int64)) (.const (.int64 0))).Built :=
    .binary (x := .reg (Func.softReg 0 .int64)) (y := .const (.int64 0)) (.compare .neq) (.reg _) (.const (by decide)) rfl
  exact .binary (.logic .and) hleft (.binary (y := .const (.int64 1)) (.compare .gtr) hdiv (.const (by decide)) rfl) rfl

theorem allocate_guardedJump : (scan.allocate guardedJump #[]).1 = ⟨[(256, .reg (gpr 6))], 0⟩ := by cbv

theorem intervals_guardedJump : guardedJump.intervals = [⟨256, .int64, 0, 1⟩] := by cbv

theorem oneKind_guardedJump : guardedJump.OneKind := .of_all (by cbv)

/-- The code of the jump: the test of the divisor leads behind the division. -/
def guardedJumpCode : List Expr :=
  let r := fun i => Expr.reg ⟨.int64, .hard (gpr i), false⟩
  let jump := fun c i => Expr.unary (.jcc c) .void (.label ⟨i⟩)
  [.binary .test .int64 (r 6) (r 6), jump .eq 1, .binary .assign .int64 (r 10) (.const (.int64 10)),
    .binary .assign .int64 (r 0) (r 10), .binary (.compound .quo) .int64 (r 0) (r 6), .binary .assign .int64 (r 10) (r 0),
    .binary .cmp .int64 (r 10) (.const (.int64 1)), jump .gt 0, .label ⟨1⟩]

/-- With the divisor zero the jump is not taken, and no division is executed. -/
theorem exec_condition_guardedQuotient :
    let A : Activation := ⟨frameOf guardedJump #[], 0x1000, 0, rfl, by simp [frameOf, allocate_guardedJump]⟩
    let σ : Store := ⟨fun _ => 0, fun _ => 0⟩
    let m : Machine := ⟨fun g => if g = rsp then 0x1000 else 0, fun _ => 0, none⟩
    let w : World := ⟨fun _ => 0, fun _ _ _ => none, fun _ _ => .zero .void⟩
    let s : Session := { labels := (LabelPool.fresh {} none).2 }
    let s' : Session := { labels := (s.labels.fresh none).2, items := (guardedJumpCode.map .instr).toArray }
    guardedJump.OneKind ∧ guardedQuotient.eval A.isOutside σ = some (.bool false) ∧ Represents A guardedJump 1 σ m ∧
      Gives A.frame (jumpIf ⟨0⟩ guardedQuotient true) s () s' ∧ s'.tempPeak ≤ A.limit ∧
      guardedQuotient.run w σ = some (.bool false, σ) ∧ ∃ code, s'.items.toList = [] ++ code.map .instr ∧
        ShortCircuits A.frame (Represents A guardedJump 1 σ) (·.eval A.isOutside σ) guardedQuotient code m ∧
        ∃ m', exec code (.at m) = (if (Const.bool false).asBool = true then .seek ⟨0⟩ m' else .at m') ∧
          Represents A guardedJump 1 σ m' ∧ Keeps (A.free s.mark) m m' := by
  intro A σ m w s s'
  have hval : guardedQuotient.eval A.isOutside σ = some (.bool false) := by cbv
  have hrep : Represents A guardedJump 1 σ m := by
    refine ⟨rfl, ?_, fun _ _ => rfl⟩
    rw [intervals_guardedJump]
    intro iv hiv _ _ q hq
    cases List.mem_singleton.1 hiv
    have hres : A.frame.resolve (Interval.reg ⟨256, .int64, 0, 1⟩) = .ok (.reg ⟨.int64, .hard (gpr 6), false⟩) := by cbv
    cases hres.symm.trans hq
    exact .reg rfl (by decide) rfl
  have hgives : Gives A.frame (jumpIf ⟨0⟩ guardedQuotient true) s () s' :=
    ⟨#[], (guardedJumpCode.map fun e => .selected (.instr e)).toArray, by cbv⟩
  have hframe : A.frame = frameOf guardedJump #[] := rfl
  have hi : guardedJump.code[0]? = some (.binary .jumpIf .void (.label ⟨0⟩) guardedQuotient) := rfl
  have hregs : ∀ r ∈ guardedQuotient.regs, r ∈ (Expr.binary .jumpIf .void (.label ⟨0⟩) guardedQuotient).regs :=
    fun _ hr => List.mem_append_right _ hr
  exact ⟨oneKind_guardedJump, hval, hrep, hgives, le_rfl, exec_condition w hframe oneKind_guardedJump hi hregs
    built_guardedQuotient rfl rfl rfl hval Nat.zero_lt_one hgives le_rfl hrep⟩

end Conditions

end JitBackend.Amd64
