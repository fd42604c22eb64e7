import JitBackend.Amd64.Select
import JitBackend.Proofs.Lowering

/-!
# Selection for amd64 only appends

Every function of selection appends instructions with new labels, and those of moves, arithmetic and comparisons keep
the temporaries in use. The functions on addresses give back scratch registers that they took themselves, so for them
this depends on where the soft registers are.
-/

namespace JitBackend.Amd64

open Lower

attribute [grind =] value into arith leaInto flags resolveTarget assign compound addTerm addOpaque addNode address

variable {f : Frame}

/-! ## Instructions on operands -/

instance (e : Expr) : Steady f (warn e) := inferInstanceAs (Steady f (note (.passedThrough e) : Lower Unit))

instance (k : Kind) (dst src : Expr) : Steady f (emitAssign k dst src) :=
  inferInstanceAs (Steady f (emit (.binary .assign k dst src)))

instance (c : Cond) (l : Label) : Steady f (jcc c l) :=
  inferInstanceAs (Steady f (emit (.unary (.jcc c) .void (.label l))))

instance (dst : Expr) (c : Const) : Steady f (storeConst dst c) := by
  unfold storeConst
  infer_instance

instance (dst src : Expr) : Steady f (mov dst src) := by
  unfold mov
  split
  · infer_instance
  · split <;> infer_instance

instance (dst e : Expr) : Steady f (passThrough dst e) := by
  unfold passThrough
  infer_instance

instance (v : Expr) : Steady f (toRegister v) := by
  unfold toRegister
  split <;> infer_instance

instance (dst src : Expr) : Steady f (legalSource dst src) := by
  unfold legalSource
  infer_instance

instance (dst : Expr) (k : Kind) (src : Expr) : Steady f (widen dst k src) := by
  unfold widen
  infer_instance

instance (dst : Expr) (g k : Kind) (x : Lower Expr) [hx : Steady f x] : Steady f (castInto dst g k x) := by
  unfold castInto
  refine hx.bind fun src => ?_
  split <;> infer_instance

instance (dst : Expr) (left : Bool) (y : Lower Expr) [hy : Steady f y] : Steady f (shiftInto dst left y) := by
  unfold shiftInto
  refine hy.bind fun count => ?_
  split <;> infer_instance

instance (dst : Expr) (op : ArithOp) (y : Lower Expr) [Steady f y] : Steady f (divideInto dst op y) := by
  unfold divideInto
  infer_instance

instance (dst v : Expr) : Steady f (inverted dst v) := by
  unfold inverted
  split <;> infer_instance

instance (dst : Expr) (op : ArithOp) (y : Lower Expr) [Steady f y] : Steady f (opAssign dst op y) := by
  unfold opAssign
  cases op <;> infer_instance

instance (k : Kind) (v : Expr) : Steady f (testZero k v) := by
  unfold testZero
  split <;> infer_instance

instance (v : Expr) : Steady f (toPlace v) := by
  unfold toPlace
  infer_instance

instance (k : Kind) (p q : Expr) : Steady f (testOperands k p q) := by
  unfold testOperands
  infer_instance

instance (k : Kind) (x y : Lower Expr) [Steady f x] [Steady f y] : Steady f (testBits k x y) := by
  unfold testBits
  infer_instance

instance (k : Kind) (a b : Expr) : Steady f (compareOperands k a b) := by
  unfold compareOperands
  infer_instance

instance (k : Kind) (c : Cond) (x y : Lower Expr) [Steady f x] [Steady f y] : Steady f (compareFlags k c x y) := by
  unfold compareFlags
  infer_instance

/-! ## Addresses -/

instance (t : Terms) : Steady f t.foldTarget := by
  unfold Terms.foldTarget
  refine Steady.bind inferInstance fun g => ?_
  dsimp only
  split
  · infer_instance
  · refine Steady.bind inferInstance fun r => ?_
    split <;> infer_instance

instance {α : Type} (o : Option α) (k : α → Lower Unit) [∀ a, Grows f (k a)] : Grows f (o.forM k) := by
  cases o <;> unfold Option.forM <;> infer_instance

instance (t : Terms) : Grows f t.fold := by
  unfold Terms.fold
  infer_instance

instance (t : Terms) : Grows f t.makeRoom := by
  unfold Terms.makeRoom
  infer_instance

instance (t : Terms) (r : HardReg) (s : Scale) : Grows f (t.place r s) := by
  unfold Terms.place
  infer_instance

instance (v : Expr) : Steady f (toHard v) := by
  unfold toHard
  refine Steady.bind inferInstance fun r => ?_
  split <;> infer_instance

instance (t : Terms) : Grows f t.finish := by
  unfold Terms.finish
  infer_instance

instance (dst : Expr) (k : Kind) (a : AddrMode) : Steady f (loadAddress dst k a) := by
  unfold loadAddress
  split <;> infer_instance

/-! ## Logical operations -/

/-- The place was taken as a temporary between the two sessions, at the mark that it comes with. -/
def TakenBetween (f : Frame) (s s' : Session) (c : Mark × Expr) : Prop :=
  ∃ (s₁ s₂ : Session) (p : Purpose), c.1 = s₁.mark ∧ s.mark ≤ s₁.mark ∧ s₁.temp f .bool p = (.ok c.2, s₂) ∧
    s₂.tempPeak ≤ s'.tempPeak

theorem TakenBetween.le {s s' : Session} {c : Mark × Expr} (h : TakenBetween f s s' c) : s.mark ≤ c.1 := by
  obtain ⟨s₁, -, -, hmark, hle, -⟩ := h
  exact hmark ▸ hle

/-- What a search for a place begins with: nothing, or a temporary from which the search goes on. -/
theorem refuge_cases {e dst : Expr} {s s' : Session} {chain : List (Mark × Expr)} (h : refuge f e dst s = (.ok chain, s')) :
    chain = [] ∧ s' = s ∨ ∃ p t s₁ rest, chain = (s.mark, t) :: rest ∧ s.temp f .bool p = (.ok t, s₁) ∧
      refuge f e t s₁ = (.ok rest, s') := by
  rw [refuge] at h
  split at h
  · cases h
  · cases h
    exact .inl ⟨rfl, rfl⟩
  · split at h
    · cases h
    · rename_i t s₁ ht
      rcases hrest : refuge f e t s₁ with ⟨_ | rest, s₂⟩
      · rw [hrest] at h
        cases h
      · rw [hrest] at h
        cases h
        exact .inr ⟨_, t, s₁, rest, rfl, ht, hrest⟩

theorem refuge_eq_nil {e dst : Expr} {s s' : Session} (h : refuge f e dst s = (.ok [], s')) : s' = s := by
  rcases refuge_cases h with ⟨-, hs⟩ | ⟨_, _, _, _, hcons, -⟩
  · exact hs
  · cases hcons

theorem refuge_eq_cons {e dst : Expr} {s s' : Session} {c : Mark × Expr} {rest : List (Mark × Expr)}
    (h : refuge f e dst s = (.ok (c :: rest), s')) :
    ∃ p s₁, c.1 = s.mark ∧ s.temp f .bool p = (.ok c.2, s₁) ∧ refuge f e c.2 s₁ = (.ok rest, s') := by
  rcases refuge_cases h with ⟨hnil, -⟩ | ⟨p, t, s₁, rest', hcons, ht, hrest⟩
  · cases hnil
  · cases hcons
    exact ⟨p, s₁, rfl, ht, hrest⟩

/-- The places that are taken for a logical operand come with marks that are in use already. -/
theorem refuge_below {e dst : Expr} {s s' : Session} {chain : List (Mark × Expr)} (h : refuge f e dst s = (.ok chain, s')) :
    (s'.items = s.items ∧ s'.labels = s.labels ∧ s.tempPeak ≤ s'.tempPeak ∧ s.mark ≤ s'.mark) ∧
      ∀ c ∈ chain, TakenBetween f s s' c := by
  induction chain generalizing dst s with
  | nil =>
    obtain rfl := refuge_eq_nil h
    exact ⟨⟨rfl, rfl, le_rfl, le_rfl⟩, by simp⟩
  | cons c rest ih =>
    obtain ⟨p, s₁, hmark, ht, hrest⟩ := refuge_eq_cons h
    obtain ⟨hi, hl, hp, hm⟩ := temp_below ht
    obtain ⟨⟨hi', hl', hp', hm'⟩, hall⟩ := ih hrest
    refine ⟨⟨hi'.trans hi, hl'.trans hl, hp.trans hp', hm.trans hm'⟩, List.forall_mem_cons.2 ⟨?_, fun c hc => ?_⟩⟩
    · exact ⟨s, s₁, p, hmark, le_rfl, ht, hp'⟩
    · obtain ⟨s₃, s₄, p, hmark, hle, htemp, hpeak⟩ := hall c hc
      exact ⟨s₃, s₄, p, hmark, hm.trans hle, htemp, hpeak⟩

instance (e dst : Expr) : Steady f (change fun f => refuge f e dst) := steady_change fun h => (refuge_below h).1

instance (dst : Expr) (chain : List (Mark × Expr)) : Grows f (unwind dst chain) := by
  induction chain generalizing dst with
  | nil => exact inferInstanceAs (Grows f (pure ()))
  | cons c chain ih =>
    unfold unwind
    infer_instance

/-- A mark that is in use at all the places stays in use. -/
theorem unwind_below {μ : Mark} : ∀ {chain : List (Mark × Expr)} {dst : Expr} {s s' : Session} {u : Unit},
    Gives f (unwind dst chain) s u s' → (∀ c ∈ chain, μ ≤ c.1) → μ ≤ s.mark → μ ≤ s'.mark
  | [], dst, s, s', u, h, _, hμ => by
    obtain ⟨-, rfl⟩ := Gives.pure h
    exact hμ
  | (m, t) :: chain, dst, s, s', u, h, hall, hμ => by
    rw [unwind] at h
    obtain ⟨u₁, s₁, h₁, h₂⟩ := h.bind
    obtain ⟨u₂, s₂, h₃, h₄⟩ := h₂.bind
    obtain rfl := h₄.modify
    have hm := hall _ List.mem_cons_self
    have hle := (unwind_below h₁ (fun c hc => hall c (List.mem_cons_of_mem _ hc)) hμ).trans (Steady.below h₃)
    exact ⟨le_min hm.1 hle.1, le_min hm.2 hle.2⟩

/-- The test of the left operand of a logical operation. -/
def logicTest (p : Expr) : Expr := .binary .cmp .bool p (.const (Const.bool false))

/-- The jump behind a logical operation that its left operand settles. -/
def logicJump (op : LogicOp) (l : Label) : Expr :=
  .unary (.jcc (match op with | .and => .eq | .or => .ne)) .void (.label l)

/-- The parts of a logical operation: its left operand, the test, its right operand and the label. -/
theorem logicAt_gives {op : LogicOp} {p : Expr} {left right : Expr → Lower Unit} {s s' : Session} {u : Unit}
    (h : Gives f (logicAt op p left right) s u s') : ∃ s₁ s₂,
    Gives f (left p) { s with labels := (s.labels.fresh none).2 } () s₁ ∧
    Gives f (right p) { s₁ with
      items := (s₁.items.push (.instr (logicTest p))).push (.instr (logicJump op ⟨s.labels.size⟩)) } () s₂ ∧
    s' = { s₂ with items := s₂.items.push (.instr (.label ⟨s.labels.size⟩)) } := by
  unfold logicAt at h
  obtain ⟨l, s₁, hl, h₁⟩ := h.bind
  obtain ⟨u₁, s₂, hleft, h₂⟩ := h₁.bind
  obtain ⟨u₂, s₃, hcmp, h₃⟩ := h₂.bind
  obtain ⟨u₃, s₄, hjcc, h₄⟩ := h₃.bind
  obtain ⟨u₄, s₅, hright, h₅⟩ := h₄.bind
  obtain ⟨rfl, rfl⟩ := hl.newLabel
  obtain rfl := hcmp.emit
  obtain rfl := Gives.emit hjcc
  obtain rfl := h₅.emit
  exact ⟨s₂, s₅, hleft, hright, rfl⟩

/-- The code of a logical operation. -/
theorem grown_logic {op : LogicOp} {p : Expr} {s s₁ s₂ : Session} {a b : List Expr}
    (ha : Session.Grown { s with labels := (s.labels.fresh none).2 } s₁ a)
    (hb : Session.Grown { s₁ with
      items := (s₁.items.push (.instr (logicTest p))).push (.instr (logicJump op ⟨s.labels.size⟩)) } s₂ b) :
    s.Grown { s₂ with items := s₂.items.push (.instr (.label ⟨s.labels.size⟩)) }
      (a ++ (logicTest p :: logicJump op ⟨s.labels.size⟩ :: (b ++ [.label ⟨s.labels.size⟩]))) := by
  have hsize : ((s.labels.fresh none).2).size = s.labels.size + 1 := by simp [LabelPool.fresh, LabelPool.size]
  have hplaced : placed (a ++ (logicTest p :: logicJump op ⟨s.labels.size⟩ :: (b ++ [.label ⟨s.labels.size⟩]))) =
      placed a ++ (placed b ++ [⟨s.labels.size⟩]) := by
    rw [placed_append]
    exact congrArg (placed a ++ ·) (placed_append b _)
  refine ⟨by simp [hb.items, ha.items], ha.peak.trans hb.peak, ?_⟩
  refine (ha.fresh.append hb.fresh).issue [⟨s.labels.size⟩] ?_ (by simp [hsize, Nat.add_comm]) (by simp) (by simp [hsize])
  rw [hplaced, ← List.append_assoc, placed_append]
  exact List.perm_append_comm

instance (op : LogicOp) (p : Expr) (left right : Expr → Lower Unit) [hl : Steady f (left p)] [hr : Steady f (right p)] :
    Steady f (logicAt op p left right) where
  grown h := by
    obtain ⟨s₁, s₂, hleft, hright, rfl⟩ := logicAt_gives h
    obtain ⟨a, ha⟩ := hl.grown hleft
    obtain ⟨b, hb⟩ := hr.grown hright
    exact ⟨_, grown_logic ha hb⟩
  below h := by
    obtain ⟨s₁, s₂, hleft, hright, rfl⟩ := logicAt_gives h
    have h₁ := hl.below hleft
    have h₂ := hr.below hright
    exact ⟨h₁.1.trans h₂.1, h₁.2.trans h₂.2⟩

/-- A logical operation computed in a safe place and moved back. -/
instance (op : LogicOp) (y dst : Expr) (left right : Expr → Lower Unit) [hl : ∀ p, Steady f (left p)]
    [hr : ∀ p, Steady f (right p)] : Steady f (do
      let chain ← change fun f => refuge f y dst
      logicAt op ((chain.getLast?.map (·.2)).getD dst) left right
      unwind dst chain) := by
  refine .of_grows inferInstance ?_
  intro s a s' h
  obtain ⟨chain, s₁, hchain, h₁⟩ := h.bind
  obtain ⟨u, s₂, hlogic, h₂⟩ := h₁.bind
  obtain ⟨⟨-, -, -, hle⟩, hall⟩ := refuge_below hchain.change
  exact unwind_below h₂ (fun c hc => (hall c hc).le) (hle.trans (Steady.below hlogic))

instance (op : LogicOp) (y dst : Expr) (left right : Expr → Lower Unit) [hl : ∀ p, Steady f (left p)]
    [hr : ∀ p, Steady f (right p)] : Steady f (logicInto op y dst left right) := by
  unfold logicInto
  infer_instance

end JitBackend.Amd64
