import JitBackend.Amd64.Statement
import JitBackend.Proofs.Amd64.Growth
import JitBackend.Proofs.Evaluation

/-!
# Selection only appends

Whatever selection makes of an expression, it appends instructions whose labels are new, each placed once (`lays`), also
where it passes the expression through.
-/

namespace JitBackend.Amd64

open Lower

attribute [grind =] jumpIf selectReturn statement

section Parts

variable {f : Frame}

instance : Grows f (get : Lower Session) where
  grown h := by
    obtain ⟨log, log', h⟩ := h
    cases h
    exact ⟨[], .refl _⟩

instance (dst : Expr) (g k : Kind) (x : Lower Expr) [hx : Grows f x] : Grows f (castInto dst g k x) := by
  unfold castInto
  refine hx.bind fun src => ?_
  split <;> infer_instance

instance (dst : Expr) (left : Bool) (y : Lower Expr) [hy : Grows f y] : Grows f (shiftInto dst left y) := by
  unfold shiftInto
  refine hy.bind fun count => ?_
  split <;> infer_instance

instance (dst : Expr) (op : ArithOp) (y : Lower Expr) [Grows f y] : Grows f (divideInto dst op y) := by
  unfold divideInto
  infer_instance

instance (dst : Expr) (op : ArithOp) (y : Lower Expr) [Grows f y] : Grows f (opAssign dst op y) := by
  unfold opAssign
  cases op <;> infer_instance

instance (k : Kind) (x y : Lower Expr) [Grows f x] [Grows f y] : Grows f (testBits k x y) := by
  unfold testBits
  infer_instance

instance (k : Kind) (c : Cond) (x y : Lower Expr) [Grows f x] [Grows f y] : Grows f (compareFlags k c x y) := by
  unfold compareFlags
  infer_instance

instance (op : LogicOp) (p : Expr) (left right : Expr → Lower Unit) [hl : Grows f (left p)] [hr : Grows f (right p)] :
    Grows f (logicAt op p left right) where
  grown h := by
    obtain ⟨s₁, s₂, hleft, hright, rfl⟩ := logicAt_gives h
    obtain ⟨a, ha⟩ := hl.grown hleft
    obtain ⟨b, hb⟩ := hr.grown hright
    exact ⟨_, grown_logic ha hb⟩

instance (op : LogicOp) (y dst : Expr) (left right : Expr → Lower Unit) [∀ p, Grows f (left p)] [∀ p, Grows f (right p)] :
    Grows f (logicInto op y dst left right) := by
  unfold logicInto
  infer_instance

/-! ## Calls -/

theorem grows_forM {α : Type} {k : α → Lower Unit} (hk : ∀ a, Grows f (k a)) (as : List α) : Grows f (as.forM k) := by
  induction as with
  | nil => exact inferInstanceAs (Grows f (pure ()))
  | cons a as ih =>
    exact inferInstanceAs (Grows f (k a >>= fun _ => as.forM k))

instance (rs : List HardReg) : Grows f (saveScratch rs) := by
  induction rs with
  | nil => exact inferInstanceAs (Grows f (pure []))
  | cons r rs ih =>
    rw [saveScratch]
    infer_instance

instance (l : Label) (n : Option String) (sig : Signature) (args : List Expr) : Grows f (emit (.call l n sig args)) :=
  have := steady_emit (f := f) (e := .call l n sig args) rfl
  inferInstance

/-- The parts of a call: a warning if it has arguments, the call between saving and restoring, and its result. -/
theorem emitCall_eq (e : Expr) : emitCall e = (do
    (if e.children.isEmpty then pure () else warn e)
    releasing (do
      let saved ← saveScratch ((← get).liveScratch (← read))
      emit e
      saved.reverse.forM fun p => emitAssign .int64 (fixed .int64 p.1) p.2)
    return if e.kind.isVoid then nothing else fixed e.kind rax) := by
  unfold emitCall
  cases e.children.isEmpty
  · rfl
  · simp

instance (l : Label) (n : Option String) (sig : Signature) (args : List Expr) : Grows f (emitCall (.call l n sig args)) := by
  have hrestore : ∀ saved : List (HardReg × Expr),
      Grows f (saved.reverse.forM fun p => emitAssign .int64 (fixed .int64 p.1) p.2) := fun saved =>
    grows_forM (fun _ => inferInstance) _
  rw [emitCall_eq]
  infer_instance

instance (l : Label) (n : Option String) (sig : Signature) (args : List Expr) :
    Grows f (callValue (.call l n sig args)) := by
  unfold callValue
  infer_instance

end Parts

/-! ## Expressions -/

/-- Whatever is made of an expression only appends code with new labels. -/
structure Lays (f : Frame) (e : Expr) : Prop where
  value : Grows f (value e)
  into : ∀ dst origin, Grows f (into dst e origin)
  target : Grows f (resolveTarget e)
  term : ∀ t, Grows f (addTerm t e)
  bits : ∀ k a m, e = .binary (.arith .and) k a m → Grows f (Amd64.value a) ∧ Grows f (Amd64.value m)

section Expressions

variable {f : Frame} {x y e : Expr}

theorem lays_addOpaque (hv : Grows f (value e)) (t : Terms) : Grows f (addOpaque t e) := by
  rw [addOpaque]
  infer_instance

theorem lays_addNode (hx : Lays f x) (hy : Lays f y) (t : Terms) (shape : Shape) : Grows f (addNode t shape x y) := by
  have := hx.term
  have := hy.term
  have := hx.value
  rw [addNode.eq_def]
  cases shape <;> infer_instance

theorem lays_address (he : Lays f e) : Grows f (address e) := by
  have := he.term
  rw [address]
  infer_instance

theorem lays_leaInto (hx : Lays f x) (hy : Lays f y) (dst : Expr) (k : Kind) (op : ArithOp) :
    Grows f (leaInto dst k op x y) := by
  have := lays_addNode hx hy
  rw [leaInto]
  split <;> infer_instance

theorem lays_arith (hx : Lays f x) (hy : Lays f y) (dst : Expr) (k : Kind) (op : ArithOp) (origin : Option Expr) :
    Grows f (arith dst k op x y origin) := by
  have := hx.value
  have := hy.value
  have := hx.into
  have := lays_leaInto hx hy
  rw [arith]
  refine Grows.bind inferInstance fun _ => Grows.bind inferInstance fun _ => ?_
  split
  · infer_instance
  refine Grows.bind inferInstance fun _ => ?_
  split
  · infer_instance
  refine Grows.bind inferInstance fun _ => ?_
  split <;> infer_instance

theorem lays_flags (hx : Lays f x) (hy : Lays f y) (op : CompareOp) : Grows f (flags op x y) := by
  have := hx.value
  have := hy.value
  unfold flags
  refine Grows.releasing ?_
  split
  · split
    · rename_i k a m
      obtain ⟨ha, hm⟩ := hx.bits k a m rfl
      infer_instance
    · infer_instance
  · infer_instance

theorem lays_value (hv : value e = do let t ← temp e.kind (.value e); into t e none; return t)
    (hinto : ∀ dst origin, Grows f (into dst e origin)) : Grows f (value e) := by
  rw [hv]
  infer_instance

theorem lays_unary {op : UnaryOp} {k : Kind} (hx : Lays f x) : Lays f (.unary op k x) := by
  have := hx.value
  have := hx.into
  have hinto : ∀ dst origin, Grows f (into dst (.unary op k x) origin) := by
    intro dst origin
    rw [into.eq_def]
    cases op <;> (dsimp only; infer_instance)
  have hvalue : Grows f (value (.unary op k x)) := lays_value (by rw [value.eq_def]) hinto
  refine ⟨hvalue, hinto, ?_, fun t => ?_, nofun⟩
  · rw [resolveTarget.eq_def]
    infer_instance
  · have := hx.term t
    have := lays_addOpaque hvalue t
    rw [addTerm.eq_def]
    cases op <;> (dsimp only; infer_instance)

theorem lays_binary {op : BinaryOp} {k : Kind} (hx : Lays f x) (hy : Lays f y) : Lays f (.binary op k x y) := by
  have := hx.value
  have := hy.value
  have := hx.into
  have := hy.into
  have := hx.target
  have := fun op => lays_flags hx hy op
  have := fun dst k op origin => lays_arith hx hy dst k op origin
  have hinto : ∀ dst origin, Grows f (into dst (.binary op k x y) origin) := by
    intro dst origin
    rw [into.eq_def]
    cases op <;> (dsimp only; (try rw [assign]); (try rw [compound]); infer_instance)
  have hvalue : Grows f (value (.binary op k x y)) := lays_value (by rw [value.eq_def]) hinto
  refine ⟨hvalue, hinto, ?_, fun t => ?_, ?_⟩
  · rw [resolveTarget.eq_def]
    infer_instance
  · have := lays_addNode hx hy t
    have := lays_addOpaque hvalue t
    rw [addTerm.eq_def]
    cases op <;> (dsimp only; first | infer_instance | (split <;> infer_instance))
  · rintro k a m ⟨⟩
    exact ⟨hx.value, hy.value⟩

/-- An expression that is one term of an address. -/
theorem lays_leaf (hvalue : Grows f (value e)) (hinto : ∀ dst origin, Grows f (into dst e origin))
    (htarget : Grows f (resolveTarget e)) (hterm : ∀ t, addTerm t e = addOpaque t e)
    (hbits : ∀ k a m, e ≠ .binary (.arith .and) k a m) : Lays f e :=
  ⟨hvalue, hinto, htarget, fun t => hterm t ▸ lays_addOpaque hvalue t, fun k a m h => absurd h (hbits k a m)⟩

theorem lays (e : Expr) : Lays f e := by
  induction e with
  | unary op k x ih => exact lays_unary ih
  | binary op k x y ihx ihy => exact lays_binary ihx ihy
  | mem k ro a ih =>
    have := lays_address ih
    have hvalue : Grows f (value (.mem k ro a)) := by
      rw [value.eq_def]
      infer_instance
    refine lays_leaf hvalue (fun dst origin => ?_) ?_ (fun t => ?_) nofun
    · rw [into.eq_def]
      infer_instance
    · rw [resolveTarget.eq_def]
      infer_instance
    · rw [addTerm.eq_def]
  | const c =>
    refine ⟨?_, fun dst origin => ?_, ?_, fun t => ?_, nofun⟩
    · rw [value.eq_def]
      infer_instance
    · rw [into.eq_def]
      infer_instance
    · rw [resolveTarget.eq_def]
      infer_instance
    · rw [addTerm.eq_def]
      infer_instance
  | reg | memAt | label | call =>
    refine lays_leaf ?_ (fun dst origin => ?_) ?_ (fun t => ?_) nofun
    · rw [value.eq_def]
      infer_instance
    · rw [into.eq_def]
      infer_instance
    · rw [resolveTarget.eq_def]
      infer_instance
    · rw [addTerm.eq_def]
  | ret vs ih =>
    have hinto : ∀ dst origin, Grows f (into dst (.ret vs) origin) := by
      intro dst origin
      rw [into.eq_def]
      infer_instance
    have hvalue : Grows f (value (.ret vs)) := lays_value (by rw [value.eq_def]) hinto
    refine lays_leaf hvalue hinto ?_ (fun t => ?_) nofun
    · rw [resolveTarget.eq_def]
      infer_instance
    · rw [addTerm.eq_def]

end Expressions

/-! ## Conditional jumps -/

section Jumps

variable {f : Frame}

/-- The code of a condition that may be settled by its left operand. -/
theorem grown_skip {s s₁ s₂ : Session} {a b : List Expr}
    (ha : Session.Grown { s with labels := (s.labels.fresh none).2 } s₁ a) (hb : s₁.Grown s₂ b) :
    s.Grown { s₂ with items := s₂.items.push (.instr (.label ⟨s.labels.size⟩)) } (a ++ b ++ [.label ⟨s.labels.size⟩]) := by
  have hsize : ((s.labels.fresh none).2).size = s.labels.size + 1 := by simp [LabelPool.fresh, LabelPool.size]
  refine ⟨by simp [hb.items, ha.items], ha.peak.trans hb.peak, ?_⟩
  refine (ha.fresh.append hb.fresh).issue [⟨s.labels.size⟩] ?_ (by simp [hsize, Nat.add_comm]) (by simp) (by simp [hsize])
  rw [placed_append]
  exact List.perm_append_comm

theorem grows_jumpIf (c : Expr) : ∀ l sense, Grows f (jumpIf l c sense) := by
  have htest : ∀ (c : Expr) (l : Label) (sense : Bool), Grows f (do
      releasing do testZero .bool (← value c)
      jcc (if sense then .ne else .eq) l) := by
    intro c l sense
    have := (lays (f := f) c).value
    infer_instance
  induction c with
  | const c =>
    intro l sense
    have := steady_emit (f := f) (e := .jumpTo l) rfl
    rw [jumpIf]
    infer_instance
  | reg r => exact fun l sense => htest _ l sense
  | mem k ro a => exact fun l sense => htest _ l sense
  | memAt k ro m => exact fun l sense => htest _ l sense
  | label l' => exact fun l sense => htest _ l sense
  | ret vs => exact fun l sense => htest _ l sense
  | call => exact fun l sense => htest _ l sense
  | unary op k x ih =>
    intro l sense
    by_cases hop : op = .lnot
    · subst hop
      rw [jumpIf]
      exact ih l _
    · rw [jumpIf]
      · exact htest _ l sense
      all_goals simp [hop]
  | binary op k x y ihx ihy =>
    intro l sense
    cases op with
    | compare op =>
      have := lays_flags (lays (f := f) x) (lays y) op
      rw [jumpIf]
      infer_instance
    | logic op =>
      rw [jumpIf]
      split
      · refine ⟨fun h => ?_⟩
        obtain ⟨skip, s₁, hl, h₁⟩ := h.bind
        obtain ⟨u₁, s₂, hx, h₂⟩ := h₁.bind
        obtain ⟨u₂, s₃, hy, h₃⟩ := h₂.bind
        obtain ⟨rfl, rfl⟩ := hl.newLabel
        obtain ⟨a, ha⟩ := (ihx _ _).grown hx
        obtain ⟨b, hb⟩ := (ihy _ _).grown hy
        obtain rfl := h₃.emit
        exact ⟨_, grown_skip ha hb⟩
      · have := ihx l sense
        have := ihy l sense
        infer_instance
    | arith | assign | compound | jumpIf | cmp | test =>
      rw [jumpIf]
      · exact htest _ l sense
      all_goals simp

end Jumps

/-! ## Instances -/

section Instances

variable {f : Frame}

instance (e : Expr) : Grows f (value e) := (lays e).value

instance (dst e : Expr) (origin : Option Expr) : Grows f (into dst e origin) := (lays e).into dst origin

instance (e : Expr) : Grows f (resolveTarget e) := (lays e).target

instance (t : Terms) (e : Expr) : Grows f (addTerm t e) := (lays e).term t

instance (t : Terms) (s : Shape) (x y : Expr) : Grows f (addNode t s x y) := lays_addNode (lays x) (lays y) t s

instance (e : Expr) : Grows f (address e) := lays_address (lays e)

instance (dst : Expr) (k : Kind) (op : ArithOp) (x y : Expr) : Grows f (leaInto dst k op x y) :=
  lays_leaInto (lays x) (lays y) dst k op

instance (op : CompareOp) (x y : Expr) : Grows f (flags op x y) := lays_flags (lays x) (lays y) op

instance (l : Label) (c : Expr) (sense : Bool) : Grows f (jumpIf l c sense) := grows_jumpIf c l sense

end Instances

end JitBackend.Amd64
