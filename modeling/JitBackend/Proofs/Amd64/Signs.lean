import JitBackend.Proofs.Amd64.Appending
import JitBackend.Proofs.Amd64.Temporaries

/-!
# What the parts of an expression leave in its code

Selection works on the operands of an expression wherever they stand, and it takes nothing back of what it appended for
them. So what is in the code of a part is in the code of the whole.

A `Sign` is something in the code between two sessions. `Lower.Leaves` says when a computation of selection leaves one; it
composes along sequences, so that there is one lemma for each function of selection. A `Search` looks for the sign of some
parts of an expression, and `Spots` says that all that selection makes of the expression leaves it.
-/

namespace JitBackend

/-- Items are appended, and no stack is given back. -/
structure Session.Precedes (s s' : Session) : Prop where
  items : s.items.toList <+: s'.items.toList
  peak : s.tempPeak ≤ s'.tempPeak

namespace Session

variable {s s₁ s' : Session}

theorem Precedes.refl (s : Session) : s.Precedes s := ⟨List.prefix_rfl, le_rfl⟩

theorem Precedes.trans (h : s.Precedes s₁) (h' : s₁.Precedes s') : s.Precedes s' :=
  ⟨h.items.trans h'.items, h.peak.trans h'.peak⟩

theorem Precedes.push (s : Session) (i : Item) : s.Precedes { s with items := s.items.push i } :=
  ⟨by simp, le_rfl⟩

theorem Grown.precedes {code : List Expr} (h : s.Grown s' code) : s.Precedes s' :=
  ⟨h.items ▸ List.prefix_append _ _, h.peak⟩

end Session

/-- Something that is seen in the code between two sessions, and then in all code around it. -/
structure Sign where
  Seen : Session → Session → Prop
  widen : ∀ {s₀ s s' s₁}, s₀.Precedes s → Seen s s' → s'.Precedes s₁ → Seen s₀ s₁

namespace Lower

/-- The computation only appends, and it leaves the sign where `B` holds. -/
def Leaves {α : Type} (f : Frame) (g : Sign) (B : Session → Prop) (act : Lower α) : Prop :=
  ∀ ⦃s a s'⦄, Gives f act s a s' → s.Precedes s' ∧ (B s → g.Seen s s')

section Rules

variable {α β : Type} {f : Frame} {g : Sign} {B D : Session → Prop} {C : Prop} {act : Lower α} {k : α → Lower β}

theorem Leaves.mono (h : Leaves f g B act) (hDB : ∀ {s}, D s → B s) : Leaves f g D act := fun _ _ _ hg =>
  ⟨(h hg).1, fun hD => (h hg).2 (hDB hD)⟩

/-- A sequence leaves the sign if one of its parts does. -/
theorem Leaves.seq {P : α → Prop} {C : α → Session → Prop} (h : Leaves f g B act)
    (hact : ∀ {s a s'}, Gives f act s a s' → P a ∧ (D s → B s ∨ C a s')) (hk : ∀ a, P a → Leaves f g (C a) (k a)) :
    Leaves f g D (act >>= k) := by
  intro s b s' hg
  obtain ⟨a, s₁, ha, hb⟩ := hg.bind
  obtain ⟨hle, hseen⟩ := h ha
  obtain ⟨hP, hD⟩ := hact ha
  obtain ⟨hle', hseen'⟩ := hk a hP hb
  refine ⟨hle.trans hle', fun hs => ?_⟩
  rcases hD hs with hB | hC
  · exact g.widen (.refl s) (hseen hB) hle'
  · exact g.widen hle (hseen' hC) (.refl s')

theorem Leaves.bind (h : Leaves f g B act) (hk : ∀ a, Leaves f g (fun _ => C) (k a)) :
    Leaves f g (fun s => B s ∨ C) (act >>= k) :=
  h.seq (P := fun _ => True) (fun _ => ⟨trivial, id⟩) fun a _ => hk a

/-- The first part leaves the sign. -/
theorem Leaves.first (h : Leaves f g B act) (hk : ∀ a, Leaves f g (fun _ => False) (k a)) : Leaves f g B (act >>= k) :=
  (h.bind hk).mono .inl

/-- The second part leaves the sign. -/
theorem Leaves.second (h : Leaves f g (fun _ => False) act) (hk : ∀ a, Leaves f g (fun _ => C) (k a)) :
    Leaves f g (fun _ => C) (act >>= k) :=
  (h.bind hk).mono .inr

/-- The second part leaves the sign with the results of the first one. -/
theorem Leaves.second_of {P : α → Prop} (h : Leaves f g (fun _ => False) act)
    (hP : ∀ {s a s'}, Gives f act s a s' → P a) (hk : ∀ a, P a → Leaves f g (fun _ => C) (k a)) :
    Leaves f g (fun _ => C) (act >>= k) :=
  h.seq (fun hg => ⟨hP hg, .inr⟩) hk

/-- The second part leaves the sign in the sessions that the first one leads to. -/
theorem Leaves.after {C : α → Session → Prop} (h : Leaves f g (fun _ => False) act)
    (hC : ∀ {s a s'}, Gives f act s a s' → B s → C a s') (hk : ∀ a, Leaves f g (C a) (k a)) : Leaves f g B (act >>= k) :=
  h.seq (P := fun _ => True) (fun hg => ⟨trivial, fun hB => .inr (hC hg hB)⟩) fun a _ => hk a

/-- The first part only looks at the session. -/
theorem Leaves.still {P : α → Prop} (hact : ∀ {s a s'}, Gives f act s a s' → P a ∧ s' = s)
    (hk : ∀ a, P a → Leaves f g B (k a)) : Leaves f g B (act >>= k) := by
  intro s b s' hg
  obtain ⟨a, s₁, ha, hb⟩ := hg.bind
  obtain ⟨hP, rfl⟩ := hact ha
  exact hk a hP hb

theorem Leaves.releasing (h : Leaves f g B act) : Leaves f g B (Lower.releasing act) := by
  intro s a s' hg
  obtain ⟨s₁, ha, rfl⟩ := hg.releasing
  have hle := (Session.release_grown s.mark s₁).precedes
  exact ⟨(h ha).1.trans hle, fun hB => g.widen (.refl s) ((h ha).2 hB) hle⟩

theorem Leaves.ite {p : Prop} [Decidable p] {act' : Lower α} (h : p → Leaves f g B act) (h' : ¬p → Leaves f g B act') :
    Leaves f g B (if p then act else act') := by
  split
  · exact h ‹_›
  · exact h' ‹_›

/-- A computation that never succeeds. -/
theorem Leaves.throw {e : Error} : Leaves f g B (MonadExcept.throw e : Lower α) := fun _ _ _ hg => hg.throw.elim

theorem leaves_of_grows [h : Grows f act] : Leaves f g (fun _ => False) act := fun _ _ _ hg =>
  ⟨(h.grown hg).choose_spec.precedes, False.elim⟩

theorem leaves_forM {xs : List β} {act : β → Lower Unit} (h : ∀ x ∈ xs, Leaves f g (fun _ => False) (act x)) :
    Leaves f g (fun _ => False) (xs.forM act) := by
  induction xs with
  | nil => exact (leaves_of_grows : Leaves f g (fun _ => False) (pure () : Lower Unit))
  | cons x xs ih =>
    rw [List.forM]
    exact (h x List.mem_cons_self).first fun _ => ih fun y hy => h y (List.mem_cons_of_mem _ hy)

theorem leaves_forM_of_mem {xs : List β} {act : β → Lower Unit} {x : β} (hmem : x ∈ xs)
    (hx : Leaves f g (fun _ => C) (act x)) (h : ∀ x ∈ xs, Leaves f g (fun _ => False) (act x)) :
    Leaves f g (fun _ => C) (xs.forM act) := by
  induction xs with
  | nil => cases hmem
  | cons y ys ih =>
    rw [List.forM]
    have hys : ∀ y ∈ ys, Leaves f g (fun _ => False) (act y) := fun z hz => h z (List.mem_cons_of_mem _ hz)
    rcases List.mem_cons.1 hmem with rfl | hmem
    · exact hx.first fun _ => leaves_forM hys
    · exact (h y List.mem_cons_self).second fun _ => ih hmem hys

end Rules

end Lower

namespace Amd64

open Lower

/-! ## Instructions on operands -/

section Operands

variable {f : Frame} {g : Sign} {B C : Prop} {dst : Expr} {op : ArithOp} {x y : Lower Expr}

theorem leaves_castInto {j k : Kind} (hx : Leaves f g (fun _ => B) x) : Leaves f g (fun _ => B) (castInto dst j k x) := by
  refine hx.first fun v => ?_
  split <;> exact leaves_of_grows

theorem leaves_opAssign (hy : Leaves f g (fun _ => B) y) : Leaves f g (fun _ => B) (opAssign dst op y) := by
  refine .releasing ?_
  cases op with
  | add | sub | and | or | xor | andNot => exact hy.first fun v => leaves_of_grows
  | mul =>
    refine .ite (fun _ => hy.first fun v => leaves_of_grows) fun _ => .ite (fun _ => ?_) fun _ => ?_
    · refine .second leaves_of_grows fun t => .second leaves_of_grows fun _ => ?_
      exact (Leaves.releasing (hy.first fun v => leaves_of_grows)).first fun _ => leaves_of_grows
    · exact hy.first fun v => leaves_of_grows
  | shl | shr =>
    refine hy.first fun v => ?_
    split <;> exact leaves_of_grows
  | quo | rem =>
    refine .ite (fun _ => ?_) fun _ => ?_
    · exact hy.first fun v => leaves_of_grows
    · exact hy.first fun v => leaves_of_grows

theorem leaves_testBits {k : Kind} (hx : Leaves f g (fun _ => B) x) (hy : Leaves f g (fun _ => C) y) :
    Leaves f g (fun _ => B ∨ C) (testBits k x y) :=
  hx.bind fun _ => hy.first fun _ => leaves_of_grows

theorem leaves_compareFlags {k : Kind} {c : Cond} (hx : Leaves f g (fun _ => B) x) (hy : Leaves f g (fun _ => C) y) :
    Leaves f g (fun _ => B ∨ C) (compareFlags k c x y) :=
  hx.bind fun _ => hy.first fun _ => leaves_of_grows

end Operands

/-! ## Expressions -/

/-- What is looked for: the sign of the parts that an expression may have `In` it. `Ready` are the places, for values of a
kind, that it may be computed into. -/
structure Search (f : Frame) extends Sign where
  In : Expr → Prop
  Ready : Kind → Expr → Session → Prop
  leaf : ∀ {e}, e.children = [] → ¬In e
  temp : ∀ {k p s t s'}, Gives f (temp k p) s t s' → Ready k t s'
  keep : ∀ {k p s s'}, s.mark ≤ s'.mark → s.tempPeak ≤ s'.tempPeak → Ready k p s → Ready k p s'

/-- The computation leaves the sign if `B`. -/
abbrev Search.Finds {α : Type} {f : Frame} (S : Search f) (B : Prop) (act : Lower α) : Prop :=
  Leaves f S.toSign (fun _ => B) act

/-- An expression with such a part is computed into a place. Parts of `origin`, the target of the assignment that `into`
works for, are left out: they are selected with the target. -/
structure Search.Asks {f : Frame} (S : Search f) (e dst : Expr) (origin : Option Expr) (s : Session) : Prop where
  part : S.In e
  other : ∀ o ∈ origin, ¬S.In o
  ready : S.Ready e.kind dst s

/-- All that selection makes of an expression with such a part leaves the sign. -/
structure Spots {f : Frame} (S : Search f) (e : Expr) : Prop where
  value : S.Finds (S.In e) (value e)
  into : ∀ dst origin, Leaves f S.toSign (S.Asks e dst origin) (into dst e origin)
  target : S.Finds (S.In e) (resolveTarget e)
  term : ∀ t, e.kind.isWord = true → S.Finds (S.In e) (addTerm t e)
  flags : ∀ op {y}, e.kind.isScalar = true → S.Finds (S.In y) (Amd64.value y) → S.Finds (S.In e ∨ S.In y) (flags op e y)

section Nodes

variable {f : Frame} {S : Search f} {e x y : Expr} {k : Kind}

theorem Spots.into_none (h : Spots S e) (dst : Expr) :
    Leaves f S.toSign (fun s => S.In e ∧ S.Ready e.kind dst s) (Amd64.into dst e none) :=
  (h.into dst none).mono fun hs => ⟨hs.1, by simp, hs.2⟩

theorem finds_addOpaque {t : Terms} (hv : S.Finds (S.In e) (value e)) : S.Finds (S.In e) (addOpaque t e) := by
  rw [addOpaque]
  exact .second leaves_of_grows fun t' => hv.first fun v => leaves_of_grows

theorem finds_address (he : Spots S e) (hk : e.kind.isWord = true) : S.Finds (S.In e) (address e) := by
  rw [address]
  exact (he.term _ hk).first fun t => leaves_of_grows

theorem finds_flags {op : CompareOp} (hx : S.Finds (S.In x) (value x)) (hy : S.Finds (S.In y) (value y))
    (hand : ∀ k a b, x = .binary (.arith .and) k a b → S.Finds (S.In x) (testBits k (value a) (value b))) :
    S.Finds (S.In x ∨ S.In y) (flags op x y) := by
  unfold flags
  refine .releasing (.ite (fun hzero => ?_) fun _ => leaves_compareFlags hx hy)
  have hy : ¬S.In y := by
    simp only [Bool.and_eq_true] at hzero
    cases y with
    | const c => exact S.leaf rfl
    | _ => cases hzero.2
  refine Leaves.mono (B := fun _ => S.In x) ?_ fun h => h.resolve_right hy
  split
  · rename_i k a b
    exact (hand k a b rfl).first fun _ => leaves_of_grows
  · exact hx.first fun v => leaves_of_grows

/-- An operation is computed into a temporary. -/
theorem finds_value (hv : value e = do let t ← temp e.kind (.value e); into t e none; return t)
    (hi : ∀ dst origin, Leaves f S.toSign (S.Asks e dst origin) (into dst e origin)) : S.Finds (S.In e) (value e) := by
  rw [hv]
  refine .after (C := fun t => S.Asks e t none) leaves_of_grows (fun hg hin => ⟨hin, by simp, S.temp hg⟩) fun t => ?_
  exact (hi t none).first fun _ => leaves_of_grows

/-- An expression that is a single term of an address. -/
theorem spots_of_opaque (hv : S.Finds (S.In e) (value e))
    (hi : ∀ dst origin, Leaves f S.toSign (S.Asks e dst origin) (into dst e origin))
    (ht : S.Finds (S.In e) (resolveTarget e)) (hterm : ∀ t, addTerm t e = addOpaque t e)
    (hand : ∀ k a b, e ≠ .binary (.arith .and) k a b) : Spots S e where
  value := hv
  into := hi
  target := ht
  term t _ := by
    rw [hterm]
    exact finds_addOpaque hv
  flags op y _ hy := finds_flags hv hy fun k a b h => absurd h (hand k a b)

/-- In an expression without operands there is nothing to spot. -/
theorem spots_of_leaf (hleaf : e.children = []) : Spots S e where
  value := leaves_of_grows.mono (S.leaf hleaf)
  into dst origin := leaves_of_grows.mono fun h => S.leaf hleaf h.part
  target := leaves_of_grows.mono (S.leaf hleaf)
  term t _ := leaves_of_grows.mono (S.leaf hleaf)
  flags op y _ hy := by
    refine finds_flags (leaves_of_grows.mono (S.leaf hleaf)) hy ?_
    rintro k a b rfl
    cases hleaf

theorem spots_mem {ro : Bool} (hin : S.In (.mem k ro x) → S.In x) (hk : x.kind = .ptr) (hx : Spots S x) :
    Spots S (.mem k ro x) := by
  have ha : S.Finds (S.In x) (address x) := finds_address hx (by rw [hk]; rfl)
  refine spots_of_opaque ?_ (fun dst origin => ?_) ?_ (fun t => by rw [addTerm]; all_goals simp) (by simp)
  · rw [value]
    exact (ha.first fun m => leaves_of_grows).mono hin
  · rw [into]
    exact (Leaves.releasing (ha.first fun m => leaves_of_grows)).mono fun h => hin h.part
  · rw [resolveTarget]
    exact (ha.first fun m => leaves_of_grows).mono hin

/-- A cast that keeps the word is no term of its own. -/
theorem spots_unary {op : UnaryOp}
    (hi : ∀ dst origin, Leaves f S.toSign (S.Asks (.unary op k x) dst origin) (into dst (.unary op k x) origin))
    (hcast : op = .cast → k.isWord = true → keepsWord k x.kind = true →
      ∀ t, S.Finds (S.In (.unary op k x)) (addTerm t x)) : Spots S (.unary op k x) := by
  have hv : S.Finds (S.In (.unary op k x)) (value (.unary op k x)) := by
    refine finds_value ?_ hi
    rw [value]
    all_goals simp
  refine ⟨hv, hi, ?_, fun t hk => ?_, fun o y _ hy => finds_flags hv hy (by simp)⟩
  · rw [resolveTarget]
    · exact .throw
    all_goals simp
  · by_cases hop : op = .cast
    · subst hop
      rw [addTerm]
      exact .ite (fun hkeeps => hcast rfl hk hkeeps t) fun _ => finds_addOpaque hv
    · rw [addTerm]
      · exact finds_addOpaque hv
      all_goals simp [hop]

/-- A sum may be more than one term, and a conjunction is tested by its operands. -/
theorem spots_binary {op : BinaryOp}
    (hi : ∀ dst origin, Leaves f S.toSign (S.Asks (.binary op k x y) dst origin) (into dst (.binary op k x y) origin))
    (hnode : ∀ a, op = .arith a → k.isWord = true → ∀ t shape, Shape.of? t a y = some shape →
      S.Finds (S.In (.binary op k x y)) (addNode t shape x y))
    (hand : op = .arith .and → S.Finds (S.In (.binary op k x y)) (testBits k (value x) (value y))) :
    Spots S (.binary op k x y) := by
  have hv : S.Finds (S.In (.binary op k x y)) (value (.binary op k x y)) := by
    refine finds_value ?_ hi
    rw [value]
    all_goals simp
  refine ⟨hv, hi, ?_, fun t hk => ?_, fun o z hk hz => finds_flags hv hz ?_⟩
  · rw [resolveTarget]
    · exact .throw
    all_goals simp
  · cases op with
    | arith a =>
      rw [addTerm]
      split
      · rename_i shape hshape
        exact hnode a rfl hk t shape hshape
      · exact finds_addOpaque hv
    | _ =>
      rw [addTerm]
      · exact finds_addOpaque hv
      all_goals simp
  · rintro g a b ⟨⟩
    exact hand rfl

end Nodes

/-! ### Operations -/

section Operations

variable {f : Frame} {S : Search f} {e x y dst : Expr} {k : Kind} {origin : Option Expr}

theorem leaves_into_word {op : UnaryOp} (hop : op = .neg ∨ op = .inv) (hk : k.isWord = true) (hx : Spots S x) :
    Leaves f S.toSign (fun s => S.In x ∧ S.Ready x.kind dst s) (into dst (.unary op k x) origin) := by
  rcases hop with rfl | rfl
  · rw [into, if_pos hk]
    exact (hx.into_none dst).first fun _ => leaves_of_grows
  · rw [into, if_pos hk]
    exact (hx.into_none dst).first fun _ => leaves_of_grows

theorem leaves_into_lnot (hx : Spots S x) :
    Leaves f S.toSign (fun s => S.In x ∧ S.Ready x.kind dst s) (into dst (.unary .lnot k x) origin) := by
  rw [into]
  exact (hx.into_none dst).first fun _ => leaves_of_grows

theorem finds_into_cast (hk : (x.kind.isScalar && k.isScalar) = true) (hx : Spots S x) :
    S.Finds (S.In x) (into dst (.unary .cast k x) origin) := by
  rw [into, if_pos hk]
  exact .releasing (leaves_castInto hx.value)

theorem finds_into_compare {op : CompareOp} (hk : x.kind.isScalar = true) (hx : Spots S x) (hy : Spots S y) :
    S.Finds (S.In x ∨ S.In y) (into dst (.binary (.compare op) k x y) origin) := by
  rw [into, if_pos hk]
  exact (hx.flags op hk hy.value).first fun _ => leaves_of_grows

theorem finds_addNode {t : Terms} {op : ArithOp} {shape : Shape} (hshape : ∃ t, Shape.of? t op y = some shape)
    (hadmits : Expr.arithAdmits op x.kind y.kind = true) (hk : x.kind.isWord = true) (hx : Spots S x) (hy : Spots S y) :
    S.Finds (S.In x ∨ S.In y) (addNode t shape x y) := by
  obtain ⟨t₀, hshape⟩ := hshape
  have hconst : ∀ {c : Const}, S.In x ∨ S.In (.const c) → S.In x := fun h => h.resolve_right (S.leaf rfl)
  rw [addNode.eq_def]
  rcases Shape.of?_eq_some hshape with ⟨rfl, rfl⟩ | ⟨c, rfl, rfl, rfl⟩ | ⟨c, s, rfl, rfl, -, -, rfl⟩ |
    ⟨c, s, rfl, rfl, -, -, -, rfl⟩ | ⟨c, s, rfl, rfl, -, -, rfl⟩
  · simp only [Expr.arithAdmits, Bool.and_eq_true, beq_iff_eq] at hadmits
    exact (hx.term t hk).bind fun t' => hy.term t' (hadmits.1 ▸ hk)
  · exact ((hx.term t hk).mono hconst).first fun t' => leaves_of_grows
  · exact .second leaves_of_grows fun t' => (hx.value.mono hconst).first fun v => leaves_of_grows
  · exact (hx.value.mono hconst).first fun v => leaves_of_grows
  · exact .second leaves_of_grows fun t' => (hx.value.mono hconst).first fun v => leaves_of_grows

theorem finds_leaInto {op : ArithOp} {shape : Shape} (hshape : Shape.of? {} op y = some shape)
    (hadmits : Expr.arithAdmits op x.kind y.kind = true) (hk : x.kind.isWord = true) (hx : Spots S x) (hy : Spots S y) :
    S.Finds (S.In x ∨ S.In y) (leaInto dst x.kind op x y) := by
  rw [leaInto, hshape]
  exact (finds_addNode ⟨_, hshape⟩ hadmits hk hx hy).first fun t => leaves_of_grows

theorem children_of_isPlace (h : isPlace f e dst origin = .ok true) : origin = some e ∨ e.children = [] := by
  unfold isPlace at h
  split at h
  · exact .inl ‹_›
  · cases e <;> first | exact .inr rfl | cases h

/-- The left operand is computed where the right one does not disturb it, and then the right one. -/
theorem leaves_operands {op : ArithOp} (hx : Spots S x) (hy : Spots S y) :
    Leaves f S.toSign (fun s => (S.In x ∨ S.In y) ∧ S.Ready x.kind dst s) (do
      if ← hazard (← read) y dst then releasing do
        let t ← temp x.kind (.note "operand")
        into t x none
        opAssign t op (value y)
        mov dst t
      else
        into dst x none
        opAssign dst op (value y)) := by
  have hboth : ∀ {p : Expr} {rest : Unit → Lower Unit}, (∀ u, S.Finds (S.In y) (rest u)) →
      Leaves f S.toSign (fun s => (S.In x ∨ S.In y) ∧ S.Ready x.kind p s) (into p x none >>= rest) := fun hrest =>
    ((hx.into_none _).bind hrest).mono fun hs => hs.1.imp_left fun h => ⟨h, hs.2⟩
  refine .still (P := fun _ => True) (fun hg => ⟨trivial, hg.read.2⟩) fun g _ => ?_
  refine .still (P := fun _ => True) (fun hg => ⟨trivial, hg.lift.2⟩) fun b _ => ?_
  refine .ite (fun _ => .releasing ?_) fun _ => hboth fun _ => leaves_opAssign hy.value
  refine .after (C := fun t s => (S.In x ∨ S.In y) ∧ S.Ready x.kind t s) leaves_of_grows (fun hg hs => ⟨hs.1, S.temp hg⟩) ?_
  exact fun t => hboth fun _ => (leaves_opAssign hy.value).first fun _ => leaves_of_grows

/-- Where a sum is not computed as an address, the rest of selection follows. -/
theorem leaves_sum {op : ArithOp} {rest : Lower Unit} (hadmits : Expr.arithAdmits op x.kind y.kind = true)
    (hk : x.kind.isWord = true) (hx : Spots S x) (hy : Spots S y)
    (hrest : Leaves f S.toSign (fun s => (S.In x ∨ S.In y) ∧ S.Ready x.kind dst s) rest) :
    Leaves f S.toSign (fun s => (S.In x ∨ S.In y) ∧ S.Ready x.kind dst s) (do
      if ← (if dst.isReg && isAddressLike x.kind op x y then releasing (leaInto dst x.kind op x y) else pure false) then
        pure ()
      else rest) := by
  by_cases hlike : (dst.isReg && isAddressLike x.kind op x y) = true
  · rw [if_pos hlike]
    cases hshape : Shape.of? {} op y with
    | none =>
      rw [leaInto, hshape]
      refine .still (P := fun b => b = false) (fun {s b s'} hg => ?_) ?_
      · obtain ⟨s₁, hpure, rfl⟩ := hg.releasing
        obtain ⟨rfl, rfl⟩ := hpure.pure
        exact ⟨rfl, by simp [Session.release, Session.mark]⟩
      · rintro b rfl
        exact hrest
    | some shape =>
      have hsum : S.Finds (S.In x ∨ S.In y) (leaInto dst x.kind op x y) := finds_leaInto hshape hadmits hk hx hy
      refine (Leaves.first (.releasing hsum) fun b => ?_).mono And.left
      exact .ite (fun _ => leaves_of_grows) fun _ => hrest.mono False.elim
  · rw [if_neg hlike]
    refine .still (P := fun b => b = false) (fun hg => hg.pure) ?_
    rintro b rfl
    exact hrest

theorem leaves_into_arith {op : ArithOp} (hadmits : Expr.arithAdmits op x.kind y.kind = true) (hk : x.kind.isWord = true)
    (hx : Spots S x) (hy : Spots S y) :
    Leaves f S.toSign (fun s => ((S.In x ∨ S.In y) ∧ ∀ o ∈ origin, ¬S.In o) ∧ S.Ready x.kind dst s)
      (into dst (.binary (.arith op) x.kind x y) origin) := by
  -- an operand that is in the place already is not selected
  have hplace : ∀ {e}, isPlace f e dst origin = .ok true → (∀ o ∈ origin, ¬S.In o) → ¬S.In e := by
    intro e he horigin
    rcases children_of_isPlace he with h | h
    · exact horigin e h
    · exact S.leaf h
  rw [into, if_pos hk, arith]
  refine .still (P := (· = f)) (fun hg => hg.read) ?_
  rintro g rfl
  refine .still (fun hg => hg.lift) fun b hb => .ite (fun htrue => ?_) fun _ => ?_
  · subst htrue
    exact (leaves_opAssign hy.value).mono fun h => h.1.1.resolve_left (hplace hb h.1.2)
  refine .still (P := fun b => b = true → isPlace g y dst origin = .ok b) (fun {s b s'} hg => ?_) fun b hb => ?_
  · split at hg
    · obtain ⟨_, s₁, hread, hlift⟩ := hg.bind
      obtain ⟨rfl, rfl⟩ := hread.read
      exact ⟨fun _ => hlift.lift.1, hlift.lift.2⟩
    · obtain ⟨rfl, rfl⟩ := hg.pure
      exact ⟨nofun, rfl⟩
  refine .ite (fun htrue => ?_) fun _ => ?_
  · subst htrue
    exact (leaves_opAssign hx.value).mono fun h => h.1.1.resolve_right (hplace (hb rfl) h.1.2)
  exact (leaves_sum hadmits hk hx hy (leaves_operands hx hy)).mono fun h => ⟨h.1.1, h.2⟩

/-! ### Logical operations -/

/-- The operands of a logical operation are computed into one place; the left one leaves it ready for the right one. -/
theorem leaves_logicAt {op : LogicOp} {p : Expr} {B C : Prop} {left right : Expr → Lower Unit}
    (hl : Leaves f S.toSign (fun s => B ∧ S.Ready .bool p s) (left p))
    (hr : Leaves f S.toSign (fun s => C ∧ S.Ready .bool p s) (right p))
    (hkeep : ∀ {s u s'}, Gives f (left p) s u s' → S.Ready .bool p s → S.Ready .bool p s') :
    Leaves f S.toSign (fun s => (B ∨ C) ∧ S.Ready .bool p s) (logicAt op p left right) := by
  intro s u s' hg
  obtain ⟨s₁, s₂, hleft, hright, rfl⟩ := logicAt_gives hg
  obtain ⟨hle, hseen⟩ := hl hleft
  obtain ⟨hle', hseen'⟩ := hr hright
  have hstart : s.Precedes { s with labels := (s.labels.fresh none).2 } := ⟨List.prefix_rfl, le_rfl⟩
  have htest := (Session.Precedes.push s₁ (.instr (logicTest p))).trans
    (.push _ (.instr (logicJump op ⟨s.labels.size⟩)))
  have hend := hle'.trans (.push s₂ (.instr (.label ⟨s.labels.size⟩)))
  refine ⟨(hstart.trans hle).trans (htest.trans hend), ?_⟩
  rintro ⟨hB | hC, hready⟩
  · exact S.widen hstart (hseen ⟨hB, S.keep (s := s) le_rfl le_rfl hready⟩) (htest.trans hend)
  · have hready := hkeep hleft (S.keep (s := s) le_rfl le_rfl hready)
    exact S.widen ((hstart.trans hle).trans htest) (hseen' ⟨hC, S.keep (s := s₁) le_rfl le_rfl hready⟩) (.push s₂ _)

/-- What a logical operation leaves, it leaves also by way of a temporary. -/
theorem leaves_logicInto {op : LogicOp} {B : Prop} {left right : Expr → Lower Unit}
    (h : ∀ p, Leaves f S.toSign (fun s => B ∧ S.Ready .bool p s) (logicAt op p left right))
    (hsafe : ∀ {s chain s'}, hazard f y dst = .ok true → Gives f (change fun f => refuge f y dst) s chain s' →
      S.Ready .bool dst s → S.Ready .bool ((chain.getLast?.map (·.2)).getD dst) s') :
    Leaves f S.toSign (fun s => B ∧ S.Ready .bool dst s) (logicInto op y dst left right) := by
  unfold logicInto
  refine .still (P := (· = f)) (fun hg => hg.read) ?_
  rintro g rfl
  refine .still (fun hg => hg.lift) fun b hb => .ite (fun htrue => .releasing ?_) fun _ => h dst
  subst htrue
  refine .after (C := fun chain s => B ∧ S.Ready .bool ((chain.getLast?.map (·.2)).getD dst) s) leaves_of_grows
    (fun hg hs => ⟨hs.1, hsafe hb hg hs.2⟩) fun chain => ?_
  exact (h _).first fun _ => leaves_of_grows

theorem leaves_into_logic {op : LogicOp} (hkx : x.kind = .bool) (hky : y.kind = .bool) (hx : Spots S x) (hy : Spots S y)
    (hkeep : ∀ {p s u s'}, Gives f (into p x none) s u s' → S.Ready .bool p s → S.Ready .bool p s')
    (hsafe : ∀ {s chain s'}, hazard f y dst = .ok true → Gives f (change fun f => refuge f y dst) s chain s' →
      S.Ready .bool dst s → S.Ready .bool ((chain.getLast?.map (·.2)).getD dst) s') :
    Leaves f S.toSign (fun s => (S.In x ∨ S.In y) ∧ S.Ready .bool dst s) (into dst (.binary (.logic op) k x y) origin) := by
  rw [into]
  have hl := fun p => hkx ▸ hx.into_none p
  have hr := fun p => hky ▸ hy.into_none p
  exact leaves_logicInto (fun p => leaves_logicAt (hl p) (hr p) hkeep) hsafe

end Operations

end Amd64

end JitBackend
