import JitBackend.Proofs.Construction
import JitBackend.Proofs.Subexpressions

/-!
# Normal form

A node is normal if its operation admits the operands and nothing is left to simplify. Every node of a tree made by the
checked constructors is normal, at any depth, though the constructors hand out operands of their operands without
checking them again. A normal node is what its own constructor gives from its own operands (`Normal.rebuild`).
-/

namespace JitBackend

namespace Expr

/-! ## Normal nodes -/

/-- Whether logical not of the expression is written without it. -/
def isNegatable : Expr → Bool
  | unary .lnot _ _ => true
  | binary (.compare c) _ x _ => !x.kind.isFloat || c.isEquality
  | _ => false

/-- An operation of one operand that its constructor keeps. -/
structure KeepsUnary (op : UnaryOp) (k : Kind) (x : Expr) : Prop where
  admits : unaryAdmits op x.kind = true
  kind : unaryKind op x.kind = k
  target : op.isAssign = true → x.isAssignable = true
  source : op.isTargetOnly = false
  folded : op = .neg ∨ op = .inv ∨ op = .lnot → x.isConst = false
  plain : op = .lnot → x.isNegatable = false

/-- A conversion that its constructor keeps. -/
structure KeepsCast (k : Kind) (x : Expr) : Prop where
  admits : castAdmits x.kind k = true
  changes : x.kind ≠ k
  folded : x.isConst = false

/-- An operation of two operands that its constructor keeps. -/
structure KeepsBinary (op : BinaryOp) (k : Kind) (x y : Expr) : Prop where
  admits : binaryAdmits op x.kind y.kind = true
  kind : binaryKind op x.kind = k
  target : op.isAssign = true → x.isAssignable = true
  source : op.isTargetOnly = false
  folded : x.isConst = true → y.isConst = true → op.hasSideEffects = true
  undecided : ∀ l, op = .logic l → x.isConst = false
  inOrder : op.swapped ≠ none → x.category.rank ≤ y.category.rank

/-- The node itself, whatever stands below it, is as its constructor leaves it. -/
def Normal : Expr → Prop
  | const _ | reg _ | label _ | memAt .. => True
  | mem k _ a => a.kind = .ptr ∧ k ≠ .void
  | unary .cast k x => KeepsCast k x
  | unary op k x => KeepsUnary op k x
  | binary op k x y => KeepsBinary op k x y
  | ret vs => ∀ v ∈ vs, v.kind ≠ .void
  | call _ _ sig args => args.map kind = sig.params ∧ sig.results.length ≤ 1

/-- The constructor of a node, applied to the operation, kind and operands of the node. -/
def rebuild : Expr → Except Error Expr
  | const c => .ok (const c)
  | reg r => .ok (reg r)
  | label l => .ok (label l)
  | memAt k ro m => .ok (memAt k ro m)
  | mem k ro a => memory k ro a
  | unary .cast k x => mkCast k x
  | unary op _ x => mkUnaryOf op x
  | binary op _ x y => mkBinaryOf op x y
  | ret vs => mkTuple .ret vs
  | call l name sig args => mkCall l name sig args

/-! ## Normal nodes are rebuilt -/

section Rebuild

variable {op : BinaryOp} {u : UnaryOp} {k : Kind} {x y : Expr}

theorem mkNot_of_not_isNegatable (h : x.isNegatable = false) : mkNot x = unary .lnot .bool x := by
  unfold mkNot
  split
  · cases h
  · exact if_neg (by simpa [isNegatable] using h)
  · rfl

theorem ordered_of_rank_le (h : op.swapped ≠ none → x.category.rank ≤ y.category.rank) :
    ordered op k x y = binary op k x y := by
  unfold ordered
  split
  · rename_i op' hs
    exact if_neg (Nat.not_lt.2 (h (by simp [hs])))
  · rfl

theorem KeepsUnary.mkUnary (h : KeepsUnary u k x) : mkUnary u x = .ok (unary u k x) := by
  unfold Expr.mkUnary
  rw [checkUnary_eq_ok.2 ⟨h.admits, h.target, h.kind⟩]
  simp only [bind, Except.bind]
  split
  · cases h.folded (by simp)
  · cases h.folded (by simp)
  · cases h.folded (by simp)
  · rw [mkNot_of_not_isNegatable (h.plain rfl), ← h.kind]
    rfl
  · rfl

theorem KeepsCast.mkCast (h : KeepsCast k x) : mkCast k x = .ok (unary .cast k x) := by
  unfold Expr.mkCast
  rw [if_neg (by simp [h.admits]), if_neg h.changes]
  split
  · cases h.folded
  · rfl

theorem KeepsBinary.mkBinary (h : KeepsBinary op k x y) : mkBinary op x y = .ok (binary op k x y) := by
  unfold Expr.mkBinary
  rw [checkBinary_eq_ok.2 ⟨h.admits, h.target, h.kind⟩]
  simp only [bind, Except.bind]
  split
  · cases h.undecided _ rfl
  · rw [if_pos (h.folded rfl rfl)]
  · rw [ordered_of_rank_le h.inOrder]

theorem mkCall_eq_ok {l : Label} {name : Option String} {sig : Signature} {args : List Expr} {e : Expr} :
    mkCall l name sig args = .ok e ↔
      (args.map kind = sig.params ∧ sig.results.length ≤ 1) ∧ e = call l name sig args := by
  unfold mkCall
  split
  · rename_i hl
    refine ⟨by rintro ⟨⟩, fun h => absurd (congrArg List.length h.1.1) ?_⟩
    simpa using hl
  · rename_i hl
    have hiff : kindMismatch (args.map kind) sig.params = none ↔ args.map kind = sig.params :=
      kindMismatch_eq_none (by simpa using hl)
    split
    · rename_i hm
      rw [hm] at hiff
      exact ⟨by rintro ⟨⟩, fun h => by cases hiff.2 h.1.1⟩
    · rename_i hm
      rw [← hiff]
      split
      · exact ⟨by rintro ⟨⟩, fun h => absurd h.1.2 (by omega)⟩
      · exact ⟨fun h => ⟨⟨hm, by omega⟩, (Except.ok.inj h).symm⟩, fun h => by rw [h.2]⟩

theorem mkReturn_eq_ok {vs : List Expr} {e : Expr} :
    mkReturn vs = .ok e ↔ (∀ v ∈ vs, v.kind ≠ .void) ∧ e = ret vs := by
  unfold mkReturn
  split
  · rename_i h
    obtain ⟨v, hv, hk⟩ := List.any_eq_true.1 h
    exact ⟨by rintro ⟨⟩, fun hall => absurd (by simpa [Kind.isVoid] using hk) (hall.1 v hv)⟩
  · rename_i h
    have hall : ∀ v ∈ vs, v.kind ≠ .void := by simpa [Kind.isVoid] using h
    exact ⟨fun h => ⟨hall, (Except.ok.inj h).symm⟩, fun h => by rw [h.2]⟩

theorem memory_eq_ok {ro : Bool} {a e : Expr} :
    memory k ro a = .ok e ↔ (a.kind = .ptr ∧ k ≠ .void) ∧ e = mem k ro a := by
  unfold memory
  split
  · rename_i h
    have hk : a.kind = .ptr ∧ k ≠ .void := by simpa [Kind.isPtr, Kind.isVoid] using h
    exact ⟨fun h => ⟨hk, (Except.ok.inj h).symm⟩, fun h => by rw [h.2]⟩
  · rename_i h
    exact ⟨by rintro ⟨⟩, fun hk => absurd (by simpa [Kind.isPtr, Kind.isVoid] using hk.1) h⟩

/-- The constructor of a normal node gives the node back. -/
theorem Normal.rebuild {n : Expr} (h : n.Normal) : n.rebuild = .ok n := by
  unfold Normal at h
  split at h
  · rfl
  · rfl
  · rfl
  · rfl
  · exact memory_eq_ok.2 ⟨h, rfl⟩
  · exact h.mkCast
  · rename_i hcast
    unfold Expr.rebuild
    split <;> rename_i heq <;> cases heq
    · exact absurd rfl hcast
    · exact h.mkUnary
  · exact h.mkBinary
  · exact mkReturn_eq_ok.2 ⟨h, rfl⟩
  · exact mkCall_eq_ok.2 ⟨h, rfl⟩

end Rebuild

/-! ## Trees of normal nodes -/

/-- Every node of the tree is normal. -/
def AllNormal (e : Expr) : Prop := ∀ n, Within n e → n.Normal

section AllNormal

variable {op : BinaryOp} {u : UnaryOp} {k : Kind} {x y e : Expr}

theorem allNormal_iff : e.AllNormal ↔ e.Normal ∧ ∀ c ∈ e.children, c.AllNormal := by
  constructor
  · exact fun h => ⟨h e .refl, fun c hc n hn => h n (.child hc hn)⟩
  · rintro ⟨he, hchildren⟩ n (_ | ⟨hc, hn⟩)
    · exact he
    · exact hchildren _ hc n hn

theorem allNormal_leaf (h : e.Normal) (hleaf : e.children = []) : e.AllNormal :=
  allNormal_iff.2 ⟨h, by simp [hleaf]⟩

theorem allNormal_const (c : Const) : (const c).AllNormal := allNormal_leaf trivial rfl

theorem allNormal_label (l : Label) : (label l).AllNormal := allNormal_leaf trivial rfl

theorem exists_const_of_map {r : Except Error Const} (h : r.map const = .ok e) : ∃ c, e = const c := by
  cases r with
  | error => cases h
  | ok c => exact ⟨c, (Except.ok.inj h).symm⟩

theorem isConst_iff : x.isConst = true ↔ ∃ c, x = const c := by
  cases x <;> simp [isConst]

theorem isConst_eq_false_iff : x.isConst = false ↔ ∀ c, x ≠ const c := by
  cases x <;> simp [isConst]

theorem binaryAdmits_negated (c : CompareOp) {kx ky : Kind} :
    binaryAdmits (.compare c.negated) kx ky = binaryAdmits (.compare c) kx ky := by
  cases c <;> rfl

theorem AllNormal.mkNot (hx : x.AllNormal) (hk : x.kind = .bool) (hconst : x.isConst = false) : (mkNot x).AllNormal := by
  by_cases hneg : x.isNegatable = true
  · unfold Expr.mkNot
    split
    · exact (allNormal_iff.1 hx).2 _ (by simp [children])
    · rename_i c k a b
      rw [if_pos (show (!a.kind.isFloat || c.isEquality) = true from hneg)]
      -- The opposite comparison stands on the same operands and is ordered by the same rule.
      obtain ⟨hnode, hchildren⟩ := allNormal_iff.1 hx
      have hnode : KeepsBinary (.compare c) k a b := hnode
      exact allNormal_iff.2 ⟨⟨binaryAdmits_negated c ▸ hnode.admits, rfl, by rintro ⟨⟩, rfl, hnode.folded, by rintro l ⟨⟩,
        fun _ => hnode.inOrder (by rintro ⟨⟩)⟩, hchildren⟩
    · rename_i hlnot hcompare
      unfold isNegatable at hneg
      split at hneg
      · exact absurd rfl (hlnot _ _)
      · exact absurd rfl (hcompare _ _ _ _)
      · cases hneg
  · rw [mkNot_of_not_isNegatable (by simpa using hneg)]
    refine allNormal_iff.2 ⟨⟨?_, rfl, by rintro ⟨⟩, rfl, fun _ => hconst, fun _ => by simpa using hneg⟩, ?_⟩
    · simp [unaryAdmits, Kind.isBool, hk]
    · simpa [children] using hx

theorem isTargetOnly_eq_false_of_unaryAdmits (h : unaryAdmits u k = true) : u.isTargetOnly = false := by
  cases u <;> first | rfl | cases h

theorem isTargetOnly_eq_false_of_binaryAdmits {kx ky : Kind} (h : binaryAdmits op kx ky = true) :
    op.isTargetOnly = false := by
  cases op <;> first | rfl | cases h

theorem AllNormal.mkUnary (hx : x.AllNormal) (h : mkUnary u x = .ok e) : e.AllNormal := by
  obtain ⟨k, hk, h⟩ := Formula.exists_of_bind h
  obtain ⟨hadmits, htarget, hkind⟩ := checkUnary_eq_ok.1 hk
  split at h
  · cases h
    exact allNormal_const _
  · cases h
    exact allNormal_const _
  · cases h
    exact allNormal_const _
  · rename_i hconst
    cases h
    exact hx.mkNot (by simpa [unaryAdmits, Kind.isBool] using hadmits) (isConst_eq_false_iff.2 hconst)
  · rename_i hlnot hneg hinv _
    cases h
    have hcast : u ≠ .cast := by
      rintro rfl
      cases hadmits
    have hkeeps : KeepsUnary u k x := by
      refine ⟨hadmits, hkind, htarget, isTargetOnly_eq_false_of_unaryAdmits hadmits, ?_, fun hu => (hlnot hu).elim⟩
      rintro (rfl | rfl | rfl)
      · exact isConst_eq_false_iff.2 fun c hc => hneg c rfl hc
      · exact isConst_eq_false_iff.2 fun c hc => hinv c rfl hc
      · exact (hlnot rfl).elim
    refine allNormal_iff.2 ⟨?_, by simpa [children] using hx⟩
    unfold Normal
    split <;> rename_i heq <;> cases heq
    · exact absurd rfl hcast
    · exact hkeeps

theorem AllNormal.mkCast (hx : x.AllNormal) (h : mkCast k x = .ok e) : e.AllNormal := by
  unfold Expr.mkCast at h
  split at h
  · cases h
  rename_i hadmits
  split at h
  · cases h
    exact hx
  rename_i hne
  split at h
  · obtain ⟨d, rfl⟩ := exists_const_of_map h
    exact allNormal_const d
  · rename_i hconst
    cases h
    refine allNormal_iff.2 ⟨⟨by simpa using hadmits, hne, isConst_eq_false_iff.2 hconst⟩, ?_⟩
    simpa [children] using hx

theorem swapped_swapped {op op' : BinaryOp} (h : op.swapped = some op') : op'.swapped = some op := by
  unfold BinaryOp.swapped at h
  split at h
  · split at h <;> cases h
    rename_i ha
    exact if_pos ha
  · rename_i c
    cases h
    cases c <;> rfl
  · cases h

theorem AllNormal.ordered (hx : x.AllNormal) (hy : y.AllNormal) (hk : checkBinary op x y = .ok k)
    (hfolded : x.isConst = true → y.isConst = true → op.hasSideEffects = true)
    (hundecided : ∀ l, op = .logic l → x.isConst = false) : (ordered op k x y).AllNormal := by
  obtain ⟨hadmits, htarget, hkind⟩ := checkBinary_eq_ok.1 hk
  have hkept (hle : op.swapped ≠ none → x.category.rank ≤ y.category.rank) : (binary op k x y).AllNormal := by
    refine allNormal_iff.2 ⟨⟨hadmits, hkind, htarget, isTargetOnly_eq_false_of_binaryAdmits hadmits, hfolded, hundecided,
      hle⟩, ?_⟩
    simpa [children] using ⟨hx, hy⟩
  unfold Expr.ordered
  split
  · rename_i op' hs
    split
    · rename_i hlt
      obtain ⟨hadmits', htarget', hkind'⟩ := checkBinary_eq_ok.1 (checkBinary_swapped hs hk)
      have hs' := swapped_swapped hs
      refine allNormal_iff.2 ⟨⟨hadmits', hkind', htarget', isTargetOnly_eq_false_of_binaryAdmits hadmits', ?_, ?_,
        fun _ => hlt.le⟩, by simpa [children] using ⟨hy, hx⟩⟩
      · -- Two constants have the same rank, so they never trade places.
        intro hcy hcx
        obtain ⟨d, rfl⟩ := isConst_iff.1 hcy
        obtain ⟨c, rfl⟩ := isConst_iff.1 hcx
        exact absurd hlt (lt_irrefl _)
      · rintro l rfl
        cases hs'
    · rename_i hge
      exact hkept fun _ => Nat.not_lt.1 hge
  · rename_i hs
    exact hkept fun hne => absurd hs hne

theorem AllNormal.mkBinary (hx : x.AllNormal) (hy : y.AllNormal) (h : mkBinary op x y = .ok e) : e.AllNormal := by
  obtain ⟨k, hk, h⟩ := Formula.exists_of_bind h
  split at h
  · split at h
    · obtain ⟨d, rfl⟩ := exists_const_of_map h
      exact allNormal_const d
    · cases h
      unfold shortCircuit
      split
      · exact hy
      · exact hy
      · exact hx
      · exact hx
  · split at h
    · rename_i heffects
      cases h
      rw [← ordered_eq_of_hasSideEffects heffects]
      refine hx.ordered hy hk (fun _ _ => heffects) ?_
      rintro l rfl
      cases heffects
    · obtain ⟨d, rfl⟩ := exists_const_of_map h
      exact allNormal_const d
  · rename_i hlogic hconst
    cases h
    refine hx.ordered hy hk (fun hcx hcy => ?_) fun l hl => isConst_eq_false_iff.2 fun c hc => hlogic l c hl hc
    obtain ⟨c, rfl⟩ := isConst_iff.1 hcx
    obtain ⟨d, rfl⟩ := isConst_iff.1 hcy
    exact (hconst c d rfl rfl).elim

theorem AllNormal.memory {ro : Bool} (hx : x.AllNormal) (h : memory k ro x = .ok e) : e.AllNormal := by
  obtain ⟨hk, rfl⟩ := memory_eq_ok.1 h
  exact allNormal_iff.2 ⟨hk, by simpa [children] using hx⟩

theorem AllNormal.mkField {offset : BitVec 32} (hx : x.AllNormal) (h : mkField k x offset = .ok e) : e.AllNormal := by
  unfold Expr.mkField at h
  dsimp only at h
  split at h
  · exact hx.memory h
  · obtain ⟨addr, haddr, h⟩ := Formula.exists_of_bind h
    exact (hx.mkBinary (allNormal_const _) haddr).memory h

theorem AllNormal.mkIndex (hx : x.AllNormal) (hy : y.AllNormal) (h : mkIndex k x y = .ok e) : e.AllNormal := by
  unfold Expr.mkIndex at h
  dsimp only at h
  split at h
  · cases h
  obtain ⟨i, hi, h⟩ := Formula.exists_of_bind h
  obtain ⟨offset, hoffset, h⟩ := Formula.exists_of_bind h
  obtain ⟨disp, hdisp, h⟩ := Formula.exists_of_bind h
  obtain ⟨addr, haddr, h⟩ := Formula.exists_of_bind h
  have hscaled := ((hy.mkCast hi).mkBinary (allNormal_const _) hoffset).mkCast hdisp
  exact (hx.mkBinary hscaled haddr).memory h

end AllNormal

/-! ## Everything the constructors make -/

/-- The expressions made by the checked constructors from constants, registers and labels. -/
inductive Made : Expr → Prop
  | const (c : Const) : Made (.const c)
  | reg (r : Reg) : Made (.reg r)
  | label (l : Label) : Made (.label l)
  | unary {op : Op} {x e : Expr} (hx : Made x) (h : mkUnaryOf op x = .ok e) : Made e
  | cast {k : Kind} {x e : Expr} (hx : Made x) (h : mkCast k x = .ok e) : Made e
  | binary {op : Op} {x y e : Expr} (hx : Made x) (hy : Made y) (h : mkBinaryOf op x y = .ok e) : Made e
  | assign {x y e : Expr} (hx : Made x) (hy : Made y) (h : mkAssign x y = .ok e) : Made e
  | jump (l : Label) : Made (jumpTo l)
  | jumpIf {l : Label} {c e : Expr} (hc : Made c) (h : mkJumpIf l c = .ok e) : Made e
  | tuple {op : Op} {vs : List Expr} {e : Expr} (hvs : ∀ v ∈ vs, Made v) (h : mkTuple op vs = .ok e) : Made e
  | call {l : Label} {name : Option String} {sig : Signature} {args : List Expr} {e : Expr}
      (hargs : ∀ a ∈ args, Made a) (h : mkCall l name sig args = .ok e) : Made e
  | memory {k : Kind} {ro : Bool} {a e : Expr} (ha : Made a) (h : Expr.memory k ro a = .ok e) : Made e
  | field {k : Kind} {base e : Expr} {offset : BitVec 32} (hb : Made base) (h : mkField k base offset = .ok e) : Made e
  | index {k : Kind} {base i e : Expr} (hb : Made base) (hi : Made i) (h : mkIndex k base i = .ok e) : Made e

theorem Made.allNormal {e : Expr} (h : e.Made) : e.AllNormal := by
  induction h with
  | const | reg | label => exact allNormal_leaf trivial rfl
  | @unary op _ _ _ h ih =>
    cases op with
    | unary u => exact ih.mkUnary h
    | binary | ret | call => cases h
  | cast _ h ih => exact ih.mkCast h
  | @binary op _ _ _ _ _ h ihx ihy =>
    cases op with
    | binary b => exact ihx.mkBinary ihy h
    | unary | ret | call => cases h
  | assign _ _ h ihx ihy => exact ihx.mkBinary ihy h
  | jump l => exact (allNormal_label l).mkUnary (u := .jump) rfl
  | @jumpIf l _ _ _ h ih => exact (allNormal_label l).mkBinary ih h
  | tuple _ h ih =>
    unfold mkTuple at h
    split at h
    · obtain ⟨hk, rfl⟩ := mkReturn_eq_ok.1 h
      exact allNormal_iff.2 ⟨hk, ih⟩
    · cases h
  | call _ h ih =>
    obtain ⟨hk, rfl⟩ := mkCall_eq_ok.1 h
    exact allNormal_iff.2 ⟨hk, ih⟩
  | memory _ h ih => exact ih.memory h
  | field _ h ih => exact ih.mkField h
  | index _ _ h ihb ihi => exact ihb.mkIndex ihi h

/-! ## The order of operands does not matter -/

theorem Category.rank_injective : Function.Injective Category.rank := by
  intro a b h
  cases a <;> cases b <;> first | rfl | cases h

section Swapped

variable {op op' : BinaryOp} {k : Kind} {x y : Expr}

theorem ordered_swapped (hs : op.swapped = some op') (hne : x.category ≠ y.category) :
    ordered op' k y x = ordered op k x y := by
  have hrank : x.category.rank ≠ y.category.rank := Category.rank_injective.ne hne
  simp only [ordered, hs, swapped_swapped hs]
  rcases hrank.lt_or_gt with hlt | hlt
  · rw [if_pos hlt, if_neg hlt.not_gt]
  · rw [if_neg hlt.not_gt, if_pos hlt]

theorem mkBinary_eq_ordered (hs : op.swapped = some op') (hne : x.category ≠ y.category)
    (hk : checkBinary op x y = .ok k) : mkBinary op x y = .ok (ordered op k x y) := by
  unfold mkBinary
  rw [hk]
  simp only [bind, Except.bind]
  split
  · cases hs
  · exact absurd rfl hne
  · rfl

/-- Operands of different categories may be given in either order. -/
theorem mkBinary_swapped (hs : op.swapped = some op') (hne : x.category ≠ y.category)
    (hadmits : binaryAdmits op x.kind y.kind = true) : ∃ e, mkBinary op x y = .ok e ∧ mkBinary op' y x = .ok e := by
  have hassign : op.isAssign = false := by
    cases op <;> first | rfl | cases hs
  have hk : checkBinary op x y = .ok (binaryKind op x.kind) := by
    refine checkBinary_eq_ok.2 ⟨hadmits, fun h => ?_, rfl⟩
    rw [hassign] at h
    cases h
  refine ⟨_, mkBinary_eq_ordered hs hne hk, ?_⟩
  rw [mkBinary_eq_ordered (swapped_swapped hs) hne.symm (checkBinary_swapped hs hk), ordered_swapped hs hne]

end Swapped

/-- Every node of a made expression is normal and is rebuilt by its own constructor, and operands of different
categories that an operation admits may be given to it in either order. -/
theorem made_canonical :
    (∀ {e : Expr}, e.Made → ∀ n, Within n e → n.rebuild = .ok n ∧ n.Normal) ∧
      ∀ {op op' : BinaryOp} {x y : Expr}, op.swapped = some op' → x.category ≠ y.category →
        binaryAdmits op x.kind y.kind = true → ∃ e, mkBinary op x y = .ok e ∧ mkBinary op' y x = .ok e :=
  ⟨fun he n hn => ⟨(he.allNormal n hn).rebuild, he.allNormal n hn⟩, mkBinary_swapped⟩

/-- The element of an array at a pointer, by an index. -/
def element (p i : Reg) : Expr :=
  mem .int64 false (binary (.arith .add) .ptr (reg p)
    (unary .cast .ptr (binary (.arith .mul) .int64 (reg i) (const (.int64 8)))))

theorem made_canonical_element :
    let p : Reg := ⟨.ptr, .soft 258, false⟩
    let i : Reg := ⟨.int64, .soft 259, false⟩
    let e := binary (.compare .leq) .bool (element p i) (const (.int64 3))
    e.Made ∧ (∀ n, Within n e → n.rebuild = .ok n ∧ n.Normal) ∧
      ∃ e', mkBinary (.compare .lss) (const (.int64 3)) (element p i) = .ok e' ∧
        mkBinary (.compare .gtr) (element p i) (const (.int64 3)) = .ok e' := by
  intro p i e
  have helement : (element p i).Made := .index (.reg p) (.reg i) (k := .int64) rfl
  -- The comparison `3 < a[i]` becomes `a[i] > 3`, and its negation `a[i] ≤ 3`.
  have hless : (binary (.compare .gtr) .bool (element p i) (const (.int64 3))).Made :=
    .binary (.const (.int64 3)) helement (show mkBinaryOf (.binary (.compare .lss)) _ _ = _ from rfl)
  have he : e.Made := .unary hless (show mkUnaryOf (.unary .lnot) _ = _ from rfl)
  exact ⟨he, made_canonical.1 he, made_canonical.2 rfl (by decide) (by decide)⟩

end Expr

end JitBackend
