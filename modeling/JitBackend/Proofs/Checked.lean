import Mathlib.Tactic
import JitBackend.Expr.Build
import JitBackend.Proofs.Evaluation

/-!
# What checked construction keeps true

`Expr.Built` are the expressions that the checked constructors give, from constants in canonical form, registers,
labels and addresses over hard registers. In all of them every operation stands on operands of kinds that it admits
(`Expr.Built.wellKinded`), which a tree of bare constructors need not satisfy.
-/

namespace JitBackend

/-! ## Canonical constants -/

theorem setWidth_signExtend {n m : Nat} (h : n ≤ m) (x : BitVec n) : (x.signExtend m).setWidth n = x := by
  apply BitVec.eq_of_getLsbD_eq
  intro i hi
  simp only [BitVec.getLsbD_setWidth, BitVec.getLsbD_signExtend, hi, Nat.lt_of_lt_of_le hi h, decide_true,
    Bool.true_and, if_true]

theorem Kind.canonical_canonical (k : Kind) (w : Word) : k.canonical (k.canonical w) = k.canonical w := by
  cases k <;> simp [Kind.canonical, setWidth_signExtend]

namespace Const

/-- The patterns of a constant are those of its kind. -/
def Canonical (c : Const) : Prop := ofBits c.kind c.re c.im = c

instance (c : Const) : Decidable c.Canonical := inferInstanceAs (Decidable (_ = _))

@[simp] theorem canonical_ofBits (k : Kind) (re im : Word) : (ofBits k re im).Canonical := by
  simp only [Canonical, ofBits, Kind.canonical_canonical]
  split <;> simp [Kind.canonical_canonical]

@[simp] theorem canonical_bool (b : Bool) : (bool b).Canonical := canonical_ofBits _ _ _

@[simp] theorem canonical_ofInt (k : Kind) (i : Int) : (ofInt k i).Canonical := by
  unfold ofInt
  split <;> exact canonical_ofBits _ _ _

@[simp] theorem canonical_float (k : Kind) (n : Nat) : (float k n).Canonical := by
  unfold float
  split <;> exact canonical_ofBits _ _ _

@[simp] theorem canonical_complex (k : Kind) (a b : Nat) : (complex k a b).Canonical := by
  unfold complex
  split <;> exact canonical_ofBits _ _ _

@[simp] theorem canonical_neg (c : Const) : c.neg.Canonical := by
  unfold neg
  split
  · exact canonical_float _ _
  · split
    · exact canonical_complex _ _ _
    · exact canonical_ofBits _ _ _

theorem canonical_convert {c d : Const} {k : Kind} (hc : c.Canonical) (h : c.convert k = .ok d) : d.Canonical := by
  unfold convert at h
  repeat' split at h
  all_goals cases h <;> simp [hc]

theorem canonical_shift {left : Bool} {x y c : Const} (h : shift left x y = .ok c) : c.Canonical := by
  unfold shift at h
  split at h
  · cases h
  · cases h
    exact canonical_ofBits _ _ _

theorem canonical_arith {op : ArithOp} {x y c : Const} (h : arith op x y = .ok c) : c.Canonical := by
  unfold arith at h
  dsimp only at h
  split at h
  · exact canonical_shift h
  · exact canonical_shift h
  · repeat' split at h
    all_goals cases h <;> simp

theorem canonical_binary {op : BinaryOp} {x y c : Const} (h : binary op x y = .ok c) : c.Canonical := by
  unfold binary at h
  split at h
  · rename_i o
    cases hb : compare o x y with
    | error e => rw [hb] at h; cases h
    | ok b => rw [hb] at h; cases h; exact canonical_bool b
  · cases h
    exact canonical_bool _
  · cases h
    exact canonical_bool _
  · exact canonical_arith h
  · cases h

end Const

/-! ## Opposite comparisons -/

theorem CompareOp.ofOrdering_negated (op : CompareOp) (o : Ordering) : op.negated.ofOrdering o = !op.ofOrdering o := by
  cases op <;> cases o <;> rfl

/-- The opposite comparison gives the opposite answer, wherever the kinds admit one and an order is total. -/
theorem Const.compare_negated {op : CompareOp} {x y : Const} {k : Kind}
    (ha : Expr.binaryAdmits (.compare op) x.kind k = true) (hf : (!x.kind.isFloat || op.isEquality) = true) :
    ∃ b, Const.compare op x y = .ok b ∧ Const.compare op.negated x y = .ok !b := by
  unfold Const.compare
  by_cases hfloat : x.kind.isFloat = true
  · simp only [hfloat, if_true]
    refine ⟨_, rfl, ?_⟩
    cases op <;> simp_all [CompareOp.isEquality, CompareOp.negated, Const.compareFloat]
  · by_cases hcomplex : x.kind.isComplex = true
    · simp only [hfloat, hcomplex, if_true, Bool.false_eq_true, if_false]
      have hordered : x.kind.isOrdered = false := by
        cases h : x.kind <;> simp_all [Kind.isComplex] <;> rfl
      cases op <;> simp_all [Expr.binaryAdmits, CompareOp.negated]
    · simp only [hfloat, hcomplex, Bool.false_eq_true, if_false]
      split
      · exact ⟨_, rfl, by rw [CompareOp.ofOrdering_negated]⟩
      · exact ⟨_, rfl, by rw [CompareOp.ofOrdering_negated]⟩

/-! ## Built expressions -/

namespace Expr

/-- The expressions of the checked constructors. -/
inductive Built : Expr → Prop
  | const {c : Const} (h : c.Canonical) : Built (.const c)
  | reg (r : Reg) : Built (.reg r)
  | label (l : Label) : Built (.label l)
  | memAt (k : Kind) (ro : Bool) (m : AddrMode) : Built (.memAt k ro m)
  | memory {k : Kind} {ro : Bool} {a e : Expr} (ha : Built a) (h : Expr.memory k ro a = .ok e) : Built e
  | unary (op : UnaryOp) {x e : Expr} (hx : Built x) (h : mkUnary op x = .ok e) : Built e
  | cast (k : Kind) {x e : Expr} (hx : Built x) (h : mkCast k x = .ok e) : Built e
  | binary (op : BinaryOp) {x y e : Expr} (hx : Built x) (hy : Built y) (h : mkBinary op x y = .ok e) : Built e
  | ret {vs : List Expr} {e : Expr} (hvs : ∀ v ∈ vs, Built v) (h : mkReturn vs = .ok e) : Built e
  | call {l : Label} {n : Option String} {sig : Signature} {args : List Expr} {e : Expr} (hargs : ∀ a ∈ args, Built a)
      (h : mkCall l n sig args = .ok e) : Built e

/-- Whether an operation of one operand fits on `x` with the kind `k`. -/
def unaryFits (op : UnaryOp) (k : Kind) (x : Expr) : Prop :=
  match op with
  | .cast => castAdmits x.kind k = true ∧ x.kind ≠ k
  | op => checkUnary op x = .ok k

mutual
/-- Every operation of the tree fits on its operands, and every constant is canonical. -/
def WellKinded : Expr → Prop
  | const c => c.Canonical
  | reg _ | memAt .. | label _ => True
  | mem k _ a => a.kind = .ptr ∧ k ≠ .void ∧ a.WellKinded
  | unary op k x => unaryFits op k x ∧ x.WellKinded
  | binary op k x y => checkBinary op x y = .ok k ∧ x.WellKinded ∧ y.WellKinded
  | ret vs => WellKindedL vs
  | call _ _ _ args => WellKindedL args
def WellKindedL : List Expr → Prop
  | [] => True
  | e :: es => e.WellKinded ∧ WellKindedL es
end

theorem wellKindedL_iff (es : List Expr) : WellKindedL es ↔ ∀ e ∈ es, e.WellKinded := by
  induction es with
  | nil => simp [WellKindedL]
  | cons e es ih => rw [WellKindedL, ih, List.forall_mem_cons]

/-! ### What the checks say -/

theorem checkUnary_eq_ok {op : UnaryOp} {x : Expr} {k : Kind} : checkUnary op x = .ok k ↔
    unaryAdmits op x.kind = true ∧ (op.isAssign = true → x.isAssignable = true) ∧ unaryKind op x.kind = k := by
  unfold checkUnary
  grind

theorem checkBinary_eq_ok {op : BinaryOp} {x y : Expr} {k : Kind} : checkBinary op x y = .ok k ↔
    binaryAdmits op x.kind y.kind = true ∧ (op.isAssign = true → x.isAssignable = true) ∧
      binaryKind op x.kind = k := by
  unfold checkBinary
  grind

theorem mkUnary_eq_ok {op : UnaryOp} {x e : Expr} (h : mkUnary op x = .ok e) : ∃ k, checkUnary op x = .ok k ∧
    ((op = .neg ∧ ∃ c, x = .const c ∧ e = .const c.neg) ∨ (op = .inv ∧ ∃ c, x = .const c ∧ e = .const c.inv) ∨
      (op = .lnot ∧ ∃ c, x = .const c ∧ e = .const c.lnot) ∨ (op = .lnot ∧ e = mkNot x) ∨ e = .unary op k x) := by
  unfold mkUnary at h
  cases hk : checkUnary op x with
  | error err => rw [hk] at h; cases h
  | ok k =>
    rw [hk] at h
    refine ⟨k, rfl, ?_⟩
    simp only [bind, Except.bind] at h
    split at h
    · cases h
      exact .inl ⟨rfl, _, rfl, rfl⟩
    · cases h
      exact .inr (.inl ⟨rfl, _, rfl, rfl⟩)
    · cases h
      exact .inr (.inr (.inl ⟨rfl, _, rfl, rfl⟩))
    · cases h
      exact .inr (.inr (.inr (.inl ⟨rfl, rfl⟩)))
    · cases h
      exact .inr (.inr (.inr (.inr rfl)))

theorem mkBinary_eq_ok {op : BinaryOp} {x y e : Expr} (h : mkBinary op x y = .ok e) : ∃ k, checkBinary op x y = .ok k ∧
    ((∃ c d v, x = .const c ∧ y = .const d ∧ Const.binary op c d = .ok v ∧ e = .const v) ∨
      (∃ l c, op = .logic l ∧ x = .const c ∧ e = shortCircuit l c y) ∨ e = .binary op k x y ∨ e = ordered op k x y) := by
  unfold mkBinary at h
  cases hk : checkBinary op x y with
  | error err => rw [hk] at h; cases h
  | ok k =>
    rw [hk] at h
    refine ⟨k, rfl, ?_⟩
    have folded : ∀ {o c d}, (Const.binary o c d).map Expr.const = .ok e →
        ∃ v, Const.binary o c d = .ok v ∧ e = .const v := by
      intro o c d h
      cases hb : Const.binary o c d with
      | error err => rw [hb] at h; cases h
      | ok v => rw [hb] at h; cases h; exact ⟨v, rfl, rfl⟩
    simp only [bind, Except.bind] at h
    split at h
    · split at h
      · obtain ⟨v, hv, rfl⟩ := folded h
        exact .inl ⟨_, _, v, rfl, rfl, hv, rfl⟩
      · cases h
        exact .inr (.inl ⟨_, _, rfl, rfl, rfl⟩)
    · split at h
      · cases h
        exact .inr (.inr (.inl rfl))
      · obtain ⟨v, hv, rfl⟩ := folded h
        exact .inl ⟨_, _, v, rfl, rfl, hv, rfl⟩
    · cases h
      exact .inr (.inr (.inr rfl))

theorem kindMismatch_eq_none {given want : List Kind} (hl : given.length = want.length) :
    kindMismatch given want = none ↔ given = want := by
  simp only [kindMismatch, Option.map_eq_none_iff, List.find?_eq_none, bne_iff_ne, ne_eq, not_not]
  constructor
  · intro h
    refine List.ext_getElem hl fun i hi hi' => ?_
    exact h ((given[i], want[i]), i) (by simp [List.mem_zipIdx_iff_getElem?, hi, hi'])
  · rintro rfl ⟨⟨g, w⟩, i⟩ hmem
    rw [List.mem_zipIdx_iff_getElem?, List.getElem?_zip_eq_some] at hmem
    exact Option.some.inj (hmem.1.symm.trans hmem.2)

/-! ### Every built expression fits -/

theorem WellKinded.mkNot {x : Expr} (hx : x.WellKinded) (hk : x.kind = .bool) : (mkNot x).WellKinded := by
  have plain : (unary .lnot .bool x).WellKinded := by
    refine ⟨?_, hx⟩
    simp [unaryFits, checkUnary_eq_ok, unaryAdmits, unaryKind, hk, Kind.isBool, UnaryOp.isAssign]
  unfold Expr.mkNot
  split
  · exact hx.2
  · split
    · rename_i c k a b _
      obtain ⟨hc, ha, hb⟩ := hx
      refine ⟨?_, ha, hb⟩
      rw [checkBinary_eq_ok] at hc ⊢
      refine ⟨?_, by simp [BinaryOp.isAssign], rfl⟩
      have := hc.1
      cases c <;> simp_all [binaryAdmits, CompareOp.negated, Kind.isOrdered]
    · exact plain
  · exact plain

theorem checkBinary_swapped {op op' : BinaryOp} {x y : Expr} {k : Kind} (hs : op.swapped = some op')
    (h : checkBinary op x y = .ok k) : checkBinary op' y x = .ok k := by
  rw [checkBinary_eq_ok] at h ⊢
  obtain ⟨ha, -, hk⟩ := h
  cases op with
  | arith a =>
    cases a <;> simp only [BinaryOp.swapped, ArithOp.isCommutative, if_true, Bool.false_eq_true, if_false, reduceCtorEq]
      at hs
    all_goals
      cases hs
      simp_all [binaryAdmits, arithAdmits, binaryKind, BinaryOp.isAssign]
  | compare c =>
    cases hs
    cases c <;> simp_all [CompareOp.swapped, binaryAdmits, binaryKind, BinaryOp.isAssign]
    all_goals exact ha.1 ▸ ha.2
  | logic | assign | compound | jumpIf | cmp | test => cases hs

theorem WellKinded.ordered {op : BinaryOp} {k : Kind} {x y : Expr} (h : checkBinary op x y = .ok k)
    (hx : x.WellKinded) (hy : y.WellKinded) : (ordered op k x y).WellKinded := by
  unfold Expr.ordered
  split
  · rename_i op' hs
    split
    · exact ⟨checkBinary_swapped hs h, hy, hx⟩
    · exact ⟨h, hx, hy⟩
  · exact ⟨h, hx, hy⟩

theorem WellKinded.mkCast {k : Kind} {x e : Expr} (hx : x.WellKinded) (h : mkCast k x = .ok e) : e.WellKinded := by
  unfold Expr.mkCast at h
  split at h
  · cases h
  · rename_i ha
    split at h
    · cases h
      exact hx
    · rename_i hk
      split at h
      · rename_i c
        cases hv : c.convert k with
        | error err => rw [hv] at h; cases h
        | ok d => rw [hv] at h; cases h; exact Const.canonical_convert hx hv
      · cases h
        exact ⟨⟨by simpa using ha, hk⟩, hx⟩

theorem WellKinded.mkUnary {op : UnaryOp} {x e : Expr} (hx : x.WellKinded) (h : mkUnary op x = .ok e) : e.WellKinded := by
  obtain ⟨k, hk, ⟨-, c, -, rfl⟩ | ⟨-, c, -, rfl⟩ | ⟨-, c, -, rfl⟩ | ⟨rfl, rfl⟩ | rfl⟩ := mkUnary_eq_ok h
  · exact c.canonical_neg
  · exact Const.canonical_ofBits _ _ _
  · exact Const.canonical_bool _
  · refine hx.mkNot ?_
    simpa [unaryAdmits, Kind.isBool] using (checkUnary_eq_ok.1 hk).1
  · have hcast : op ≠ .cast := by
      rintro rfl
      simp [checkUnary_eq_ok, unaryAdmits] at hk
    refine ⟨?_, hx⟩
    unfold unaryFits
    split
    · exact absurd rfl hcast
    · exact hk

theorem WellKinded.mkBinary {op : BinaryOp} {x y e : Expr} (hx : x.WellKinded) (hy : y.WellKinded)
    (h : mkBinary op x y = .ok e) : e.WellKinded := by
  obtain ⟨k, hk, ⟨c, d, v, -, -, hv, rfl⟩ | ⟨l, c, rfl, rfl, rfl⟩ | rfl | rfl⟩ := mkBinary_eq_ok h
  · exact Const.canonical_binary hv
  · unfold shortCircuit
    split
    · exact hy
    · exact hy
    · exact hx
    · exact hx
  · exact ⟨hk, hx, hy⟩
  · exact hx.ordered hk hy

theorem Built.wellKinded {e : Expr} (h : e.Built) : e.WellKinded := by
  induction h with
  | const h => exact h
  | reg | label | memAt => trivial
  | memory _ h ih =>
    unfold Expr.memory at h
    split at h
    · rename_i hk
      cases h
      simp only [Kind.isPtr, Kind.isVoid, Bool.and_eq_true, beq_iff_eq, Bool.not_eq_true', beq_eq_false_iff_ne] at hk
      exact ⟨hk.1, hk.2, ih⟩
    · cases h
  | unary _ _ h ih => exact ih.mkUnary h
  | cast _ _ h ih => exact ih.mkCast h
  | binary _ _ _ h ihx ihy => exact ihx.mkBinary ihy h
  | ret _ h ih =>
    unfold mkReturn at h
    split at h
    · cases h
    · cases h
      exact (wellKindedL_iff _).2 ih
  | call _ h ih =>
    unfold mkCall at h
    repeat' split at h
    all_goals cases h
    exact (wellKindedL_iff _).2 ih

end Expr

end JitBackend
