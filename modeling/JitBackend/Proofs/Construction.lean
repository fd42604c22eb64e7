import JitBackend.Func
import JitBackend.Proofs.Numbers

/-!
# The meaning of checked construction

A checked constructor may give another node than the one asked for: it folds constants, trades operands, turns a negated
comparison into the opposite one and drops what changes nothing. The value stays that of the operation on the operands as
they were given, where the value of an operation is taken from the arithmetic of numbers (`BinaryOp.meaning`). Hence
formulas of any depth keep their value when they are built from the leaves up (`Formula.build_value`).
-/

namespace JitBackend

/-! ## Operations -/

/-- The value of an operation on two scalars. A division by zero and a shift by a negative count have none. -/
def BinaryOp.meaning (op : BinaryOp) (x y : Const) : Option Const :=
  match op with
  | .arith a | .compound a => (a.exact x.number y.number).map (.ofNumber x.kind)
  | .compare c => some (.bool (c.holds x.number y.number))
  | .logic l => some (.bool (l.holds (x.number ≠ 0) (y.number ≠ 0)))
  | .assign => some y
  | .jumpIf => some (.zero .void)
  | .cmp | .test => none

/-- The value of an operation on a scalar, for operations that only compute. -/
def UnaryOp.meaning (op : UnaryOp) (x : Const) : Option Const :=
  match op with
  | .neg => some (.ofNumber x.kind (-x.number))
  | .inv => some (.ofNumber x.kind (-x.number - 1))
  | .lnot => some (.bool (x.number = 0))
  | _ => none

/-- The value of an operation that may have none; a compound assignment computes as its operation does. -/
def World.apply (w : World) (op : BinaryOp) (x y : Const) : Const :=
  let base := match op with
    | .compound a => .arith a
    | op => op
  (op.meaning x y).getD ((w.undefined (.binary base) [x, y]).at (Expr.binaryKind op x.kind))

/-! ## Operands -/

namespace Expr

/-- An expression that only computes a scalar: it has a value in every store and leaves the store as it is. -/
structure IsOperand (e : Expr) : Prop where
  wellKinded : e.WellKinded
  isPure : ∀ w σ, ∃ c, e.run w σ = some (c, σ)
  isScalar : e.kind.isScalar = true

/-- The value of an expression; void where it does not return. -/
def valueIn (w : World) (σ : Store) (e : Expr) : Const := ((e.run w σ).map (·.1)).getD (.zero .void)

section Operands

variable {w : World} {σ τ : Store} {c d : Const} {e x y : Expr} {k : Kind}

theorem canonical_of_run (h : e.WellKinded) (hc : e.run w σ = some (c, τ)) : c.Canonical := by
  cases e with
  | const =>
    simp only [run, Option.some.injEq, Prod.mk.injEq] at hc
    rw [← hc.1]
    exact h
  | reg | memAt | label =>
    simp only [run, Option.some.injEq, Prod.mk.injEq] at hc
    rw [← hc.1]
    exact Const.canonical_ofBits _ _ _
  | mem | ret =>
    simp only [run, Option.bind_eq_bind, Option.bind_eq_some_iff, Option.some.injEq, Prod.mk.injEq] at hc
    obtain ⟨p, -, rfl, -⟩ := hc
    exact Const.canonical_ofBits _ _ _
  | unary op k x =>
    simp only [run, Option.bind_eq_bind] at hc
    split at hc
    all_goals
      simp only [Option.bind_eq_some_iff, Option.some.injEq, Prod.mk.injEq] at hc
      obtain ⟨p, -, rfl, -⟩ := hc
      exact Const.canonical_ofBits _ _ _
  | binary op k x y =>
    cases op <;> simp only [run, Option.bind_eq_bind, Option.bind_eq_some_iff] at hc
    case logic l =>
      obtain ⟨p, -, hc⟩ := hc
      split at hc
      · cases hc
        exact Const.canonical_ofBits _ _ _
      · obtain ⟨q, -, ⟨⟩⟩ := Option.bind_eq_some_iff.1 hc
        exact Const.canonical_ofBits _ _ _
    all_goals
      obtain ⟨p, -, q, -, ⟨⟩⟩ := hc
      exact Const.canonical_ofBits _ _ _
  | call l n sig args =>
    simp only [run, Option.bind_eq_bind, Option.bind_eq_some_iff] at hc
    obtain ⟨p, -, q, -, ⟨⟩⟩ := hc
    exact Const.canonical_ofBits _ _ _

theorem IsOperand.run_eq (h : e.IsOperand) : e.run w σ = some (e.valueIn w σ, σ) := by
  obtain ⟨c, hc⟩ := h.isPure w σ
  rw [valueIn, hc]
  rfl

theorem isOperand_of_isEffectFree (h : e.WellKinded) (hfree : e.isEffectFree = true) (hk : e.kind.isScalar = true) :
    e.IsOperand := ⟨h, fun _ σ => run_of_isEffectFree e hfree σ, hk⟩

theorem isOperand_label (l : Label) : (Expr.label l).IsOperand := ⟨trivial, fun _ _ => ⟨_, by rw [run]⟩, rfl⟩

theorem valueIn_const : (Expr.const c).valueIn w σ = c := by simp [valueIn, run]

theorem valueIn_eq (h : e.run w σ = some (c, τ)) : e.valueIn w σ = c := by
  rw [valueIn, h]
  rfl

theorem IsOperand.kind_valueIn (h : e.IsOperand) : (e.valueIn w σ).kind = e.kind := kind_of_run h.run_eq

theorem IsOperand.canonical_valueIn (h : e.IsOperand) : (e.valueIn w σ).Canonical := canonical_of_run h.wellKinded h.run_eq

end Operands

end Expr

/-! ## Nodes -/

section Nodes

variable {w : World} {σ : Store} {c d : Const} {e x y : Expr} {k : Kind}

theorem World.settle_eq (w : World) (op : Op) (operands : List Const) (r : Except Error Const) :
    w.settle op operands r = r.toOption.getD (w.undefined op operands) := by
  cases r <;> rfl

/-- A truth value tells zero from one. -/
theorem Const.eq_bool (hk : c.kind = .bool) (hc : c.Canonical) : c = .bool (c.number ≠ 0) := by
  have hself := Const.ofNumber_number (by rw [hk]; rfl) hc
  rw [hk, Const.ofNumber_bool] at hself
  exact hself.symm

theorem Const.asBool_eq (c : Const) : c.asBool = decide (c.number ≠ 0) := by
  rw [Const.asBool, Bool.eq_iff_iff, bne_iff_ne, decide_eq_true_eq, ne_eq, ne_eq, Const.number_eq_zero]

theorem Const.kind_ofNumber (k : Kind) (i : Int) : (Const.ofNumber k i).kind = k := by
  cases k <;> rfl

/-- Operations on operands of admitted kinds have the value of folding. -/
theorem BinaryOp.toOption_binary {op : BinaryOp} (hop : op.hasSideEffects = false) (hc : c.kind.isScalar = true)
    (hd : d.Canonical) (hadm : Expr.binaryAdmits op c.kind d.kind = true) :
    (Const.binary op c d).toOption = op.meaning c d := by
  cases op with
  | arith a =>
    exact Const.toOption_arith (isWord_of_admits hc hadm) hd hadm
  | compare o =>
    have hk : d.kind = c.kind := by
      cases o <;> simp only [Expr.binaryAdmits, Bool.and_eq_true, beq_iff_eq] at hadm <;> exact hadm.1.symm
    simp only [Const.binary, Const.compare_eq_holds hc hk, BinaryOp.meaning]
    rfl
  | logic l => cases l <;> simp only [Const.binary, BinaryOp.meaning, LogicOp.holds, Const.asBool_eq] <;> rfl
  | assign | compound | jumpIf | cmp | test => cases hop

/-- The value of an operation is a constant of its kind. -/
theorem BinaryOp.meaning_kind {op : BinaryOp} {v : Const} (hop : op.hasSideEffects = false) (hc : c.kind.isScalar = true)
    (hd : d.Canonical) (hadm : Expr.binaryAdmits op c.kind d.kind = true) (hv : op.meaning c d = some v) :
    v.kind = Expr.binaryKind op c.kind ∧ v.Canonical := by
  have hok : Const.binary op c d = .ok v := by
    rw [← BinaryOp.toOption_binary hop hc hd hadm] at hv
    cases hb : Const.binary op c d with
    | error err => rw [hb] at hv; cases hv
    | ok r => rw [hb] at hv; cases hv; rfl
  refine ⟨?_, Const.canonical_binary hok⟩
  cases op with
  | arith a => exact Const.kind_arith (isWord_of_admits hc hadm) hok
  | compare | logic =>
    cases hv
    rfl
  | assign | compound | jumpIf | cmp | test => cases hop

/-- Folding gives the value of the operation. -/
theorem World.apply_of_fold {op : BinaryOp} {v : Const} (hop : op.hasSideEffects = false) (hc : c.kind.isScalar = true)
    (hd : d.Canonical) (hadm : Expr.binaryAdmits op c.kind d.kind = true) (hv : Const.binary op c d = .ok v) :
    w.apply op c d = v := by
  have hmeaning := BinaryOp.toOption_binary hop hc hd hadm
  rw [hv] at hmeaning
  show (op.meaning c d).getD _ = v
  rw [← hmeaning]
  rfl

theorem World.at_binary {op : BinaryOp} (hop : op.hasSideEffects = false) (hc : c.kind.isScalar = true) (hd : d.Canonical)
    (hadm : Expr.binaryAdmits op c.kind d.kind = true) :
    (w.binary op c d).at (Expr.binaryKind op c.kind) = w.apply op c d := by
  have hbase : w.apply op c d = (op.meaning c d).getD ((w.undefined op [c, d]).at (Expr.binaryKind op c.kind)) := by
    cases op <;> first | rfl | cases hop
  rw [hbase, World.binary, World.settle_eq, BinaryOp.toOption_binary hop hc hd hadm]
  cases hv : op.meaning c d with
  | none => rfl
  | some v =>
    obtain ⟨hk, hcan⟩ := BinaryOp.meaning_kind hop hc hd hadm hv
    exact Const.at_eq hk hcan

/-- A logical operation has the value of one of its operands. -/
theorem World.apply_logic {l : LogicOp} (hkc : c.kind = .bool) (hkd : d.kind = .bool) (hc : c.Canonical) (hd : d.Canonical) :
    w.apply (.logic l) c d = if l.settledBy c = true then c else d := by
  have happly : w.apply (.logic l) c d = .bool (l.holds (c.number ≠ 0) (d.number ≠ 0)) := rfl
  have hbc := Const.eq_bool hkc hc
  have hbd := Const.eq_bool hkd hd
  rw [happly, LogicOp.settledBy.eq_def, Const.asBool_eq]
  by_cases h : c.number = 0
  · simp only [h, ne_eq, not_true_eq_false, decide_false] at hbc ⊢
    cases l with
    | and => exact hbc.symm
    | or => exact hbd.symm
  · simp only [h, ne_eq, not_false_eq_true, decide_true] at hbc ⊢
    cases l with
    | and => exact hbd.symm
    | or => exact hbc.symm

/-- A node of two operands has the value of its operation. -/
theorem Expr.run_binary {op : BinaryOp} (hop : op.hasSideEffects = false) (hx : x.IsOperand) (hy : y.IsOperand)
    (hadm : Expr.binaryAdmits op x.kind y.kind = true) : (Expr.binary op (Expr.binaryKind op x.kind) x y).run w σ =
      some (w.apply op (x.valueIn w σ) (y.valueIn w σ), σ) := by
  have hcx := hx.kind_valueIn (w := w) (σ := σ)
  have hcy := hy.kind_valueIn (w := w) (σ := σ)
  have hadm' : Expr.binaryAdmits op (x.valueIn w σ).kind (y.valueIn w σ).kind = true := by rwa [hcx, hcy]
  have happly := World.at_binary (w := w) hop (by rw [hcx]; exact hx.isScalar) hy.canonical_valueIn hadm'
  rw [hcx] at happly
  cases op with
  | arith | compare =>
    simp only [Expr.run, hx.run_eq, hy.run_eq, Option.bind_eq_bind, Option.bind_some]
    exact congrArg (fun v => some (v, σ)) happly
  | logic l =>
    simp only [Expr.binaryAdmits, Kind.isBool, Bool.and_eq_true, beq_iff_eq] at hadm
    have hkx := hcx.trans hadm.2
    have hky := hcy.trans (hadm.1 ▸ hadm.2)
    simp only [Expr.run, hx.run_eq, hy.run_eq, Option.bind_eq_bind, Option.bind_some]
    rw [World.apply_logic hkx hky hx.canonical_valueIn hy.canonical_valueIn]
    split
    · exact congrArg (fun v => some (v, σ)) (Const.at_eq hkx hx.canonical_valueIn)
    · exact congrArg (fun v => some (v, σ)) (Const.at_eq hky hy.canonical_valueIn)
  | assign | compound | jumpIf | cmp | test => cases hop

theorem kind_eq_of_swapped {op op' : BinaryOp} {kx ky : Kind} (hs : op.swapped = some op')
    (hadm : Expr.binaryAdmits op kx ky = true) : ky = kx := by
  cases op with
  | arith a =>
    have hcomm : a.isCommutative = true := by
      by_contra h
      simp [BinaryOp.swapped, h] at hs
    exact kind_eq_of_admits (by rintro rfl; cases hcomm) (by rintro rfl; cases hcomm) hadm
  | compare o =>
    cases o <;> simp only [Expr.binaryAdmits, Bool.and_eq_true, beq_iff_eq] at hadm <;> exact hadm.1.symm
  | logic | assign | compound | jumpIf | cmp | test => cases hs

/-- Operands that trade places leave the value as it is. -/
theorem World.apply_swapped {op op' : BinaryOp} (hs : op.swapped = some op') (hk : d.kind = c.kind) :
    w.apply op' d c = w.apply op c d := by
  cases op with
  | arith a =>
    have hcomm : a.isCommutative = true := by
      by_contra h
      simp [BinaryOp.swapped, h] at hs
    obtain rfl : BinaryOp.arith a = op' := by simpa [BinaryOp.swapped, hcomm] using hs
    obtain ⟨i, hi⟩ := Option.isSome_iff_exists.1 (ArithOp.exact_isSome hcomm c.number d.number)
    simp only [World.apply, BinaryOp.meaning, ArithOp.exact_comm hcomm, hi, hk, Option.map_some, Option.getD_some]
  | compare o =>
    cases hs
    cases o <;> simp only [World.apply, BinaryOp.meaning, CompareOp.swapped, CompareOp.holds, Option.getD_some, eq_comm,
      ne_comm]
  | logic | assign | compound | jumpIf | cmp | test => cases hs

/-- The place of an operand holds its value. -/
theorem Expr.IsOperand.place_eq (hx : x.IsOperand) (ha : x.isAssignable = true) :
    ∃ p, x.place w σ = some (p, σ) ∧ σ.get p = x.valueIn w σ := by
  have hrun := hx.run_eq (w := w) (σ := σ)
  cases x with
  | reg r =>
    simp only [Expr.run, Option.some.injEq, Prod.mk.injEq, and_true] at hrun
    exact ⟨.reg r, by rw [Expr.place], hrun⟩
  | memAt k ro m =>
    simp only [Expr.run, Option.some.injEq, Prod.mk.injEq, and_true] at hrun
    exact ⟨_, by rw [Expr.place], hrun⟩
  | mem k ro a =>
    simp only [Expr.run, Option.bind_eq_bind, Option.bind_eq_some_iff] at hrun
    obtain ⟨⟨p, τ⟩, hp, hrun⟩ := hrun
    simp only [Option.some.injEq, Prod.mk.injEq] at hrun
    obtain ⟨hv, rfl⟩ := hrun
    exact ⟨_, by rw [Expr.place, hp]; rfl, hv⟩
  | const | label | unary | binary | ret | call => cases ha

/-- A node of an operation with an effect has the value of the operation too. -/
theorem Expr.run_effect {op : BinaryOp} (hop : op.hasSideEffects = true) (hx : x.IsOperand) (hy : y.IsOperand)
    (h : Expr.checkBinary op x y = .ok k) :
    ∃ τ, (Expr.binary op k x y).run w σ = some (w.apply op (x.valueIn w σ) (y.valueIn w σ), τ) := by
  obtain ⟨hadm, ha, rfl⟩ := Expr.checkBinary_eq_ok.1 h
  have hcx := hx.kind_valueIn (w := w) (σ := σ)
  have hcy := hy.kind_valueIn (w := w) (σ := σ)
  cases op with
  | assign =>
    obtain ⟨p, hp, -⟩ := hx.place_eq (w := w) (σ := σ) (ha rfl)
    simp only [Expr.binaryAdmits, Bool.and_eq_true, beq_iff_eq] at hadm
    have hat : (y.valueIn w σ).at x.kind = y.valueIn w σ := Const.at_eq (hcy.trans hadm.1.symm) hy.canonical_valueIn
    refine ⟨σ.set p (y.valueIn w σ), ?_⟩
    simp only [Expr.run, hp, hy.run_eq, Option.bind_eq_bind, Option.bind_some, Expr.binaryKind, hat]
    rfl
  | compound a =>
    obtain ⟨p, hp, hget⟩ := hx.place_eq (w := w) (σ := σ) (ha rfl)
    have hadm' : Expr.binaryAdmits (.arith a) (x.valueIn w σ).kind (y.valueIn w σ).kind = true := by rwa [hcx, hcy]
    have hat := World.at_binary (w := w) rfl (by rw [hcx]; exact hx.isScalar) hy.canonical_valueIn hadm'
    rw [hcx] at hat
    refine ⟨σ.set p (w.apply (.arith a) (x.valueIn w σ) (y.valueIn w σ)), ?_⟩
    simp only [Expr.run, hp, hy.run_eq, Option.bind_eq_bind, Option.bind_some, hget]
    exact congrArg (fun v => some (v, σ.set p v)) hat
  | jumpIf =>
    refine ⟨σ, ?_⟩
    simp only [Expr.run, hx.run_eq, hy.run_eq, Option.bind_eq_bind, Option.bind_some]
    rfl
  | cmp | test => cases hadm
  | arith | compare | logic => cases hop

end Nodes

/-! ## Constructors -/

theorem Const.lnot_eq (c : Const) : c.lnot = .bool (c.number = 0) := by
  simp [Const.lnot, Const.asBool_eq]

/-- Operations on one operand of an admitted kind have the value of folding. -/
theorem UnaryOp.meaning_eq {w : World} {op : UnaryOp} {c : Const} (k : Kind) (hop : op = .neg ∨ op = .inv ∨ op = .lnot)
    (hc : c.kind.isScalar = true) (hadm : Expr.unaryAdmits op c.kind = true) : op.meaning c = some (w.unary op k c) ∧
      (w.unary op k c).at (Expr.unaryKind op c.kind) = w.unary op k c := by
  obtain rfl | rfl | rfl := hop
  · have hw : c.kind.isWord = true := by
      simp only [Expr.unaryAdmits] at hadm
      revert hc hadm
      cases c.kind <;> decide
    have hneg := Const.neg_eq hw
    refine ⟨congrArg some hneg.symm, Const.at_eq ?_ c.canonical_neg⟩
    show c.neg.kind = c.kind
    rw [hneg, Const.kind_ofNumber]
  · exact ⟨congrArg some (Const.inv_eq hadm).symm, Const.at_eq rfl (Const.canonical_ofBits _ _ _)⟩
  · exact ⟨congrArg some c.lnot_eq.symm, Const.at_eq rfl (Const.canonical_bool _)⟩

namespace Expr

section Constructors

variable {w : World} {σ : Store} {c : Const} {e x y : Expr} {k : Kind}

/-- Operands in canonical order have the value of the operation in the order given. -/
theorem run_ordered {op : BinaryOp} (hop : op.hasSideEffects = false) (hx : x.IsOperand) (hy : y.IsOperand)
    (h : checkBinary op x y = .ok k) :
    (ordered op k x y).run w σ = some (w.apply op (x.valueIn w σ) (y.valueIn w σ), σ) := by
  obtain ⟨hadm, -, rfl⟩ := checkBinary_eq_ok.1 h
  have inOrder := run_binary (w := w) (σ := σ) hop hx hy hadm
  unfold ordered
  split
  · rename_i op' hs
    split
    · obtain ⟨hadm', -, hkind⟩ := checkBinary_eq_ok.1 (checkBinary_swapped hs h)
      have hop' : op'.hasSideEffects = false := by
        cases op with
        | arith a => cases a <;> cases hs <;> rfl
        | compare => cases hs; rfl
        | logic | assign | compound | jumpIf | cmp | test => cases hs
      have hk : (y.valueIn w σ).kind = (x.valueIn w σ).kind := by
        rw [hx.kind_valueIn, hy.kind_valueIn]
        exact kind_eq_of_swapped hs hadm
      rw [← hkind, run_binary hop' hy hx hadm', World.apply_swapped hs hk]
    · exact inOrder
  · exact inOrder

theorem ordered_eq_of_hasSideEffects {op : BinaryOp} (hop : op.hasSideEffects = true) :
    ordered op k x y = .binary op k x y := by
  cases op <;> first | rfl | cases hop

/-- An operation with a constant on the left that settles it is the constant, and otherwise the right operand. -/
theorem shortCircuit_eq (l : LogicOp) (c : Const) (y : Expr) :
    shortCircuit l c y = if l.settledBy c = true then .const c else y := by
  cases l <;> cases hc : c.asBool <;> simp [shortCircuit, LogicOp.settledBy, hc]

/-- What a checked operation on two operands computes. -/
theorem run_mkBinary {op : BinaryOp} (hx : x.IsOperand) (hy : y.IsOperand) (h : mkBinary op x y = .ok e) :
    ∃ τ, e.run w σ = some (w.apply op (x.valueIn w σ) (y.valueIn w σ), τ) ∧ (op.hasSideEffects = false → τ = σ) := by
  obtain ⟨k, hk, hform⟩ := mkBinary_eq_ok h
  obtain ⟨hadm, -, hkind⟩ := checkBinary_eq_ok.1 hk
  have run_node : ∃ τ, (Expr.binary op k x y).run w σ = some (w.apply op (x.valueIn w σ) (y.valueIn w σ), τ) ∧
      (op.hasSideEffects = false → τ = σ) := by
    cases hop : op.hasSideEffects with
    | false => exact ⟨σ, hkind ▸ run_binary hop hx hy hadm, fun _ => rfl⟩
    | true =>
      obtain ⟨τ, hτ⟩ := run_effect (w := w) (σ := σ) hop hx hy hk
      exact ⟨τ, hτ, nofun⟩
  obtain ⟨c, d, v, rfl, rfl, hv, rfl⟩ | ⟨l, c, rfl, rfl, rfl⟩ | rfl | rfl := hform
  · have hop : op.hasSideEffects = false := by
      cases op <;> first | rfl | cases hv
    refine ⟨σ, ?_, fun _ => rfl⟩
    rw [run, valueIn_const, valueIn_const, World.apply_of_fold hop hx.isScalar hy.wellKinded hadm hv]
  · simp only [binaryAdmits, Kind.isBool, Bool.and_eq_true, beq_iff_eq] at hadm
    have hky := hy.kind_valueIn (w := w) (σ := σ)
    refine ⟨σ, ?_, fun _ => rfl⟩
    rw [valueIn_const, World.apply_logic hadm.2 (hky.trans (hadm.1 ▸ hadm.2)) hx.wellKinded hy.canonical_valueIn,
      shortCircuit_eq]
    split
    · rw [run]
    · exact hy.run_eq
  · exact run_node
  · cases hop : op.hasSideEffects with
    | false => exact ⟨σ, run_ordered hop hx hy hk, fun _ => rfl⟩
    | true =>
      rw [ordered_eq_of_hasSideEffects hop, ← hop]
      exact run_node

theorem run_unary {op : UnaryOp} {τ : Store} (hop : op.isAssign = false) (hx : x.run w σ = some (c, τ)) :
    (Expr.unary op k x).run w σ = some ((w.unary op k c).at k, τ) := by
  rw [run, hop, hx]
  rfl

/-- The opposite comparison has the opposite value. -/
theorem run_negated {o : CompareOp} {τ : Store} (h : checkBinary (.compare o) x y = .ok k)
    (hneg : (!x.kind.isFloat || o.isEquality) = true) (hrun : (Expr.binary (.compare o) k x y).run w σ = some (c, τ)) :
    (Expr.binary (.compare o.negated) .bool x y).run w σ = some (c.lnot, τ) := by
  obtain ⟨hadm, -, rfl⟩ := checkBinary_eq_ok.1 h
  simp only [run, Option.bind_eq_bind, Option.bind_eq_some_iff, Option.some.injEq, Prod.mk.injEq] at hrun ⊢
  obtain ⟨⟨a, σ'⟩, ha, ⟨b, τ'⟩, hb, rfl, rfl⟩ := hrun
  refine ⟨(a, σ'), ha, (b, τ'), hb, ?_, rfl⟩
  have hka := kind_of_run ha
  have hkb := kind_of_run hb
  obtain ⟨r, hr, hr'⟩ := Const.compare_negated (y := b) (hka ▸ hadm) (hka ▸ hneg)
  simp only [World.binary, Const.binary, hr, hr']
  cases r <;> rfl

/-- Logical not, simplified, has the value of logical not. -/
theorem run_mkNot {τ : Store} (hx : x.WellKinded) (hk : x.kind = .bool) (hrun : x.run w σ = some (c, τ)) :
    (mkNot x).run w σ = some (c.lnot, τ) := by
  have plain : (Expr.unary .lnot .bool x).run w σ = some (c.lnot, τ) := by
    rw [run_unary rfl hrun]
    exact congrArg (fun v => some (v, τ)) (Const.at_eq rfl (Const.canonical_bool _))
  unfold mkNot
  split
  · rename_i g y
    have hfits : checkUnary .lnot y = .ok g := hx.1
    have hky : y.kind = .bool := by simpa [unaryAdmits, Kind.isBool] using (checkUnary_eq_ok.1 hfits).1
    simp only [run, UnaryOp.isAssign, Bool.false_eq_true, if_false, Option.bind_eq_bind, Option.bind_eq_some_iff,
      Option.some.injEq, Prod.mk.injEq] at hrun
    obtain ⟨⟨b, τ'⟩, hb, rfl, rfl⟩ := hrun
    obtain ⟨r, rfl⟩ : ∃ r, b = .bool r := ⟨_, Const.eq_bool ((kind_of_run hb).trans hky) (canonical_of_run hx.2 hb)⟩
    obtain rfl : g = .bool := hk
    rw [hb]
    cases r <;> rfl
  · split
    · exact run_negated hx.1 ‹_› hrun
    · exact plain
  · exact plain

/-- What a checked operation on one operand computes. -/
theorem run_mkUnary {op : UnaryOp} (hop : op = .neg ∨ op = .inv ∨ op = .lnot) (hx : x.IsOperand)
    (h : mkUnary op x = .ok e) : ∃ v, op.meaning (x.valueIn w σ) = some v ∧ e.run w σ = some (v, σ) := by
  obtain ⟨k, hk, hform⟩ := mkUnary_eq_ok h
  obtain ⟨hadm, -, rfl⟩ := checkUnary_eq_ok.1 hk
  have hcx := hx.kind_valueIn (w := w) (σ := σ)
  obtain ⟨hmeaning, hat⟩ := UnaryOp.meaning_eq (w := w) (c := x.valueIn w σ) (unaryKind op x.kind) hop
    (by rw [hcx]; exact hx.isScalar) (by rwa [hcx])
  refine ⟨_, hmeaning, ?_⟩
  obtain ⟨rfl, c, rfl, rfl⟩ | ⟨rfl, c, rfl, rfl⟩ | ⟨rfl, c, rfl, rfl⟩ | ⟨rfl, rfl⟩ | rfl := hform
  · rw [valueIn_const, run]
    rfl
  · rw [valueIn_const, run]
    rfl
  · rw [valueIn_const, run]
    rfl
  · exact run_mkNot hx.wellKinded (by simpa [unaryAdmits, Kind.isBool] using hadm) hx.run_eq
  · rw [hcx] at hat
    rw [run_unary (by obtain rfl | rfl | rfl := hop <;> rfl) hx.run_eq, hat]

/-- What a checked conversion computes. -/
theorem run_mkCast (hx : x.IsOperand) (h : mkCast k x = .ok e) :
    e.run w σ = some (.ofNumber k (x.valueIn w σ).number, σ) := by
  have hcx := hx.kind_valueIn (w := w) (σ := σ)
  unfold mkCast at h
  split at h
  · cases h
  · rename_i hadm
    rw [Bool.not_eq_true, Bool.not_eq_false'] at hadm
    have hconvert := Const.convert_eq (c := x.valueIn w σ) (k := k) (by rw [hcx]; exact hx.isScalar) hx.canonical_valueIn
      (by rwa [hcx])
    split at h
    · rename_i hk
      rw [← Except.ok.inj h]
      have hself := Const.ofNumber_number (c := x.valueIn w σ) (by rw [hcx]; exact hx.isScalar) hx.canonical_valueIn
      rw [hcx, hk] at hself
      rw [hx.run_eq, hself]
    · split at h
      · rename_i c
        rw [valueIn_const] at hconvert
        rw [hconvert] at h
        cases h
        rw [run, valueIn_const]
      · cases h
        rw [run_unary rfl hx.run_eq, World.unary, hconvert]
        exact congrArg (fun v => some (v, σ)) (Const.at_eq (Const.kind_ofNumber _ _)
          (Const.canonical_convert hx.canonical_valueIn hconvert))

/-! ### Results are operands again -/

/-- A checked operation that only computes gives an operand. -/
theorem IsOperand.mkBinary {op : BinaryOp} (hx : x.IsOperand) (hy : y.IsOperand) (hop : op.hasSideEffects = false)
    (h : mkBinary op x y = .ok e) (w : World) (σ : Store) :
    e.IsOperand ∧ e.valueIn w σ = w.apply op (x.valueIn w σ) (y.valueIn w σ) := by
  have hrun : ∀ w σ, e.run w σ = some (w.apply op (x.valueIn w σ) (y.valueIn w σ), σ) := by
    intro w σ
    obtain ⟨τ, hτ, hkeep⟩ := run_mkBinary (w := w) (σ := σ) hx hy h
    rwa [hkeep hop] at hτ
  have hscalar : e.kind.isScalar = true := by
    obtain ⟨k, hk, -⟩ := mkBinary_eq_ok h
    have hadm := (checkBinary_eq_ok.1 hk).1
    rw [← hx.kind_valueIn (w := w) (σ := σ), ← hy.kind_valueIn (w := w) (σ := σ)] at hadm
    have hc : (x.valueIn w σ).kind.isScalar = true := by
      rw [hx.kind_valueIn]
      exact hx.isScalar
    rw [← kind_of_run (hrun w σ), ← World.at_binary hop hc hy.canonical_valueIn hadm]
    cases op with
    | arith => exact hc
    | compare | logic => rfl
    | assign | compound | jumpIf | cmp | test => cases hop
  exact ⟨⟨hx.wellKinded.mkBinary hy.wellKinded h, fun w σ => ⟨_, hrun w σ⟩, hscalar⟩, valueIn_eq (hrun w σ)⟩

theorem IsOperand.mkUnary {op : UnaryOp} (hx : x.IsOperand) (hop : op = .neg ∨ op = .inv ∨ op = .lnot)
    (h : mkUnary op x = .ok e) (w : World) (σ : Store) :
    e.IsOperand ∧ op.meaning (x.valueIn w σ) = some (e.valueIn w σ) := by
  have hpure : ∀ w σ, ∃ c, e.run w σ = some (c, σ) := by
    intro w σ
    obtain ⟨v, -, hv⟩ := run_mkUnary (w := w) (σ := σ) hop hx h
    exact ⟨v, hv⟩
  obtain ⟨v, hmeaning, hv⟩ := run_mkUnary (w := w) (σ := σ) hop hx h
  have hscalar : e.kind.isScalar = true := by
    rw [← kind_of_run hv]
    obtain rfl | rfl | rfl := hop <;> cases hmeaning
    · rw [Const.kind_ofNumber, hx.kind_valueIn]
      exact hx.isScalar
    · rw [Const.kind_ofNumber, hx.kind_valueIn]
      exact hx.isScalar
    · rfl
  exact ⟨⟨hx.wellKinded.mkUnary h, hpure, hscalar⟩, by rw [hmeaning, valueIn_eq hv]⟩

theorem IsOperand.mkCast (hx : x.IsOperand) (hk : k.isScalar = true) (h : mkCast k x = .ok e) (w : World) (σ : Store) :
    e.IsOperand ∧ e.valueIn w σ = .ofNumber k (x.valueIn w σ).number := by
  have hrun := fun w σ => run_mkCast (w := w) (σ := σ) hx h
  have hscalar : e.kind.isScalar = true := by
    rw [← kind_of_run (hrun w σ), Const.kind_ofNumber]
    exact hk
  exact ⟨⟨hx.wellKinded.mkCast h, fun w σ => ⟨_, hrun w σ⟩, hscalar⟩, valueIn_eq (hrun w σ)⟩

end Constructors

end Expr

/-! ## Formulas -/

/-- An expression as it is written down, before the constructors see it. -/
inductive Formula
  | operand (e : Expr)
  | unary (op : UnaryOp) (x : Formula)
  | cast (k : Kind) (x : Formula)
  | binary (op : BinaryOp) (x y : Formula)

namespace Formula

/-- The expression of a formula, built from the operands up. -/
def build : Formula → Except Error Expr
  | operand e => .ok e
  | unary op x => do Expr.mkUnary op (← x.build)
  | cast k x => do Expr.mkCast k (← x.build)
  | binary op x y => do Expr.mkBinary op (← x.build) (← y.build)

/-- The value of a formula, by the meaning of each operation as it is written. -/
def value (w : World) (σ : Store) : Formula → Const
  | operand e => e.valueIn w σ
  | unary op x => (op.meaning (x.value w σ)).getD (.zero .void)
  | cast k x => .ofNumber k (x.value w σ).number
  | binary op x y => w.apply op (x.value w σ) (y.value w σ)

theorem exists_of_bind {α β : Type} {x : Except Error α} {f : α → Except Error β} {b : β} (h : x >>= f = .ok b) :
    ∃ a, x = .ok a ∧ f a = .ok b := by
  cases x with
  | error => cases h
  | ok a => exact ⟨a, rfl, h⟩

/-- A formula of scalars that only computes. -/
def IsScalar : Formula → Prop
  | operand e => e.IsOperand
  | unary op x => (op = .neg ∨ op = .inv ∨ op = .lnot) ∧ x.IsScalar
  | cast k x => k.isScalar = true ∧ x.IsScalar
  | binary op x y => op.hasSideEffects = false ∧ x.IsScalar ∧ y.IsScalar

/-- A formula keeps its value when it is built. -/
theorem build_value {f : Formula} {e : Expr} (hf : f.IsScalar) (h : f.build = .ok e) (w : World) (σ : Store) :
    e.IsOperand ∧ e.valueIn w σ = f.value w σ := by
  induction f generalizing e with
  | operand =>
    cases h
    exact ⟨hf, rfl⟩
  | unary op x ih =>
    obtain ⟨hop, hx⟩ := hf
    obtain ⟨a, ha, h⟩ := exists_of_bind h
    obtain ⟨hoperand, hvalue⟩ := ih hx ha
    obtain ⟨he, hmeaning⟩ := hoperand.mkUnary hop h w σ
    rw [hvalue] at hmeaning
    exact ⟨he, by rw [value, hmeaning]; rfl⟩
  | cast k x ih =>
    obtain ⟨hk, hx⟩ := hf
    obtain ⟨a, ha, h⟩ := exists_of_bind h
    obtain ⟨hoperand, hvalue⟩ := ih hx ha
    obtain ⟨he, hcast⟩ := hoperand.mkCast hk h w σ
    exact ⟨he, by rw [hcast, hvalue, value]⟩
  | binary op x y ihx ihy =>
    obtain ⟨hop, hx, hy⟩ := hf
    obtain ⟨a, ha, h⟩ := exists_of_bind h
    obtain ⟨b, hb, h⟩ := exists_of_bind h
    obtain ⟨hxo, hxv⟩ := ihx hx ha
    obtain ⟨hyo, hyv⟩ := ihy hy hb
    obtain ⟨he, happly⟩ := hxo.mkBinary hyo hop h w σ
    exact ⟨he, by rw [happly, hxv, hyv, value]⟩

end Formula

/-- Checked construction keeps the meaning of what is asked for: of an operation on two operands, of an operation on one,
of a conversion, and of a formula that composes them to any depth. -/
theorem run_checked {x y : Expr} (hx : x.IsOperand) (hy : y.IsOperand) (w : World) (σ : Store) :
    (∀ op e, Expr.mkBinary op x y = .ok e →
      ∃ τ, e.run w σ = some (w.apply op (x.valueIn w σ) (y.valueIn w σ), τ) ∧ (op.hasSideEffects = false → τ = σ)) ∧
    (∀ op e, op = .neg ∨ op = .inv ∨ op = .lnot → Expr.mkUnary op x = .ok e →
      ∃ v, op.meaning (x.valueIn w σ) = some v ∧ e.run w σ = some (v, σ)) ∧
    (∀ k e, Expr.mkCast k x = .ok e → e.run w σ = some (.ofNumber k (x.valueIn w σ).number, σ)) ∧
    ∀ (f : Formula) e, f.IsScalar → f.build = .ok e → e.run w σ = some (f.value w σ, σ) := by
  refine ⟨fun _ _ h => Expr.run_mkBinary hx hy h, fun _ _ hop h => Expr.run_mkUnary hop hx h,
    fun _ _ h => Expr.run_mkCast hx h, fun f e hf h => ?_⟩
  obtain ⟨he, hvalue⟩ := Formula.build_value hf h w σ
  rw [he.run_eq, hvalue]

/-- Two and three are not below a register: the sum is folded, the operands trade places and the comparison is turned. -/
def Formula.sumNotBelow (x : Expr) : Formula :=
  .unary .lnot (.binary (.compare .lss) (.binary (.arith .add) (.operand (.const (.int64 2))) (.operand (.const (.int64 3))))
    (.operand x))

theorem run_checked_sumNotBelow :
    let x : Expr := .reg (Func.softReg 0 .int64)
    let e : Expr := .binary (.compare .leq) .bool x (.const (.int64 5))
    let w : World := ⟨fun _ => 0, fun _ _ _ => none, fun _ _ => .zero .void⟩
    let σ : Store := ⟨fun _ => (9, 0), fun _ => 0⟩
    x.IsOperand ∧ (Formula.sumNotBelow x).build = .ok e ∧ e.run w σ = some (.bool false, σ) := by
  intro x e w σ
  have hx : x.IsOperand := Expr.isOperand_of_isEffectFree trivial rfl rfl
  have hconst : ∀ i, (Expr.const (.int64 i)).IsOperand := fun i =>
    Expr.isOperand_of_isEffectFree (Const.canonical_ofInt _ _) rfl rfl
  have hf : (Formula.sumNotBelow x).IsScalar := ⟨.inr (.inr rfl), rfl, ⟨rfl, hconst 2, hconst 3⟩, hx⟩
  have hbuild : (Formula.sumNotBelow x).build = .ok e := by cbv
  exact ⟨hx, hbuild, (run_checked hx (Expr.isOperand_label ⟨0⟩) w σ).2.2.2 (Formula.sumNotBelow x) e hf hbuild⟩

end JitBackend
