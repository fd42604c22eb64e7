import JitBackend.Proofs.Construction

/-!
# Folding is exact

A canonical scalar is determined by its kind and the number that it stands for (`Const.Stands.unique`). The result of
folding integers or pointers stands for the exact result of the operation on their numbers, as far as the kind of the left
operand holds it. Folding fails only where the operation has no result, and says why.
-/

namespace JitBackend

/-- Which operations on numbers have no result. -/
theorem ArithOp.exact_eq_none {op : ArithOp} {a b : Int} :
    op.exact a b = none ↔ ((op = .quo ∨ op = .rem) ∧ b = 0) ∨ ((op = .shl ∨ op = .shr) ∧ b < 0) := by
  cases op <;> simp [ArithOp.exact]

namespace Const

variable {c d x y : Const} {k : Kind} {i : Int}

/-- The constant is of kind `k` and in canonical form, and stands for what the kind leaves of the number `i`. -/
structure Stands (c : Const) (k : Kind) (i : Int) : Prop where
  kind : c.kind = k
  canonical : c.Canonical
  number : c.number = k.wrap i

theorem stands_ofNumber (hk : k.isWord = true) (i : Int) : (ofNumber k i).Stands k i where
  kind := by rw [ofNumber_of_isWord hk]; rfl
  canonical := by rw [ofNumber_of_isWord hk]; exact canonical_ofBits _ _ _
  number := number_ofNumber (Kind.isScalar_of_isWord hk) i

/-- No other constant stands for the number. -/
theorem Stands.unique (hk : k.isScalar = true) (hc : c.Stands k i) (hd : d.Stands k i) : c = d := by
  have hcn := ofNumber_number (hc.kind ▸ hk) hc.canonical
  have hdn := ofNumber_number (hd.kind ▸ hk) hd.canonical
  rw [← hcn, ← hdn, hc.kind, hd.kind, hc.number, hd.number]

theorem Stands.eq_ofNumber (hk : k.isWord = true) (hc : c.Stands k i) : c = ofNumber k i :=
  hc.unique (Kind.isScalar_of_isWord hk) (stands_ofNumber hk i)

/-! ## Failures -/

theorem asInt_of_isSigned (hk : c.kind.isSigned = true) : c.asInt = c.number := by
  have hf : c.kind.isFloat = false := by
    revert hk
    cases c.kind <;> decide
  rw [asInt, number, hf, if_neg (by simp), if_pos hk]

theorem shift_eq_error (left : Bool) {e : Error} (h : shift left x y = .error e) :
    y.kind.isSigned = true ∧ y.number < 0 ∧ e = .negativeShift y.number := by
  unfold shift at h
  split at h
  · rename_i hneg
    simp only [Bool.and_eq_true, decide_eq_true_eq] at hneg
    rw [asInt_of_isSigned hneg.1] at h hneg
    cases h
    exact ⟨hneg.1, hneg.2, rfl⟩
  · cases h

theorem wordArith_eq_none {signed : Bool} {op : ArithOp} {a b : Word} (h : wordArith signed op a b = none) :
    (op = .quo ∨ op = .rem) ∧ b = 0 := by
  cases op with
  | quo | rem =>
    simp only [wordArith] at h
    split at h
    · exact ⟨by simp, ‹_›⟩
    · cases h
  | _ => cases h

/-- Why arithmetic on words fails. -/
theorem arith_eq_error {op : ArithOp} {e : Error} (hx : x.kind.isWord = true) (h : arith op x y = .error e) :
    ((op = .quo ∨ op = .rem) ∧ y.number = 0 ∧ e = .divisionByZero x.kind) ∨
      ((op = .shl ∨ op = .shr) ∧ y.kind.isSigned = true ∧ y.number < 0 ∧ e = .negativeShift y.number) := by
  by_cases hl : op = .shl
  · subst hl
    exact .inr ⟨.inl rfl, shift_eq_error true h⟩
  by_cases hr : op = .shr
  · subst hr
    exact .inr ⟨.inr rfl, shift_eq_error false h⟩
  have hnone : wordArith x.kind.isSigned op x.re y.re = none ∧ e = .divisionByZero x.kind := by
    obtain ⟨k, re, im⟩ := x
    cases op <;> first | exact absurd rfl hl | exact absurd rfl hr | skip
    all_goals
      cases k <;> cases hx
      all_goals
        simp only [arith] at h
        split at h
        · cases h
        · rename_i hw
          cases h
          exact ⟨hw, rfl⟩
  obtain ⟨hop, hzero⟩ := wordArith_eq_none hnone.1
  exact .inl ⟨hop, number_eq_zero.2 hzero, hnone.2⟩

/-! ## Results -/

/-- Arithmetic on words gives the constant for the exact result, if there is one. -/
theorem arith_eq_ok {op : ArithOp} (hx : x.kind.isWord = true) (hy : y.Canonical)
    (hadm : Expr.arithAdmits op x.kind y.kind = true) (hi : op.exact x.number y.number = some i) :
    arith op x y = .ok (ofNumber x.kind i) := by
  have h := toOption_arith hx hy hadm
  rw [hi, Option.map_some] at h
  cases hr : arith op x y with
  | error e =>
    rw [hr] at h
    cases h
  | ok c =>
    rw [hr] at h
    cases h
    rfl

/-- Arithmetic on words fails where it has no exact result. -/
theorem arith_eq_error_iff {op : ArithOp} {e : Error} (hx : x.kind.isWord = true) (hy : y.Canonical)
    (hadm : Expr.arithAdmits op x.kind y.kind = true) : arith op x y = .error e ↔
      ((op = .quo ∨ op = .rem) ∧ y.number = 0 ∧ e = .divisionByZero x.kind) ∨
      ((op = .shl ∨ op = .shr) ∧ y.kind.isSigned = true ∧ y.number < 0 ∧ e = .negativeShift y.number) := by
  refine ⟨arith_eq_error hx, fun h => ?_⟩
  have hnone : op.exact x.number y.number = none :=
    ArithOp.exact_eq_none.2 (h.imp (fun h => ⟨h.1, h.2.1⟩) fun h => ⟨h.1, h.2.2.1⟩)
  have hopt := toOption_arith hx hy hadm
  rw [hnone, Option.map_none] at hopt
  cases hr : arith op x y with
  | ok c =>
    rw [hr] at hopt
    cases hopt
  | error e' =>
    -- each operation has one reason to fail
    have he := arith_eq_error hx hr
    rcases h with ⟨rfl | rfl, -, rfl⟩ | ⟨rfl | rfl, -, -, rfl⟩ <;> simp at he
    · rw [he.2]
    · rw [he.2]
    · rw [he.2.2]
    · rw [he.2.2]

theorem eq_ok_iff_stands {r : Except Error Const} (hk : k.isWord = true) (hr : r = .ok (ofNumber k i)) (c : Const) :
    r = .ok c ↔ c.Stands k i := by
  constructor
  · intro h
    cases hr.symm.trans h
    exact stands_ofNumber hk i
  · intro h
    rw [hr, h.eq_ofNumber hk]

/-- Folding of integers and pointers is exact arithmetic on their numbers, taken at the kind of the left operand. It fails
for a zero divisor and for a negative count only. -/
theorem fold_exact (hxw : x.kind.isWord = true) (hy : y.Canonical) :
    (∀ op : ArithOp, Expr.binaryAdmits (.arith op) x.kind y.kind = true →
      (∀ i, op.exact x.number y.number = some i → ∀ c, binary (.arith op) x y = .ok c ↔ c.Stands x.kind i) ∧
      ∀ e, binary (.arith op) x y = .error e ↔
        ((op = .quo ∨ op = .rem) ∧ y.number = 0 ∧ e = .divisionByZero x.kind) ∨
        ((op = .shl ∨ op = .shr) ∧ y.kind.isSigned = true ∧ y.number < 0 ∧ e = .negativeShift y.number)) ∧
    (∀ op : CompareOp, Expr.binaryAdmits (.compare op) x.kind y.kind = true →
      binary (.compare op) x y = .ok (bool (op.holds x.number y.number)) ∧ (bool (op.holds x.number y.number)).Canonical) ∧
    x.neg.Stands x.kind (-x.number) ∧ x.inv.Stands x.kind (-x.number - 1) ∧
    ∀ (c : Const) (k : Kind), c.kind.isScalar = true → k.isWord = true → ∀ d, c.convert k = .ok d ↔ d.Stands k c.number := by
  refine ⟨?_, ?_, ?_, ?_, ?_⟩
  · intro op hadm
    exact ⟨fun i hi => eq_ok_iff_stands hxw (arith_eq_ok hxw hy hadm hi), fun e => arith_eq_error_iff hxw hy hadm⟩
  · intro op hadm
    have hk : y.kind = x.kind := by
      cases op <;> simp only [Expr.binaryAdmits, Bool.and_eq_true, beq_iff_eq] at hadm <;> exact hadm.1.symm
    refine ⟨?_, canonical_bool _⟩
    rw [binary, compare_eq_holds (Kind.isScalar_of_isWord hxw) hk]
    rfl
  · rw [neg_eq hxw]
    exact stands_ofNumber hxw _
  · rw [inv_eq hxw]
    exact stands_ofNumber hxw _
  · intro c k hck hk d
    refine eq_ok_iff_stands hk ?_ d
    rw [convert_of_isWord hck hk, ofNumber_of_isWord hk, ofInt_number]

/-- The least number divided by minus one wraps around, a count beyond the width leaves the sign, and one below zero is
refused. -/
theorem fold_exact_least : (ofInt .int8 (-1)).Canonical ∧ (ofInt .int8 (-128)).kind.isWord = true ∧
    Expr.binaryAdmits (.arith .quo) .int8 .int8 = true ∧ ArithOp.quo.exact (-128) (-1) = some 128 ∧
    (∀ c, binary (.arith .quo) (ofInt .int8 (-128)) (ofInt .int8 (-1)) = .ok c ↔ c.Stands .int8 128) ∧
    Kind.int8.wrap 128 = -128 ∧
    binary (.arith .shr) (ofInt .int8 (-128)) (ofInt .int8 (-1)) = .error (.negativeShift (-1)) ∧
    (∀ c, binary (.arith .shr) (ofInt .int8 (-128)) (ofInt .uint8 200) = .ok c ↔ c.Stands .int8 (-1)) := by
  have hword : (ofInt .int8 (-128)).kind.isWord = true := rfl
  have hone : (ofInt .int8 (-1)).Canonical := by decide
  have hcount : (ofInt .uint8 200).Canonical := by decide
  refine ⟨hone, hword, rfl, rfl, ?_, by decide, ?_, ?_⟩
  · exact ((fold_exact hword hone).1 .quo rfl).1 128 (by decide)
  · exact (((fold_exact hword hone).1 .shr rfl).2 _).2 (.inr ⟨.inr rfl, rfl, by decide, rfl⟩)
  · exact ((fold_exact hword hcount).1 .shr rfl).1 (-1) (by decide)

end Const

end JitBackend
