import JitBackend.Proofs.Amd64.Compare
import JitBackend.Proofs.Amd64.Roundtrip

/-!
# Conditions of comparisons

A conditional jump and a flag store hold the number of a condition in their opcode. The machine reads it by its bits: the
upper three choose among the flags, the lowest one asks for the opposite (`Flags.tests`). So what a comparison finds at run
time is what folding finds in advance, for either order of the operands and for the opposite condition
(`compare_answers`). An equality with zero may also be found by a conjunction.
-/

namespace JitBackend.Amd64

/-! ## Condition numbers -/

/-- What the machine tests for a condition number. Two numbers ask for the parity of a result, which is not kept. -/
def Flags.tests (f : Flags) (n : Nat) : Option Bool :=
  (match n / 2 with
  | 0 => some f.overflow
  | 1 => some f.carry
  | 2 => some f.zero
  | 3 => some (f.carry || f.zero)
  | 4 => some f.sign
  | 6 => some (f.sign != f.overflow)
  | 7 => some (f.zero || f.sign != f.overflow)
  | _ => none).map fun b => b != (n % 2 == 1)

/-- The condition number in the bytes of a conditional jump or of a flag store. -/
def conditionNumber (bs : List Byte) : Option Nat :=
  match (prefixes bs).2 with
  | op :: b :: _ => if op = 0x0F ∧ (b.toNat / 16 = 8 ∨ b.toNat / 16 = 9) then some (b.toNat % 16) else none
  | _ => none

/-- The answer `t` is what the flags give to the condition, and to the condition number in every instruction that the
encoder writes for it: its jump, and its store in any place that can be written down. -/
structure Flags.Answers (f : Flags) (c : Cond) (t : Bool) : Prop where
  holds : f.holds c = t
  jump : ∀ k l, ∃ bs n, (instruction (.unary (.jcc c) k (.label l))).run [] = (.ok (), bs.map .byte ++ [.rel32 l]) ∧
    conditionNumber bs = some n ∧ f.tests n = some t
  store : ∀ k x rm, destination x 1 = .ok rm → rm.indexed = true →
    ∃ bs n, (instruction (.unary (.setcc c) k x)).run [] = (.ok (), bs.map .byte) ∧ conditionNumber bs = some n ∧
      f.tests n = some t

section Numbers

variable {f : Flags} {c : Cond} {t : Bool}

theorem Flags.tests_condCode (f : Flags) (c : Cond) : f.tests (condCode c) = some (f.holds c) := by
  obtain ⟨zero, carry, sign, overflow⟩ := f
  cases c <;> cases sign <;> cases overflow <;> simp [Flags.tests, condCode, Flags.holds]

theorem toNat_storeByte (c : Cond) : (BitVec.ofNat 8 (0x90 + condCode c)).toNat / 16 = 9 ∧
    (BitVec.ofNat 8 (0x90 + condCode c)).toNat % 16 = condCode c := by
  cases c <;> decide

/-- An instruction without a reference that can be written down is written. -/
theorem run_inst_of_indexed {size : Nat} {opcode : List Byte} {field : RegField} {rm : Rm} (hidx : rm.indexed = true)
    (hrefs : rm.references = []) :
    (inst size opcode field rm).run [] = (.ok (), (instBytes size opcode field rm).map Piece.byte) := by
  have hmod : ∀ pre d, (outModRM d rm).run pre = (.ok (), pre ++ (rm.bytes d).map Piece.byte) := by
    intro pre d
    cases rm with
    | reg r s => rfl
    | mem m =>
      have hno : m.index.any (·.index == 4) = false := by simpa [Rm.indexed] using hidx
      simp only [outModRM, hno]
      rfl
    | rip l => cases hrefs
  rw [inst_eq, run_bind_eq_ok]
  refine ⟨(), _, run_out_eq_ok.2 rfl, run_bind_eq_ok.2 ⟨(), _, run_out_eq_ok.2 rfl, ?_⟩⟩
  rw [hmod]
  simp [instBytes]

theorem conditionNumber_jump (c : Cond) : conditionNumber [0x0F, .ofNat 8 (0x80 + condCode c)] = some (condCode c) := by
  cases c <;> decide

theorem conditionNumber_store (c : Cond) (rm : Rm) :
    conditionNumber (instBytes 1 [0x0F, .ofNat 8 (0x90 + condCode c)] (.digit 0) rm) = some (condCode c) := by
  have hlead := @prefixes_leading 1 (high (RegField.digit 0).number) rm.indexBit rm.baseBit
    ((RegField.digit 0).forced || rm.forced) 0x0F
    (.ofNat 8 (0x90 + condCode c) :: rm.bytes (low3 (RegField.digit 0).number)) (by decide) (by decide)
  obtain ⟨hdiv, hmod⟩ := toNat_storeByte c
  have hbytes : instBytes 1 [0x0F, .ofNat 8 (0x90 + condCode c)] (.digit 0) rm =
      leading 1 (high (RegField.digit 0).number) rm.indexBit rm.baseBit ((RegField.digit 0).forced || rm.forced) ++
        0x0F :: .ofNat 8 (0x90 + condCode c) :: rm.bytes (low3 (RegField.digit 0).number) := rfl
  rw [conditionNumber, hbytes, hlead]
  simp only
  rw [if_pos ⟨trivial, .inr hdiv⟩, hmod]

/-- What the flags say of a condition is what the instructions find. -/
theorem Flags.Answers.of_holds (h : f.holds c = t) : f.Answers c t where
  holds := h
  jump k l := by
    refine ⟨[0x0F, .ofNat 8 (0x80 + condCode c)], condCode c, rfl, conditionNumber_jump c, ?_⟩
    rw [Flags.tests_condCode, h]
  store k x rm hrm hidx := by
    have hrefs : rm.references = [] := by
      obtain ⟨o, -, ho⟩ := destination_eq_ok hrm
      exact rmOf?_references ho
    refine ⟨_, condCode c, ?_, conditionNumber_store c rm, by rw [Flags.tests_condCode, h]⟩
    show (outUnary (.setcc c) k x).run [] = _
    rw [outUnary, run_bind_eq_ok]
    exact ⟨rm, [], run_lift_eq_ok.2 ⟨hrm, rfl⟩, run_inst_of_indexed hidx hrefs⟩

theorem Flags.Answers.negated (h : f.holds c = t) : f.Answers c.negated !t :=
  of_holds (by rw [Flags.holds_negated, h])

end Numbers

/-! ## Comparisons -/

section Comparisons

variable {a b : Const} {m : Machine} {x y : Operand} {op : CompareOp}

theorem exec_cmp {n : Nat} {v w : Word} (hx : m.read n x = some v) (hy : m.read n y = some w) :
    (Instr.cmp n x y).exec m = some { m with flags := some (Flags.ofSub n v w) } := by
  simp [Instr.exec, hx, hy]

theorem exec_test {n : Nat} {v w : Word} (hx : m.read n x = some v) (hy : m.read n y = some w) :
    (Instr.test n x y).exec m = some { m with flags := some (Flags.ofAnd n v w) } := by
  simp [Instr.exec, hx, hy]

/-- The bits that two words have in common. -/
theorem arith_and (hk : a.kind.isWord = true) : Const.arith .and a b = .ok (.ofBits a.kind (a.re &&& b.re) 0) := by
  have h : (Const.arith .and a b).toOption = (Const.wordArith a.kind.isSigned .and a.re b.re).map (.ofBits a.kind · 0) :=
    Const.toOption_wordArith hk (by decide) (by decide)
  cases hr : Const.arith .and a b with
  | error e =>
    rw [hr] at h
    cases h
  | ok r =>
    rw [hr] at h
    cases h
    rfl

/-- The flags of a comparison answer as folding does: to the condition of the comparison, after the operands have traded
places to the swapped one, and to the opposite conditions with the opposite answer. An equality with zero is also answered
by the conjunction of a value with itself, and one of the bits in common by the conjunction. -/
theorem compare_answers (hk : a.kind.isScalar = true) (hb : b.kind = a.kind) (hac : a.Canonical) (hbc : b.Canonical)
    (hx : m.read a.kind.size x = some (low a.kind.size a.re)) (hy : m.read a.kind.size y = some (low a.kind.size b.re))
    (op : CompareOp) : ∃ t, Const.binary (.compare op) a b = .ok (.bool t) ∧
      (∃ f, (Instr.cmp a.kind.size x y).exec m = some { m with flags := some f } ∧
        f.Answers (.ofCompare op a.kind) t ∧ f.Answers (Cond.ofCompare op a.kind).negated !t) ∧
      (∃ f, (Instr.cmp a.kind.size y x).exec m = some { m with flags := some f } ∧
        f.Answers (Cond.ofCompare op a.kind).swapped t ∧ f.Answers (Cond.ofCompare op a.kind).swapped.negated !t) ∧
      (op.isEquality = true →
        (∃ u f, Const.binary (.compare op) a (.zero a.kind) = .ok (.bool u) ∧
          (Instr.test a.kind.size x x).exec m = some { m with flags := some f } ∧
          f.Answers (.ofCompare op a.kind) u ∧ f.Answers (Cond.ofCompare op a.kind).negated !u) ∧
        (a.kind.isWord = true → ∃ r u f, Const.binary (.arith .and) a b = .ok r ∧
          Const.binary (.compare op) r (.zero a.kind) = .ok (.bool u) ∧
          (Instr.test a.kind.size x y).exec m = some { m with flags := some f } ∧
          f.Answers (.ofCompare op a.kind) u ∧ f.Answers (Cond.ofCompare op a.kind).negated !u)) := by
  have hfold : ∀ {c d : Const} {t : Bool}, Const.compare op c d = .ok t →
      Const.binary (.compare op) c d = .ok (.bool t) := by
    intro c d t h
    rw [Const.binary, h]
    rfl
  have hcmp := Const.compare_eq_holds hk hb op
  refine ⟨_, hfold hcmp, ⟨_, exec_cmp hx hy, ?_⟩, ⟨_, exec_cmp hy hx, ?_⟩, fun heq => ⟨?_, fun hw => ?_⟩⟩
  · have h := Flags.holds_ofSub hk hac hbc hb hcmp
    exact ⟨.of_holds h, .negated h⟩
  · have hswap := Const.compare_swapped hk hb op
    have h := Flags.holds_ofSub (hb ▸ hk) hbc hac hb.symm (hswap.trans hcmp)
    rw [hb, ← Cond.swapped_ofCompare] at h
    exact ⟨.of_holds h, .negated h⟩
  · have hzero := Const.compare_eq_holds hk (show (Const.zero a.kind).kind = a.kind from rfl) op
    have h := Flags.holds_ofAnd hk hac (a := a.re) (b := a.re) (by rw [BitVec.and_self]) heq hzero
    exact ⟨_, _, hfold hzero, exec_test hx hx, .of_holds h, .negated h⟩
  · have hzero := Const.compare_eq_holds (c := .ofBits a.kind (a.re &&& b.re) 0) hk
      (show (Const.zero a.kind).kind = a.kind from rfl) op
    have h := Flags.holds_ofAnd (r := .ofBits a.kind (a.re &&& b.re) 0) hk (Const.canonical_ofBits _ _ _)
      (Const.low_re_ofBits hw _) heq hzero
    exact ⟨_, _, _, arith_and hw, hfold hzero, exec_test hx hy, .of_holds h, .negated h⟩

/-- The least byte and one in two registers. -/
def leastAndOne : Machine where
  regs r := if r = rax then 0xFFFFFFFFFFFFFF80 else 1
  mem _ := 0
  flags := none

/-- The difference of the least number and one overflows: its sign is that of a greater number. -/
theorem compare_answers_leastAndOne : leastAndOne.read 1 (.reg rax) = some (low 1 0xFFFFFFFFFFFFFF80) ∧
    leastAndOne.read 1 (.reg rcx) = some (low 1 1) ∧
    Const.binary (.compare .lss) ⟨.int8, 0xFFFFFFFFFFFFFF80, 0⟩ ⟨.int8, 1, 0⟩ = .ok (.bool true) ∧
    ∃ f, (Instr.cmp 1 (.reg rax) (.reg rcx)).exec leastAndOne = some { leastAndOne with flags := some f } ∧
      f.sign = false ∧ f.Answers .lt true ∧ f.Answers .ge false := by
  have hx : leastAndOne.read 1 (.reg rax) = some (low 1 0xFFFFFFFFFFFFFF80) := rfl
  have hy : leastAndOne.read 1 (.reg rcx) = some (low 1 1) := rfl
  obtain ⟨t, ht, ⟨f, hf, hans, hneg⟩, -⟩ := compare_answers (a := ⟨.int8, 0xFFFFFFFFFFFFFF80, 0⟩) (b := ⟨.int8, 1, 0⟩)
    rfl rfl (by decide) (by decide) hx hy .lss
  obtain rfl : t = true := by
    have hbool : Const.bool true = .bool t := Except.ok.inj ht
    cases t
    · exact absurd hbool (by decide)
    · rfl
  refine ⟨hx, hy, ht, f, hf, ?_, hans, hneg⟩
  obtain rfl : Flags.ofSub 1 (low 1 0xFFFFFFFFFFFFFF80) (low 1 1) = f := by
    have hcmp := (exec_cmp hx hy).symm.trans hf
    exact Option.some.inj (congrArg Machine.flags (Option.some.inj hcmp))
  decide

end Comparisons

end JitBackend.Amd64
