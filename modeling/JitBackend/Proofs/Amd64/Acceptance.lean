import JitBackend.Proofs.Amd64.Encoding
import JitBackend.Proofs.Resolution
import JitBackend.Amd64.Target

/-!
# What the encoder accepts

An operand is a register of the machine, an address whose index is not the stack pointer, a constant or a label, and an
instruction takes them in certain combinations only: no two of them in memory, no label but in a move to a register, no
constant wider than four bytes but in a move to a register, a divisor outside `rax` and `rdx`. `Accepts` says that a
writer of the encoder succeeds; the lemmas are about each form that selection makes use of.
-/

namespace JitBackend.Amd64

/-- The computation writes its instruction, whatever stands before. -/
def Accepts (act : Emit Unit) : Prop := ∀ pre, ∃ post, act.run pre = (.ok (), post)

section Parts

variable {α : Type} {size : Nat} {rm : Rm} {v : Word} {act : Emit Unit}

theorem Accepts.bind {k : Unit → Emit Unit} (h : Accepts act) (hk : Accepts (k ())) : Accepts (act >>= k) := by
  intro pre
  obtain ⟨mid, hmid⟩ := h pre
  obtain ⟨post, hpost⟩ := hk mid
  exact ⟨post, run_bind_eq_ok.2 ⟨(), mid, hmid, hpost⟩⟩

theorem Accepts.lift {x : Except Error α} {a : α} {k : α → Emit Unit} (hx : x = .ok a) (hk : Accepts (k a)) :
    Accepts (liftM x >>= k) := by
  intro pre
  obtain ⟨post, hpost⟩ := hk pre
  exact ⟨post, run_bind_eq_ok.2 ⟨a, pre, run_lift_eq_ok.2 ⟨hx, rfl⟩, hpost⟩⟩

theorem accepts_pure : Accepts (pure ()) := fun pre => ⟨pre, rfl⟩

theorem accepts_out (bs : List Byte) : Accepts (out bs) := fun _ => ⟨_, run_out_eq_ok.2 rfl⟩

theorem accepts_outLabel (l : Label) : Accepts (outLabel l) := fun _ => ⟨_, run_outLabel_eq_ok.2 rfl⟩

theorem accepts_outModRM {reg : Nat} (h : rm.indexed = true) : Accepts (outModRM reg rm) := by
  cases rm with
  | reg r s => exact accepts_out _
  | rip l => exact (accepts_out _).bind (accepts_outLabel l)
  | mem m =>
    rw [outModRM, if_neg (by simpa [Rm.indexed] using h)]
    exact accepts_out _

theorem accepts_inst {opcode : List Byte} {field : RegField} (h : rm.indexed = true) :
    Accepts (inst size opcode field rm) := by
  rw [inst_eq]
  exact (accepts_out _).bind ((accepts_out _).bind (accepts_outModRM h))

theorem accepts_instPlus {opcode : Nat} {r : HardReg} : Accepts (instPlus size opcode r) :=
  (accepts_out _).bind (accepts_out _)

theorem accepts_outImm (h : size = 1 ∨ size = 2 ∨ fitsDword v = true) : Accepts (outImm size v) := by
  unfold outImm
  split
  · exact accepts_out _
  · exact accepts_out _
  · rw [if_pos (by simp_all)]
    exact accepts_out _

end Parts

/-! ## Operands -/

/-- A register, or an address that can be written down. -/
inductive IsRm : Operand → Prop
  | reg (r : HardReg) : IsRm (.reg r)
  | mem {m : AddrMode} (h : m.index.any (·.index == 4) = false) : IsRm (.mem m)

theorem IsRm.rmOf? {o : Operand} (h : IsRm o) (size : Nat) : ∃ rm, rmOf? o size = some rm ∧ rm.indexed = true := by
  cases h with
  | reg r => exact ⟨_, rfl, rfl⟩
  | mem h => exact ⟨_, rfl, by simp [Rm.indexed, h]⟩

theorem IsRm.rmOr {o : Operand} (h : IsRm o) (size : Nat) (what : Refusal) :
    ∃ rm, rmOr o size what = .ok rm ∧ rm.indexed = true := by
  obtain ⟨rm, hrm, hidx⟩ := h.rmOf? size
  exact ⟨rm, by rw [Amd64.rmOr, hrm], hidx⟩

/-- What can stand against an operand in an instruction of two. -/
inductive Against (dst : Operand) : Operand → Prop
  | reg (r : HardReg) : Against dst (.reg r)
  | mem {d : HardReg} {m : AddrMode} (hd : dst = .reg d) (h : m.index.any (·.index == 4) = false) : Against dst (.mem m)
  | imm {v : Word} (h : fitsDword v = true) : Against dst (.imm v)

section Forms

variable {size : Nat} {dst src : Operand}

theorem accepts_outAlu {digit : Nat} (hd : IsRm dst) (hs : Against dst src) : Accepts (outAlu digit size dst src) := by
  obtain ⟨rm, hrm, hidx⟩ := hd.rmOr size (.aluTarget dst)
  refine Accepts.lift hrm ?_
  cases hs with
  | reg r => cases hd <;> exact accepts_inst hidx
  | mem hdst h =>
    subst hdst
    exact accepts_inst (by simp [Rm.indexed, h])
  | @imm v h =>
    have himm : Accepts (if size = 1 then do inst size [0x80] (.digit digit) rm; outImm 1 v
        else if fitsByte v then do inst size [0x83] (.digit digit) rm; outImm 1 v
        else do inst size [0x81] (.digit digit) rm; outImm size v) := by
      split
      · exact .bind (accepts_inst hidx) (accepts_outImm (.inl rfl))
      · split
        · exact .bind (accepts_inst hidx) (accepts_outImm (.inl rfl))
        · exact .bind (accepts_inst hidx) (accepts_outImm (.inr (.inr h)))
    cases hd <;> exact himm

theorem accepts_outTest (hd : IsRm dst) (hs : Against dst src) : Accepts (outTest size dst src) := by
  cases hs with
  | reg r =>
    obtain ⟨rm, hrm, hidx⟩ := hd.rmOr size (.testTarget dst)
    cases hd <;> exact Accepts.lift hrm (accepts_inst hidx)
  | mem hdst h =>
    subst hdst
    obtain ⟨rm, hrm, hidx⟩ := (IsRm.mem h).rmOr size (.testTarget (.mem _))
    exact Accepts.lift hrm (accepts_inst hidx)
  | imm h =>
    obtain ⟨rm, hrm, hidx⟩ := hd.rmOr size (.testTarget dst)
    cases hd <;> exact .lift hrm (.bind (accepts_inst hidx) (accepts_outImm (.inr (.inr h))))

/-- A register takes a constant of its own size. -/
theorem accepts_outMov_const {d : HardReg} {v : Word} (h : size = 4 → fitsDword v = true) :
    Accepts (outMov size (.reg d) (.imm v)) := by
  unfold outMov
  dsimp only
  split
  · exact .bind accepts_instPlus (accepts_outImm (.inl rfl))
  · exact .bind accepts_instPlus (accepts_outImm (.inr (.inl rfl)))
  · exact .bind accepts_instPlus (accepts_outImm (.inr (.inr (h rfl))))
  · split
    · rename_i hv
      exact .bind (accepts_inst rfl) (accepts_outImm (.inr (.inr hv)))
    · split
      · exact .bind accepts_instPlus (accepts_out _)
      · exact .bind accepts_instPlus (accepts_out _)

theorem accepts_outMov (hd : IsRm dst) (hs : Against dst src) : Accepts (outMov size dst src) := by
  cases hd with
  | reg d =>
    cases hs with
    | reg r =>
      simp only [outMov]
      split
      · exact accepts_pure
      · exact accepts_inst rfl
    | mem _ h =>
      simp only [outMov]
      exact accepts_inst (by simp [Rm.indexed, h])
    | imm h => exact accepts_outMov_const fun _ => h
  | mem hm =>
    cases hs with
    | reg r =>
      simp only [outMov]
      exact accepts_inst (by simp [Rm.indexed, hm])
    | mem hdst => cases hdst
    | imm h =>
      simp only [outMov]
      exact .bind (accepts_inst (by simp [Rm.indexed, hm])) (accepts_outImm (.inr (.inr h)))

theorem accepts_outMov_label {d : HardReg} {l : Label} : Accepts (outMov size (.reg d) (.label l)) := by
  simp only [outMov]
  exact accepts_inst rfl

theorem accepts_outMul {d : HardReg} (hsize : size ≠ 1) (hs : Against (.reg d) src) :
    Accepts (outMul size (.reg d) src) := by
  unfold outMul
  dsimp only
  rw [if_neg hsize]
  cases hs with
  | reg r => exact Accepts.lift rfl (accepts_inst rfl)
  | mem _ h => exact Accepts.lift rfl (accepts_inst (by simp [Rm.indexed, h]))
  | imm h =>
    dsimp only
    split
    · exact .bind (accepts_inst rfl) (accepts_outImm (.inl rfl))
    · exact .bind (accepts_inst rfl) (accepts_outImm (.inr (.inr h)))

theorem accepts_outShift_const {digit : Nat} {v : Word} (hd : IsRm dst) : Accepts (outShift size digit dst (.imm v)) := by
  obtain ⟨rm, hrm, hidx⟩ := hd.rmOr size (.shiftOf dst)
  exact .lift hrm (.bind (accepts_inst hidx) (accepts_outImm (.inl rfl)))

theorem accepts_outShift_rcx {digit : Nat} (hd : IsRm dst) : Accepts (outShift size digit dst (.reg rcx)) := by
  obtain ⟨rm, hrm, hidx⟩ := hd.rmOr size (.shiftOf dst)
  refine .lift hrm ?_
  simp only [if_true]
  exact accepts_inst hidx

theorem accepts_outDivide {isRem : Bool} {k : Kind} (hk : width k = .ok size) (hsize : size ≠ 1) (hs : IsRm src)
    (hrax : src ≠ .reg rax) (hrdx : src ≠ .reg rdx) : Accepts (outDivide isRem k (.reg rax) src) := by
  obtain ⟨rm, hrm, hidx⟩ := hs.rmOr size (.divisor src)
  have hend : Accepts (if isRem then inst size [0x89] (.reg rdx size) (.reg rax size) else pure ()) := by
    split
    · exact accepts_inst rfl
    · exact accepts_pure
  refine Accepts.lift hk ?_
  rw [if_neg (by simp), if_neg hsize, if_neg (by simp [hrax, hrdx])]
  refine .lift hrm ?_
  dsimp only
  split
  · exact .bind (accepts_out _) (.bind (accepts_inst hidx) hend)
  · exact .bind (accepts_out _) (.bind (accepts_inst hidx) hend)

theorem width_of_isScalar {k : Kind} (hk : k.isScalar = true) : width k = .ok k.size :=
  if_pos (Kind.size_of_isScalar hk)

/-- A register takes a narrower operand. -/
theorem accepts_outCast {d : HardReg} {k : Kind} {e : Expr} {o : Operand} (hk : k.isScalar = true)
    (he : e.kind.isScalar = true) (hlt : e.kind.size < k.size) (ho : operand e = .ok o) (hrm : IsRm o) :
    Accepts (outCast (.reg d) k e) := by
  obtain ⟨rm, hrm, hidx⟩ := hrm.rmOr e.kind.size (.castFrom e)
  refine .lift (width_of_isScalar hk) (.lift (width_of_isScalar he) (.lift ho ?_))
  rw [if_neg (by omega)]
  refine Accepts.lift hrm ?_
  split
  case h_7 _ _ h1 h2 h3 h4 h5 h6 =>
    have hle := Kind.size_le_of_isScalar hk
    have hsize := Kind.size_of_isScalar he
    generalize e.kind.isSigned = signed at *
    cases signed <;> simp_all <;> omega
  all_goals exact accepts_inst hidx

end Forms

/-! ## Expressions -/

/-- An address that can be written down: its registers are general ones, and its index is not the stack pointer. -/
structure IsAddress (m : AddrMode) : Prop where
  gpr : m.IsGpr
  index : m.index.any (·.index == 4) = false

/-- A register that satisfies `P`, or an address that can be written down. -/
inductive LegalPlace (P : HardReg → Prop) : Expr → Prop
  | reg {r : Reg} {h : HardReg} (hk : r.kind.isScalar = true) (hid : r.id = .hard h) (hh : P h) : LegalPlace P (.reg r)
  | mem {k : Kind} (ro : Bool) {m : AddrMode} (hk : k.isScalar = true) (hm : IsAddress m) : LegalPlace P (.memAt k ro m)

/-- A legal place, a constant or a label. -/
inductive LegalValue (P : HardReg → Prop) : Expr → Prop
  | place {e : Expr} (h : LegalPlace P e) : LegalValue P e
  | const {c : Const} (hk : c.kind.isScalar = true) : LegalValue P (.const c)
  | label (l : Label) : LegalValue P (.label l)

/-- What can stand against the place `dst` in an instruction of two operands. -/
inductive LegalSource (dst : Expr) : Expr → Prop
  | place {src : Expr} (h : LegalPlace IsGpr src) (hmem : (src.isMem && dst.isMem) = false) : LegalSource dst src
  | const {c : Const} (hk : c.kind.isScalar = true) (hfits : c.fitsImmediate = true) : LegalSource dst (.const c)

/-- The encoder takes the expression, whose registers are general ones: it binds a label, or writes an instruction. -/
structure Encodes (e : Expr) : Prop where
  gpr : e.UsesGpr
  accepts : e.isLabel = true ∨ Accepts (instruction e)

section Expressions

variable {P Q : HardReg → Prop} {k : Kind} {e dst src : Expr} {c : Const}

theorem LegalPlace.mono (h : LegalPlace P e) (hPQ : ∀ r, P r → Q r) : LegalPlace Q e := by
  cases h with
  | reg hk hid hh => exact .reg hk hid (hPQ _ hh)
  | mem ro hk hm => exact .mem ro hk hm

theorem LegalPlace.isScalar (h : LegalPlace P e) : e.kind.isScalar = true := by
  cases h with
  | reg hk => exact hk
  | mem ro hk => exact hk

theorem LegalValue.isScalar (h : LegalValue P e) : e.kind.isScalar = true := by
  cases h with
  | place h => exact h.isScalar
  | const hk => exact hk
  | label l => rfl

theorem LegalPlace.isMem_eq (h : LegalPlace P e) : e.isMem = !e.isReg := by
  cases h <;> rfl

theorem LegalPlace.isLabel (h : LegalPlace P e) : e.isLabel = false := by
  cases h <;> rfl

theorem LegalPlace.usesGpr (h : LegalPlace IsGpr e) : e.UsesGpr := by
  cases h with
  | reg _ hid hh =>
    intro h' hid'
    cases hid.symm.trans hid'
    exact hh
  | mem ro _ hm => exact hm.gpr

theorem usesGpr_fixed {r : HardReg} (h : IsGpr r) : (fixed k r).UsesGpr := by
  rintro _ ⟨⟩
  exact h

theorem LegalSource.usesGpr (h : LegalSource dst src) : src.UsesGpr := by
  cases h with
  | place h => exact h.usesGpr
  | const => trivial

theorem operand_reg {r : Reg} {h : HardReg} (hid : r.id = .hard h) (hh : IsGpr h) : operand (.reg r) = .ok (.reg h) := by
  simp [operand, hid, hh.1, hh.2]

theorem operand_const (hk : c.kind.isScalar = true) : operand (.const c) = .ok (.imm (sext c.kind.size c.re)) := by
  simp [operand, immediate_eq hk, Except.map]

theorem LegalPlace.operand (h : LegalPlace IsGpr e) : ∃ o, operand e = .ok o ∧ IsRm o := by
  cases h with
  | reg hk hid hh => exact ⟨_, operand_reg hid hh, .reg _⟩
  | mem ro hk hm => exact ⟨_, rfl, .mem hm.index⟩

theorem LegalPlace.operand_of_isReg (h : LegalPlace IsGpr e) (hreg : e.isReg = true) :
    ∃ r, Amd64.operand e = .ok (.reg r) := by
  cases h with
  | reg hk hid hh => exact ⟨_, operand_reg hid hh⟩
  | mem => cases hreg

theorem LegalSource.operands (hd : LegalPlace IsGpr dst) (hs : LegalSource dst src) :
    ∃ o o', operand dst = .ok o ∧ operand src = .ok o' ∧ IsRm o ∧ Against o o' := by
  obtain ⟨o, ho, hrm⟩ := hd.operand
  cases hs with
  | const hk hfits => exact ⟨o, _, ho, operand_const hk, hrm, .imm (fitsDword_of_fitsImmediate hk hfits)⟩
  | place h hmem =>
    cases h with
    | reg hk hid hh => exact ⟨o, _, ho, operand_reg hid hh, hrm, .reg _⟩
    | mem ro hk hm =>
      have hnot : dst.isMem = false := hmem
      obtain ⟨d, hreg⟩ := hd.operand_of_isReg (by simpa [hd.isMem_eq] using hnot)
      exact ⟨.reg d, _, hreg, rfl, .reg d, .mem rfl hm.index⟩

/-! ### Moves -/

theorem accepts_assign_operand {o o' : Operand} (hk : k.isScalar = true) (hsrc : ∀ op g x, src ≠ .unary op g x)
    (ho : operand dst = .ok o) (ho' : operand src = .ok o') (h : Accepts (outMov k.size o o')) :
    Accepts (instruction (.binary .assign k dst src)) := by
  refine (Accepts.lift (width_of_isScalar hk) (Accepts.lift ho ?_))
  split
  · exact absurd rfl (hsrc _ _ _)
  · exact Accepts.lift ho' h

theorem encodes_assign (hk : k.isScalar = true) (hd : LegalPlace IsGpr dst) (hs : LegalSource dst src) :
    Encodes (.binary .assign k dst src) := by
  obtain ⟨o, o', ho, ho', hrm, hag⟩ := hs.operands hd
  refine ⟨⟨hd.usesGpr, hs.usesGpr⟩, .inr (accepts_assign_operand hk ?_ ho ho' (accepts_outMov hrm hag))⟩
  rintro op g x rfl
  cases hs with
  | place h => cases h

/-- A register takes every constant of the kind of the move. -/
theorem encodes_assign_const (hk : c.kind.isScalar = true) (hd : LegalPlace IsGpr dst) (hreg : dst.isReg = true) :
    Encodes (.binary .assign c.kind dst (.const c)) := by
  obtain ⟨r, hr⟩ := hd.operand_of_isReg hreg
  refine ⟨⟨hd.usesGpr, trivial⟩, .inr (accepts_assign_operand hk (by simp) hr (operand_const hk) ?_)⟩
  exact accepts_outMov_const fun h4 => fitsDword_sext h4.le c.re

theorem encodes_assign_label {l : Label} (hk : k.isScalar = true) (hd : LegalPlace IsGpr dst) (hreg : dst.isReg = true) :
    Encodes (.binary .assign k dst (.label l)) := by
  obtain ⟨r, hr⟩ := hd.operand_of_isReg hreg
  exact ⟨⟨hd.usesGpr, trivial⟩, .inr (accepts_assign_operand hk (by simp) hr rfl accepts_outMov_label)⟩

theorem encodes_cast (hk : k.isScalar = true) (hd : LegalPlace IsGpr dst) (hreg : dst.isReg = true)
    (hs : LegalPlace IsGpr src) (hlt : src.kind.size < k.size) : Encodes (.binary .assign k dst (.unary .cast k src)) := by
  obtain ⟨r, hr⟩ := hd.operand_of_isReg hreg
  obtain ⟨o, ho, hrm⟩ := hs.operand
  refine ⟨⟨hd.usesGpr, hs.usesGpr⟩, .inr (.lift (width_of_isScalar hk) (.lift hr ?_))⟩
  exact accepts_outCast hk hs.isScalar hlt ho hrm

theorem encodes_lea {g : Kind} {ro : Bool} {m : AddrMode} (hk : k.isScalar = true) (hd : LegalPlace IsGpr dst)
    (hreg : dst.isReg = true) (hm : IsAddress m) :
    Encodes (.binary .assign k dst (.unary .lea k (.memAt g ro m))) := by
  obtain ⟨r, hr⟩ := hd.operand_of_isReg hreg
  refine ⟨⟨hd.usesGpr, hm.gpr⟩, .inr (.lift (width_of_isScalar hk) (.lift hr (.lift (a := .mem m) rfl ?_)))⟩
  exact accepts_inst (by simp [Rm.indexed, hm.index])

theorem destination_eq (hd : LegalPlace IsGpr dst) (n : Nat) : ∃ rm, destination dst n = .ok rm ∧ rm.indexed = true := by
  obtain ⟨o, ho, hrm⟩ := hd.operand
  obtain ⟨rm, hof, hidx⟩ := hrm.rmOf? n
  refine ⟨rm, ?_, hidx⟩
  simp only [destination, ho, bind, Except.bind, hof]
  rfl

/-- Negation and inversion in place. -/
theorem encodes_inPlace {op : UnaryOp} (hop : op = .neg ∨ op = .inv) (hk : k.isScalar = true)
    (hd : LegalPlace IsGpr dst) : Encodes (.binary .assign k dst (.unary op k dst)) := by
  obtain ⟨o, ho, -⟩ := hd.operand
  obtain ⟨rm, hrm, hidx⟩ := destination_eq hd k.size
  refine ⟨⟨hd.usesGpr, hd.usesGpr⟩, .inr (.lift (width_of_isScalar hk) (.lift ho ?_))⟩
  rcases hop with rfl | rfl
  all_goals
    refine .lift ho ?_
    rw [if_neg (by simp)]
    exact .lift hrm (accepts_inst hidx)

/-! ### Arithmetic and comparisons -/

theorem encodes_alu {op : BinaryOp} {digit : Nat} (hop : aluDigit op = some digit) (hd : LegalPlace IsGpr dst)
    (hs : LegalSource dst src) : Encodes (.binary op k dst src) := by
  obtain ⟨o, o', ho, ho', hrm, hag⟩ := hs.operands hd
  refine ⟨⟨hd.usesGpr, hs.usesGpr⟩, .inr ?_⟩
  unfold instruction
  dsimp only
  unfold outBinary
  rw [hop]
  exact .lift (width_of_isScalar hd.isScalar) (.lift ho (.lift ho' (accepts_outAlu hrm hag)))

theorem encodes_test (hd : LegalPlace IsGpr dst) (hs : LegalSource dst src) : Encodes (.binary .test k dst src) := by
  obtain ⟨o, o', ho, ho', hrm, hag⟩ := hs.operands hd
  refine ⟨⟨hd.usesGpr, hs.usesGpr⟩, .inr (.lift (width_of_isScalar hd.isScalar) (.lift ho (.lift ho' ?_)))⟩
  exact accepts_outTest hrm hag

theorem encodes_mul (hk : k.isScalar = true) (hbyte : k.size ≠ 1) (hd : LegalPlace IsGpr dst) (hreg : dst.isReg = true)
    (hs : LegalSource dst src) : Encodes (.binary (.compound .mul) k dst src) := by
  obtain ⟨r, hr⟩ := hd.operand_of_isReg hreg
  obtain ⟨o, o', ho, ho', -, hag⟩ := hs.operands hd
  cases ho.symm.trans hr
  refine ⟨⟨hd.usesGpr, hs.usesGpr⟩, .inr (.lift (width_of_isScalar hk) (.lift hr (.lift ho' ?_)))⟩
  exact accepts_outMul hbyte hag

theorem encodes_shift {left : Bool} (hk : k.isScalar = true) (hd : LegalPlace IsGpr dst)
    (hs : (∃ c : Const, src = .const c ∧ c.kind.isScalar = true) ∨ src = fixed .uint8 rcx) :
    Encodes (.binary (.compound (if left then .shl else .shr)) k dst src) := by
  obtain ⟨o, ho, hrm⟩ := hd.operand
  have hcount : src.UsesGpr ∧ ∃ o', operand src = .ok o' ∧ ∀ digit, Accepts (outShift k.size digit o o') := by
    rcases hs with ⟨c, rfl, hc⟩ | rfl
    · exact ⟨trivial, _, operand_const hc, fun _ => accepts_outShift_const hrm⟩
    · exact ⟨usesGpr_fixed (by decide), _, rfl, fun _ => accepts_outShift_rcx hrm⟩
  obtain ⟨hgpr, o', ho', hacc⟩ := hcount
  cases left
  all_goals exact ⟨⟨hd.usesGpr, hgpr⟩, .inr (.lift (width_of_isScalar hk) (.lift ho (.lift ho' (hacc _))))⟩

theorem encodes_divide {op : ArithOp} (hop : op = .quo ∨ op = .rem) (hk : k.isScalar = true) (hbyte : k.size ≠ 1)
    (hs : LegalPlace (fun r => IsGpr r ∧ r ≠ rax ∧ r ≠ rdx) src) :
    Encodes (.binary (.compound op) k (fixed k rax) src) := by
  have hgpr : src.UsesGpr := (hs.mono fun _ h => h.1).usesGpr
  have hdivisor : ∃ o, operand src = .ok o ∧ IsRm o ∧ o ≠ .reg rax ∧ o ≠ .reg rdx := by
    cases hs with
    | reg hk hid hh => exact ⟨_, operand_reg hid hh.1, .reg _, by simpa using hh.2.1, by simpa using hh.2.2⟩
    | mem ro hk hm => exact ⟨_, rfl, .mem hm.index, by simp, by simp⟩
  obtain ⟨o, ho, hrm, hrax, hrdx⟩ := hdivisor
  have hd : operand (fixed k rax) = .ok (.reg rax) := operand_reg rfl (by decide)
  rcases hop with rfl | rfl
  all_goals
    refine ⟨⟨usesGpr_fixed (by decide), hgpr⟩, .inr (.lift hd (.lift ho ?_))⟩
    exact accepts_outDivide (width_of_isScalar hk) hbyte hrm hrax hrdx

theorem encodes_setcc {cc : Cond} (hd : LegalPlace IsGpr dst) : Encodes (.unary (.setcc cc) k dst) := by
  obtain ⟨rm, hrm, hidx⟩ := destination_eq hd 1
  exact ⟨hd.usesGpr, .inr (.lift hrm (accepts_inst hidx))⟩

/-- Increments, decrements and zero. -/
theorem encodes_step {op : UnaryOp} (hop : op = .inc ∨ op = .dec ∨ op = .zero) (hk : k.isScalar = true)
    (hd : LegalPlace IsGpr dst) : Encodes (.unary op k dst) := by
  obtain ⟨rm, hrm, hidx⟩ := destination_eq hd k.size
  rcases hop with rfl | rfl | rfl
  · exact ⟨hd.usesGpr, .inr (.lift (width_of_isScalar hk) (.lift hrm (accepts_inst hidx)))⟩
  · exact ⟨hd.usesGpr, .inr (.lift (width_of_isScalar hk) (.lift hrm (accepts_inst hidx)))⟩
  · refine ⟨hd.usesGpr, .inr (.lift (width_of_isScalar hk) ?_)⟩
    cases hd with
    | reg hkd hid hh => exact .lift (operand_reg hid hh) (accepts_inst rfl)
    | mem ro hkd hm => exact .lift rfl (accepts_outMov (.mem hm.index) (.imm (by decide)))

/-! ### Control -/

theorem encodes_label (l : Label) : Encodes (.label l) := ⟨trivial, .inl rfl⟩

theorem encodes_jump (l : Label) : Encodes (.unary .jump k (.label l)) :=
  ⟨trivial, .inr (.bind (accepts_out _) (.lift rfl (accepts_outLabel l)))⟩

theorem encodes_jcc (cc : Cond) (l : Label) : Encodes (.unary (.jcc cc) .void (.label l)) :=
  ⟨trivial, .inr (.bind (accepts_out _) (.lift rfl (accepts_outLabel l)))⟩

theorem encodes_call (l : Label) (n : Option String) (sig : Signature) : Encodes (.call l n sig []) :=
  ⟨trivial, .inr (.bind (accepts_out _) (accepts_outLabel l))⟩

theorem encodes_ret : Encodes (.ret []) := ⟨trivial, .inr (accepts_out _)⟩

theorem encodes_stack {op : UnaryOp} (hop : op = .push ∨ op = .pop) {r : HardReg} (hr : IsGpr r) :
    Encodes (.unary op k (fixed .int64 r)) := by
  have hd : operand (fixed .int64 r) = .ok (.reg r) := operand_reg rfl hr
  rcases hop with rfl | rfl
  all_goals exact ⟨usesGpr_fixed hr, .inr (.lift hd accepts_instPlus)⟩

/-- A move of the stack pointer by less than two gigabytes. -/
theorem encodes_adjust {a : ArithOp} (ha : a = .add ∨ a = .sub) {n : Nat} (hn : n < 2 ^ 31) :
    Encodes (Item.adjust (.compound a) rsp n) := by
  have hword : ((BitVec.ofNat 64 n).setWidth 32).signExtend 64 = BitVec.ofNat 64 n := by
    rw [BitVec.signExtend_eq_setWidth_of_msb_false]
    · apply BitVec.eq_of_toNat_eq
      simp only [BitVec.toNat_setWidth, BitVec.toNat_ofNat]
      omega
    · rw [BitVec.msb_eq_decide, decide_eq_false_iff_not]
      simp only [BitVec.toNat_setWidth, BitVec.toNat_ofNat]
      omega
  have hfits : (Const.ptr (.ofNat 64 n)).fitsImmediate = true := by
    have hre : (Const.ptr (.ofNat 64 n)).re = BitVec.ofNat 64 n := rfl
    rw [Const.fitsImmediate, hre, hword, beq_self_eq_true, Bool.or_true]
  have hsrc : LegalSource (.reg (.hard .ptr rsp)) (.const (Const.ptr (.ofNat 64 n))) := .const rfl hfits
  have hdst : LegalPlace IsGpr (.reg (.hard .ptr rsp)) := .reg rfl rfl (by decide)
  rcases ha with rfl | rfl
  · exact encodes_alu rfl hdst hsrc
  · exact encodes_alu rfl hdst hsrc

end Expressions

/-! ## Assembling -/

/-- What can go wrong with labels: one is placed twice, one is nowhere, or one is too far away. -/
inductive LinkError : Error → Prop
  | redefined (l : Label) : LinkError (.labelRedefined l)
  | unresolved (l : Label) : LinkError (.unresolvedLabel l)
  | distance (d : Int) : LinkError (.fieldOverflow .jumpDisplacement d)

/-- If the computation fails, then because of a label. -/
def Links {α : Type} (act : Assemble α) : Prop :=
  ∀ ⦃b log err b' log'⦄, act b log = ((.error err, b'), log') → LinkError err

section Assembling

variable {α β : Type}

theorem Links.bind {act : Assemble α} {k : α → Assemble β} (h : Links act) (hk : ∀ a, Links (k a)) : Links (act >>= k) := by
  intro b log err b' log' hrun
  have hbind : (act >>= k) b log = ExceptT.bindCont k (act b log).1.1 (act b log).1.2 (act b log).2 := rfl
  rw [hbind] at hrun
  rcases hact : act b log with ⟨⟨_ | a, b₁⟩, log₁⟩
  · rw [hact] at hrun
    cases hrun
    exact h hact
  · rw [hact] at hrun
    exact hk a hrun

theorem links_pure (a : α) : Links (pure a : Assemble α) := fun _ _ _ _ _ h => by cases h

theorem links_get : Links (get : Assemble Buffer) := fun _ _ _ _ _ h => by cases h

theorem links_modify (g : Buffer → Buffer) : Links (modify g : Assemble Unit) := fun _ _ _ _ _ h => by cases h

theorem links_note (e : Event) : Links (note e : Assemble Unit) := fun _ _ _ _ _ h => by cases h

theorem links_forM {xs : List α} {act : α → Assemble Unit} (h : ∀ x ∈ xs, Links (act x)) : Links (xs.forM act) := by
  induction xs with
  | nil => exact links_pure ()
  | cons x xs ih =>
    rw [List.forM]
    exact (h x List.mem_cons_self).bind fun _ => ih fun y hy => h y (List.mem_cons_of_mem _ hy)

theorem links_patch (place here : Nat) : Links (Assemble.patch place here) := by
  intro b log err b' log' h
  by_cases hfits : FieldFits place here
  · rw [patch_of_fits hfits] at h
    cases h
  · rw [patch_of_not_fits hfits] at h
    cases h
    exact .distance _

theorem links_bind (l : Label) : Links (Assemble.bind l) := by
  unfold Assemble.bind
  refine links_get.bind fun b => ?_
  simp only [List.partition_eq_filter_filter]
  by_cases hsome : (b.labelOffset l).isSome = true
  · rw [if_pos hsome]
    intro b log err b' log' h
    cases h
    exact .redefined l
  · rw [if_neg hsome]
    exact (links_modify _).bind fun _ => links_forM fun x _ => (links_note _).bind fun _ => links_patch _ _

theorem links_emitRel32 (l : Label) : Links (Assemble.emitRel32 l) := by
  refine links_get.bind fun b => (links_modify _).bind fun _ => links_get.bind fun b' => ?_
  split
  · exact links_patch _ _
  · exact links_modify _

theorem links_emit (p : Piece) : Links p.emit := by
  cases p with
  | byte x => exact links_modify _
  | rel32 l => exact links_emitRel32 l

theorem links_encode {e : Expr} (h : Encodes e) : Links (encode e) := by
  have hnote : ∀ f : Buffer → Event, Links (do note (f (← get)) : Assemble Unit) := fun _ =>
    links_get.bind fun _ => links_note _
  unfold encode
  refine links_get.bind fun b => ?_
  dsimp only
  split
  · exact (links_bind _).bind fun _ => hnote _
  · obtain ⟨pieces, hpieces⟩ := (h.accepts.resolve_left (by simp_all [Expr.isLabel])) []
    simp only [hpieces]
    exact (links_forM fun p _ => links_emit p).bind fun _ => hnote _

/-- The encoder takes the item in a frame of less than two gigabytes. -/
def EncodesItem : Item → Prop
  | .instr e => Encodes e
  | .frame op sp => (op = BinaryOp.compound .add ∨ op = BinaryOp.compound .sub) ∧ sp = rsp

theorem links_encodeItem {n : Nat} (hn : n < 2 ^ 31) {i : Item} (h : EncodesItem i) : Links (encodeItem n i) := by
  cases i with
  | instr e => exact links_encode h
  | frame op sp =>
    obtain ⟨hop, rfl⟩ := h
    rcases hop with rfl | rfl
    · show Links (encode (Item.adjust (.compound .add) rsp n))
      exact links_encode (encodes_adjust (.inl rfl) hn)
    · show Links (encode (Item.adjust (.compound .sub) rsp n))
      exact links_encode (encodes_adjust (.inr rfl) hn)

/-- What assembling makes of a run of the encoder. -/
def finished : Except Error Unit × Buffer → Stage (List Byte × List (Option Nat))
  | (.error err, _) => throw err
  | (.ok (), b) => liftM b.finish

/-- Assembling encodes the items one after the other. -/
theorem assemble_eq (l : Lowered) (log : Log) : assemble l log =
    match l.code.forM (encodeItem l.frame) (Buffer.withLabels l.labels.size) log with
    | ((.error err, _), log') => (.error err, log')
    | ((.ok (), b), log') => (b.finish, log') := by
  have hbind : assemble l log = finished (l.code.forM (encodeItem l.frame) (Buffer.withLabels l.labels.size) log).1
      (l.code.forM (encodeItem l.frame) (Buffer.withLabels l.labels.size) log).2 := rfl
  rw [hbind]
  rcases l.code.forM (encodeItem l.frame) (Buffer.withLabels l.labels.size) log with ⟨⟨_ | u, b⟩, log'⟩
  · rfl
  · rfl

/-- A function of such items is assembled, but for its labels. -/
theorem assemble_links {l : Lowered} (hframe : l.frame < 2 ^ 31) (hcode : ∀ i ∈ l.code, EncodesItem i) {log log' : Log}
    {err : Error} (h : assemble l log = (.error err, log')) : LinkError err := by
  have hlinks : Links (l.code.forM (encodeItem l.frame)) := links_forM fun i hi => links_encodeItem hframe (hcode i hi)
  rw [assemble_eq] at h
  split at h
  · rename_i hrun
    cases h
    exact hlinks hrun
  · rename_i b log₁ hrun
    unfold Buffer.finish at h
    split at h
    · cases h
    · cases h
      exact .unresolved _

end Assembling

end JitBackend.Amd64
