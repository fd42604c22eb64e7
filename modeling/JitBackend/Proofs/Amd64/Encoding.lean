import JitBackend.Proofs.Amd64.Decode

/-!
# Bytes of single instructions

The writers append prefixes, an opcode and an operand (`instBytes`), with a reference to a label behind them if the
operand is a place in the code. For each form of instruction, its bytes read as that instruction whatever follows them
(`Codes`), up to what bytes do not tell apart (`Instr.normal`): an address has several spellings, and of an immediate only
the bytes of the operand are written.
-/

namespace JitBackend

/-! ## Normal forms -/

theorem AddrMode.normal_normal (m : AddrMode) : m.normal.normal = m.normal := by
  unfold AddrMode.normal
  split <;> simp_all

namespace Operand

/-- An operand of `n` bytes: the low bytes of an immediate count. -/
def normal (n : Nat) : Operand → Operand
  | mem m => mem m.normal
  | imm v => imm (low n v)
  | o => o

/-- The registers are general ones. -/
def IsGpr : Operand → Prop
  | reg r => Amd64.IsGpr r
  | mem m => m.IsGpr
  | _ => True

def isReg : Operand → Bool
  | reg _ => true
  | _ => false

/-- Whether the operand is an immediate that four bytes hold without a sign. -/
def isHalf : Operand → Bool
  | imm v => low 4 v = v
  | _ => false

section

variable (n : Nat)

@[simp] theorem normal_reg (r : HardReg) : (reg r).normal n = reg r := rfl

@[simp] theorem normal_mem (m : AddrMode) : (mem m).normal n = mem m.normal := rfl

@[simp] theorem normal_imm (v : Word) : (imm v).normal n = imm (low n v) := rfl

@[simp] theorem normal_normal (o : Operand) : (o.normal n).normal n = o.normal n := by
  cases o with
  | mem m => exact congrArg mem m.normal_normal
  | imm v => exact congrArg imm (low_low n v)
  | reg | label => rfl

end

end Operand

/-- The hard registers are general ones. -/
def Expr.UsesGpr : Expr → Prop
  | reg r => ∀ h, r.id = .hard h → Amd64.IsGpr h
  | memAt _ _ m => m.IsGpr
  | unary _ _ x => x.UsesGpr
  | binary _ _ x y => x.UsesGpr ∧ y.UsesGpr
  | _ => True

namespace Amd64

/-- Instructions that do the same by the layout of registers have one normal form: a write of four bytes clears the upper
half of a register, so that it is the extension without sign to eight bytes. -/
def Instr.normal : Instr → Instr
  | mov n dst src =>
    if n = 8 ∧ dst.isReg ∧ src.isHalf then mov 4 (dst.normal 4) (src.normal 4) else mov n (dst.normal n) (src.normal n)
  | lea n r a => lea n r a.normal
  | extend n r g signed src =>
    if n = 8 ∧ g = 4 ∧ signed = false then mov 4 (.reg r) (src.normal 4) else extend n r g signed (src.normal g)
  | alu op n dst src => alu op n (dst.normal n) (src.normal n)
  | inc n dst => inc n (dst.normal n)
  | dec n dst => dec n (dst.normal n)
  | neg n dst => neg n (dst.normal n)
  | inv n dst => inv n (dst.normal n)
  | mul n r src => mul n r (src.normal n)
  | shift op n dst count => shift op n (dst.normal n) (count.normal 1)
  | extendRax n => extendRax n
  | div n signed src => div n signed (src.normal n)
  | cmp n a b => cmp n (a.normal n) (b.normal n)
  | test n a b => test n (a.normal n) (b.normal n)
  | setcc c dst => setcc c (dst.normal 1)
  | push r => push r
  | pop r => pop r

def Coded.normal : Coded → Coded
  | plain i => plain i.normal
  | c => c

theorem Instr.normal_mov_congr {n : Nat} {dst dst' src src' : Operand} (hdst : dst'.normal n = dst.normal n)
    (hsrc : src'.normal n = src.normal n) (h8 : n = 8 → src' = src) :
    (Instr.mov n dst' src').normal = (Instr.mov n dst src).normal := by
  by_cases hn : n = 8
  · obtain rfl := h8 hn
    cases dst <;> cases dst' <;> simp_all [Operand.normal, Operand.isReg, Instr.normal]
  · simp [Instr.normal, hn, hdst, hsrc]

section Normal

variable {m : Machine} {n : Nat}

theorem address_normal (a : AddrMode) : m.address a.normal = m.address a := by
  unfold AddrMode.normal
  split
  · rename_i h
    simp [Machine.address, h, Machine.term]
  · rfl

@[simp] theorem read_normal (o : Operand) : m.read n (o.normal n) = m.read n o := by
  cases o <;> simp [Operand.normal, Machine.read, address_normal]

@[simp] theorem write_normal (o : Operand) (w : Word) : m.write n (o.normal n) w = m.write n o w := by
  cases o <;> simp [Operand.normal, Machine.write, address_normal]

/-- Normal forms do what the instructions do. -/
theorem exec_normal (i : Instr) (m : Machine) : i.normal.exec m = i.exec m := by
  cases i with
  | mov n dst src =>
    simp only [Instr.normal]
    split
    · rename_i h
      obtain ⟨rfl, hdst, hsrc⟩ := h
      cases dst <;> simp only [Operand.isReg, Bool.false_eq_true] at hdst
      cases src <;> simp only [Operand.isHalf, decide_eq_true_eq, Bool.false_eq_true] at hsrc
      simp [Instr.exec, Machine.read, Machine.write, Machine.setReg, Machine.splice, Operand.normal, hsrc]
    · simp [Instr.exec]
  | lea n r a => simp [Instr.normal, Instr.exec, address_normal]
  | extend n r g signed src =>
    simp only [Instr.normal]
    split
    · rename_i h
      obtain ⟨rfl, rfl, rfl⟩ := h
      have hlow : ∀ w, m.read 4 src = some w → low 4 w = w := by
        intro w hw
        cases src <;> simp only [Machine.read, Option.some.injEq, reduceCtorEq] at hw <;> subst hw
        · exact low_low 4 _
        · exact Memory.low_read _ _ le_rfl
        · exact low_low 4 _
      cases hr : m.read 4 src with
      | none => simp [Instr.exec, hr]
      | some w => simp [Instr.exec, hr, Machine.write, Machine.setReg, Machine.splice, hlow w hr]
    · simp [Instr.exec]
  | setcc c dst => simp [Instr.normal, Instr.exec]
  | alu | inc | dec | neg | inv | mul | shift | div | cmp | test => simp [Instr.normal, Instr.exec]
  | extendRax | push | pop => rfl

end Normal

/-! ## Bytes of an instruction -/

/-- The number in a register field. -/
def RegField.number : RegField → Nat
  | reg r _ => r.index
  | digit d => d

def RegField.forced : RegField → Bool
  | reg r s => s == 1 && needsRexAsByte r.index
  | digit _ => false

namespace Rm

def indexBit : Rm → Bool
  | mem m => m.index.any (high ·.index)
  | _ => false

def baseBit : Rm → Bool
  | reg r _ => high r.index
  | mem m => m.base.any (high ·.index)
  | rip _ => false

def forced : Rm → Bool
  | reg r s => s == 1 && needsRexAsByte r.index
  | _ => false

/-- The bytes from the ModRM byte on, a reference to a label apart. -/
def bytes (d : Nat) : Rm → List Byte
  | reg r _ => [fields 3 d (low3 r.index)]
  | mem m => addressBytes d m
  | rip _ => [fields 0 d 5]

def references : Rm → List Label
  | rip l => [l]
  | _ => []

/-- Whether an index is one that can be written down. -/
def indexed : Rm → Bool
  | mem m => !m.index.any (·.index == 4)
  | _ => true

end Rm

/-- A register or memory operand that is made of an operand refers to no label. -/
theorem rmOf?_references {o : Operand} {n : Nat} {rm : Rm} (h : rmOf? o n = some rm) : rm.references = [] := by
  cases o <;> cases h <;> rfl

/-- The prefixes of an instruction. -/
def instLead (size : Nat) (field : RegField) (rm : Rm) : Prefixes :=
  lead size (high field.number) rm.indexBit rm.baseBit (field.forced || rm.forced)

/-- The bytes of an instruction, a reference to a label apart. -/
def instBytes (size : Nat) (opcode : List Byte) (field : RegField) (rm : Rm) : List Byte :=
  leading size (high field.number) rm.indexBit rm.baseBit (field.forced || rm.forced) ++
    (opcode ++ rm.bytes (low3 field.number))

/-! ### Writing -/

attribute [grind =] instruction outUnary outBinary

section Emit

variable {α β : Type} {pre post : List Piece}

@[simp] theorem run_bind_eq_ok {act : Emit α} {f : α → Emit β} {b : β} : (act >>= f).run pre = (.ok b, post) ↔
    ∃ a mid, act.run pre = (.ok a, mid) ∧ (f a).run mid = (.ok b, post) := by
  show (act >>= f) pre = _ ↔ ∃ a mid, act pre = _ ∧ _
  have hbind : (act >>= f) pre = match act pre with
      | (.ok a, mid) => f a mid
      | (.error e, mid) => (.error e, mid) := by
    show (ExceptT.bindCont f (act pre).1) (act pre).2 = _
    obtain ⟨r, mid⟩ := act pre
    cases r <;> rfl
  rw [hbind]
  obtain ⟨r, mid⟩ := act pre
  cases r with
  | ok a =>
    constructor
    · exact fun h => ⟨a, mid, rfl, h⟩
    · rintro ⟨a', mid', h, h'⟩
      cases h
      exact h'
  | error e =>
    constructor
    · intro h
      cases h
    · rintro ⟨a', mid', h, -⟩
      cases h

@[simp] theorem run_pure_eq_ok {a b : α} : (pure a : Emit α).run pre = (.ok b, post) ↔ b = a ∧ post = pre := by
  constructor
  · intro h
    cases h
    exact ⟨rfl, rfl⟩
  · rintro ⟨rfl, rfl⟩
    rfl

@[simp] theorem run_throw_ne_ok {err : Error} {a : α} : ¬(throw err : Emit α).run pre = (.ok a, post) := by
  intro h
  cases h

@[simp] theorem run_lift_eq_ok {x : Except Error α} {a : α} :
    (liftM x : Emit α).run pre = (.ok a, post) ↔ x = .ok a ∧ post = pre := by
  constructor
  · intro h
    cases x <;> cases h
    exact ⟨rfl, rfl⟩
  · rintro ⟨rfl, rfl⟩
    rfl

@[simp] theorem run_out_eq_ok {bs : List Byte} {u : Unit} :
    (out bs).run pre = (.ok u, post) ↔ post = pre ++ bs.map Piece.byte := by
  constructor
  · intro h
    cases h
    rfl
  · rintro rfl
    rfl

@[simp] theorem run_outLabel_eq_ok {l : Label} {u : Unit} :
    (outLabel l).run pre = (.ok u, post) ↔ post = pre ++ [.rel32 l] := by
  constructor
  · intro h
    cases h
    rfl
  · rintro rfl
    rfl

theorem run_outModRM {d : Nat} {rm : Rm} {u : Unit} (h : (outModRM d rm).run pre = (.ok u, post)) :
    rm.indexed = true ∧ post = pre ++ ((rm.bytes d).map Piece.byte ++ rm.references.map Piece.rel32) := by
  cases rm with
  | reg r s => simpa [outModRM, Rm.indexed, Rm.references, Rm.bytes] using h
  | rip l =>
    simp only [outModRM, run_bind_eq_ok, run_out_eq_ok, run_outLabel_eq_ok] at h
    obtain ⟨-, -, rfl, rfl⟩ := h
    simp [Rm.indexed, Rm.references, Rm.bytes]
  | mem m =>
    rw [outModRM] at h
    split at h
    · exact absurd h run_throw_ne_ok
    · simp_all [Rm.indexed, Rm.references, Rm.bytes]

theorem inst_eq (size : Nat) (opcode : List Byte) (field : RegField) (rm : Rm) : inst size opcode field rm = (do
    out (leading size (high field.number) rm.indexBit rm.baseBit (field.forced || rm.forced))
    out opcode
    outModRM (low3 field.number) rm) := by
  cases field <;> cases rm <;> rfl

theorem run_inst {size : Nat} {opcode : List Byte} {field : RegField} {rm : Rm} {u : Unit}
    (h : (inst size opcode field rm).run pre = (.ok u, post)) : rm.indexed = true ∧
      post = pre ++ ((instBytes size opcode field rm).map Piece.byte ++ rm.references.map Piece.rel32) := by
  rw [inst_eq] at h
  simp only [run_bind_eq_ok, run_out_eq_ok] at h
  obtain ⟨-, -, rfl, -, -, rfl, h⟩ := h
  obtain ⟨hrm, rfl⟩ := run_outModRM h
  simp [hrm, instBytes]

end Emit

/-! ### Reading back -/

theorem register_eq {p : Prefixes} {n i : Nat} {r : HardReg} (hr : IsGpr r) (hbit : p.bit i = high r.index)
    (hforce : n = 1 → needsRexAsByte r.index = true → p.rex ≠ none) : p.register n (p.bit i) (low3 r.index) = some r := by
  have hreal : ¬(n = 1 ∧ p.rex = none ∧ 4 ≤ low3 r.index) := by
    rintro ⟨hn, hnone, h4⟩
    have hlow : high r.index = false := by rw [← hbit, Prefixes.bit, hnone]; rfl
    simp only [high, low3, decide_eq_false_iff_not] at hlow h4
    refine hforce hn ?_ hnone
    simp only [needsRexAsByte, Bool.and_eq_true, decide_eq_true_eq]
    omega
  rw [Prefixes.register, if_neg hreal, hbit, gpr_high_low3 hr]

section Inst

variable {size n g : Nat} {field : RegField} {rm : Rm} {o : Operand} {r : HardReg} {rest : List Byte}

/-- What a register-or-memory operand of `n` bytes says, and that it can be written down. -/
structure Rm.Says (rm : Rm) (n : Nat) (o : Operand) : Prop where
  of : rmOf? o n = some rm
  isGpr : o.IsGpr
  indexed : rm.indexed = true

theorem takeModRM_inst (h : rm.Says n o) : takeModRM (instLead size field rm) n (rm.bytes (low3 field.number) ++ rest) =
    some (low3 field.number, .operand (o.normal n), rest) := by
  obtain ⟨hrm, ho, hidx⟩ := h
  obtain ⟨-, -, hx, hb⟩ := bit_lead size (high field.number) rm.indexBit rm.baseBit (field.forced || rm.forced)
  cases o with
  | reg r =>
    cases hrm
    obtain ⟨h1, h2, h3⟩ := toNat_fields (show 3 < 4 by decide) (low3_lt field.number) (low3_lt r.index)
    have hreg : (instLead size field (.reg r n)).register n ((instLead size field (.reg r n)).bit 0) (low3 r.index) =
        some r := by
      refine register_eq ho hb fun hn hneeds => rex_lead _ _ _ _ _ ?_
      simp [Rm.forced, hn, hneeds]
    simp [takeModRM, Rm.bytes, h1, h2, h3, hreg, Operand.normal]
  | mem m =>
    cases hrm
    exact takeModRM_address (low3_lt field.number) ho (by simpa [Rm.indexed] using hidx) hx hb rest
  | imm v => cases hrm
  | label l => cases hrm

theorem takeField_inst (h : rm.Says n o) : takeField (instLead size field rm) n (rm.bytes (low3 field.number) ++ rest) =
    some (low3 field.number, o.normal n, rest) := by
  rw [takeField, takeModRM_inst h]
  rfl

theorem takeField_digit {d : Nat} (hd : d < 8) (h : rm.Says n o) :
    takeField (instLead size (.digit d) rm) n (rm.bytes (low3 (RegField.digit d).number) ++ rest) =
      some (d, o.normal n, rest) := by
  rw [takeField_inst h]
  simp only [RegField.number, low3, Nat.mod_eq_of_lt hd]

/-- The register in the register field. -/
theorem register_inst (size n : Nat) (rm : Rm) (hr : IsGpr r) :
    (instLead size (.reg r n) rm).register n ((instLead size (.reg r n) rm).bit 2) (low3 r.index) = some r := by
  obtain ⟨-, hbit, -, -⟩ := bit_lead size (high r.index) rm.indexBit rm.baseBit ((RegField.reg r n).forced || rm.forced)
  refine register_eq hr hbit fun hn hneeds => rex_lead _ _ _ _ _ ?_
  simp [RegField.forced, hn, hneeds]

theorem takePair_inst (h : rm.Says g o) (hr : IsGpr r) :
    takePair (instLead size (.reg r n) rm) n g (rm.bytes (low3 (RegField.reg r n).number) ++ rest) =
      some (r, o.normal g, rest) := by
  rw [takePair, takeField_inst h]
  simp [RegField.number, register_inst _ _ _ hr]

/-- Whether a byte is neither a prefix nor the first byte of a long opcode. -/
def isOpcode (op : Byte) : Bool := op ≠ 0x66 ∧ isRex op = false ∧ op ≠ 0x0F

theorem decodeOne_inst {op : Byte} (h : isOpcode op = true) :
    decodeOne (instBytes size [op] field rm ++ rest) =
      decodeShort (instLead size field rm) op.toNat (rm.bytes (low3 field.number) ++ rest) := by
  obtain ⟨h66, hrex, h0f⟩ := of_decide_eq_true h
  rw [decodeOne, instBytes, List.append_assoc, List.append_assoc, List.singleton_append,
    prefixes_leading _ _ _ _ _ _ h66 hrex]
  simp only [if_neg h0f]
  rfl

theorem decodeOne_instLong {op : Byte} :
    decodeOne (instBytes size [0x0F, op] field rm ++ rest) =
      decodeLong (instLead size field rm) op.toNat (rm.bytes (low3 field.number) ++ rest) := by
  rw [decodeOne, instBytes, List.append_assoc, List.append_assoc, List.cons_append,
    prefixes_leading _ _ _ _ _ _ (by decide) (by decide)]
  rfl

theorem size_instLead (h : size = 2 ∨ size = 4 ∨ size = 8) : (instLead size field rm).size = size := size_lead _ _ _ _ _ h

end Inst

/-- The bytes are an instruction that reads as `c`, whatever follows them. -/
def Codes (bs : List Byte) (c : Coded) : Prop :=
  ∀ rest, ∃ c', decodeOne (bs ++ rest) = some (c', rest) ∧ c'.normal = c.normal

/-- The sizes of operands. -/
def IsSize (n : Nat) : Prop := n = 1 ∨ n = 2 ∨ n = 4 ∨ n = 8

theorem IsSize.byte_or_wide {n : Nat} (h : IsSize n) : n = 1 ∨ n ≠ 1 ∧ (n = 2 ∨ n = 4 ∨ n = 8) := by
  unfold IsSize at h
  omega

theorem IsSize.le {n : Nat} (h : IsSize n) : n ≤ 8 := by
  unfold IsSize at h
  omega

section Forms

variable {n g d : Nat} {rm : Rm} {o : Operand} {r : HardReg} {v : Word} {a : AddrMode}

/-! #### A register and an operand -/

theorem codes_mov_store (hn : IsSize n) (h : rm.Says n o) (hr : IsGpr r) :
    Codes (instBytes n [if n = 1 then 0x88 else 0x89] (.reg r n) rm) (.plain (.mov n o (.reg r))) := by
  intro rest
  refine ⟨.plain (.mov n (o.normal n) (.reg r)), ?_, by simp [Coded.normal, Instr.normal, Operand.isHalf]⟩
  obtain rfl | ⟨h1, hw⟩ := hn.byte_or_wide
  · rw [if_pos rfl, decodeOne_inst (by decide)]
    simp [decodeShort, decodeFixed, takePair_inst h hr]
  · rw [if_neg h1, decodeOne_inst (by decide)]
    simp [decodeShort, decodeFixed, takePair_inst h hr, size_instLead hw]

theorem codes_mov_load (hn : IsSize n) (h : rm.Says n (.mem a)) (hr : IsGpr r) :
    Codes (instBytes n [if n = 1 then 0x8A else 0x8B] (.reg r n) rm) (.plain (.mov n (.reg r) (.mem a))) := by
  intro rest
  refine ⟨.plain (.mov n (.reg r) (.mem a.normal)), ?_,
    by simp [Coded.normal, Instr.normal, Operand.isHalf, Operand.normal, AddrMode.normal_normal]⟩
  obtain rfl | ⟨h1, hw⟩ := hn.byte_or_wide
  · rw [if_pos rfl, decodeOne_inst (by decide)]
    simp [decodeShort, decodeFixed, takePair_inst h hr, Operand.normal]
  · rw [if_neg h1, decodeOne_inst (by decide)]
    simp [decodeShort, decodeFixed, takePair_inst h hr, size_instLead hw, Operand.normal]

theorem codes_test (hn : IsSize n) (h : rm.Says n o) (hr : IsGpr r) :
    Codes (instBytes n [if n = 1 then 0x84 else 0x85] (.reg r n) rm) (.plain (.test n o (.reg r))) := by
  intro rest
  refine ⟨.plain (.test n (o.normal n) (.reg r)), ?_, by simp [Coded.normal, Instr.normal]⟩
  obtain rfl | ⟨h1, hw⟩ := hn.byte_or_wide
  · rw [if_pos rfl, decodeOne_inst (by decide)]
    simp [decodeShort, decodeFixed, takePair_inst h hr]
  · rw [if_neg h1, decodeOne_inst (by decide)]
    simp [decodeShort, decodeFixed, takePair_inst h hr, size_instLead hw]

theorem codes_mul (hn : n = 2 ∨ n = 4 ∨ n = 8) (h : rm.Says n o) (hr : IsGpr r) :
    Codes (instBytes n [0x0F, 0xAF] (.reg r n) rm) (.plain (.mul n r o)) := by
  intro rest
  refine ⟨.plain (.mul n r (o.normal n)), ?_, by simp [Coded.normal, Instr.normal]⟩
  rw [decodeOne_instLong]
  simp [decodeLong, takePair_inst h hr, size_instLead hn]

/-- Without an operand-size byte and a REX byte for wide operands, a `lea` has four bytes. -/
theorem size_instLead_lea (hn : IsSize n) (field : RegField) (rm : Rm) : (instLead n field rm).size = leaSize n := by
  obtain rfl | ⟨h1, hw⟩ := hn.byte_or_wide
  · rw [Prefixes.size, instLead, (bit_lead ..).1]
    rfl
  · rw [size_instLead hw, leaSize, if_neg h1]

theorem codes_lea (hn : IsSize n) (h : rm.Says n (.mem a)) (hr : IsGpr r) :
    Codes (instBytes n [0x8D] (.reg r n) rm) (.plain (.lea (leaSize n) r a)) := by
  intro rest
  refine ⟨.plain (.lea (leaSize n) r a.normal), ?_, by simp [Coded.normal, Instr.normal, AddrMode.normal_normal]⟩
  have hsaid : rm.Says (leaSize n) (.mem a) := ⟨h.of, h.isGpr, h.indexed⟩
  have hreg : (instLead n (.reg r n) rm).register (leaSize n) ((instLead n (.reg r n) rm).bit 2) (low3 r.index) =
      some r := by
    refine register_eq hr (bit_lead ..).2.1 fun hone => ?_
    unfold leaSize at hone
    split at hone <;> omega
  rw [decodeOne_inst (by decide)]
  simp only [decodeShort, decodeFixed, size_instLead_lea hn, takeModRM_inst hsaid]
  simp [RegField.number, hreg, Operand.normal]

/-- The second byte of the extensions. -/
def extendOpcode (g : Nat) (signed : Bool) : Byte :=
  match g, signed with
  | 1, false => 0xB6
  | 1, true => 0xBE
  | _, false => 0xB7
  | _, true => 0xBF

theorem codes_extend (signed : Bool) (hn : n = 2 ∨ n = 4 ∨ n = 8) (hg : g = 1 ∨ g = 2) (h : rm.Says g o) (hr : IsGpr r) :
    Codes (instBytes n [0x0F, extendOpcode g signed] (.reg r n) rm) (.plain (.extend n r g signed o)) := by
  intro rest
  refine ⟨.plain (.extend n r g signed (o.normal g)), ?_, by simp [Coded.normal, Instr.normal, show ¬g = 4 by omega]⟩
  rw [decodeOne_instLong]
  rcases hg with rfl | rfl <;> cases signed <;>
    simp [extendOpcode, decodeLong, takePair_inst h hr, size_instLead hn]

theorem codes_extend_word (h : rm.Says 4 o) (hr : IsGpr r) :
    Codes (instBytes 8 [0x63] (.reg r 8) rm) (.plain (.extend 8 r 4 true o)) := by
  intro rest
  refine ⟨.plain (.extend 8 r 4 true (o.normal 4)), ?_, by simp [Coded.normal, Instr.normal]⟩
  rw [decodeOne_inst (by decide)]
  simp [decodeShort, decodeFixed, takePair_inst h hr, size_instLead]

/-- A four-byte move extends without sign. -/
theorem codes_extend_half (h : rm.Says 4 o) (hr : IsGpr r) :
    Codes (instBytes 4 [0x8B] (.reg r 4) rm) (.plain (.extend 8 r 4 false o)) := by
  intro rest
  refine ⟨.plain (.mov 4 (.reg r) (o.normal 4)), ?_, by simp [Coded.normal, Instr.normal]⟩
  rw [decodeOne_inst (by decide)]
  simp [decodeShort, decodeFixed, takePair_inst h hr, size_instLead]

theorem aluOf?_congr {dst dst' src src' : Operand} {i : Instr} (h : aluOf? n dst src d = some i)
    (hdst : dst'.normal n = dst.normal n) (hsrc : src'.normal n = src.normal n) :
    ∃ i', aluOf? n dst' src' d = some i' ∧ i'.normal = i.normal := by
  unfold aluOf? at h ⊢
  split at h <;> cases h <;> exact ⟨_, rfl, by simp [Instr.normal, hdst, hsrc]⟩

theorem isOpcode_alu : ∀ d < 8, ∀ w < 4, isOpcode (.ofNat 8 (8 * d + w)) = true := by decide

theorem decodeShort_alu (p : Prefixes) (bs : List Byte) (hd : d < 8) {w : Nat} (hw : w < 4) :
    decodeShort p (BitVec.ofNat 8 (8 * d + w)).toNat bs = (do
      let (r, o, rest) ← takePair p (if w % 2 = 0 then 1 else p.size) (if w % 2 = 0 then 1 else p.size) bs
      let i ← if w < 2 then aluOf? (if w % 2 = 0 then 1 else p.size) o (.reg r) d
        else aluOf? (if w % 2 = 0 then 1 else p.size) (.reg r) o d
      some (.plain i, rest)) := by
  have hnat : (BitVec.ofNat 8 (8 * d + w)).toNat = 8 * d + w := by
    rw [BitVec.toNat_ofNat]
    exact Nat.mod_eq_of_lt (by omega)
  rw [hnat, decodeShort, if_pos (by omega), show (8 * d + w) % 2 = w % 2 by omega, show (8 * d + w) % 4 = w by omega,
    show (8 * d + w) / 8 = d by omega]

theorem codes_alu_store {i : Instr} (hn : IsSize n) (hd : d < 8) (hi : aluOf? n o (.reg r) d = some i) (h : rm.Says n o)
    (hr : IsGpr r) : Codes (instBytes n [.ofNat 8 (8 * d + if n = 1 then 0 else 1)] (.reg r n) rm) (.plain i) := by
  intro rest
  obtain ⟨i', hi', hnormal⟩ := aluOf?_congr hi (Operand.normal_normal n o) (Operand.normal_reg n r)
  refine ⟨.plain i', ?_, congrArg Coded.plain hnormal⟩
  obtain rfl | ⟨h1, hw⟩ := hn.byte_or_wide
  · rw [if_pos rfl, decodeOne_inst (isOpcode_alu d hd 0 (by decide)), decodeShort_alu _ _ hd (by decide)]
    simp [takePair_inst h hr, hi']
  · rw [if_neg h1, decodeOne_inst (isOpcode_alu d hd 1 (by decide)), decodeShort_alu _ _ hd (by decide)]
    simp [takePair_inst h hr, hi', size_instLead hw]

theorem codes_alu_load {i : Instr} (hn : IsSize n) (hd : d < 8) (hi : aluOf? n (.reg r) o d = some i) (h : rm.Says n o)
    (hr : IsGpr r) : Codes (instBytes n [.ofNat 8 (8 * d + 2 + if n = 1 then 0 else 1)] (.reg r n) rm) (.plain i) := by
  intro rest
  obtain ⟨i', hi', hnormal⟩ := aluOf?_congr hi (Operand.normal_reg n r) (Operand.normal_normal n o)
  refine ⟨.plain i', ?_, congrArg Coded.plain hnormal⟩
  obtain rfl | ⟨h1, hw⟩ := hn.byte_or_wide
  · rw [if_pos rfl, decodeOne_inst (isOpcode_alu d hd 2 (by decide)), decodeShort_alu _ _ hd (by decide)]
    simp [takePair_inst h hr, hi']
  · rw [if_neg h1, Nat.add_assoc, decodeOne_inst (isOpcode_alu d hd 3 (by decide)), decodeShort_alu _ _ hd (by decide)]
    simp [takePair_inst h hr, hi', size_instLead hw]

/-! #### An operand and a digit -/

theorem unaryOf?_congr {i : Instr} (h : unaryOf? n o d = some i) :
    ∃ i', unaryOf? n (o.normal n) d = some i' ∧ i'.normal = i.normal := by
  unfold unaryOf? at h ⊢
  split at h
  case h_3 | h_4 =>
    split at h
    · cases h
    · rename_i h1
      cases h
      exact ⟨_, if_neg h1, by simp [Instr.normal]⟩
  all_goals cases h
  all_goals exact ⟨_, rfl, by simp [Instr.normal]⟩

theorem codes_unary {i : Instr} (hn : IsSize n) (hd : d < 8) (hi : unaryOf? n o d = some i) (h : rm.Says n o) :
    Codes (instBytes n [if n = 1 then 0xF6 else 0xF7] (.digit d) rm) (.plain i) := by
  intro rest
  obtain ⟨i', hi', hnormal⟩ := unaryOf?_congr hi
  have h0 : d ≠ 0 := by rintro rfl; cases hi
  refine ⟨.plain i', ?_, congrArg Coded.plain hnormal⟩
  obtain rfl | ⟨h1, hw⟩ := hn.byte_or_wide
  · rw [if_pos rfl, decodeOne_inst (by decide)]
    simp [decodeShort, decodeFixed, takeField_digit hd h, h0, hi']
  · rw [if_neg h1, decodeOne_inst (by decide)]
    simp [decodeShort, decodeFixed, takeField_digit hd h, h0, hi', size_instLead hw]

theorem codes_step {i : Instr} (hn : IsSize n) (hd : d < 8) (hi : stepOf? n o d = some i) (h : rm.Says n o) :
    Codes (instBytes n [if n = 1 then 0xFE else 0xFF] (.digit d) rm) (.plain i) := by
  intro rest
  obtain ⟨i', hi', hnormal⟩ : ∃ i', stepOf? n (o.normal n) d = some i' ∧ i'.normal = i.normal := by
    unfold stepOf? at hi ⊢
    split at hi <;> cases hi <;> exact ⟨_, rfl, by simp [Instr.normal]⟩
  refine ⟨.plain i', ?_, congrArg Coded.plain hnormal⟩
  obtain rfl | ⟨h1, hw⟩ := hn.byte_or_wide
  · rw [if_pos rfl, decodeOne_inst (by decide)]
    simp [decodeShort, decodeFixed, takeField_digit hd h, hi']
  · rw [if_neg h1, decodeOne_inst (by decide)]
    simp [decodeShort, decodeFixed, takeField_digit hd h, hi', size_instLead hw]

theorem shiftOf?_congr {count count' : Operand} {i : Instr} (h : shiftOf? n o count d = some i)
    (hcount : count'.normal 1 = count.normal 1) :
    ∃ i', shiftOf? n (o.normal n) count' d = some i' ∧ i'.normal = i.normal := by
  unfold shiftOf? at h ⊢
  split at h <;> cases h <;> exact ⟨_, rfl, by simp [Instr.normal, hcount]⟩

theorem codes_shift {i : Instr} (hn : IsSize n) (hd : d < 8) (hi : shiftOf? n o (.reg rcx) d = some i) (h : rm.Says n o) :
    Codes (instBytes n [if n = 1 then 0xD2 else 0xD3] (.digit d) rm) (.plain i) := by
  intro rest
  obtain ⟨i', hi', hnormal⟩ := shiftOf?_congr hi rfl
  refine ⟨.plain i', ?_, congrArg Coded.plain hnormal⟩
  obtain rfl | ⟨h1, hw⟩ := hn.byte_or_wide
  · rw [if_pos rfl, decodeOne_inst (by decide)]
    simp [decodeShort, decodeFixed, takeField_digit hd h, hi']
  · rw [if_neg h1, decodeOne_inst (by decide)]
    simp [decodeShort, decodeFixed, takeField_digit hd h, hi', size_instLead hw]

theorem condOf?_condCode (c : Cond) : condOf? (condCode c) = some c := by cases c <;> rfl

theorem codes_setcc (c : Cond) (h : rm.Says 1 o) :
    Codes (instBytes 1 [0x0F, .ofNat 8 (0x90 + condCode c)] (.digit 0) rm) (.plain (.setcc c o)) := by
  intro rest
  refine ⟨.plain (.setcc c (o.normal 1)), ?_, by simp [Coded.normal, Instr.normal]⟩
  have hcode : (BitVec.ofNat 8 (0x90 + condCode c)).toNat = 0x90 + condCode c ∧ condCode c < 16 := by cases c <;> decide
  rw [decodeOne_instLong, hcode.1]
  unfold decodeLong
  rw [if_neg (by omega), if_pos (by omega), show (0x90 + condCode c) % 16 = condCode c by omega]
  simp [condOf?_condCode, takeField_digit _ h]

/-! #### An operand and an immediate -/

theorem takeImm_inst {size k : Nat} {make : Operand → Operand → Nat → Option Instr} {i : Instr} {rest : List Byte}
    (hd : d < 8) (h : rm.Says n o) (hk : k ≤ 8) (hmake : make (o.normal n) (.imm (sext k v)) d = some i) :
    takeImm (instLead size (.digit d) rm) n k make
      (rm.bytes (low3 (RegField.digit d).number) ++ (littleEndian k v ++ rest)) = some (.plain i, rest) := by
  simp [takeImm, takeField_digit hd h, takeSigned_littleEndian k hk, hmake]

theorem codes_alu_imm {i : Instr} (hn : IsSize n) (hd : d < 8) (hi : aluOf? n o (.imm v) d = some i) (h : rm.Says n o)
    (hv : low n (sext (min n 4) v) = low n v) :
    Codes (instBytes n [if n = 1 then 0x80 else 0x81] (.digit d) rm ++ littleEndian (min n 4) v) (.plain i) := by
  intro rest
  obtain ⟨i', hi', hnormal⟩ := aluOf?_congr hi (Operand.normal_normal n o)
    (show (Operand.imm (sext (min n 4) v)).normal n = _ from congrArg Operand.imm hv)
  refine ⟨.plain i', ?_, congrArg Coded.plain hnormal⟩
  obtain rfl | ⟨h1, hw⟩ := hn.byte_or_wide
  · rw [if_pos rfl, List.append_assoc, decodeOne_inst (by decide)]
    simpa [decodeShort, decodeFixed] using takeImm_inst hd h (by decide) hi'
  · rw [if_neg h1, List.append_assoc, decodeOne_inst (by decide)]
    simpa [decodeShort, decodeFixed, size_instLead hw] using takeImm_inst hd h (by omega) hi'

theorem codes_alu_byte {i : Instr} (hn : n = 2 ∨ n = 4 ∨ n = 8) (hd : d < 8) (hi : aluOf? n o (.imm v) d = some i)
    (h : rm.Says n o) (hv : sext 1 v = v) : Codes (instBytes n [0x83] (.digit d) rm ++ littleEndian 1 v) (.plain i) := by
  intro rest
  obtain ⟨i', hi', hnormal⟩ := aluOf?_congr hi (Operand.normal_normal n o)
    (show (Operand.imm (sext 1 v)).normal n = _ by rw [hv])
  refine ⟨.plain i', ?_, congrArg Coded.plain hnormal⟩
  rw [List.append_assoc, decodeOne_inst (by decide)]
  simpa [decodeShort, decodeFixed, size_instLead hn] using takeImm_inst hd h (by decide) hi'

theorem codes_shift_imm {i : Instr} (hn : IsSize n) (hd : d < 8) (hi : shiftOf? n o (.imm v) d = some i) (h : rm.Says n o) :
    Codes (instBytes n [if n = 1 then 0xC0 else 0xC1] (.digit d) rm ++ littleEndian 1 v) (.plain i) := by
  intro rest
  obtain ⟨i', hi', hnormal⟩ := shiftOf?_congr hi
    (show (Operand.imm (sext 1 v)).normal 1 = _ from congrArg Operand.imm (low_sext (by decide) v))
  refine ⟨.plain i', ?_, congrArg Coded.plain hnormal⟩
  obtain rfl | ⟨h1, hw⟩ := hn.byte_or_wide
  · rw [if_pos rfl, List.append_assoc, decodeOne_inst (by decide)]
    simpa [decodeShort, decodeFixed] using takeImm_inst hd h (by decide) hi'
  · rw [if_neg h1, List.append_assoc, decodeOne_inst (by decide)]
    simpa [decodeShort, decodeFixed, size_instLead hw] using takeImm_inst hd h (by decide) hi'

theorem codes_test_imm (hn : IsSize n) (h : rm.Says n o) (hv : low n (sext (min n 4) v) = low n v) :
    Codes (instBytes n [if n = 1 then 0xF6 else 0xF7] (.digit 0) rm ++ littleEndian (min n 4) v)
      (.plain (.test n o (.imm v))) := by
  intro rest
  refine ⟨.plain (.test n (o.normal n) (.imm (sext (min n 4) v))), ?_, by simp [Coded.normal, Instr.normal, hv]⟩
  obtain rfl | ⟨h1, hw⟩ := hn.byte_or_wide
  · rw [if_pos rfl, List.append_assoc, decodeOne_inst (by decide)]
    simp [decodeShort, decodeFixed, takeField_digit _ h, takeSigned_littleEndian]
  · rw [if_neg h1, List.append_assoc, decodeOne_inst (by decide)]
    simp [decodeShort, decodeFixed, takeField_digit _ h, size_instLead hw, takeSigned_littleEndian]

theorem codes_mul_imm {op : Byte} {k : Nat} (hn : n = 2 ∨ n = 4 ∨ n = 8) (hop : op = 0x6B ∧ k = 1 ∨ op = 0x69 ∧ k = min n 4)
    (hr : IsGpr r) (hv : low n (sext k v) = low n v) :
    Codes (instBytes n [op] (.reg r n) (.reg r n) ++ littleEndian k v) (.plain (.mul n r (.imm v))) := by
  intro rest
  refine ⟨.plain (.mul n r (.imm (sext k v))), ?_, by simp [Coded.normal, Instr.normal, hv]⟩
  have h : (Rm.reg r n).Says n (.reg r) := ⟨rfl, hr, rfl⟩
  rcases hop with ⟨rfl, rfl⟩ | ⟨rfl, rfl⟩
  · rw [List.append_assoc, decodeOne_inst (by decide)]
    simp [decodeShort, decodeFixed, takePair_inst h hr, size_instLead hn, takeSigned_littleEndian]
  · rw [List.append_assoc, decodeOne_inst (by decide)]
    simp [decodeShort, decodeFixed, takePair_inst h hr, size_instLead hn, takeSigned_littleEndian]

theorem codes_mov_imm (hn : IsSize n) (h : rm.Says n o) (hv : low n (sext (min n 4) v) = low n v) :
    Codes (instBytes n [if n = 1 then 0xC6 else 0xC7] (.digit 0) rm ++ littleEndian (min n 4) v)
      (.plain (.mov n o (.imm v))) := by
  intro rest
  refine ⟨.plain (.mov n (o.normal n) (.imm (sext (min n 4) v))), ?_, ?_⟩
  · obtain rfl | ⟨h1, hw⟩ := hn.byte_or_wide
    · rw [if_pos rfl, List.append_assoc, decodeOne_inst (by decide)]
      simp [decodeShort, decodeFixed, takeImm, takeField_digit _ h, takeSigned_littleEndian]
    · rw [if_neg h1, List.append_assoc, decodeOne_inst (by decide)]
      simp [decodeShort, decodeFixed, takeImm, takeField_digit _ h, takeSigned_littleEndian, size_instLead hw]
  · refine congrArg Coded.plain (Instr.normal_mov_congr (Operand.normal_normal n o) (congrArg Operand.imm hv) ?_)
    rintro rfl
    exact congrArg Operand.imm (by simpa using hv)

/-! #### The register in the opcode -/

/-- The bytes of an instruction with the register in its opcode. -/
def plusBytes (size opcode : Nat) (r : HardReg) : List Byte :=
  leading size false false (high r.index) (size == 1 && needsRexAsByte r.index) ++ [.ofNat 8 (opcode + low3 r.index)]

def plusLead (size : Nat) (r : HardReg) : Prefixes :=
  lead size false false (high r.index) (size == 1 && needsRexAsByte r.index)

theorem isOpcode_plus : ∀ i < 8, ∀ op ∈ [0x50, 0x58, 0xB0, 0xB8], isOpcode (.ofNat 8 (op + i)) = true := by decide

theorem decodeOne_plus {size op : Nat} {rest : List Byte} (hop : op ∈ [0x50, 0x58, 0xB0, 0xB8]) :
    decodeOne (plusBytes size op r ++ rest) = decodeShort (plusLead size r) (op + low3 r.index) rest := by
  obtain ⟨h66, hrex, h0f⟩ := of_decide_eq_true (isOpcode_plus _ (low3_lt r.index) op hop)
  have hnat : (BitVec.ofNat 8 (op + low3 r.index)).toNat = op + low3 r.index := by
    have := low3_lt r.index
    rw [BitVec.toNat_ofNat]
    simp only [List.mem_cons, List.not_mem_nil, or_false] at hop
    exact Nat.mod_eq_of_lt (by omega)
  rw [decodeOne, plusBytes, List.append_assoc, List.singleton_append, prefixes_leading _ _ _ _ _ _ h66 hrex]
  simp only [if_neg h0f, hnat]
  rfl

/-- The register of a register-in-opcode instruction. -/
theorem register_plus (hr : IsGpr r) :
    (plusLead n r).register n ((plusLead n r).bit 0) (low3 r.index) = some r := by
  obtain ⟨-, -, -, hbit⟩ := bit_lead n false false (high r.index) (n == 1 && needsRexAsByte r.index)
  refine register_eq hr hbit fun hn hneeds => rex_lead _ _ _ _ _ ?_
  simp [hn, hneeds]

theorem decodeOne_mov_plus (hn : IsSize n) (hr : IsGpr r) (rest : List Byte) :
    decodeOne (plusBytes n (if n = 1 then 0xB0 else 0xB8) r ++ (littleEndian n v ++ rest)) =
      some (.plain (.mov n (.reg r) (.imm (sext n v))), rest) := by
  have hlow := low3_lt r.index
  have hsize : n ≠ 1 → (plusLead n r).size = n := fun h1 => size_lead _ _ _ _ _ (by unfold IsSize at hn; omega)
  rw [decodeOne_plus (by split <;> decide)]
  by_cases h1 : n = 1
  · subst h1
    rw [if_pos rfl]
    unfold decodeShort
    rw [if_neg (by omega), if_neg (by omega), if_pos (by omega), show (0xB0 + low3 r.index) / 8 = 22 by omega,
      show (0xB0 + low3 r.index) % 8 = low3 r.index by omega]
    simp [register_plus hr, takeSigned_littleEndian]
  · rw [if_neg h1]
    unfold decodeShort
    rw [if_neg (by omega), if_neg (by omega), if_pos (by omega), show (0xB8 + low3 r.index) / 8 = 23 by omega,
      show (0xB8 + low3 r.index) % 8 = low3 r.index by omega]
    simp [hsize h1, register_plus hr, takeSigned_littleEndian _ hn.le]

theorem codes_mov_plus (hn : IsSize n) (hr : IsGpr r) :
    Codes (plusBytes n (if n = 1 then 0xB0 else 0xB8) r ++ littleEndian n v) (.plain (.mov n (.reg r) (.imm v))) := by
  intro rest
  rw [List.append_assoc, decodeOne_mov_plus hn hr]
  refine ⟨_, rfl, congrArg Coded.plain ?_⟩
  refine Instr.normal_mov_congr rfl (congrArg Operand.imm (low_sext hn.le v)) ?_
  rintro rfl
  exact congrArg Operand.imm (sext_eight v)

/-- A four-byte move clears the upper half of the register. -/
theorem codes_mov_half (hr : IsGpr r) (hv : low 4 v = v) :
    Codes (plusBytes 4 0xB8 r ++ littleEndian 4 v) (.plain (.mov 8 (.reg r) (.imm v))) := by
  intro rest
  have hread := decodeOne_mov_plus (v := v) (show IsSize 4 by simp [IsSize]) hr rest
  rw [List.append_assoc]
  refine ⟨_, hread, congrArg Coded.plain ?_⟩
  simp [Instr.normal, Operand.isReg, Operand.isHalf, hv, low_sext]

theorem codes_stack (hr : IsGpr r) (push : Bool) :
    Codes (plusBytes 4 (if push then 0x50 else 0x58) r) (.plain (if push then .push r else .pop r)) := by
  intro rest
  have hlow := low3_lt r.index
  obtain ⟨-, -, -, hbit⟩ := bit_lead 4 false false (high r.index) (4 == 1 && needsRexAsByte r.index)
  refine ⟨_, ?_, rfl⟩
  rw [decodeOne_plus (by split <;> decide)]
  unfold decodeShort
  cases push with
  | true =>
    rw [if_pos rfl, if_neg (by omega), if_pos (by omega), show (0x50 + low3 r.index) / 8 = 10 by omega,
      show (0x50 + low3 r.index) % 8 = low3 r.index by omega, plusLead, hbit, gpr_high_low3 hr]
    rfl
  | false =>
    rw [if_neg Bool.false_ne_true, if_neg (by omega), if_pos (by omega), show (0x58 + low3 r.index) / 8 = 11 by omega,
      show (0x58 + low3 r.index) % 8 = low3 r.index by omega, plusLead, hbit, gpr_high_low3 hr]
    rfl

/-! #### Places in the code -/

variable (disp : BitVec 32)

theorem codes_jump : Codes (0xE9 :: dispBytes disp) (.jump disp) := by
  intro rest
  refine ⟨_, ?_, rfl⟩
  simp [decodeOne, prefixes, isRex, decodeShort, decodeFixed, takeDisp_dispBytes]

theorem codes_call : Codes (0xE8 :: dispBytes disp) (.call disp) := by
  intro rest
  refine ⟨_, ?_, rfl⟩
  simp [decodeOne, prefixes, isRex, decodeShort, decodeFixed, takeDisp_dispBytes]

theorem codes_jcc (c : Cond) : Codes (0x0F :: .ofNat 8 (0x80 + condCode c) :: dispBytes disp) (.jcc c disp) := by
  intro rest
  refine ⟨_, ?_, rfl⟩
  have hcode : (BitVec.ofNat 8 (0x80 + condCode c)).toNat = 0x80 + condCode c ∧ condCode c < 16 := by cases c <;> decide
  simp [decodeOne, prefixes, isRex, hcode.1]
  unfold decodeLong
  rw [if_pos (by omega), show (0x80 + condCode c) % 16 = condCode c by omega]
  simp [condOf?_condCode, takeDisp_dispBytes]

theorem codes_leaCode (l : Label) (hr : IsGpr r) :
    Codes (instBytes 8 [0x8D] (.reg r 8) (.rip l) ++ dispBytes disp) (.leaCode r disp) := by
  intro rest
  refine ⟨_, ?_, rfl⟩
  have hreg := register_inst 8 8 (.rip l) hr
  obtain ⟨h1, h2, h3⟩ := toNat_fields (show 0 < 4 by decide) (low3_lt r.index) (show 5 < 8 by decide)
  rw [List.append_assoc, decodeOne_inst (by decide)]
  simp [decodeShort, decodeFixed, size_instLead, Rm.bytes, takeModRM, RegField.number, h1, h2, h3, takeDisp_dispBytes, hreg]

theorem codes_ret : Codes [0xC3] .ret := fun _ => ⟨_, rfl, rfl⟩

theorem codes_extendRax (n : Nat) : n = 2 ∨ n = 4 ∨ n = 8 →
    Codes (match n with | 2 => [0x66, 0x99] | 4 => [0x99] | _ => [0x48, 0x99]) (.plain (.extendRax n)) := by
  rintro (rfl | rfl | rfl) <;> exact fun _ => ⟨_, rfl, rfl⟩

theorem codes_clear : Codes [0x31, 0xD2] (.plain (.alu .xor 4 (.reg rdx) (.reg rdx))) := fun _ => ⟨_, rfl, rfl⟩

end Forms

end Amd64

end JitBackend
