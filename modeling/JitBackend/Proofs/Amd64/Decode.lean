import JitBackend.Proofs.Amd64.Machine
import JitBackend.Proofs.Resolution

/-!
# Reading machine code

A decoder for the instructions of `Instr` and for those that refer to a place in the code. It is written from the layout
of instructions: an operand-size byte (`0x66`), a REX byte (`0x40` to `0x4f`), the opcode, then as the opcode demands a
ModRM byte with a SIB byte and a displacement, and an immediate. The lowest bit of most opcodes tells bytes from wider
operands. Numbers from 4 to 7 name `spl`, `bpl`, `sil` and `dil` as bytes where there is a REX byte; without one they are
the upper bytes of other registers, which no instruction of `Instr` works on.
-/

namespace JitBackend.Amd64

/-- What bytes stand for. Places in the code are given by their distance from the end of the instruction. -/
inductive Coded
  | plain (i : Instr) | leaCode (r : HardReg) (d : BitVec 32)
  | jump (d : BitVec 32) | jcc (c : Cond) (d : BitVec 32) | call (d : BitVec 32) | ret

/-! ## Prefix bytes -/

/-- The bytes before an opcode. -/
structure Prefixes where
  short : Bool
  rex : Option Byte

namespace Prefixes

/-- A bit of the REX byte: wide operands, then the fourth bits of the register, the index, and the base or operand. -/
def bit (p : Prefixes) (i : Nat) : Bool := p.rex.any (·.getLsbD i)

/-- The size of operands that are not bytes. -/
def size (p : Prefixes) : Nat := if p.bit 3 then 8 else if p.short then 2 else 4

/-- The register of `n` bytes with three bits in the instruction and the fourth one in the REX byte. -/
def register (p : Prefixes) (n : Nat) (top : Bool) (bits : Nat) : Option HardReg :=
  if n = 1 ∧ p.rex = none ∧ 4 ≤ bits then none else some (gpr (8 * top.toNat + bits))

end Prefixes

def isRex (b : Byte) : Bool := b.toNat / 16 == 4

def prefixes : List Byte → Prefixes × List Byte
  | [] => (⟨false, none⟩, [])
  | b :: bs =>
    if b = 0x66 then
      match bs with
      | [] => (⟨true, none⟩, [])
      | c :: cs => if isRex c then (⟨true, some c⟩, cs) else (⟨true, none⟩, c :: cs)
    else if isRex b then (⟨false, some b⟩, bs)
    else (⟨false, none⟩, b :: bs)

/-! ## Operands -/

/-- The number in the next `n` bytes, extended by its sign. -/
def takeSigned (n : Nat) (bs : List Byte) : Option (Word × List Byte) :=
  if n ≤ bs.length then some (sext n (.ofNat 64 (leNat (bs.take n))), bs.drop n) else none

/-- A displacement of no bytes, one byte or four bytes. -/
def takeDisp (n : Nat) (bs : List Byte) : Option (BitVec 32 × List Byte) :=
  (takeSigned n bs).map fun (v, rest) => (v.setWidth 32, rest)

/-- The bytes of the displacement, by the mode of a ModRM byte. -/
def dispSize : Nat → Nat
  | 0 => 0
  | 1 => 1
  | _ => 4

def scaleOf : Nat → Scale
  | 0 => .one
  | 1 => .two
  | 2 => .four
  | _ => .eight

/-- An address with a SIB byte. The index number 4 means no index; the base number 5 in mode 0 means no base. -/
def takeSib (p : Prefixes) (mode : Nat) : List Byte → Option (AddrMode × List Byte)
  | [] => none
  | b :: bs => do
    let x := 8 * (p.bit 1).toNat + b.toNat / 8 % 8
    let index := if x = 4 then none else some (gpr x)
    let scale := if x = 4 then .one else scaleOf (b.toNat / 64)
    if mode = 0 ∧ b.toNat % 8 = 5 then
      let (d, rest) ← takeDisp 4 bs
      some (⟨none, index, scale, d⟩, rest)
    else
      let (d, rest) ← takeDisp (dispSize mode) bs
      some (⟨some (gpr (8 * (p.bit 0).toNat + b.toNat % 8)), index, scale, d⟩, rest)

/-- What a ModRM byte describes: an operand, or a place in the code. -/
inductive Spot
  | operand (o : Operand) | code (d : BitVec 32)

/-- The register field of a ModRM byte, and what it describes to an instruction of `n` bytes. -/
def takeModRM (p : Prefixes) (n : Nat) : List Byte → Option (Nat × Spot × List Byte)
  | [] => none
  | b :: bs => do
    let mode := b.toNat / 64
    let field := b.toNat / 8 % 8
    let rm := b.toNat % 8
    if mode = 3 then
      let r ← p.register n (p.bit 0) rm
      some (field, .operand (.reg r), bs)
    else if rm = 4 then
      let (a, rest) ← takeSib p mode bs
      some (field, .operand (.mem a), rest)
    else if mode = 0 ∧ rm = 5 then
      let (d, rest) ← takeDisp 4 bs
      some (field, .code d, rest)
    else
      let (d, rest) ← takeDisp (dispSize mode) bs
      some (field, .operand (.mem ⟨some (gpr (8 * (p.bit 0).toNat + rm)), none, .one, d⟩), rest)

/-- A field and an operand of `n` bytes. -/
def takeField (p : Prefixes) (n : Nat) (bs : List Byte) : Option (Nat × Operand × List Byte) := do
  match ← takeModRM p n bs with
  | (field, .operand o, rest) => some (field, o, rest)
  | (_, .code _, _) => none

/-- A register of `n` bytes and an operand of `g` bytes. -/
def takePair (p : Prefixes) (n g : Nat) (bs : List Byte) : Option (HardReg × Operand × List Byte) := do
  let (field, o, rest) ← takeField p g bs
  let r ← p.register n (p.bit 2) field
  some (r, o, rest)

/-! ## Opcodes -/

def condOf? : Nat → Option Cond
  | 0x2 => some .ult
  | 0x3 => some .uge
  | 0x4 => some .eq
  | 0x5 => some .ne
  | 0x6 => some .ule
  | 0x7 => some .ugt
  | 0xC => some .lt
  | 0xD => some .ge
  | 0xE => some .le
  | 0xF => some .gt
  | _ => none

def aluOf? (n : Nat) (dst src : Operand) : Nat → Option Instr
  | 0 => some (.alu .add n dst src)
  | 1 => some (.alu .or n dst src)
  | 4 => some (.alu .and n dst src)
  | 5 => some (.alu .sub n dst src)
  | 6 => some (.alu .xor n dst src)
  | 7 => some (.cmp n dst src)
  | _ => none

def shiftOf? (n : Nat) (dst count : Operand) : Nat → Option Instr
  | 4 => some (.shift .shl n dst count)
  | 5 => some (.shift .shr n dst count)
  | 7 => some (.shift .sar n dst count)
  | _ => none

def unaryOf? (n : Nat) (o : Operand) : Nat → Option Instr
  | 2 => some (.inv n o)
  | 3 => some (.neg n o)
  -- the dividend of a byte is not split over two registers
  | 6 => if n = 1 then none else some (.div n false o)
  | 7 => if n = 1 then none else some (.div n true o)
  | _ => none

def stepOf? (n : Nat) (o : Operand) : Nat → Option Instr
  | 0 => some (.inc n o)
  | 1 => some (.dec n o)
  | _ => none

/-- Instructions told apart by the register field, with an operand of `n` bytes and an immediate of `k` bytes. -/
def takeImm (p : Prefixes) (n k : Nat) (make : Operand → Operand → Nat → Option Instr) (bs : List Byte) :
    Option (Coded × List Byte) := do
  let (field, o, rest) ← takeField p n bs
  let (v, rest) ← takeSigned k rest
  some (.plain (← make o (.imm v) field), rest)

/-- The instructions that begin with the byte `0x0f`. -/
@[grind =] def decodeLong (p : Prefixes) (op : Nat) (bs : List Byte) : Option (Coded × List Byte) :=
  if op / 16 = 8 then do
    let c ← condOf? (op % 16)
    let (d, rest) ← takeDisp 4 bs
    some (.jcc c d, rest)
  else if op / 16 = 9 then do
    let c ← condOf? (op % 16)
    let (_, o, rest) ← takeField p 1 bs
    some (.plain (.setcc c o), rest)
  else
    match op with
    | 0xAF => do
      let (r, o, rest) ← takePair p p.size p.size bs
      some (.plain (.mul p.size r o), rest)
    | 0xB6 => do
      let (r, o, rest) ← takePair p p.size 1 bs
      some (.plain (.extend p.size r 1 false o), rest)
    | 0xB7 => do
      let (r, o, rest) ← takePair p p.size 2 bs
      some (.plain (.extend p.size r 2 false o), rest)
    | 0xBE => do
      let (r, o, rest) ← takePair p p.size 1 bs
      some (.plain (.extend p.size r 1 true o), rest)
    | 0xBF => do
      let (r, o, rest) ← takePair p p.size 2 bs
      some (.plain (.extend p.size r 2 true o), rest)
    | _ => none

/-- The instructions whose opcode is one fixed byte. -/
@[grind =] def decodeFixed (p : Prefixes) (op : Nat) (bs : List Byte) : Option (Coded × List Byte) :=
  let n := if op % 2 = 0 then 1 else p.size
  match op with
  | 0x63 => do
    let (r, o, rest) ← takePair p p.size 4 bs
    some (.plain (.extend p.size r 4 true o), rest)
  | 0x69 | 0x6B => do
    let (r, o, rest) ← takePair p p.size p.size bs
    let (v, rest) ← takeSigned (if op = 0x6B then 1 else min p.size 4) rest
    if o = .reg r then some (.plain (.mul p.size r (.imm v)), rest) else none
  | 0x80 | 0x81 => takeImm p n (min n 4) (aluOf? n) bs
  | 0x83 => takeImm p n 1 (aluOf? n) bs
  | 0x84 | 0x85 => do
    let (r, o, rest) ← takePair p n n bs
    some (.plain (.test n o (.reg r)), rest)
  | 0x88 | 0x89 => do
    let (r, o, rest) ← takePair p n n bs
    some (.plain (.mov n o (.reg r)), rest)
  | 0x8A | 0x8B => do
    let (r, o, rest) ← takePair p n n bs
    some (.plain (.mov n (.reg r) o), rest)
  | 0x8D => do
    let (field, spot, rest) ← takeModRM p p.size bs
    let r ← p.register p.size (p.bit 2) field
    match spot with
    | .operand (.mem a) => some (.plain (.lea p.size r a), rest)
    | .operand _ => none
    | .code d => if p.size = 8 then some (.leaCode r d, rest) else none
  | 0x99 => some (.plain (.extendRax p.size), bs)
  | 0xC0 | 0xC1 => takeImm p n 1 (shiftOf? n) bs
  | 0xC3 => some (.ret, bs)
  | 0xC6 | 0xC7 => takeImm p n (min n 4) (fun o v field => if field = 0 then some (.mov n o v) else none) bs
  | 0xD2 | 0xD3 => do
    let (field, o, rest) ← takeField p n bs
    some (.plain (← shiftOf? n o (.reg rcx) field), rest)
  | 0xE8 | 0xE9 => do
    let (d, rest) ← takeDisp 4 bs
    some (if op = 0xE8 then .call d else .jump d, rest)
  | 0xF6 | 0xF7 => do
    let (field, o, rest) ← takeField p n bs
    if field = 0 then
      let (v, rest) ← takeSigned (min n 4) rest
      some (.plain (.test n o (.imm v)), rest)
    else some (.plain (← unaryOf? n o field), rest)
  | 0xFE | 0xFF => do
    let (field, o, rest) ← takeField p n bs
    some (.plain (← stepOf? n o field), rest)
  | _ => none

/-- The instructions of one opcode byte. Some bytes hold a number besides the operation. -/
@[grind =] def decodeShort (p : Prefixes) (op : Nat) (bs : List Byte) : Option (Coded × List Byte) :=
  let n := if op % 2 = 0 then 1 else p.size
  if op < 0x40 ∧ op % 8 < 4 then do
    let (r, o, rest) ← takePair p n n bs
    let i ← if op % 4 < 2 then aluOf? n o (.reg r) (op / 8) else aluOf? n (.reg r) o (op / 8)
    some (.plain i, rest)
  else if op / 8 = 10 ∨ op / 8 = 11 then
    let r := gpr (8 * (p.bit 0).toNat + op % 8)
    if p.short then none else some (.plain (if op / 8 = 10 then .push r else .pop r), bs)
  else if op / 8 = 22 ∨ op / 8 = 23 then do
    let n := if op / 8 = 22 then 1 else p.size
    let r ← p.register n (p.bit 0) (op % 8)
    let (v, rest) ← takeSigned n bs
    some (.plain (.mov n (.reg r) (.imm v)), rest)
  else decodeFixed p op bs

/-- The first instruction, and the bytes behind it. -/
def decodeOne (bs : List Byte) : Option (Coded × List Byte) :=
  match prefixes bs with
  | (_, []) => none
  | (p, op :: bs) =>
    if op = 0x0F then
      match bs with
      | [] => none
      | op :: bs => decodeLong p op.toNat bs
    else decodeShort p op.toNat bs

/-- All instructions; none if bytes are left over. -/
def decode (bs : List Byte) : Option (List Coded) :=
  if bs = [] then some []
  else
    match decodeOne bs with
    | none => none
    | some (c, rest) => if rest.length < bs.length then (decode rest).map (c :: ·) else none
termination_by bs.length

/-! ## Reading back prefix bytes -/

/-- The prefixes that stand for the bytes of `leading`. -/
def lead (size : Nat) (r x b force : Bool) : Prefixes :=
  let byte := rex (size == 8) r x b
  ⟨size == 2, if byte != 0x40 || force then some byte else none⟩

theorem prefixes_leading (size : Nat) (r x b force : Bool) {op : Byte} (rest : List Byte) (h66 : op ≠ 0x66)
    (hrex : isRex op = false) :
    prefixes (leading size r x b force ++ op :: rest) = (lead size r x b force, op :: rest) := by
  have hbyte : isRex (rex (size == 8) r x b) = true ∧ rex (size == 8) r x b ≠ 0x66 := by
    generalize (size == 8) = w
    revert w r x b
    decide
  obtain ⟨hisRex, hne⟩ : isRex (rex (size == 8) r x b) = true ∧ ¬rex (size == 8) r x b = 0x66#8 := hbyte
  have h66 : ¬op = 0x66#8 := h66
  simp only [leading, lead]
  generalize rex (size == 8) r x b = byte at *
  by_cases h2 : size = 2 <;> by_cases hb : (byte != 0x40 || force) = true <;>
    simp only [h2, hb, if_true, if_false, List.cons_append, List.nil_append] <;>
    simp [prefixes, h2, h66, hrex, hisRex, hne]

section Lead

variable (size : Nat) (r x b force : Bool)

/-- The bits of the REX byte; where there is none, all of them are clear. -/
theorem bit_lead : (lead size r x b force).bit 3 = (size == 8) ∧ (lead size r x b force).bit 2 = r ∧
    (lead size r x b force).bit 1 = x ∧ (lead size r x b force).bit 0 = b := by
  simp only [lead, Prefixes.bit]
  generalize (size == 8) = w
  revert w r x b force
  decide

theorem size_lead (h : size = 2 ∨ size = 4 ∨ size = 8) : (lead size r x b force).size = size := by
  rw [Prefixes.size, (bit_lead size r x b force).1]
  rcases h with rfl | rfl | rfl <;> rfl

theorem rex_lead (h : force = true) : (lead size r x b force).rex ≠ none := by
  simp [lead, h]

end Lead

/-! ## Reading back numbers -/

theorem takeSigned_littleEndian (n : Nat) (hn : n ≤ 8) (v : Word) (rest : List Byte) :
    takeSigned n (littleEndian n v ++ rest) = some (sext n v, rest) := by
  have hcut : low n (.ofNat 64 (leNat (littleEndian n v))) = low n v := by
    apply BitVec.eq_of_toNat_eq
    rw [toNat_low, toNat_low, leNat_littleEndian, BitVec.toNat_ofNat, Nat.pow_mul, show 2 ^ 8 = 256 from rfl,
      Nat.mod_mod_of_dvd _ (by rw [show (2 : Nat) ^ 64 = 256 ^ 8 by norm_num]; exact Nat.pow_dvd_pow 256 hn), Nat.mod_mod]
  rw [takeSigned, if_pos (by simp), List.take_left' (length_littleEndian n v), List.drop_left' (length_littleEndian n v),
    sext_congr hcut]

theorem takeDisp_littleEndian {n : Nat} (hn : n ≤ 8) {d : BitVec 32} (hd : sext n (d.signExtend 64) = d.signExtend 64)
    (rest : List Byte) : takeDisp n (littleEndian n (d.signExtend 64) ++ rest) = some (d, rest) := by
  rw [takeDisp, takeSigned_littleEndian n hn, hd]
  simp [setWidth_signExtend]

/-- Three fields of a byte. -/
theorem toNat_fields {a b c : Nat} (ha : a < 4) (hb : b < 8) (hc : c < 8) :
    (fields a b c).toNat / 64 = a ∧ (fields a b c).toNat / 8 % 8 = b ∧ (fields a b c).toNat % 8 = c := by
  have h : (fields a b c).toNat = 64 * a + 8 * b + c := by
    rw [fields, BitVec.toNat_ofNat]
    exact Nat.mod_eq_of_lt (by omega)
  omega

/-! ## Reading back operands -/

theorem gpr_high_low3 {r : HardReg} (h : IsGpr r) : gpr (8 * (high r.index).toNat + low3 r.index) = r := by
  obtain ⟨arch, i⟩ := r
  obtain ⟨rfl, hi⟩ : arch = .amd64 ∧ i ≤ 15 := h
  have hnum : 8 * (high i).toNat + low3 i = i := by
    rw [high, low3]
    by_cases h8 : 8 ≤ i
    · simp only [h8, decide_true, Bool.toNat_true]
      omega
    · simp only [h8, decide_false, Bool.toNat_false]
      omega
  rw [gpr, hnum]

end JitBackend.Amd64

namespace JitBackend

/-- Without an index the scale says nothing. -/
def AddrMode.normal (m : AddrMode) : AddrMode := if m.index = none then { m with scale := .one } else m

/-- Base and index are general registers. -/
def AddrMode.IsGpr (m : AddrMode) : Prop := ∀ r ∈ m.regs, Amd64.IsGpr r

theorem AddrMode.IsGpr.base {m : AddrMode} {r : HardReg} (h : m.IsGpr) (hr : m.base = some r) : Amd64.IsGpr r :=
  h r (by simp [AddrMode.regs, hr])

theorem AddrMode.IsGpr.index {m : AddrMode} {r : HardReg} (h : m.IsGpr) (hr : m.index = some r) : Amd64.IsGpr r :=
  h r (by simp [AddrMode.regs, hr])

namespace Amd64

theorem scaleOf_scaleBits (s : Scale) : scaleOf (scaleBits s) = s := by cases s <;> rfl

theorem scaleBits_lt (s : Scale) : scaleBits s < 4 := by cases s <;> decide

/-- The mode of an address with a base whose three bits are `b`. -/
def modeOf (d : BitVec 32) (b : Nat) : Nat :=
  if d = 0 ∧ b ≠ 5 then 0 else if fitsByte (d.signExtend 64) then 1 else 2

def modeBytes (d : BitVec 32) (mode : Nat) : List Byte :=
  match mode with
  | 0 => []
  | 1 => littleEndian 1 (d.signExtend 64)
  | _ => dispBytes d

theorem modeOf_lt (d : BitVec 32) (b : Nat) : modeOf d b < 3 := by
  unfold modeOf
  split
  · decide
  · split <;> decide

theorem modeOf_ne {d : BitVec 32} {b : Nat} (h : modeOf d b = 0) : b ≠ 5 := by
  unfold modeOf at h
  split at h
  · rename_i hd
    exact hd.2
  · split at h <;> cases h

theorem takeDisp_dispBytes (d : BitVec 32) (rest : List Byte) : takeDisp 4 (dispBytes d ++ rest) = some (d, rest) := by
  apply takeDisp_littleEndian (by decide)
  rw [sext, setWidth_signExtend (by decide)]

theorem takeDisp_modeBytes (d : BitVec 32) (b : Nat) (rest : List Byte) :
    takeDisp (dispSize (modeOf d b)) (modeBytes d (modeOf d b) ++ rest) = some (d, rest) := by
  unfold modeOf
  split
  · rename_i hd
    rw [hd.1]
    exact takeDisp_littleEndian (n := 0) (d := 0) (by decide) (sext_zero_word 0) rest
  · split
    · rename_i hfits
      exact takeDisp_littleEndian (n := 1) (by decide) (by simpa [fitsByte, sext] using hfits) rest
    · exact takeDisp_dispBytes d rest

theorem addressBytes_of_base {m : AddrMode} {base : HardReg} (h : m.base = some base) (d : Nat) :
    addressBytes d m =
      (match m.index with
      | some r => [fields (modeOf m.disp (low3 base.index)) d 4, fields (scaleBits m.scale) (low3 r.index) (low3 base.index)]
      | none =>
        if low3 base.index = 4 then [fields (modeOf m.disp (low3 base.index)) d 4, fields 0 4 4]
        else [fields (modeOf m.disp (low3 base.index)) d (low3 base.index)]) ++
      modeBytes m.disp (modeOf m.disp (low3 base.index)) := by
  rw [addressBytes, h]
  rfl

section Address

variable {p : Prefixes} {n d mode : Nat} {r : HardReg} {bs rest : List Byte}

theorem low3_lt (i : Nat) : low3 i < 8 := Nat.mod_lt i (by decide)

/-- The number 4 in a ModRM byte announces a SIB byte. -/
theorem takeModRM_sib {a : AddrMode} (hmode : mode < 3) (hd : d < 8) (h : takeSib p mode bs = some (a, rest)) :
    takeModRM p n (fields mode d 4 :: bs) = some (d, .operand (.mem a), rest) := by
  obtain ⟨h1, h2, h3⟩ := toNat_fields (show mode < 4 by omega) hd (show 4 < 8 by decide)
  simp [takeModRM, h1, h2, h3, show mode ≠ 3 by omega, h]

theorem takeModRM_base {disp : BitVec 32} (hmode : mode < 3) (hd : d < 8) (hr : IsGpr r)
    (hbit : p.bit 0 = high r.index) (h4 : low3 r.index ≠ 4) (h5 : mode = 0 → low3 r.index ≠ 5)
    (h : takeDisp (dispSize mode) bs = some (disp, rest)) :
    takeModRM p n (fields mode d (low3 r.index) :: bs) = some (d, .operand (.mem ⟨some r, none, .one, disp⟩), rest) := by
  obtain ⟨h1, h2, h3⟩ := toNat_fields (show mode < 4 by omega) hd (low3_lt r.index)
  have hno : ¬(mode = 0 ∧ low3 r.index = 5) := fun ⟨h, h'⟩ => h5 h h'
  simp [takeModRM, h1, h2, h3, show mode ≠ 3 by omega, h4, hno, h, hbit, gpr_high_low3 hr]

/-- What a SIB byte says of the index. The number 4 would mean that there is none. -/
theorem sib_index {x : Nat} (hr : IsGpr r) (h4 : r.index ≠ 4) (hx : x = low3 r.index)
    (hbit : p.bit 1 = high r.index) : 8 * (p.bit 1).toNat + x ≠ 4 ∧ gpr (8 * (p.bit 1).toNat + x) = r := by
  have hgpr := gpr_high_low3 hr
  rw [hbit, hx]
  refine ⟨fun h => h4 ?_, hgpr⟩
  rw [h] at hgpr
  rw [← hgpr]
  rfl

/-- The index part of a SIB byte, of an address in its normal form. -/
theorem takeSib_base {m : AddrMode} {base : HardReg} (hm : m.IsGpr)
    (hsp : m.index.any (·.index == 4) = false) (hx : p.bit 1 = m.index.any (high ·.index)) (hbase : m.base = some base)
    (hbit : p.bit 0 = high base.index) (h5 : mode = 0 → low3 base.index ≠ 5)
    (h : takeDisp (dispSize mode) bs = some (m.disp, rest)) {s x : Nat}
    (hs : s = m.index.elim 0 fun _ => scaleBits m.scale) (hi : x = m.index.elim 4 fun r => low3 r.index) :
    takeSib p mode (fields s x (low3 base.index) :: bs) = some (m.normal, rest) := by
  have hb := hm.base hbase
  obtain ⟨base', index, scale, disp⟩ := m
  cases hbase
  have hno : ¬(mode = 0 ∧ low3 base.index = 5) := fun ⟨h, h'⟩ => h5 h h'
  cases index with
  | none =>
    obtain ⟨k1, k2, k3⟩ := toNat_fields (show s < 4 by simp [hs]) (show x < 8 by simp [hi]) (low3_lt base.index)
    have hnone : p.bit 1 = false := hx
    simp only [takeSib, k2, k3]
    simp [hnone, hi, hno, h, hbit, gpr_high_low3 hb, AddrMode.normal]
  | some r =>
    obtain ⟨k1, k2, k3⟩ := toNat_fields (show s < 4 by simpa [hs] using scaleBits_lt scale)
      (show x < 8 by simpa [hi] using low3_lt r.index) (low3_lt base.index)
    obtain ⟨hne, hgpr⟩ := sib_index (p := p) (hm.index rfl) (by simpa using hsp) hi hx
    simp only [takeSib, k1, k2, k3]
    simp [hne, hgpr, hs, hno, h, hbit, gpr_high_low3 hb, AddrMode.normal, scaleOf_scaleBits]

theorem takeModRM_address {m : AddrMode} (hd : d < 8) (hm : m.IsGpr) (hsp : m.index.any (·.index == 4) = false)
    (hx : p.bit 1 = m.index.any (high ·.index)) (hb : p.bit 0 = m.base.any (high ·.index)) (rest : List Byte) :
    takeModRM p n (addressBytes d m ++ rest) = some (d, .operand (.mem m.normal), rest) := by
  cases hbase : m.base with
  | none =>
    obtain ⟨base, index, scale, disp⟩ := m
    cases hbase
    cases index with
    | none =>
      obtain ⟨k1, k2, k3⟩ := toNat_fields (show 0 < 4 by decide) (show 4 < 8 by decide) (show 5 < 8 by decide)
      have hbit : p.bit 1 = false := hx
      refine takeModRM_sib (by decide) hd ?_
      simp [takeSib, k2, k3, hbit, takeDisp_dispBytes, AddrMode.normal]
    | some r =>
      obtain ⟨k1, k2, k3⟩ := toNat_fields (scaleBits_lt scale) (low3_lt r.index) (show 5 < 8 by decide)
      obtain ⟨hne, hgpr⟩ := sib_index (p := p) (hm.index rfl) (by simpa using hsp) k2 hx
      refine takeModRM_sib (by decide) hd ?_
      simp [takeSib, k1, k3, hne, hgpr, takeDisp_dispBytes, AddrMode.normal, scaleOf_scaleBits]
  | some base =>
    have hbit : p.bit 0 = high base.index := by simpa [hbase] using hb
    have hdisp := takeDisp_modeBytes m.disp (low3 base.index) rest
    rw [addressBytes_of_base hbase]
    cases hindex : m.index with
    | some r =>
      exact takeModRM_sib (modeOf_lt ..) hd
        (takeSib_base hm hsp hx hbase hbit modeOf_ne hdisp (by rw [hindex]; rfl) (by rw [hindex]; rfl))
    | none =>
      by_cases h4 : low3 base.index = 4
      · rw [if_pos h4]
        refine takeModRM_sib (modeOf_lt ..) hd ?_
        have := takeSib_base hm hsp hx hbase hbit modeOf_ne hdisp (s := 0) (x := 4) (by rw [hindex]; rfl)
          (by rw [hindex]; rfl)
        rw [h4] at this ⊢
        exact this
      · rw [if_neg h4]
        have := takeModRM_base (n := n) (modeOf_lt ..) hd (hm.base hbase) hbit h4 modeOf_ne hdisp
        rw [AddrMode.normal, if_pos hindex, hindex, hbase]
        exact this

end Address

end Amd64

end JitBackend
