import JitBackend.Amd64.Register
import JitBackend.Buffer

/-!
# Encoding of amd64 instructions

An instruction is an operand-size byte, a REX byte, the opcode, a ModRM byte and, for memory operands, a SIB byte and
a displacement. The REX byte holds the wide-operand bit and the fourth bits of the register numbers.

* `rsp` and `r12` as a base need a SIB byte, since their number in the ModRM byte announces one.
* `rbp` and `r13` as a base need a displacement, since their number without one means no base.
* An address without a base has a SIB byte and four bytes of displacement. `rsp` cannot be an index.
* The byte registers `spl`, `bpl`, `sil` and `dil` need a REX byte, if only an empty one.
-/

namespace JitBackend.Amd64

/-- What an instruction is made of: bytes, and references to labels. -/
inductive Piece
  | byte (b : Byte) | rel32 (l : Label)
  deriving DecidableEq, Repr

/-- Computations that write an instruction. What they have written before a failure stays written. -/
abbrev Emit := ExceptT Error (StateM (List Piece))

def out (bytes : List Byte) : Emit Unit := modify (· ++ bytes.map Piece.byte)

def outLabel (l : Label) : Emit Unit := modify (· ++ [.rel32 l])

/-! ## Operands -/

/-- The register field of a ModRM byte: a register at a size, or an extension of the opcode. -/
inductive RegField
  | reg (r : HardReg) (size : Nat) | digit (d : Nat)

/-- The register-or-memory operand of a ModRM byte. -/
inductive Rm
  | reg (r : HardReg) (size : Nat) | mem (m : AddrMode) | rip (l : Label)

/-- The size of an operand that instructions have. -/
def width (k : Kind) : Except Error Nat :=
  if k.size = 1 ∨ k.size = 2 ∨ k.size = 4 ∨ k.size = 8 then .ok k.size else .error (.unsupported (.width k))

/-- A constant as an immediate, sign-extended from the width of its kind. -/
def immediate (c : Const) : Except Error (BitVec 64) :=
  if c.kind.isComplex then .error (.unsupported (.immediate c))
  else
    match c.kind.size with
    | 1 => .ok ((c.re.setWidth 8).signExtend 64)
    | 2 => .ok ((c.re.setWidth 16).signExtend 64)
    | 4 => .ok ((c.re.setWidth 32).signExtend 64)
    | _ => .ok c.re

def fitsByte (v : BitVec 64) : Bool := (v.setWidth 8).signExtend 64 == v

def fitsDword (v : BitVec 64) : Bool := (v.setWidth 32).signExtend 64 == v

def operand : Expr → Except Error Operand
  | .reg r =>
    match r.id with
    | .hard h => if h.arch = .amd64 ∧ h.index ≤ 15 then .ok (.reg h) else .error (.unsupported (.register h))
    | .soft id => .error (.unallocatedRegister id)
  | .memAt _ _ m => .ok (.mem m)
  | .const c => (immediate c).map .imm
  | .label l => .ok (.label l)
  | .mem k ro a => .error (.unsupported (.unresolved (.mem k ro a)))
  | e => .error (.unsupported (.operand e))

def rmOf? (o : Operand) (size : Nat) : Option Rm :=
  match o with
  | .reg r => some (.reg r size)
  | .mem m => some (.mem m)
  | _ => none

/-- The operand as register or memory, or the refusal `what`. -/
def rmOr (o : Operand) (size : Nat) (what : Refusal) : Except Error Rm :=
  match rmOf? o size with
  | some rm => .ok rm
  | none => .error (.unsupported what)

/-- The expression as a register or memory operand to write to. -/
def destination (x : Expr) (size : Nat) : Except Error Rm := do
  match rmOf? (← operand x) size with
  | some rm => return rm
  | none => throw (.notAssignable x)

def jumpTarget (e : Expr) : Except Error Label :=
  match e with
  | .label l => .ok l
  | e => .error (.unsupported (.jumpTarget e))

/-! ## Parts of an instruction -/

/-- A register number's three bits in the instruction. -/
def low3 (n : Nat) : Nat := n % 8

/-- A register number's bit in the REX byte. -/
def high (n : Nat) : Bool := 8 ≤ n

def rex (w r x b : Bool) : Byte := .ofNat 8 (0x40 + 8 * w.toNat + 4 * r.toNat + 2 * x.toNat + b.toNat)

/-- Three fields of two, three and three bits. -/
def fields (a b c : Nat) : Byte := .ofNat 8 (64 * a + 8 * b + c)

def scaleBits : Scale → Nat
  | .one => 0
  | .two => 1
  | .four => 2
  | .eight => 3

/-- The number of a condition in an opcode. -/
def condCode : Cond → Nat
  | .ult => 0x2
  | .uge => 0x3
  | .eq => 0x4
  | .ne => 0x5
  | .ule => 0x6
  | .ugt => 0x7
  | .lt => 0xC
  | .ge => 0xD
  | .le => 0xE
  | .gt => 0xF

/-- The operand-size byte and the REX byte, where they are needed. -/
def leading (size : Nat) (r x b force : Bool) : List Byte :=
  let byte := rex (size == 8) r x b
  (if size = 2 then [0x66] else []) ++ if byte != 0x40 || force then [byte] else []

def dispBytes (d : BitVec 32) : List Byte := littleEndian 4 (d.signExtend 64)

/-- ModRM byte, SIB byte and displacement of an address. -/
def addressBytes (reg : Nat) (m : AddrMode) : List Byte :=
  match m.base with
  | none =>
    let sib := match m.index with
      | some r => fields (scaleBits m.scale) (low3 r.index) 5
      | none => fields 0 4 5
    [fields 0 reg 4, sib] ++ dispBytes m.disp
  | some base =>
    let low := low3 base.index
    let mode := if m.disp = 0 ∧ low ≠ 5 then 0 else if fitsByte (m.disp.signExtend 64) then 1 else 2
    (match m.index with
      | some r => [fields mode reg 4, fields (scaleBits m.scale) (low3 r.index) low]
      | none => if low = 4 then [fields mode reg 4, fields 0 4 4] else [fields mode reg low]) ++
    match mode with
    | 0 => []
    | 1 => littleEndian 1 (m.disp.signExtend 64)
    | _ => dispBytes m.disp

def outModRM (reg : Nat) (rm : Rm) : Emit Unit :=
  match rm with
  | .reg r _ => out [fields 3 reg (low3 r.index)]
  | .rip l => do
    out [fields 0 reg 5]
    outLabel l
  | .mem m =>
    if m.index.any (·.index == 4) then throw (.unsupported (.stackIndex m)) else out (addressBytes reg m)

/-- An instruction with a register field and a register-or-memory operand. -/
def inst (size : Nat) (opcode : List Byte) (field : RegField) (rm : Rm) : Emit Unit := do
  let (reg, forceReg) := match field with
    | .reg r s => (r.index, s == 1 && needsRexAsByte r.index)
    | .digit d => (d, false)
  let (x, b, forceRm) := match rm with
    | .reg r s => (false, high r.index, s == 1 && needsRexAsByte r.index)
    | .mem m => (m.index.any (high ·.index), m.base.any (high ·.index), false)
    | .rip _ => (false, false, false)
  out (leading size (high reg) x b (forceReg || forceRm))
  out opcode
  outModRM (low3 reg) rm

/-- An instruction with the register in its opcode. -/
def instPlus (size : Nat) (opcode : Nat) (r : HardReg) : Emit Unit := do
  out (leading size false false (high r.index) (size == 1 && needsRexAsByte r.index))
  out [.ofNat 8 (opcode + low3 r.index)]

/-- An immediate of the operand's size, at most four bytes. -/
def outImm (size : Nat) (v : BitVec 64) : Emit Unit :=
  match size with
  | 1 => out (littleEndian 1 v)
  | 2 => out (littleEndian 2 v)
  | _ => if fitsDword v then out (littleEndian 4 v) else throw (.fieldOverflow .immediate v.toInt)

/-! ## Instructions -/

/-- Addition, subtraction, bitwise operations and comparison, told apart by a digit. -/
def outAlu (digit size : Nat) (dst src : Operand) : Emit Unit := do
  let wide := if size = 1 then 0 else 1
  let rm ← rmOr dst size (.aluTarget dst)
  match dst, src with
  | _, .reg r => inst size [.ofNat 8 (8 * digit + wide)] (.reg r size) rm
  | .reg d, .mem m => inst size [.ofNat 8 (8 * digit + 2 + wide)] (.reg d size) (.mem m)
  | _, .imm v =>
    if size = 1 then
      inst size [0x80] (.digit digit) rm
      outImm 1 v
    else if fitsByte v then
      inst size [0x83] (.digit digit) rm
      outImm 1 v
    else
      inst size [0x81] (.digit digit) rm
      outImm size v
  | dst, src => throw (.unsupported (.aluOperands dst src))

def outTest (size : Nat) (a b : Operand) : Emit Unit := do
  let (a, b) := match a, b with
    | .reg r, .mem m => (Operand.mem m, Operand.reg r)
    | a, b => (a, b)
  let rm ← rmOr a size (.testTarget a)
  match b with
  | .reg r => inst size [if size = 1 then 0x84 else 0x85] (.reg r size) rm
  | .imm v =>
    inst size [if size = 1 then 0xF6 else 0xF7] (.digit 0) rm
    outImm size v
  | b => throw (.unsupported (.testOperands a b))

/-- A move. An eight-byte constant takes the shortest form that holds it. -/
def outMov (size : Nat) (dst src : Operand) : Emit Unit :=
  match dst, src with
  | .reg d, .reg s =>
    if d = s then pure () else inst size [if size = 1 then 0x88 else 0x89] (.reg s size) (.reg d size)
  | .mem m, .reg s => inst size [if size = 1 then 0x88 else 0x89] (.reg s size) (.mem m)
  | .reg d, .mem m => inst size [if size = 1 then 0x8A else 0x8B] (.reg d size) (.mem m)
  | .reg d, .imm v =>
    match size with
    | 1 => do
      instPlus 1 0xB0 d
      outImm 1 v
    | 2 | 4 => do
      instPlus size 0xB8 d
      outImm size v
    | _ =>
      if fitsDword v then do
        inst 8 [0xC7] (.digit 0) (.reg d 8)
        outImm 8 v
      else if (v.setWidth 32).setWidth 64 = v then do
        -- writing the low half of a register clears the upper half
        instPlus 4 0xB8 d
        out (littleEndian 4 v)
      else do
        instPlus 8 0xB8 d
        out (littleEndian 8 v)
  | .mem m, .imm v => do
    inst size [if size = 1 then 0xC6 else 0xC7] (.digit 0) (.mem m)
    outImm size v
  | .reg d, .label l => inst 8 [0x8D] (.reg d 8) (.rip l)
  | dst, src => throw (.unsupported (.mov dst src))

/-- A widening move, or a plain one if the target is not wider. -/
def outCast (dst : Operand) (k : Kind) (src : Expr) : Emit Unit := do
  let wide ← width k
  let size ← width src.kind
  match dst with
  | .reg d =>
    let s ← operand src
    if wide ≤ size then outMov wide dst s
    else
      let rm ← rmOr s size (.castFrom src)
      match size, src.kind.isSigned with
      | 1, false => inst wide [0x0F, 0xB6] (.reg d wide) rm
      | 1, true => inst wide [0x0F, 0xBE] (.reg d wide) rm
      | 2, false => inst wide [0x0F, 0xB7] (.reg d wide) rm
      | 2, true => inst wide [0x0F, 0xBF] (.reg d wide) rm
      | 4, true => inst 8 [0x63] (.reg d 8) rm
      | 4, false => inst 4 [0x8B] (.reg d 4) rm
      | _, _ => throw (.unsupported (.castKinds src.kind k))
  | dst => throw (.unsupported (.castInto dst))

def outMul (size : Nat) (dst src : Operand) : Emit Unit :=
  match dst with
  | .reg d =>
    if size = 1 then throw (.unsupported .byteMultiply)
    else
      match src with
      | .imm v =>
        if fitsByte v then do
          inst size [0x6B] (.reg d size) (.reg d size)
          outImm 1 v
        else do
          inst size [0x69] (.reg d size) (.reg d size)
          outImm size v
      | src => do inst size [0x0F, 0xAF] (.reg d size) (← rmOr src size (.mulBy src))
  | dst => throw (.unsupported (.mulInto dst))

/-- A shift by a constant or by `cl`. -/
def outShift (size digit : Nat) (dst count : Operand) : Emit Unit := do
  let rm ← rmOr dst size (.shiftOf dst)
  match count with
  | .imm n =>
    inst size [if size = 1 then 0xC0 else 0xC1] (.digit digit) rm
    outImm 1 n
  | .reg r =>
    if r = rcx then inst size [if size = 1 then 0xD2 else 0xD3] (.digit digit) rm
    else throw (.unsupported (.shiftCount count))
  | count => throw (.unsupported (.shiftCount count))

/-- Division of `rax`, extended into `rdx`. A remainder moves from there to `rax`. -/
def outDivide (isRem : Bool) (k : Kind) (dst src : Operand) : Emit Unit := do
  let size ← width k
  if dst ≠ .reg rax then throw (.unsupported (.divideInto dst))
  if size = 1 then throw (.unsupported .byteDivision)
  if src = .reg rax ∨ src = .reg rdx then throw (.unsupported (.divisor src))
  let rm ← rmOr src size (.divisor src)
  if k.isSigned then out (match size with | 2 => [0x66, 0x99] | 4 => [0x99] | _ => [0x48, 0x99])
  else out [0x31, 0xD2]
  inst size [0xF7] (.digit (if k.isSigned then 7 else 6)) rm
  if isRem then inst size [0x89] (.reg rdx size) (.reg rax size)

/-! ## Nodes -/

def outAssign (k : Kind) (x y : Expr) : Emit Unit := do
  let size ← width k
  let dst ← operand x
  match y with
  | .unary op ky z =>
    match op with
    | .lea =>
      match dst, ← operand z with
      | .reg d, .mem m => inst size [0x8D] (.reg d size) (.mem m)
      | _, _ => throw (.unsupported (.lea x y))
    | .neg | .inv =>
      if (← operand z) ≠ dst then throw (.unsupported (.otherOperand x y))
      let rm ← destination x size
      inst size [if size = 1 then 0xF6 else 0xF7] (.digit (if op = .neg then 3 else 2)) rm
    | .cast => outCast dst ky z
    | _ => throw (.unsupported (.assignment x y))
  | y => outMov size dst (← operand y)

def outUnary (op : UnaryOp) (k : Kind) (x : Expr) : Emit Unit :=
  match op with
  | .jump => do
    out [0xE9]
    outLabel (← jumpTarget x)
  | .jcc c => do
    out [0x0F, .ofNat 8 (0x80 + condCode c)]
    outLabel (← jumpTarget x)
  | .setcc c => do inst 1 [0x0F, .ofNat 8 (0x90 + condCode c)] (.digit 0) (← destination x 1)
  | .inc | .dec => do
    let size ← width k
    inst size [if size = 1 then 0xFE else 0xFF] (.digit (if op = .inc then 0 else 1)) (← destination x size)
  | .push | .pop => do
    match ← operand x with
    | .reg r => instPlus 4 (if op = .push then 0x50 else 0x58) r
    | _ => throw (.unsupported (.stackOperand op x))
  | .zero => do
    let size ← width k
    match ← operand x with
    | .reg r => inst 4 [0x31] (.reg r 4) (.reg r 4)
    | .mem m => outMov size (.mem m) (.imm 0)
    | _ => throw (.notAssignable x)
  | op => throw (.unsupported (.operation op))

/-- The digit of an operation in the group of `outAlu`. -/
def aluDigit : BinaryOp → Option Nat
  | .compound .add => some 0
  | .compound .or => some 1
  | .compound .and => some 4
  | .compound .sub => some 5
  | .compound .xor => some 6
  | .cmp => some 7
  | _ => none

def outBinary (op : BinaryOp) (k : Kind) (x y : Expr) : Emit Unit := do
  match aluDigit op with
  | some digit =>
    let size ← width x.kind
    outAlu digit size (← operand x) (← operand y)
  | none =>
    match op with
    | .assign => outAssign k x y
    | .test =>
      let size ← width x.kind
      outTest size (← operand x) (← operand y)
    | .compound .mul =>
      let size ← width k
      outMul size (← operand x) (← operand y)
    | .compound .shl =>
      let size ← width k
      outShift size 4 (← operand x) (← operand y)
    | .compound .shr =>
      let size ← width k
      outShift size (if k.isSigned then 7 else 5) (← operand x) (← operand y)
    | .compound .quo => outDivide false k (← operand x) (← operand y)
    | .compound .rem => outDivide true k (← operand x) (← operand y)
    | op => throw (.unsupported (.operation op))

/-- The bytes of an instruction. -/
def instruction (e : Expr) : Emit Unit :=
  match e with
  | .unary op k x => outUnary op k x
  | .binary op k x y => outBinary op k x y
  | .ret [] => out [0xC3]
  | .call callee _ _ [] => do
    out [0xE8]
    outLabel callee
  | e => throw (.unsupported (.node e))

def Piece.emit : Piece → Assemble Unit
  | byte b => Assemble.emit [b]
  | rel32 l => Assemble.emitRel32 l

/-- Appends an instruction to the buffer, or binds a label. -/
def encode (e : Expr) : Assemble Unit := do
  let start := (← get).code.size
  match e with
  | .label l => Assemble.bind l
  | e =>
    let (result, pieces) := (instruction e).run []
    pieces.forM Piece.emit
    match result with
    | .ok () => pure ()
    | .error err => throw err
  note (.encoded start e ((← get).code.toList.drop start))

/-- Appends an item of a function with a frame of `frame` bytes. -/
def encodeItem (frame : Nat) (i : Item) : Assemble Unit :=
  match i.instruction frame with
  | .ok e => encode e
  | .error op => throw (.unsupported (.operation op))

end JitBackend.Amd64
