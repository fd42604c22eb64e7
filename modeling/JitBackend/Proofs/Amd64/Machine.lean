import JitBackend.Amd64.Encode
import JitBackend.Proofs.Words

/-!
# A machine for selected code

Registers, bytes and flags, and what the selected instructions do to them. An expression of selected code denotes the
instructions that the encoder writes for it (`denote`): an operation takes its size from its node or from its left
operand, a move of a register to itself is none, zero in a register is an exclusive or, and a division comes with the
extension of `rax` into `rdx`. A write of four bytes to a register clears the upper half; a write of one or two bytes
keeps the rest. Arithmetic leaves the flags unknown, since only comparisons are made for them.
-/

namespace JitBackend

/-- The registers of an address. -/
def AddrMode.regs (m : AddrMode) : List HardReg := m.base.toList ++ m.index.toList

namespace Amd64

/-- The general registers, which an operand can name. -/
def IsGpr (h : HardReg) : Prop := h.arch = .amd64 ∧ h.index ≤ 15

instance (h : HardReg) : Decidable (IsGpr h) := inferInstanceAs (Decidable (_ ∧ _))

structure Flags where
  zero : Bool
  carry : Bool
  sign : Bool
  overflow : Bool

/-- The flags of a subtraction of `n` bytes. -/
def Flags.ofSub (n : Nat) (a b : Word) : Flags where
  zero := low n (a - b) == 0
  carry := (low n a).toNat < (low n b).toNat
  sign := (sext n (a - b)).toInt < 0
  overflow := (sext n (a - b)).toInt != (sext n a).toInt - (sext n b).toInt

/-- The flags of a conjunction of `n` bytes. -/
def Flags.ofAnd (n : Nat) (a b : Word) : Flags where
  zero := low n (a &&& b) == 0
  carry := false
  sign := (sext n (a &&& b)).toInt < 0
  overflow := false

/-- Whether a condition holds of the flags. -/
def Flags.holds (f : Flags) : Cond → Bool
  | .eq => f.zero
  | .ne => !f.zero
  | .ult => f.carry
  | .uge => !f.carry
  | .ule => f.carry || f.zero
  | .ugt => !(f.carry || f.zero)
  | .lt => f.sign != f.overflow
  | .ge => f.sign == f.overflow
  | .le => f.zero || f.sign != f.overflow
  | .gt => !f.zero && f.sign == f.overflow

structure Machine where
  regs : HardReg → Word
  mem : Memory
  flags : Option Flags

namespace Machine

def term (m : Machine) (r : Option HardReg) : Word := (r.map m.regs).getD 0

/-- The address that an operand names. -/
def address (m : Machine) (a : AddrMode) : Word :=
  m.term a.base + m.term a.index * .ofNat 64 a.scale.toNat + a.disp.signExtend 64

/-- The `n` low bytes of an operand. -/
def read (m : Machine) (n : Nat) : Operand → Option Word
  | .reg r => some (low n (m.regs r))
  | .mem a => some (m.mem.read (m.address a) n)
  | .imm v => some (low n v)
  | .label _ => none

/-- A register after a write of `n` bytes over the word `old`. -/
def splice (n : Nat) (old w : Word) : Word := if 4 ≤ n then low n w else (old &&& ~~~low n (-1)) ||| low n w

def setReg (m : Machine) (n : Nat) (r : HardReg) (w : Word) : Machine :=
  { m with regs := Function.update m.regs r (splice n (m.regs r) w) }

/-- Writes `n` bytes to an operand. -/
def write (m : Machine) (n : Nat) (dst : Operand) (w : Word) : Option Machine :=
  match dst with
  | .reg r => some (m.setReg n r w)
  | .mem a => some { m with mem := m.mem.write (m.address a) n w }
  | _ => none

end Machine

/-! ## Instructions -/

inductive AluOp
  | add | sub | and | or | xor
  deriving DecidableEq, Repr

def AluOp.apply (op : AluOp) (a b : Word) : Word :=
  match op with
  | add => a + b
  | sub => a - b
  | and => a &&& b
  | or => a ||| b
  | xor => a ^^^ b

inductive ShiftOp
  | shl | shr | sar
  deriving DecidableEq, Repr

/-- A shift of `n` bytes; the machine takes the count modulo the width of a register. -/
def ShiftOp.apply (op : ShiftOp) (n : Nat) (a count : Word) : Word :=
  let c := (low 1 count).toNat % (if n = 8 then 64 else 32)
  match op with
  | shl => a <<< c
  | shr => low n a >>> c
  | sar => (sext n a).sshiftRight c

inductive Instr
  | mov (n : Nat) (dst src : Operand)
  | lea (n : Nat) (dst : HardReg) (a : AddrMode)
  | extend (n : Nat) (dst : HardReg) (from_ : Nat) (signed : Bool) (src : Operand)
  | alu (op : AluOp) (n : Nat) (dst src : Operand)
  | inc (n : Nat) (dst : Operand)
  | dec (n : Nat) (dst : Operand)
  | neg (n : Nat) (dst : Operand)
  | inv (n : Nat) (dst : Operand)
  | mul (n : Nat) (dst : HardReg) (src : Operand)
  | shift (op : ShiftOp) (n : Nat) (dst count : Operand)
  | extendRax (n : Nat)
  | div (n : Nat) (signed : Bool) (src : Operand)
  | cmp (n : Nat) (a b : Operand)
  | test (n : Nat) (a b : Operand)
  | setcc (c : Cond) (dst : Operand)
  | push (r : HardReg)
  | pop (r : HardReg)

namespace Machine

/-- Quotient and remainder of `rdx` and `rax` taken together. A zero divisor and a quotient that does not fit fault. -/
def divide (m : Machine) (n : Nat) (signed : Bool) (v : Word) : Option Machine :=
  let high := m.regs rdx
  let lo := (low n (m.regs rax)).toNat
  let (q, r) :=
    if signed then
      let d := (sext n high).toInt * 2 ^ (8 * n) + lo
      (d.tdiv (sext n v).toInt, d.tmod (sext n v).toInt)
    else
      let d := (low n high).toNat * 2 ^ (8 * n) + lo
      ((d / (low n v).toNat : Nat), (d % (low n v).toNat : Nat))
  let fits := if signed then (sext n (.ofInt 64 q)).toInt = q else ((low n (.ofInt 64 q)).toNat : Int) = q
  if low n v ≠ 0 ∧ fits then
    some { (m.setReg n rax (.ofInt 64 q)).setReg n rdx (.ofInt 64 r) with flags := none }
  else none

end Machine

/-- The machine after an instruction; `none` is a fault. -/
def Instr.exec (i : Instr) (m : Machine) : Option Machine :=
  match i with
  | mov n dst src => do m.write n dst (← m.read n src)
  | lea n dst a => some (m.setReg n dst (m.address a))
  | extend n dst g signed src => do
    let w ← m.read g src
    some (m.setReg n dst (if signed then sext g w else w))
  | alu op n dst src => do
    let m' ← m.write n dst (op.apply (← m.read n dst) (← m.read n src))
    some { m' with flags := none }
  | inc n dst => do
    let m' ← m.write n dst ((← m.read n dst) + 1)
    some { m' with flags := none }
  | dec n dst => do
    let m' ← m.write n dst ((← m.read n dst) - 1)
    some { m' with flags := none }
  | neg n dst => do
    let m' ← m.write n dst (-(← m.read n dst))
    some { m' with flags := none }
  | inv n dst => do m.write n dst (~~~(← m.read n dst))
  | mul n dst src => do some { m.setReg n dst (m.regs dst * (← m.read n src)) with flags := none }
  | shift op n dst count => do
    let m' ← m.write n dst (op.apply n (← m.read n dst) (← m.read 1 count))
    some { m' with flags := none }
  | extendRax n => some (m.setReg n rdx (if (sext n (m.regs rax)).toInt < 0 then -1 else 0))
  | div n signed src => do m.divide n signed (← m.read n src)
  | cmp n a b => do some { m with flags := some (Flags.ofSub n (← m.read n a) (← m.read n b)) }
  | test n a b => do some { m with flags := some (Flags.ofAnd n (← m.read n a) (← m.read n b)) }
  | setcc c dst => do
    let f ← m.flags
    m.write 1 dst (if f.holds c then 1 else 0)
  | push r =>
    let sp := m.regs rsp - 8
    some { m.setReg 8 rsp sp with mem := m.mem.write sp 8 (m.regs r) }
  | pop r => some ((m.setReg 8 rsp (m.regs rsp + 8)).setReg 8 r (m.mem.read (m.regs rsp) 8))

def operand? (e : Expr) : Option Operand := (operand e).toOption

def size? (k : Kind) : Option Nat := (width k).toOption

theorem size_of_size? {k : Kind} {n : Nat} (h : size? k = some n) : n = k.size ∧ n ≤ 8 := by
  unfold size? width at h
  split at h
  · cases h
    exact ⟨rfl, by omega⟩
  · cases h

/-- Whether an immediate can stand in an instruction of `n` bytes. -/
def fitsOperand (n : Nat) : Operand → Bool
  | .imm v => n != 8 || fitsDword v
  | .label _ => false
  | _ => true

/-- Whether two operands can stand in an instruction of `n` bytes: the left one is a place, and one of them at most is
in memory. -/
def fitsPair (n : Nat) : Operand → Operand → Bool
  | .reg _, b => fitsOperand n b
  | .mem _, .mem _ => false
  | .mem _, b => fitsOperand n b
  | _, _ => false

/-- The size of a `lea`. There is none of one byte; the encoder writes the one of four bytes for it. -/
def leaSize (n : Nat) : Nat := if n = 1 then 4 else n

/-- The instructions of an assignment. -/
def denoteAssign (k : Kind) (x y : Expr) : Option (List Instr) := do
  let dst ← operand? x
  match y with
  | .unary .lea _ z => do
    match dst, ← operand? z with
    | .reg r, .mem a => some [.lea (leaSize (← size? k)) r a]
    | _, _ => none
  | .unary .neg _ z => if operand? z = some dst then some [.neg (← size? k) dst] else none
  | .unary .inv _ z => if operand? z = some dst then some [.inv (← size? k) dst] else none
  | .unary .cast kz z => do
    let n ← size? kz
    let g ← size? z.kind
    let src ← operand? z
    match dst with
    | .reg r =>
      if g < n then some [.extend n r g z.kind.isSigned src]
      else if dst = src then some []
      else some [.mov n dst src]
    | _ => none
  | y => do
    let src ← operand? y
    if dst = src then some []
    else
      match dst, src with
      | .reg _, .label _ | .mem _, .mem _ | .mem _, .label _ => none
      | .mem _, .imm v => if (← size? k) = 8 ∧ !fitsDword v then none else some [.mov (← size? k) dst src]
      | _, _ => some [.mov (← size? k) dst src]

/-- The instructions of a compound assignment. -/
def denoteCompound (op : ArithOp) (k : Kind) (x y : Expr) : Option (List Instr) := do
  let dst ← operand? x
  let src ← operand? y
  let alu (op : AluOp) : Option (List Instr) := do
    let n ← size? x.kind
    if fitsPair n dst src then some [.alu op n dst src] else none
  let shift (op : ShiftOp) : Option (List Instr) := do
    match src with
    | .imm _ => some [.shift op (← size? k) dst src]
    | .reg r => if r = rcx then some [.shift op (← size? k) dst src] else none
    | _ => none
  let divide (rest : Nat → List Instr) : Option (List Instr) := do
    let n ← size? k
    if n = 1 ∨ dst ≠ .reg rax ∨ src = .reg rax ∨ src = .reg rdx then none
    else
      match src with
      | .reg _ | .mem _ =>
        some ([if k.isSigned then .extendRax n else .alu .xor 4 (.reg rdx) (.reg rdx), .div n k.isSigned src] ++ rest n)
      | _ => none
  match op with
  | .add => alu .add
  | .sub => alu .sub
  | .and => alu .and
  | .or => alu .or
  | .xor => alu .xor
  | .mul => do
    let n ← size? k
    match dst with
    | .reg r => if n ≠ 1 ∧ fitsOperand n src then some [.mul n r src] else none
    | _ => none
  | .shl => shift .shl
  | .shr => shift (if k.isSigned then .sar else .shr)
  | .quo => divide fun _ => []
  | .rem => divide fun n => [.mov n (.reg rax) (.reg rdx)]
  | .andNot => none

/-- The instructions that an expression of selected code stands for, apart from labels and jumps. A register is cleared by
an `xor` of four bytes, whatever the size of the node: a write of four bytes clears the rest of the register. So is `rdx`
before a division without sign. The address of a label, which is not among these instructions, is a `lea` of eight bytes. -/
def denote : Expr → Option (List Instr)
  | .binary .assign k x y => denoteAssign k x y
  | .binary (.compound op) k x y => denoteCompound op k x y
  | .binary .cmp _ x y => do
    let n ← size? x.kind
    let a ← operand? x
    let b ← operand? y
    if fitsPair n a b then some [.cmp n a b] else none
  | .binary .test _ x y => do
    let n ← size? x.kind
    let a ← operand? x
    let b ← operand? y
    -- the order of the operands does not matter, and only the first one can be in memory
    match a, b with
    | .reg _, .mem _ => some [.test n b a]
    | _, _ => if fitsPair n a b then some [.test n a b] else none
  | .unary op k x => do
    let dst ← operand? x
    match op, dst with
    | .inc, .reg _ | .inc, .mem _ => some [.inc (← size? k) dst]
    | .dec, .reg _ | .dec, .mem _ => some [.dec (← size? k) dst]
    | .zero, .reg _ => some [.alu .xor 4 dst dst]
    | .zero, .mem _ => some [.mov (← size? k) dst (.imm 0)]
    | .setcc c, .reg _ | .setcc c, .mem _ => some [.setcc c dst]
    | .push, .reg r => some [.push r]
    | .pop, .reg r => some [.pop r]
    | _, _ => none
  | _ => none

/-! ## Runs -/

/-- A run is at its next instruction, on its way to a label further on, or has failed. -/
inductive Status
  | at (m : Machine) | seek (l : Label) (m : Machine) | fault

/-- One expression of selected code. -/
def step (e : Expr) : Status → Status
  | .fault => .fault
  | .seek l m => if e = .label l then .at m else .seek l m
  | .at m =>
    match e with
    | .label _ => .at m
    | .unary .jump _ (.label l) => .seek l m
    | .unary (.jcc c) _ (.label l) =>
      match m.flags with
      | some f => if f.holds c then .seek l m else .at m
      | none => .fault
    | e =>
      match (denote e).bind fun is => is.foldlM (fun m i => i.exec m) m with
      | some m => .at m
      | none => .fault

def exec (code : List Expr) (q : Status) : Status := code.foldl (fun q e => step e q) q

/-! ## Immediates -/

theorem immediate_eq {c : Const} (hc : c.kind.isScalar = true) : immediate c = .ok (sext c.kind.size c.re) := by
  unfold immediate
  rw [Kind.not_isComplex_of_isScalar hc, if_neg (by simp)]
  rcases Kind.size_of_isScalar hc with h | h | h | h <;> rw [h]
  · rfl
  · rfl
  · rfl
  · simp [sext_eight]

theorem fitsDword_sext {n : Nat} (h : n ≤ 4) (w : Word) : fitsDword (sext n w) = true := by
  have hcut : (sext n w).setWidth 32 = (w.setWidth (8 * n)).signExtend 32 := by
    apply BitVec.eq_of_getLsbD_eq
    intro i hi
    simp only [sext, BitVec.getLsbD_setWidth, BitVec.getLsbD_signExtend, hi, show i < 64 by omega, decide_true,
      Bool.true_and]
  rw [fitsDword, beq_iff_eq, hcut]
  apply BitVec.eq_of_toInt_eq
  rw [BitVec.toInt_signExtend_of_le (by omega), BitVec.toInt_signExtend_of_le (by omega), sext,
    BitVec.toInt_signExtend_of_le (by omega)]

theorem fitsDword_of_fitsImmediate {c : Const} (hc : c.kind.isScalar = true) (h : c.fitsImmediate = true) :
    fitsDword (sext c.kind.size c.re) = true := by
  by_cases h4 : c.kind.size ≤ 4
  · exact fitsDword_sext h4 c.re
  · have h8 : c.kind.size = 8 := by
      have := Kind.size_of_isScalar hc
      omega
    rw [h8, sext_eight]
    simpa [Const.fitsImmediate, h8, fitsDword] using h

end Amd64

end JitBackend
