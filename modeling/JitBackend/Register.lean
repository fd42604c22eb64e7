import JitBackend.Kind

/-!
# Registers and addresses

A hard register belongs to a machine; a soft register is a variable of a function that allocation gives a place. An
`AddrMode` is the address `base + index * scale + disp` over hard registers.
-/

namespace JitBackend

/-- A machine, by its number. -/
structure ArchId where
  id : Nat
  deriving DecidableEq, Repr

def ArchId.amd64 : ArchId := ⟨1⟩

def ArchId.text (a : ArchId) : String := if a = .amd64 then "amd64" else "arch" ++ toString a.id

structure HardReg where
  arch : ArchId
  index : Nat
  deriving DecidableEq, Repr

def HardReg.text (r : HardReg) : String := r.arch.text ++ ":" ++ toString r.index

inductive RegId
  | soft (id : Nat) | hard (r : HardReg)
  deriving DecidableEq, Repr

namespace RegId

/-- The number of the first soft register of a function; hard registers are numbered below it. -/
def firstSoft : Nat := 256

def isSoft : RegId → Bool
  | soft _ => true
  | hard _ => false

def raw : RegId → Nat
  | soft id => id
  | hard r => r.index

def hard? : RegId → Option HardReg
  | soft _ => none
  | hard r => some r

def text : RegId → String
  | soft id => "s" ++ toString id
  | hard r => r.text

end RegId

/-- A reference to a register, read at a kind. -/
structure Reg where
  kind : Kind
  id : RegId
  readOnly : Bool := false
  deriving DecidableEq, Repr

def Reg.hard (k : Kind) (r : HardReg) : Reg := ⟨k, .hard r, false⟩

/-- The factor of an index register. -/
inductive Scale
  | one | two | four | eight
  deriving DecidableEq, Repr

namespace Scale

def toNat : Scale → Nat
  | one => 1
  | two => 2
  | four => 4
  | eight => 8

def ofInt? : Int → Option Scale
  | 1 => some one
  | 2 => some two
  | 4 => some four
  | 8 => some eight
  | _ => none

end Scale

structure AddrMode where
  base : Option HardReg
  index : Option HardReg
  scale : Scale := .one
  disp : BitVec 32 := 0
  deriving DecidableEq, Repr

namespace AddrMode

def ofBase (base : HardReg) (disp : BitVec 32) : AddrMode := ⟨some base, none, .one, disp⟩

/-- Whether the address depends on `r`. -/
def uses (m : AddrMode) (r : HardReg) : Bool := m.base == some r || m.index == some r

def text (m : AddrMode) : String :=
  let registers := (m.base.map HardReg.text).toList ++
    (m.index.map fun r => r.text ++ "*" ++ toString m.scale.toNat).toList
  let parts := if m.disp != 0 || registers.isEmpty then registers ++ [toString m.disp.toInt] else registers
  "[" ++ " + ".intercalate parts ++ "]"

end AddrMode

end JitBackend
