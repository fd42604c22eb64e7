/-!
# Kinds of values

Every node of an expression carries one `Kind`: its size in bytes and the category that decides which operations
accept it. Pointers are eight bytes wide here; the pointer width of a target is a property of the target.
-/

namespace JitBackend

inductive Kind
  | void | bool | int8 | int16 | int32 | int64 | uint8 | uint16 | uint32 | uint64
  | float32 | float64 | complex64 | complex128 | ptr
  deriving DecidableEq, Repr

namespace Kind

/-- All kinds, from the empty one to the pointer. -/
def all : List Kind :=
  [void, bool, int8, int16, int32, int64, uint8, uint16, uint32, uint64, float32, float64, complex64, complex128, ptr]

/-- Size in bytes. -/
def size : Kind → Nat
  | void => 0
  | bool | int8 | uint8 => 1
  | int16 | uint16 => 2
  | int32 | uint32 | float32 => 4
  | int64 | uint64 | float64 | complex64 | ptr => 8
  | complex128 => 16

def bits (k : Kind) : Nat := 8 * k.size

def isSigned : Kind → Bool
  | int8 | int16 | int32 | int64 => true
  | _ => false

def isUnsigned : Kind → Bool
  | uint8 | uint16 | uint32 | uint64 => true
  | _ => false

def isInteger (k : Kind) : Bool := k.isSigned || k.isUnsigned

def isFloat : Kind → Bool
  | float32 | float64 => true
  | _ => false

def isComplex : Kind → Bool
  | complex64 | complex128 => true
  | _ => false

def isPtr (k : Kind) : Bool := k == ptr

def isBool (k : Kind) : Bool := k == bool

def isVoid (k : Kind) : Bool := k == void

/-- Integers, floats and complex numbers. -/
def isNumber (k : Kind) : Bool := k.isInteger || k.isFloat || k.isComplex

/-- Kinds with an order: all numbers but the complex ones, and pointers. -/
def isOrdered (k : Kind) : Bool := k.isInteger || k.isFloat || k.isPtr

/-- Kinds that are compared and shifted as unsigned machine words. -/
def isUnsignedWord (k : Kind) : Bool := k.isUnsigned || k.isPtr || k.isBool

/-- Kinds with integer arithmetic in a general register. -/
def isWord (k : Kind) : Bool := k.isInteger || k.isPtr

/-- Kinds that a general register holds as an integer: words and truth values. -/
def isScalar (k : Kind) : Bool := k.isWord || k.isBool

/-- The integer kind of a given size and signedness. -/
def integer? (size : Nat) (signed : Bool) : Option Kind :=
  match size, signed with
  | 1, true => some int8
  | 2, true => some int16
  | 4, true => some int32
  | 8, true => some int64
  | 1, false => some uint8
  | 2, false => some uint16
  | 4, false => some uint32
  | 8, false => some uint64
  | _, _ => none

def name : Kind → String
  | void => "void"
  | bool => "bool"
  | int8 => "int8"
  | int16 => "int16"
  | int32 => "int32"
  | int64 => "int64"
  | uint8 => "uint8"
  | uint16 => "uint16"
  | uint32 => "uint32"
  | uint64 => "uint64"
  | float32 => "float32"
  | float64 => "float64"
  | complex64 => "complex64"
  | complex128 => "complex128"
  | ptr => "ptr"

/-- The names of several kinds, with commas between them. -/
def names (ks : List Kind) : String := ", ".intercalate (ks.map name)

end Kind

end JitBackend
