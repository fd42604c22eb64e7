import JitBackend.Expr.Basic
import JitBackend.Operand

/-!
# Errors

The reasons why a construction, a compilation or an encoding fails, and the one place that words them.
-/

namespace JitBackend

/-- The width of a pointer. -/
inductive Width
  | w32 | w64
  deriving DecidableEq, Repr

def Width.bits : Width → Nat
  | w32 => 32
  | w64 => 64

/-- What an index counts. -/
inductive Sequence
  | expression | arguments
  deriving DecidableEq, Repr

def Sequence.text : Sequence → String
  | expression => "expression"
  | arguments => "arguments"

/-- A field of fixed size that a value may not fit. -/
inductive Field
  | addressScale | addressDisplacement | stackTemporary | immediate | jumpDisplacement
  deriving DecidableEq, Repr

def Field.text : Field → String
  | addressScale => "address scale"
  | addressDisplacement => "address displacement"
  | stackTemporary => "stack temporary offset"
  | immediate => "immediate"
  | jumpDisplacement => "jump displacement"

def Field.bits : Field → Nat
  | addressScale => 2
  | _ => 32

/-- The two statements that need a loop around them. -/
inductive LoopExit
  | brk | cont
  deriving DecidableEq, Repr

def LoopExit.text : LoopExit → String
  | brk => "break"
  | cont => "continue"

/-- How a call or a return disagrees with a signature. -/
inductive Mismatch
  | argumentCount (given want : Nat)
  | argumentKind (index : Nat) (given want : Kind)
  | manyResults (count : Nat)
  | valueCount (given want : Nat)
  | valueKind (index : Nat) (given want : Kind)
  deriving DecidableEq, Repr

def Mismatch.text : Mismatch → String
  | argumentCount g w => "call passes " ++ toString g ++ " arguments, signature takes " ++ toString w
  | argumentKind i g w => "argument " ++ toString i ++ " is " ++ g.name ++ ", signature wants " ++ w.name
  | manyResults n => "call expression cannot yield " ++ toString n ++ " results"
  | valueCount g w => "return passes " ++ toString g ++ " values, signature declares " ++ toString w
  | valueKind i g w => "result " ++ toString i ++ " is " ++ g.name ++ ", signature declares " ++ w.name

/-- What a temporary was wanted for. -/
inductive Purpose
  | note (s : String) | value (e : Expr) | frame (op : Op)

def Purpose.text : Purpose → String
  | note s => s
  | value e => e.text
  | frame op => op.text

/-- What has no encoding. -/
inductive Refusal
  | width (k : Kind) | immediate (c : Const) | register (r : HardReg) | unresolved (e : Expr) | operand (e : Expr)
  | jumpTarget (e : Expr) | node (e : Expr) | operation (o : Op) | stackOperand (o : UnaryOp) (x : Expr)
  | assignment (x y : Expr) | otherOperand (x y : Expr) | lea (x y : Expr) | stackIndex (m : AddrMode)
  | aluTarget (d : Operand) | aluOperands (d s : Operand) | testTarget (a : Operand) | testOperands (a b : Operand)
  | mov (d s : Operand) | castInto (d : Operand) | castFrom (e : Expr) | castKinds (g t : Kind)
  | mulInto (d : Operand) | byteMultiply | mulBy (s : Operand) | shiftOf (d : Operand) | shiftCount (c : Operand)
  | divideInto (d : Operand) | byteDivision | divisor (s : Operand)
  | assembly (target : String) | allocation (target : String)

def Refusal.text : Refusal → String
  | width k => toString k.size ++ "-byte operand (" ++ k.name ++ ")"
  | immediate c => "immediate " ++ c.text
  | register r => "register " ++ r.text
  | unresolved e => "unresolved address in " ++ e.text
  | operand e => "operand " ++ e.text
  | jumpTarget e => "jump target " ++ e.text
  | node e => "amd64 encoding of " ++ e.text
  | operation o => "amd64 encoding of " ++ o.text
  | stackOperand o x => "amd64 encoding of " ++ o.text ++ " " ++ x.text
  | assignment x y => "amd64 encoding of " ++ x.text ++ " = " ++ y.text
  | otherOperand x y => x.text ++ " = " ++ y.text
  | lea x y => "lea " ++ x.text ++ ", " ++ y.text
  | stackIndex m => "rsp as index in " ++ m.text
  | aluTarget d => "alu destination " ++ d.text
  | aluOperands d s => "alu operands " ++ d.text ++ ", " ++ s.text
  | testTarget a => "test operand " ++ a.text
  | testOperands a b => "test operands " ++ a.text ++ ", " ++ b.text
  | mov d s => "mov " ++ d.text ++ ", " ++ s.text
  | castInto d => "cast into " ++ d.text
  | castFrom e => "cast from " ++ e.text
  | castKinds g t => "cast " ++ g.name ++ " to " ++ t.name
  | mulInto d => "imul into " ++ d.text
  | byteMultiply => "8-bit multiply"
  | mulBy s => "imul by " ++ s.text
  | shiftOf d => "shift of " ++ d.text
  | shiftCount c => "shift count " ++ c.text
  | divideInto d => "division into " ++ d.text
  | byteDivision => "8-bit division"
  | divisor s => "divisor " ++ s.text
  | assembly t => "assembly for " ++ t
  | allocation t => "register allocation for " ++ t

inductive Error
  | invalidOp (op : Op) (kinds : List Kind)
  | notAssignable (operand : Expr)
  | indexOutOfRange (what : Sequence) (index len : Nat)
  | invalidAddress (kind addr : Kind)
  | divisionByZero (kind : Kind)
  | negativeShift (count : Int)
  | unallocatedRegister (id : Nat)
  | fieldOverflow (field : Field) (value : Int)
  | widthMismatch (target : String) (expected actual : Width)
  | unknownArch (id : ArchId)
  | duplicateArch (target : String)
  | outsideLoop (stmt : LoopExit)
  | signatureMismatch (reason : Mismatch)
  | labelRedefined (l : Label)
  | unresolvedLabel (l : Label)
  | scratchExhausted (purpose : Purpose)
  | unsupported (what : Refusal)
  | noObjectFormat (target : String)

def Error.message : Error → String
  | invalidOp op ks => "invalid operation: " ++ op.text ++ " " ++ Kind.names ks
  | notAssignable e => "cannot assign to " ++ e.text ++ ": operand is read-only or not addressable"
  | indexOutOfRange w i n =>
    "index " ++ toString i ++ " out of range for " ++ w.text ++ " with " ++ toString n ++ " elements"
  | invalidAddress k a => "memory operand of kind " ++ k.name ++ " needs a pointer address, got " ++ a.name
  | divisionByZero k => "integer division by zero in constant " ++ k.name ++ " expression"
  | negativeShift n => "negative shift count " ++ toString n
  | unallocatedRegister id => "soft register s" ++ toString id ++ " was not allocated"
  | fieldOverflow f v => f.text ++ " " ++ toString v ++ " does not fit in a " ++ toString f.bits ++ "-bit field"
  | widthMismatch t e a =>
    "architecture " ++ t ++ " expects " ++ toString e.bits ++ "-bit pointers, context is configured for " ++
      toString a.bits ++ "-bit"
  | unknownArch a => "unknown architecture id " ++ toString a.id
  | duplicateArch t => "architecture " ++ t ++ " is already registered"
  | outsideLoop s => s.text ++ " outside of loop"
  | signatureMismatch m => "signature mismatch: " ++ m.text
  | labelRedefined l => "label " ++ l.text ++ " bound twice"
  | unresolvedLabel l => "label " ++ l.text ++ " referenced but never bound"
  | scratchExhausted p => "out of scratch registers while lowering " ++ p.text
  | unsupported w => "cannot encode " ++ w.text
  | noObjectFormat t => "object emission failed: no object format known for " ++ t

end JitBackend
