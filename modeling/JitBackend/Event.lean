import JitBackend.Error
import JitBackend.Item
import JitBackend.Location

/-!
# Events

What the stages of a compilation report while they run: a level and a text. `Report` is the monad of computations
that report events, oldest first; they keep what was reported before a failure.
-/

namespace JitBackend

inductive Level
  | warn | debug | trace
  deriving DecidableEq, Repr

def Level.name : Level → String
  | warn => "WARN"
  | debug => "DEBUG"
  | trace => "TRACE"

/-- Warnings are the most severe. -/
def Level.rank : Level → Nat
  | warn => 0
  | debug => 1
  | trace => 2

inductive Event
  | registered (target : String) (width : Width)
  | dropped (e : Expr)
  | flattened (func : String) (size labels : Nat)
  | spilled (id : Nat) (slot : Location)
  | evicted (id : Nat) (slot : Location) (heir : Nat) (reg : HardReg)
  | allocated (func : String) (count frame : Nat)
  | unlowered (target func : String)
  | selected (i : Item)
  | passedThrough (e : Expr)
  | lowered (func target : String) (before after frame : Nat)
  | patched (l : Label) (place target : Nat)
  | encoded (start : Nat) (e : Expr) (bytes : List (BitVec 8))
  | assembled (func : String) (size : Nat)
  | listed (func line : String)
  | objectWritten (symbol : String) (size : Nat)

namespace Event

def level : Event → Level
  | unlowered .. | passedThrough _ => .warn
  | registered .. | flattened .. | allocated .. | lowered .. | assembled .. | objectWritten .. => .debug
  | dropped _ | spilled .. | evicted .. | selected _ | patched .. | encoded .. | listed .. => .trace

def text : Event → String
  | registered t w => "registered architecture " ++ t ++ " (" ++ toString w.bits ++ "-bit)"
  | dropped e => "dropping effect-free " ++ e.text
  | flattened f n m => "compiled " ++ f ++ ": " ++ toString n ++ " expressions, " ++ toString m ++ " labels"
  | spilled id l => "spill s" ++ toString id ++ " to " ++ l.fields
  | evicted id l id' r =>
    "spill s" ++ toString id ++ " to " ++ l.fields ++ ", s" ++ toString id' ++ " takes " ++ r.text
  | allocated f n m => "allocated " ++ f ++ ": " ++ toString n ++ " registers, frame " ++ toString m ++ " bytes"
  | unlowered t f => "no lowering registered for " ++ t ++ ", passing " ++ f ++ " through unmodified"
  | selected i => "  " ++ i.text 0
  | passedThrough e => "amd64: no lowering for " ++ e.text ++ ", passing it through"
  | lowered f t n m s =>
    "lowered " ++ f ++ " for " ++ t ++ ": " ++ toString n ++ " -> " ++ toString m ++ " expressions, frame " ++
      toString s ++ " bytes"
  | patched l p t => "patch " ++ l.text ++ " at " ++ Text.hex p ++ " -> " ++ Text.hex t
  | encoded p e bs =>
    "0x" ++ Text.hexPad 4 p ++ " " ++ e.text ++ " -> [" ++
      ", ".intercalate (bs.map fun b => Text.hexPadUpper 2 b.toNat) ++ "]"
  | assembled f n => "assembled " ++ f ++ ": " ++ toString n ++ " bytes"
  | listed f l => f ++ ": " ++ l
  | objectWritten s n => "wrote object for " ++ s ++ ": " ++ toString n ++ " bytes"

end Event

abbrev Log := Array Event

/-- The records of a log at a level or more severe, each behind the name of its level. -/
def Log.records (log : Log) (level : Level) : List String :=
  (log.toList.filter fun e => e.level.rank ≤ level.rank).map fun e => e.level.name ++ " " ++ e.text

abbrev Report := StateM Log

/-- A stage that reports and may fail. -/
abbrev Stage := ExceptT Error Report

def note (e : Event) : Report Unit := modify (·.push e)

end JitBackend
