import JitBackend.Event
import JitBackend.Func

/-!
# Flattened functions

A flattened function is a sequence of labels, jumps and other expressions with an effect. `Func.flatten` makes one
from the statements of a function:

* a branch jumps to its `else` label unless the condition holds, and from the end of its `then` part to its end;
* a loop starts with its initial statement, jumps to its test, and jumps from the test to its top while the condition
  holds; leaving it jumps behind it, continuing it jumps to its test;
* an expression without an effect is dropped.
-/

namespace JitBackend

structure Flat where
  func : Func
  code : Array Expr

namespace Flat

/-- Appends an expression for its effect. -/
def add (f : Flat) (e : Expr) : Report Flat :=
  if e.isEffectFree then do note (.dropped e); return f else return { f with code := f.code.push e }

def newLabel (f : Flat) : Label × Flat :=
  ((f.func.newLabel none).1, { f with func := (f.func.newLabel none).2 })

/-- A heading, and the expressions one a line. -/
def text (f : Flat) : String :=
  "func " ++ f.func.name ++ f.func.sig.text ++ "\n" ++ String.join (f.code.toList.map fun e => (Item.instr e).line 0)

end Flat

/-- Where the statements of a loop's body jump to leave and to continue it. -/
structure LoopLabels where
  exit : Label
  test : Label

def LoopLabels.target (l : LoopLabels) : LoopExit → Label
  | .brk => l.exit
  | .cont => l.test

/-- Computations that extend a flattened function. -/
abbrev Flatten := StateT Flat Stage

namespace Flatten

def add (e : Expr) : Flatten Unit := do set (← (← get).add e : Flat)

def newLabel : Flatten Label := modifyGet Flat.newLabel

end Flatten

namespace Stmt

open Flatten in
mutual
/-- Appends the code of a statement inside the loop `around`, if there is one. -/
def flatten (around : Option LoopLabels) : Stmt → Flatten Unit
  | block list => flattenL around list
  | expr e => add e
  | ite c t e => do
    let other ← newLabel
    let done ← newLabel
    add (← Expr.mkJumpIf other (← Expr.mkUnary .lnot c))
    flatten around t
    add (.jumpTo done)
    add (.label other)
    flattenO around e
    add (.label done)
  | loop i c p b => do
    let top ← newLabel
    let test ← newLabel
    let exit ← newLabel
    flattenO around i
    add (.jumpTo test)
    add (.label top)
    flatten (some ⟨exit, test⟩) b
    flattenO (some ⟨exit, test⟩) p
    add (.label test)
    add (← Expr.mkJumpIf top (c.getD (.const (Const.bool true))))
    add (.label exit)
  | exit e =>
    match around with
    | some l => add (.jumpTo (l.target e))
    | none => throw (.outsideLoop e)
def flattenL (around : Option LoopLabels) : List Stmt → Flatten Unit
  | [] => pure ()
  | s :: ss => do flatten around s; flattenL around ss
def flattenO (around : Option LoopLabels) : Option Stmt → Flatten Unit
  | none => pure ()
  | some s => flatten around s
end

end Stmt

/-- The flattened form of a function; its statements move into the code. -/
def Func.flatten (f : Func) : Stage Flat := do
  let (_, flat) ← (Stmt.flattenL none f.source).run ⟨{ f with source := [] }, #[]⟩
  note (.flattened f.name flat.code.size flat.func.labels.size)
  return flat

end JitBackend
