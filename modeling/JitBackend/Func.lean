import JitBackend.Stmt

/-!
# Functions

A function under construction: its signature, its soft registers (the parameters first), its labels and its
statements. A return that disagrees with the signature is refused when its statement is added.
-/

namespace JitBackend

structure Func where
  name : String
  sig : Signature
  regs : List Reg
  labels : LabelPool
  source : List Stmt

namespace Func

/-- The soft register at position `i`. -/
def softReg (i : Nat) (k : Kind) : Reg := ⟨k, .soft (RegId.firstSoft + i), false⟩

/-- A function with a soft register for each parameter. -/
def empty (name : String) (sig : Signature) : Func :=
  ⟨name, sig, sig.params.mapIdx softReg, {}, []⟩

def newReg (f : Func) (k : Kind) : Reg × Func :=
  (softReg f.regs.length k, { f with regs := f.regs ++ [softReg f.regs.length k] })

def newLabel (f : Func) (name : Option String) : Label × Func :=
  ((f.labels.fresh name).1, { f with labels := (f.labels.fresh name).2 })

/-- The registers of the parameters. -/
def params (f : Func) : List Reg := f.regs.take f.sig.params.length

/-- The register of a parameter. -/
def arg (f : Func) (i : Nat) : Except Error Expr :=
  match f.params[i]? with
  | some r => .ok (.reg r)
  | none => .error (.indexOutOfRange .arguments i f.sig.params.length)

/-- Whether a return agrees with the results of the signature. -/
def checkReturn (sig : Signature) : Expr → Except Error Unit
  | .ret vs =>
    if vs.length ≠ sig.results.length then .error (.signatureMismatch (.valueCount vs.length sig.results.length))
    else
      match Expr.kindMismatch (vs.map Expr.kind) sig.results with
      | some (i, g, w) => .error (.signatureMismatch (.valueKind i g w))
      | none => .ok ()
  | _ => .ok ()

/-- Adds a statement, whose returns must agree with the signature. -/
def addStmt (f : Func) (s : Stmt) : Except Error Func := do
  s.exprs.forM (checkReturn f.sig)
  return { f with source := f.source ++ [s] }

end Func

end JitBackend
