import JitBackend.Buffer
import JitBackend.Frame

/-!
# Targets

A target is a machine with its registers and, as far as it has them, instruction selection, the entry of a function
and an assembler. A registry holds the known targets, each under its own number.
-/

namespace JitBackend

/-- A function of instructions for one target. -/
structure Lowered where
  arch : ArchId
  name : String
  labels : LabelPool
  frame : Nat
  code : List Item

/-- The items of a function, one a text. -/
def Lowered.texts (l : Lowered) : List String := l.code.map (Item.text l.frame)

def Lowered.text (l : Lowered) : String :=
  "func " ++ l.name ++ " [" ++ l.arch.text ++ "] frame " ++ toString l.frame ++ "\n" ++
    String.join (l.code.map (Item.line l.frame))

structure Target where
  id : ArchId
  name : String
  width : Width
  regs : RegFile := {}
  /-- Selects the instructions of an expression, at statement level or for its value. -/
  select : Option (Expr → Bool → Lower Expr) := none
  /-- What runs before the body of a function. -/
  enter : Option (Lower Unit) := none
  /-- The bytes and the label table of a function. -/
  assemble : Option (Lowered → Stage (List Byte × List (Option Nat))) := none
  /-- Whether an external disassembler lists the code; otherwise it is dumped in hexadecimal. -/
  disassembles : Bool := false
  /-- The machine number in object files. -/
  machine : Option Nat := none

/-- The known targets, in the order of registration. -/
structure Registry where
  targets : List Target := []

namespace Registry

def get (r : Registry) (id : ArchId) : Except Error Target :=
  match r.targets.find? (·.id = id) with
  | some t => .ok t
  | none => .error (.unknownArch id)

def register (r : Registry) (t : Target) : Stage Registry := do
  if r.targets.any (·.id = t.id) then throw (.duplicateArch t.name)
  note (.registered t.name t.width)
  return ⟨r.targets ++ [t]⟩

end Registry

/-- The allocator of a target. -/
def Target.linearScan (t : Target) : Except Error LinearScan :=
  match t.regs.stackPointer with
  | some sp => .ok ⟨t.regs.allocatable, t.regs.calleeSaved, sp⟩
  | none => .error (.unsupported (.allocation t.name))

/-! ## Lowering -/

namespace Flat

def makesCalls (f : Flat) : Bool := f.code.any (·.containsOp .call)

/-- Selects the instructions of a function's body, each expression with its own temporaries. -/
def selectBody (f : Flat) (select : Expr → Bool → Lower Expr) : Lower Unit :=
  f.code.toList.forM fun e => do
    let m := (← get).mark
    let r ← select e true
    if !r.isEffectFree then Lower.emit r
    modify (Session.release m)

/-- The instructions of a function for a target, `enter` running before the body; together with the answer of `enter`,
if it got that far. -/
def lowerWith {α : Type} (f : Flat) (registry : Registry) (width : Width) (arch : ArchId) (alloc : Allocation)
    (enter : Target → Lower α) : Report (Option α × Except Error Lowered) := do
  match registry.get arch with
  | .error e => return (none, .error e)
  | .ok t =>
    if t.width ≠ width then return (none, .error (.widthMismatch t.name t.width width))
    match t.select with
    | none =>
      note (.unlowered t.name f.func.name)
      return (none, .ok ⟨arch, f.func.name, f.func.labels, alloc.frame, f.code.toList.map .instr⟩)
    | some select =>
      let frame : Frame := ⟨t.regs, alloc, f.makesCalls⟩
      match ← (enter t frame).run.run { labels := f.func.labels } with
      | (.error e, _) => return (none, .error e)
      | (.ok a, s) =>
        match ← (f.selectBody select frame).run.run s with
        | (.error e, _) => return (some a, .error e)
        | (.ok (), s) =>
          let code := frame.code s
          note (.lowered f.func.name t.name f.code.size code.length (frame.size s))
          return (some a, .ok ⟨arch, f.func.name, s.labels, frame.size s, code⟩)

/-- The instructions of a function for a target. -/
def lower (f : Flat) (registry : Registry) (width : Width) (arch : ArchId) (alloc : Allocation) : Stage Lowered :=
  ExceptT.mk do return (← f.lowerWith registry width arch alloc fun t => t.enter.getD (pure ())).2

end Flat

end JitBackend
