import JitBackend.LinearScan

/-!
# Frames

What instruction selection knows and keeps while it works on one function. A `Frame` is fixed: the registers of the
target and the places of the soft registers. A `Session` changes: the instructions so far, and the temporaries in use.
Temporaries are scratch registers of the target and, once these run out, eight-byte stack slots above the spill area;
both are taken and given back in the manner of a stack.

The size of the stack area is known only at the end, so a move of the stack pointer by it stands in the code as
`Item.frame`. Sizes and offsets are four-byte numbers.
-/

namespace JitBackend

/-- The registers of a target and what they are for. -/
structure RegFile where
  allocatable : List HardReg := []
  scratch : List HardReg := []
  calleeSaved : List HardReg := []
  stackPointer : Option HardReg := none

structure Frame where
  regs : RegFile
  alloc : Allocation
  makesCalls : Bool

structure Session where
  labels : LabelPool
  items : Array Item := #[]
  scratchUsed : Nat := 0
  temps : Nat := 0
  tempPeak : Nat := 0

/-- How many temporaries were in use at some point. -/
structure Mark where
  scratch : Nat
  temps : Nat

/-- Computations of instruction selection. What they have done before a failure stays done. -/
abbrev Lower := ReaderT Frame (ExceptT Error (StateT Session Report))

/-! ## Size and prologue of a frame -/

/-- Removes an element equal to the one before it. -/
def dedupAdjacent : List HardReg → List HardReg
  | a :: b :: rest => if a = b then dedupAdjacent (b :: rest) else a :: dedupAdjacent (b :: rest)
  | l => l

namespace Frame

/-- The registers that the function uses and has to hand back unchanged, in the order of their numbers. -/
def saved (f : Frame) : List HardReg :=
  let used := f.alloc.places.filterMap fun
    | (_, .reg r) => if f.regs.calleeSaved.contains r then some r else none
    | _ => none
  dedupAdjacent (used.mergeSort fun a b => a.index ≤ b.index)

/-- Bytes below the saved registers: spill slots, stack temporaries, and what keeps the stack aligned at calls, where
the return address and an even number of saved registers leave it eight bytes off. -/
def size (f : Frame) (s : Session) : Nat :=
  let aligned := roundUp (f.alloc.frame + 8 * s.tempPeak) 16
  (BitVec.ofNat 32 (if f.makesCalls && f.saved.length % 2 == 0 then aligned + 8 else aligned)).toNat

/-- The place of a register: itself, or where its allocation puts it. -/
def resolve (f : Frame) (r : Reg) : Except Error Expr :=
  match r.id with
  | .hard _ => .ok (.reg r)
  | .soft id =>
    match f.alloc.get id with
    | .ok (.reg h) => .ok (.reg ⟨r.kind, .hard h, r.readOnly⟩)
    | .ok (.stack base offset) => .ok (.memAt r.kind r.readOnly (.ofBase base (.ofInt 32 offset)))
    | .error e => .error e

/-- The code of a finished session. A frame of size zero needs no move of the stack pointer. -/
def code (f : Frame) (s : Session) : List Item :=
  if f.size s = 0 then s.items.toList.filter Item.isInstr else s.items.toList

end Frame

/-! ## Temporaries -/

namespace Session

def mark (s : Session) : Mark := ⟨s.scratchUsed, s.temps⟩

/-- Gives back the temporaries taken since `m`. -/
def release (m : Mark) (s : Session) : Session :=
  { s with scratchUsed := min m.scratch s.scratchUsed, temps := min m.temps s.temps }

/-- Takes the next scratch register. -/
def scratch (f : Frame) (k : Kind) (p : Purpose) (s : Session) : Except Error Reg × Session :=
  match f.regs.scratch[s.scratchUsed]? with
  | some r => (.ok (.hard k r), { s with scratchUsed := s.scratchUsed + 1 })
  | none => (.error (.scratchExhausted p), s)

/-- Where stack slots end: their offsets are four-byte displacements. -/
def slotLimit : Nat := 0x80000000

/-- Where the next stack slot starts. -/
def slotOffset (f : Frame) (s : Session) : Nat := (BitVec.ofNat 32 (f.alloc.frame + 8 * s.temps)).toNat

/-- Takes a stack slot above the spill area. -/
def stackTemp (f : Frame) (k : Kind) (p : Purpose) (s : Session) : Except Error Expr × Session :=
  match f.regs.stackPointer with
  | none => (.error (.scratchExhausted p), s)
  | some sp =>
    let offset := slotOffset f s
    let temps := s.temps + roundUp (max k.size 1) 8 / 8
    (if offset < slotLimit then .ok (.memAt k false (.ofBase sp (.ofNat 32 offset)))
      else .error (.fieldOverflow .stackTemporary offset),
      { s with temps, tempPeak := max s.tempPeak temps })

/-- Takes a scratch register if one is left, a stack slot otherwise. -/
def temp (f : Frame) (k : Kind) (p : Purpose) (s : Session) : Except Error Expr × Session :=
  if s.scratchUsed < f.regs.scratch.length then ((s.scratch f k p).1.map .reg, (s.scratch f k p).2)
  else s.stackTemp f k p

/-- Gives back `r` if it is the scratch register taken last. -/
def freeScratch (f : Frame) (r : HardReg) (s : Session) : Session :=
  if 0 < s.scratchUsed ∧ f.regs.scratch[s.scratchUsed - 1]? = some r then
    { s with scratchUsed := s.scratchUsed - 1 }
  else s

/-- The scratch registers in use. -/
def liveScratch (f : Frame) (s : Session) : List HardReg := f.regs.scratch.take s.scratchUsed

end Session

namespace Lower

/-- A change of the session that may fail. -/
def change {α : Type} (step : Frame → Session → Except Error α × Session) : Lower α :=
  fun f => ExceptT.mk (modifyGet (step f))

def emit (e : Expr) : Lower Unit := do
  note (.selected (.instr e))
  modify fun s => { s with items := s.items.push (.instr e) }

/-- Emits a move of the stack pointer by the size of the frame. -/
def emitFrame (op : Op) : Lower Unit := do
  match (← read).regs.stackPointer with
  | none => throw (.scratchExhausted (.frame op))
  | some sp =>
    note (.selected (.frame op sp))
    modify fun s => { s with items := s.items.push (.frame op sp) }

def newLabel : Lower Label := modifyGet fun s => ((s.labels.fresh none).1, { s with labels := (s.labels.fresh none).2 })

def scratch (k : Kind) (p : Purpose) : Lower Reg := change fun f => Session.scratch f k p

def stackTemp (k : Kind) (p : Purpose) : Lower Expr := change fun f => Session.stackTemp f k p

def temp (k : Kind) (p : Purpose) : Lower Expr := change fun f => Session.temp f k p

def freeScratch (r : HardReg) : Lower Unit := do modify (Session.freeScratch (← read) r)

def resolve (r : Reg) : Lower Expr := do (← read).resolve r

/-- Runs `act` and gives back the temporaries that it took, also when it fails. -/
def releasing {α : Type} (act : Lower α) : Lower α := fun f => ExceptT.mk do
  let m := (← get).mark
  let r ← (act f).run
  modify (Session.release m)
  return r

end Lower

end JitBackend
