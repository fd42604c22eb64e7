import JitBackend.Event

/-!
# Code buffers

Bytes under construction, with labels. A label is bound once, to the offset reached then. A reference to a label is a
four-byte field, relative to its own end; one to a label that is not bound yet waits and is filled in when it is.
-/

namespace JitBackend

abbrev Byte := BitVec 8

/-- The `n` low bytes of a word, the lowest first. -/
def littleEndian (n : Nat) (w : BitVec 64) : List Byte := (List.range n).map fun i => w.extractLsb' (8 * i) 8

/-- A field at offset `place` that waits for its label. -/
structure Fixup where
  place : Nat
  label : Label
  deriving DecidableEq, Repr

structure Buffer where
  code : Array Byte := #[]
  labels : List (Option Nat) := []
  fixups : List Fixup := []

/-- Computations that extend a buffer. What they have written before a failure stays written. -/
abbrev Assemble := ExceptT Error (StateT Buffer Report)

namespace Buffer

/-- A buffer that expects `n` labels; it accepts more. -/
def withLabels (n : Nat) : Buffer := { labels := List.replicate n none }

def labelOffset (b : Buffer) (l : Label) : Option Nat := b.labels[l.index]?.join

def write (b : Buffer) (bytes : List Byte) : Buffer := { b with code := b.code ++ bytes }

/-- The table with an offset for `l`, grown as far as needed. -/
def bound (b : Buffer) (l : Label) (offset : Nat) : List (Option Nat) :=
  (b.labels ++ List.replicate (l.index + 1 - b.labels.length) none).set l.index (some offset)

/-- Overwrites the bytes from `place` on. -/
def overwrite (b : Buffer) (place : Nat) (bytes : List Byte) : Buffer :=
  { b with code := bytes.zipIdx.foldl (fun code (x, i) => code.setIfInBounds (place + i) x) b.code }

end Buffer

namespace Assemble

def emit (bytes : List Byte) : Assemble Unit := modify (·.write bytes)

/-- Fills in the field at `place` with the distance from its end to `target`. -/
def patch (place target : Nat) : Assemble Unit := do
  let rel : Int := target - (place + 4)
  if (BitVec.ofInt 32 rel).toInt ≠ rel then throw (.fieldOverflow .jumpDisplacement rel)
  modify (·.overwrite place (littleEndian 4 (.ofInt 64 rel)))

/-- Binds a label to the current offset and fills in the fields that wait for it. -/
def bind (l : Label) : Assemble Unit := do
  let b ← get
  if (b.labelOffset l).isSome then throw (.labelRedefined l)
  let here := b.code.size
  let (ready, waiting) := b.fixups.partition (·.label = l)
  set { b with labels := b.bound l here, fixups := waiting }
  ready.forM fun x => do
    note (.patched l x.place here)
    patch x.place here

/-- Emits a reference to a label. -/
def emitRel32 (l : Label) : Assemble Unit := do
  let place := (← get).code.size
  emit (littleEndian 4 0)
  match (← get).labelOffset l with
  | some target => patch place target
  | none => modify fun b => { b with fixups := b.fixups ++ [⟨place, l⟩] }

end Assemble

/-- The bytes and the label table, if no reference is left waiting. -/
def Buffer.finish (b : Buffer) : Except Error (List Byte × List (Option Nat)) :=
  match b.fixups with
  | [] => .ok (b.code.toList, b.labels)
  | x :: _ => .error (.unresolvedLabel x.label)

end JitBackend
