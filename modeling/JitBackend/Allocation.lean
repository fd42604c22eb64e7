import JitBackend.Error
import JitBackend.Location

/-!
# Allocations

The places of the soft registers of a function, in the order of their numbers, and the size of the stack area that
holds the slots.
-/

namespace JitBackend

structure Allocation where
  places : List (Nat × Location) := []
  frame : Nat := 0
  deriving DecidableEq, Repr

namespace Allocation

/-- Puts an entry at its place in an ordered list, instead of an older one of the same number. -/
def insert (id : Nat) (loc : Location) : List (Nat × Location) → List (Nat × Location)
  | [] => [(id, loc)]
  | (i, l) :: rest =>
    if id < i then (id, loc) :: (i, l) :: rest
    else if id = i then (id, loc) :: rest
    else (i, l) :: insert id loc rest

def assign (a : Allocation) (id : Nat) (loc : Location) : Allocation := { a with places := insert id loc a.places }

def get? (a : Allocation) (id : Nat) : Option Location := a.places.lookup id

def get (a : Allocation) (id : Nat) : Except Error Location :=
  match a.get? id with
  | some l => .ok l
  | none => .error (.unallocatedRegister id)

end Allocation

end JitBackend
