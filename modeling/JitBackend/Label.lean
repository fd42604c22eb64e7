/-!
# Labels

A label is an index into the pool of the function that issued it. A pool only grows: an index is issued once and
stays valid.
-/

namespace JitBackend

structure Label where
  index : Nat
  deriving DecidableEq, Repr

def Label.text (l : Label) : String := "L" ++ toString l.index

/-- The labels of a function, each with a name or none. -/
structure LabelPool where
  names : List (Option String) := []
  deriving DecidableEq, Repr

namespace LabelPool

def size (p : LabelPool) : Nat := p.names.length

/-- Issues the next label. -/
def fresh (p : LabelPool) (name : Option String) : Label × LabelPool := (⟨p.size⟩, ⟨p.names ++ [name]⟩)

def name? (p : LabelPool) (l : Label) : Option String := p.names[l.index]?.join

def contains (p : LabelPool) (l : Label) : Bool := l.index < p.size

end LabelPool

end JitBackend
