import JitBackend.Kind

/-!
# Signatures

The kinds of the parameters and of the results of a function.
-/

namespace JitBackend

structure Signature where
  params : List Kind
  results : List Kind
  deriving DecidableEq, Repr

namespace Signature

/-- The kind of a call as an expression: nothing, or the one result. -/
def value (s : Signature) : Kind :=
  match s.results with
  | [k] => k
  | _ => .void

def text (s : Signature) : String := "(" ++ Kind.names s.params ++ ") -> (" ++ Kind.names s.results ++ ")"

end Signature

end JitBackend
