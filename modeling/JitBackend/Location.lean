import JitBackend.Operand

/-!
# Locations

The place of a soft register: a hard register, or a slot at a distance from a base register.
-/

namespace JitBackend

/-- Where a soft register lives after allocation. -/
inductive Location
  | reg (r : HardReg) | stack (base : HardReg) (offset : Int)
  deriving DecidableEq, Repr

/-- Every field of a place by name. -/
def Location.fields : Location → String
  | reg r => "Reg(" ++ r.fields ++ ")"
  | stack base offset => "Stack \x7b base: " ++ base.fields ++ ", offset: " ++ toString offset ++ " \x7d"

end JitBackend
