import JitBackend.MachineCode

/-!
# From a function to machine code
-/

namespace JitBackend

namespace Func

/-- The instructions of a function for a target. -/
def lower (f : Func) (registry : Registry) (width : Width) (arch : ArchId) : Stage Lowered := do
  let t ← registry.get arch
  let flat ← f.flatten
  let scan ← t.linearScan
  let alloc ← scan.allocate flat
  flat.lower registry width arch alloc

/-- The machine code of a function for a target. -/
def compile (f : Func) (registry : Registry) (width : Width) (arch : ArchId) : Stage MachineCode := do
  let lowered ← f.lower registry width arch
  lowered.assemble registry

end Func

end JitBackend
