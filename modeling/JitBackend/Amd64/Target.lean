import JitBackend.Amd64.Encode
import JitBackend.Amd64.Statement
import JitBackend.Target

/-!
# The amd64 target
-/

namespace JitBackend

namespace Amd64

/-- The bytes and the label table of a function of amd64 instructions. -/
def assemble (l : Lowered) : Stage (List Byte × List (Option Nat)) := do
  match ← (l.code.forM (encodeItem l.frame)).run.run (Buffer.withLabels l.labels.size) with
  | (.error e, _) => throw e
  | (.ok (), b) => b.finish

def target : Target where
  id := .amd64
  name := "amd64"
  width := .w64
  regs := regFile
  select := some select
  enter := some enter
  assemble := some assemble
  disassembles := true
  machine := some 62

end Amd64

/-- Adds amd64 unless its number is taken. -/
def Registry.registerAmd64 (r : Registry) : Report Registry := do
  match r.get .amd64 with
  | .ok _ => return r
  | .error _ =>
    match ← (r.register Amd64.target).run with
    | .ok r' => return r'
    | .error _ => return r

/-- The registry of all targets here. -/
def Registry.builtin : Report Registry := Registry.registerAmd64 {}

end JitBackend
