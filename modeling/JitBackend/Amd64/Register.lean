import JitBackend.Frame

/-!
# General registers of amd64

Hardware numbers: the low three bits stand in the instruction, the fourth in a prefix byte. `rax`, `rcx` and `rdx`
have fixed jobs (results, shift counts, division), `r10` and `r11` are scratch, `rsp` and `rbp` are never allocated.
Registers that a call may change come first among the allocatable ones, so that short functions save none.
-/

namespace JitBackend.Amd64

def gpr (i : Nat) : HardReg := ⟨.amd64, i⟩

def rax := gpr 0
def rcx := gpr 1
def rdx := gpr 2
def rbx := gpr 3
def rsp := gpr 4

def allocatable : List HardReg := [6, 7, 8, 9, 3, 12, 13, 14, 15].map gpr

def scratch : List HardReg := [10, 11].map gpr

def calleeSaved : List HardReg := [3, 12, 13, 14, 15].map gpr

def regFile : RegFile := ⟨allocatable, scratch, calleeSaved, some rsp⟩

/-- The stems of the first eight register names. -/
def stems : List String := ["ax", "cx", "dx", "bx", "sp", "bp", "si", "di"]

/-- The assembler's name of a register viewed at a size in bytes. -/
def regName (r : HardReg) (size : Nat) : String :=
  let i := r.index % 16
  match stems[i]?, size with
  | some s, 1 => if i < 4 then (s.take 1).toString ++ "l" else s ++ "l"
  | some s, 2 => s
  | some s, 4 => "e" ++ s
  | some s, _ => "r" ++ s
  | none, 1 => "r" ++ toString i ++ "b"
  | none, 2 => "r" ++ toString i ++ "w"
  | none, 4 => "r" ++ toString i ++ "d"
  | none, _ => "r" ++ toString i

/-- The byte registers that need a prefix byte of their own: without one their numbers name other registers. -/
def needsRexAsByte (index : Nat) : Bool := 4 ≤ index && index < 8

end JitBackend.Amd64
