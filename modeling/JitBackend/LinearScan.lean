import JitBackend.Allocation
import JitBackend.Interval

/-!
# Linear scan

Allocation by one pass over the live intervals in the order of their starts. An interval takes the free register that
stands first in the register list; one that covers a call only takes a register that survives calls. When no register
is free, the interval that ends last goes to a stack slot: either one that holds a register, which then changes hands,
or the new one.
-/

namespace JitBackend

/-- `n` rounded up to a multiple of `m`. -/
def roundUp (n m : Nat) : Nat := (n + m - 1) / m * m

structure LinearScan where
  regs : List HardReg
  preserved : List HardReg := []
  stackPointer : HardReg

namespace LinearScan

/-- The intervals that hold a register at some point of the scan, the free registers, and the result so far. -/
structure State where
  active : List (Interval × HardReg) := []
  free : List HardReg
  alloc : Allocation := {}

variable (scan : LinearScan)

/-- The place of a register in the list; one that is not in it comes last. -/
def rank (r : HardReg) : Nat := scan.regs.idxOf r

/-- Frees the registers of the intervals that end before `p`. -/
def expire (p : Nat) (st : State) : State :=
  let (ended, active) := st.active.partition fun (iv, _) => iv.stop < p
  { st with active, free := (st.free ++ ended.map (·.2)).mergeSort fun a b => scan.rank a ≤ scan.rank b }

/-- Takes the next stack slot for a value of kind `k`. -/
def slot (k : Kind) (a : Allocation) : Location × Allocation :=
  (.stack scan.stackPointer a.frame, { a with frame := a.frame + roundUp (max k.size 1) 8 })

/-- Puts the interval `iv` in the register `r`. -/
def take (iv : Interval) (r : HardReg) (st : State) : State :=
  { st with active := st.active ++ [(iv, r)], alloc := st.alloc.assign iv.id (.reg r) }

/-- Puts an interval on the stack. -/
def spill (iv : Interval) (a : Allocation) : Location × Allocation :=
  let (loc, a) := scan.slot iv.kind a
  (loc, a.assign iv.id loc)

/-- The later of two intervals in the order of their ends, then of their numbers. -/
def later (a b : Interval × HardReg) : Interval × HardReg :=
  if b.1.stop < a.1.stop || (b.1.stop == a.1.stop && b.1.id < a.1.id) then a else b

/-- The interval that ends last among those whose register is usable. -/
def victim (usable : HardReg → Bool) (active : List (Interval × HardReg)) : Option (Interval × HardReg) :=
  match active.filter fun (_, r) => usable r with
  | [] => none
  | a :: as => some (as.foldl later a)

/-- Places one interval. -/
def place (calls : List Nat) (st : State) (iv : Interval) : Report State := do
  let st := scan.expire iv.start st
  let across := calls.any iv.covers
  let usable := fun r => !across || scan.preserved.contains r
  match st.free.find? usable with
  | some r => return take iv r { st with free := st.free.eraseP usable }
  | none =>
    match victim usable st.active with
    | some (old, r) =>
      if iv.stop < old.stop then
        let (loc, alloc) := scan.spill old st.alloc
        note (.evicted old.id loc iv.id r)
        return take iv r { st with active := st.active.filter (·.1.id ≠ old.id), alloc }
      else
        let (loc, alloc) := scan.spill iv st.alloc
        note (.spilled iv.id loc)
        return { st with alloc }
    | none =>
      let (loc, alloc) := scan.spill iv st.alloc
      note (.spilled iv.id loc)
      return { st with alloc }

/-- Intervals in the order of their starts, then of their numbers. -/
def byStart (ivs : List Interval) : List Interval :=
  ivs.mergeSort fun a b => a.start < b.start || (a.start == b.start && a.id ≤ b.id)

/-- Places for the soft registers of a function. The frame is a multiple of sixteen bytes. -/
def allocate (f : Flat) : Report Allocation := do
  let st ← (byStart f.intervals).foldlM (scan.place f.callPositions) { free := scan.regs }
  let alloc := { st.alloc with frame := roundUp st.alloc.frame 16 }
  note (.allocated f.func.name alloc.places.length alloc.frame)
  return alloc

end LinearScan

end JitBackend
