import JitBackend.Amd64.Register

/-!
# Places and hazards

When two operands are the same place, and when evaluating an expression reads a place that already holds something
else or overwrites a register with a fixed job.
-/

namespace JitBackend.Amd64

/-- The register `r` at kind `k`, as an operand. -/
def fixed (k : Kind) (r : HardReg) : Expr := .reg (.hard k r)

/-- Whether two operands are one place, at one size. -/
def samePlace : Expr → Expr → Bool
  | .reg a, .reg b => a.id == b.id && a.kind.size == b.kind.size
  | .memAt k _ m, .memAt k' _ m' => m == m' && k.size == k'.size
  | _, _ => false

/-- Whether `e` is the place `dst`, or is written as `origin`, the unresolved form of `dst`. -/
def isPlace (f : Frame) (e dst : Expr) (origin : Option Expr) : Except Error Bool :=
  if origin = some e then .ok true
  else
    match e with
    | .reg r => (f.resolve r).map (samePlace · dst)
    | .memAt .. => .ok (samePlace e dst)
    | _ => .ok false

/-- The hard register that an operand is. -/
def hardOf : Expr → Option HardReg
  | .reg r => r.id.hard?
  | _ => none

/-- Whether an address depends on the register that `dst` is. -/
def usesPlace (m : AddrMode) (dst : Expr) : Bool := (hardOf dst).any m.uses

mutual
/-- Whether evaluating an expression reads the place `dst`. -/
def reads (f : Frame) (dst : Expr) : Expr → Except Error Bool
  | .reg r => do
    let p ← f.resolve r
    match p with
    | .memAt _ _ m => return samePlace p dst || usesPlace m dst
    | p => return samePlace p dst
  | .memAt k ro m => .ok (usesPlace m dst || samePlace (.memAt k ro m) dst)
  | .mem _ _ a => reads f dst a
  | .unary _ _ x => reads f dst x
  | .binary _ _ x y => do if ← reads f dst x then return true else reads f dst y
  | .ret vs => readsL f dst vs
  | .call _ _ _ as => readsL f dst as
  | .const _ | .label _ => .ok false
def readsL (f : Frame) (dst : Expr) : List Expr → Except Error Bool
  | [] => .ok false
  | e :: es => do
    let here ← reads f dst e
    let there ← readsL f dst es
    return here || there
end

/-- Whether `dst` is a register with a fixed job. -/
def isFixed (dst : Expr) : Bool := (hardOf dst).any fun r => r == rax || r == rcx || r == rdx

/-- Whether evaluating `e` overwrites a register with a fixed job. -/
def clobbersFixed (e : Expr) : Bool :=
  ([.quo, .rem, .shl, .shr].any fun a => e.containsOp (.binary (.arith a))) || e.containsOp .call

/-- Whether `dst` cannot hold a value while `e` is evaluated. -/
def hazard (f : Frame) (e dst : Expr) : Except Error Bool := do
  if ← reads f dst e then return true else return isFixed dst && clobbersFixed e

/-! ## A place without hazard -/

/-- What a session has left to give: scratch registers, and bytes that a stack slot can still start at. -/
def supply (f : Frame) (s : Session) : Nat :=
  (f.regs.scratch.length - s.scratchUsed) + (Session.slotLimit - s.slotOffset f)

theorem supply_temp_lt {f : Frame} {k : Kind} {p : Purpose} {s s' : Session} {e : Expr}
    (h : s.temp f k p = (.ok e, s')) : supply f s' < supply f s := by
  unfold Session.temp at h
  split at h
  · rename_i hs
    simp only [Session.scratch, List.getElem?_eq_getElem hs, Except.map, Prod.mk.injEq] at h
    obtain ⟨-, rfl⟩ := h
    simp only [supply, Session.slotOffset]
    omega
  · unfold Session.stackTemp at h
    split at h
    · simp at h
    · simp only [Prod.mk.injEq] at h
      obtain ⟨h, rfl⟩ := h
      split at h
      · have hlo : 1 ≤ roundUp (max k.size 1) 8 / 8 := by unfold roundUp; omega
        have hhi : roundUp (max k.size 1) 8 / 8 ≤ 2 := by cases k <;> decide
        simp only [supply, Session.slotOffset, Session.slotLimit, BitVec.toNat_ofNat] at *
        omega
      · simp at h

/-- Takes temporaries until one can hold a value while `e` is evaluated; each comes with the mark before it, and the
last one is the safe one. The list is empty if `dst` itself is safe. -/
def refuge (f : Frame) (e dst : Expr) (s : Session) : Except Error (List (Mark × Expr)) × Session :=
  match hazard f e dst with
  | .error err => (.error err, s)
  | .ok false => (.ok [], s)
  | .ok true =>
    match h : s.temp f .bool (.note "logical operand") with
    | (.error err, s') => (.error err, s')
    | (.ok t, s') =>
      have : supply f s' < supply f s := supply_temp_lt h
      let (rest, s'') := refuge f e t s'
      (rest.map ((s.mark, t) :: ·), s'')
termination_by supply f s

end JitBackend.Amd64
