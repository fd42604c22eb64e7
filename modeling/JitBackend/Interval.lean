import JitBackend.Flat

/-!
# Live intervals

Position 0 is the entry of a function, position `i + 1` its `i`-th expression. The interval of a soft register runs
from its first mention to its last one (parameters are mentioned at the entry), and is widened until it contains every
back edge that it meets, so that a value alive in a loop stays alive in all of it.
-/

namespace JitBackend

structure Interval where
  id : Nat
  kind : Kind
  start : Nat
  stop : Nat
  deriving DecidableEq, Repr

/-- A jump from `bottom` back to `top`. -/
structure BackEdge where
  top : Nat
  bottom : Nat
  deriving DecidableEq, Repr

namespace Interval

def covers (iv : Interval) (p : Nat) : Bool := iv.start ≤ p && p ≤ iv.stop

def meets (iv : Interval) (e : BackEdge) : Bool := iv.start ≤ e.bottom && e.top ≤ iv.stop

def includes (iv : Interval) (e : BackEdge) : Bool := iv.start ≤ e.top && e.bottom ≤ iv.stop

/-- The smallest interval around `iv` and `e`. -/
def widen (iv : Interval) (e : BackEdge) : Interval :=
  { iv with start := min iv.start e.top, stop := max iv.stop e.bottom }

/-- The number of back edges that the interval does not contain. -/
def outside (edges : List BackEdge) (iv : Interval) : Nat := edges.countP fun e => !iv.includes e

theorem includes_iff {iv : Interval} {e : BackEdge} :
    iv.includes e = true ↔ iv.start ≤ e.top ∧ e.bottom ≤ iv.stop := by
  simp [includes]

theorem includes_widen (iv : Interval) (e : BackEdge) : (iv.widen e).includes e = true :=
  includes_iff.2 ⟨Nat.min_le_right _ _, Nat.le_max_right _ _⟩

theorem includes_widen_of_includes {iv : Interval} {d : BackEdge} (e : BackEdge) (h : iv.includes d = true) :
    (iv.widen e).includes d = true :=
  have ⟨h₁, h₂⟩ := includes_iff.1 h
  includes_iff.2 ⟨Nat.le_trans (Nat.min_le_left _ _) h₁, Nat.le_trans h₂ (Nat.le_max_left _ _)⟩

theorem outside_widen_le (edges : List BackEdge) (iv : Interval) (e : BackEdge) :
    outside edges (iv.widen e) ≤ outside edges iv := by
  refine List.countP_mono_left fun d _ hd => ?_
  cases h : iv.includes d
  · rfl
  · simp [includes_widen_of_includes e h] at hd

theorem outside_widen_lt {edges : List BackEdge} {iv : Interval} {e : BackEdge} (he : e ∈ edges)
    (h : iv.includes e = false) : outside edges (iv.widen e) < outside edges iv := by
  induction edges with
  | nil => simp at he
  | cons d ds ih =>
    simp only [outside, List.countP_cons]
    rcases List.mem_cons.1 he with rfl | he
    · have := outside_widen_le ds iv e
      simp only [outside] at this
      simp [includes_widen, h]
      omega
    · have := ih he
      simp only [outside] at this
      cases hi : iv.includes d
      · simp; split <;> omega
      · simp [includes_widen_of_includes e hi]; omega

/-- The interval widened until it contains every back edge that it meets. -/
def close (edges : List BackEdge) (iv : Interval) : Interval :=
  match h : edges.find? fun e => iv.meets e && !iv.includes e with
  | some e =>
    have : outside edges (iv.widen e) < outside edges iv := by
      have hp := List.find?_some h
      simp only [Bool.and_eq_true, Bool.not_eq_true'] at hp
      exact outside_widen_lt (List.mem_of_find?_eq_some h) hp.2
    close edges (iv.widen e)
  | none => iv
termination_by outside edges iv

end Interval

/-! ## The intervals of a function -/

/-- Notes a mention of a soft register at a position. The kind is that of its first mention. -/
def mention (ivs : List Interval) (id : Nat) (k : Kind) (p : Nat) : List Interval :=
  if ivs.any (·.id = id) then
    ivs.map fun iv => if iv.id = id then { iv with start := min iv.start p, stop := max iv.stop p } else iv
  else ivs ++ [⟨id, k, p, p⟩]

/-- Notes the mentions of the soft registers among `rs`. -/
def mentionRegs (p : Nat) (ivs : List Interval) (rs : List Reg) : List Interval :=
  rs.foldl (fun ivs r => match r.id with | .soft id => mention ivs id r.kind p | .hard _ => ivs) ivs

namespace Flat

/-- The expressions of a function with their positions. -/
def positions (f : Flat) : List (Expr × Nat) := f.code.toList.zipIdx 1

/-- The intervals from mentions alone, in the order of the first mentions. -/
def mentions (f : Flat) : List Interval :=
  f.positions.foldl (fun ivs (e, p) => mentionRegs p ivs e.regs) (mentionRegs 0 [] f.func.params)

/-- The position of a label, the last one if it is placed more than once. -/
def labelPosition (f : Flat) (l : Label) : Option Nat :=
  f.positions.foldl (fun found (e, p) => if e = .label l then some p else found) none

/-- The label that an expression jumps to. -/
def jumpTarget : Expr → Option Label
  | .unary .jump _ (.label l) => some l
  | .binary .jumpIf _ (.label l) _ => some l
  | _ => none

/-- The jumps to a label at or before them. -/
def backEdges (f : Flat) : List BackEdge :=
  f.positions.filterMap fun (e, p) => do
    let top ← f.labelPosition (← jumpTarget e)
    if top ≤ p then some ⟨top, p⟩ else none

def intervals (f : Flat) : List Interval := f.mentions.map (Interval.close f.backEdges)

/-- The positions of expressions that contain a call. -/
def callPositions (f : Flat) : List Nat := f.positions.filterMap fun (e, p) => if e.containsOp .call then some p else none

end Flat

end JitBackend
