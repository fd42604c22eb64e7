import JitBackend.Proofs.Checked
import JitBackend.Stmt

/-!
# Labels that code refers to

The labels that stand anywhere in an expression, as values, as targets of jumps or as callees. `Inside` is a class, so
that instances find that what selection makes of expressions has no other labels.
-/

namespace JitBackend

namespace Expr

mutual
/-- The labels that stand in an expression: those of label values, of jumps and of calls. -/
def mentions : Expr → List Label
  | const _ | reg _ | memAt .. => []
  | label l => [l]
  | mem _ _ a => mentions a
  | unary _ _ x => mentions x
  | binary _ _ x y => mentions x ++ mentions y
  | ret vs => mentionsL vs
  | call l _ _ args => l :: mentionsL args
def mentionsL : List Expr → List Label
  | [] => []
  | e :: es => mentions e ++ mentionsL es
end

/-- Only labels in `S` stand in the expression. -/
class Inside (S : Label → Prop) (e : Expr) : Prop where
  mem : ∀ l ∈ e.mentions, S l

section Inside

variable {S : Label → Prop} {x y : Expr}

instance (c : Const) : Inside S (const c) := ⟨by simp [mentions]⟩

instance (r : Reg) : Inside S (reg r) := ⟨by simp [mentions]⟩

instance (k : Kind) (ro : Bool) (m : AddrMode) : Inside S (memAt k ro m) := ⟨by simp [mentions]⟩

theorem Inside.label {l : Label} (h : S l) : Inside S (label l) := ⟨by simpa [mentions] using h⟩

instance (op : UnaryOp) (k : Kind) (x : Expr) [h : Inside S x] : Inside S (unary op k x) :=
  ⟨by simpa only [mentions] using h.mem⟩

instance (op : BinaryOp) (k : Kind) (x y : Expr) [hx : Inside S x] [hy : Inside S y] : Inside S (binary op k x y) := ⟨by
  simp only [mentions, List.mem_append]
  exact fun l => Or.rec (hx.mem l) (hy.mem l)⟩

instance (l : Label) [Inside S (.label l)] : Inside S (jumpTo l) := by
  unfold jumpTo
  infer_instance

theorem Inside.unary {op : UnaryOp} {k : Kind} (h : Inside S (unary op k x)) : Inside S x :=
  ⟨by simpa only [mentions] using h.mem⟩

theorem Inside.address {k : Kind} {ro : Bool} (h : Inside S (Expr.mem k ro x)) : Inside S x :=
  ⟨by simpa only [mentions] using h.mem⟩

theorem Inside.left {op : BinaryOp} {k : Kind} (h : Inside S (binary op k x y)) : Inside S x :=
  ⟨fun l hl => h.mem l (by simp [mentions, hl])⟩

theorem Inside.right {op : BinaryOp} {k : Kind} (h : Inside S (binary op k x y)) : Inside S y :=
  ⟨fun l hl => h.mem l (by simp [mentions, hl])⟩

theorem inside_values {vs : List Expr} (h : Inside S (ret vs)) : ∀ v ∈ vs, Inside S v := by
  have hall : ∀ vs : List Expr, (∀ l ∈ mentionsL vs, S l) → ∀ v ∈ vs, Inside S v := by
    intro vs
    induction vs with
    | nil => simp
    | cons v vs ih =>
      intro h
      rw [mentionsL, List.forall_mem_append] at h
      exact List.forall_mem_cons.2 ⟨⟨h.1⟩, ih h.2⟩
  exact hall vs (by simpa only [mentions] using h.mem)

theorem inside_mkNot (h : Inside S x) : Inside S (mkNot x) := by
  unfold mkNot
  split
  · exact h.unary
  · have := h.left
    have := h.right
    split <;> infer_instance
  · infer_instance

theorem inside_lnot {d : Expr} (h : Inside S x) (hd : mkUnary .lnot x = .ok d) : Inside S d := by
  obtain ⟨k, hk, ⟨hop, -⟩ | ⟨hop, -⟩ | ⟨-, c, -, rfl⟩ | ⟨-, rfl⟩ | rfl⟩ := mkUnary_eq_ok hd
  · cases hop
  · cases hop
  · infer_instance
  · exact inside_mkNot h
  · infer_instance

end Inside

end Expr

namespace Stmt

mutual
/-- The labels that stand in the expressions of a statement. -/
def mentions : Stmt → List Label
  | block list => mentionsL list
  | expr e => e.mentions
  | ite c t e => c.mentions ++ (mentions t ++ mentionsO e)
  | loop i c p b => mentionsO i ++ ((c.map Expr.mentions).getD [] ++ (mentionsO p ++ mentions b))
  | exit _ => []
def mentionsL : List Stmt → List Label
  | [] => []
  | s :: ss => mentions s ++ mentionsL ss
def mentionsO : Option Stmt → List Label
  | none => []
  | some s => mentions s
end

end Stmt

end JitBackend
