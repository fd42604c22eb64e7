import Mathlib
import JitBackend.Proofs.Amd64.Refusal
import JitBackend.Proofs.Amd64.Temporaries
import JitBackend.Proofs.Compilation
import JitBackend.Proofs.Subexpressions

/-!
# Arithmetic on floats and complex numbers

The machine's instructions here are those of integers. Arithmetic on floats or complex numbers that stands anywhere in
the code of a function makes compilation fail (`compile_inexact`), with two exceptions, both for numbers that fit a
register: compound assignments, and increments and decrements at statement level. These are compiled as if the number
were an integer (`compile_floatSum`).
-/

namespace JitBackend

/-- Floats and complex numbers. -/
def Kind.isInexact (k : Kind) : Bool := k.isFloat || k.isComplex

theorem Kind.not_isInexact_of_isScalar {k : Kind} : k.isScalar = true → k.isInexact = false := by
  cases k <;> decide

theorem Kind.not_isInexact_of_isInteger {k : Kind} (h : k.isInteger = true) : k.isInexact = false :=
  not_isInexact_of_isScalar (by simp [isScalar, isWord, h])

/-- Arithmetic on a word takes words. -/
theorem Expr.not_isInexact_of_arithAdmits {op : ArithOp} {kx ky : Kind} (h : arithAdmits op kx ky = true)
    (hk : kx.isInexact = false) : ky.isInexact = false := by
  cases op with
  | shl | shr =>
    simp only [arithAdmits, Bool.and_eq_true] at h
    exact Kind.not_isInexact_of_isInteger h.2
  | _ =>
    simp only [arithAdmits, Bool.and_eq_true, beq_iff_eq] at h
    exact h.1 ▸ hk

/-- Sums, differences, products and quotients are the inexact operations. -/
theorem Expr.op_of_isInexact {op : ArithOp} {kx ky : Kind} (h : arithAdmits op kx ky = true)
    (hk : (kx.isInexact || ky.isInexact) = true) : op ∈ [ArithOp.add, .sub, .mul, .quo] := by
  cases op with
  | add | sub | mul | quo => decide
  | shl | shr =>
    simp only [arithAdmits, Bool.and_eq_true] at h
    simp [Kind.not_isInexact_of_isInteger h.1, Kind.not_isInexact_of_isInteger h.2] at hk
  | rem | and | or | xor | andNot =>
    simp only [arithAdmits, Bool.and_eq_true, beq_iff_eq] at h
    obtain ⟨rfl, hint⟩ := h
    simp [Kind.not_isInexact_of_isInteger hint] at hk

theorem Expr.isScalar_of_castAdmits {k : Kind} : castAdmits .ptr k = true → k.isScalar = true := by
  cases k <;> decide

namespace Expr

/-! ## Inexact arithmetic -/

/-- Arithmetic on floats or complex numbers: negations, steps by one, operations, also as compound assignments,
comparisons, and casts from or to them. -/
def isInexact : Expr → Bool
  | unary op k x =>
    match op with
    | .neg | .inc | .dec => x.kind.isInexact
    | .cast => x.kind.isInexact || k.isInexact
    | _ => false
  | binary op _ x y =>
    match op with
    | .arith _ | .compound _ | .compare _ => x.kind.isInexact || y.kind.isInexact
    | _ => false
  | _ => false

/-- A compound assignment of at most eight bytes. -/
def isNarrowCompound : Expr → Bool
  | binary (.compound _) k _ _ => k.size ≤ 8
  | _ => false

/-- An increment or decrement of at most eight bytes. -/
def isNarrowStep : Expr → Bool
  | unary .inc k _ | unary .dec k _ => k.size ≤ 8
  | _ => false

/-- Inexact arithmetic that selection has no instructions for. Casts of constants are not among it: where they are built,
they are folded. -/
structure Unselected (x : Expr) : Prop where
  inexact : x.isInexact = true
  soft : ∀ z ∈ x.children, z.isPhysical = false
  folded : ∀ k c, x ≠ .unary .cast k (.const c)
  wide : x.isNarrowCompound = false

variable {e x y : Expr}

theorem children_of_has (h : e.Has Unselected) : e.children ≠ [] := by
  rcases has_iff.1 h with h | ⟨c, hc, -⟩
  · have hinexact := h.inexact
    cases e <;> first | cases hinexact | simp [children]
  · exact List.ne_nil_of_mem hc

theorem not_has_of_children (h : e.children = []) : ¬e.Has Unselected := fun hhas => children_of_has hhas h

end Expr

namespace Amd64

open Lower JitBackend.Expr

/-! ## Expressions -/

/-- The refused items that selection leaves of unselected arithmetic. -/
abbrev unselected (f : Frame) : Search f where
  toSign := refusal
  In e := e.Has Unselected
  Ready _ _ _ := True
  leaf := not_has_of_children
  temp _ := trivial
  keep _ _ h := h

section Nodes

variable {f : Frame} {e x y : Expr} {k : Kind}

theorem spots_ret (vs : List Expr) : Spots (unselected f) (.ret vs) := by
  have hi : ∀ dst origin, Leaves f (unselected f).toSign ((unselected f).Asks (.ret vs) dst origin)
      (into dst (.ret vs) origin) := by
    intro dst origin
    rw [into]
    exact spoils_passThrough.mono fun _ => refused_assign_ret
  refine spots_of_opaque (finds_value ?_ hi) hi ?_ (fun t => by rw [addTerm]; all_goals simp) (by simp)
  · rw [value]
    all_goals simp
  · rw [resolveTarget]
    · exact .throw
    all_goals simp

theorem spots_call {l : Label} {n : Option String} {sig : Signature} (args : List Expr) :
    Spots (unselected f) (.call l n sig args) := by
  have hargs : (Expr.call l n sig args).Has Unselected → args ≠ [] := children_of_has
  refine spots_of_opaque ?_ (fun dst origin => ?_) ?_ (fun t => by rw [addTerm]; all_goals simp) (by simp)
  · rw [value]
    exact spoils_callValue.mono hargs
  · rw [into]
    refine (spoils_emitCall.mono fun h => hargs h.part).first fun v => ?_
    exact .ite (fun _ => leaves_of_grows) fun _ => leaves_of_grows
  · rw [resolveTarget]
    · exact .throw
    all_goals simp

theorem spoils_into_unary {op : UnaryOp} (hfits : unaryFits op k x) (hx : Spots (unselected f) x) (dst : Expr)
    (origin : Option Expr) : Spoils f ((Expr.unary op k x).Has Unselected) (into dst (.unary op k x) origin) := by
  -- an operand of its own is refused wherever it stands
  have hchild : x.Has Unselected → Refused (.binary .assign dst.kind dst (.unary op k x)) := fun hhas =>
    refused_assign_unary (operand_of_children (children_of_has hhas))
  have hinner : isInexact (.unary op k x) = false → (Expr.unary op k x).Has Unselected → x.Has Unselected := by
    intro hno hhas
    refine (has_unary.1 hhas).resolve_left fun h => ?_
    rw [h.inexact] at hno
    cases hno
  cases op with
  | neg =>
    obtain ⟨-, -, rfl⟩ := checkUnary_eq_ok.1 hfits
    by_cases hk : x.kind.isWord = true
    · have hno : x.kind.isInexact = false := Kind.not_isInexact_of_isScalar (Kind.isScalar_of_isWord hk)
      exact (leaves_into_word (.inl rfl) hk hx).mono fun hhas => ⟨hinner hno hhas, trivial⟩
    · rw [into, if_neg (by exact hk)]
      refine spoils_passThrough.mono fun hhas => ?_
      rcases has_unary.1 hhas with h | h
      · exact refused_assign_neg (h.soft x (by simp [children]))
      · exact hchild h
  | inv =>
    by_cases hk : k.isWord = true
    · exact (leaves_into_word (.inr rfl) hk hx).mono fun hhas => ⟨hinner rfl hhas, trivial⟩
    · rw [into, if_neg hk]
      exact spoils_passThrough.mono fun hhas => hchild (hinner rfl hhas)
  | lnot => exact (leaves_into_lnot hx).mono fun hhas => ⟨hinner rfl hhas, trivial⟩
  | cast =>
    obtain ⟨hadmits, -⟩ := hfits
    by_cases hk : (x.kind.isScalar && k.isScalar) = true
    · refine (finds_into_cast hk hx).mono (hinner ?_)
      simp only [Bool.and_eq_true] at hk
      simp [isInexact, Kind.not_isInexact_of_isScalar hk.1, Kind.not_isInexact_of_isScalar hk.2]
    · rw [into, if_neg hk]
      refine spoils_passThrough.mono fun hhas => ?_
      rcases has_unary.1 hhas with h | h
      · refine refused_assign_unary fun o ho => ?_
        have hsoft := h.soft x (by simp [children])
        rcases operand_cases ho with ⟨_, _, _, rfl, -⟩ | ⟨_, _, _, rfl, -⟩ | ⟨c, _, rfl, -⟩ | ⟨l, rfl, -⟩
        · cases hsoft
        · cases hsoft
        · exact h.folded k c rfl
        · exact hk (isScalar_of_castAdmits hadmits)
      · exact hchild h
  | inc | dec =>
    rw [into]
    · exact spoils_passThrough.mono fun _ => refused_assign_step (by simp)
    all_goals simp
  | zero | jump | lea | jcc | setcc | push | pop =>
    rw [into]
    · exact spoils_passThrough.mono fun hhas => hchild (hinner rfl hhas)
    all_goals simp

theorem spots_unselected_unary {op : UnaryOp} (hfits : unaryFits op k x) (hx : Spots (unselected f) x) :
    Spots (unselected f) (.unary op k x) := by
  refine spots_unary (fun dst origin => (spoils_into_unary hfits hx dst origin).mono Search.Asks.part) ?_
  rintro rfl hk hkeeps t
  simp only [keepsWord, Bool.and_eq_true] at hkeeps
  have hxk := Kind.not_isInexact_of_isScalar (Kind.isScalar_of_isWord hkeeps.1.2)
  have hk := Kind.not_isInexact_of_isScalar (Kind.isScalar_of_isWord hk)
  refine (hx.term t hkeeps.1.2).mono fun hhas => (has_unary.1 hhas).resolve_left fun h => ?_
  have hinexact : (x.kind.isInexact || k.isInexact) = true := h.inexact
  rw [hxk, hk] at hinexact
  cases hinexact

/-! ### Operations of two operands -/

theorem spoils_assign (hx : Spots (unselected f) x) (hy : Spots (unselected f) y) :
    Spoils f (x.Has Unselected ∨ y.Has Unselected) (assign x y) := by
  rw [assign]
  by_cases hxhas : x.Has Unselected
  · refine (hx.target.first fun d => ?_).mono fun _ => hxhas
    exact ((hy.into d (some x)).mono False.elim).first fun _ => leaves_of_grows
  · refine .second (hx.target.mono False.elim) fun d => Leaves.first ?_ fun _ => leaves_of_grows
    refine (hy.into d (some x)).mono fun h => ⟨h.resolve_left hxhas, ?_, trivial⟩
    rintro o ⟨⟩
    exact hxhas

theorem kind_of_resolveTarget {d : Expr} {s s' : Session} (h : Gives f (resolveTarget x) s d s') : d.kind = x.kind := by
  cases x with
  | reg r =>
    rw [resolveTarget] at h
    obtain ⟨hv, -⟩ := h.resolve
    unfold Frame.resolve at hv
    repeat' split at hv
    all_goals cases hv <;> rfl
  | mem k ro a =>
    rw [resolveTarget] at h
    obtain ⟨m, s₁, -, h⟩ := h.bind
    obtain ⟨rfl, -⟩ := h.pure
    rfl
  | memAt k ro m =>
    rw [resolveTarget] at h
    obtain ⟨rfl, -⟩ := h.pure
    rfl
  | _ =>
    rw [resolveTarget] at h
    · exact h.throw.elim
    all_goals simp

theorem spoils_compound {op : ArithOp} (hcheck : checkBinary (.compound op) x y = .ok k) (hx : Spots (unselected f) x)
    (hy : Spots (unselected f) y) : Spoils f ((Expr.binary (.compound op) k x y).Has Unselected) (compound op x y) := by
  obtain ⟨hadmits, -, rfl⟩ := checkBinary_eq_ok.1 hcheck
  rw [compound]
  refine hx.target.seq (C := fun _ _ => y.Has Unselected ∨ Unselected (.binary (.compound op) x.kind x y))
    (P := fun d => d.kind = x.kind) (fun hg => ⟨kind_of_resolveTarget hg, fun hhas => ?_⟩)
    fun d hd => Leaves.first ?_ fun _ => leaves_of_grows
  · rcases has_binary.1 hhas with h | h | h
    · exact .inr (.inr h)
    · exact .inl h
    · exact .inr (.inl h)
  · by_cases hwide : Unselected (.binary (.compound op) x.kind x y)
    · have hinexact : (x.kind.isInexact || y.kind.isInexact) = true := hwide.inexact
      have hsize : 8 < d.kind.size := by
        have := hwide.wide
        simp only [isNarrowCompound, decide_eq_false_iff_not] at this
        rw [hd]
        omega
      exact (spoils_opAssign_wide hsize (op_of_isInexact hadmits hinexact) (hy.value.mono False.elim)).mono fun _ => trivial
    · exact (leaves_opAssign hy.value).mono fun h => h.resolve_right hwide

/-- Arithmetic on words is not inexact. -/
theorem has_of_word {op : ArithOp} (hadmits : arithAdmits op x.kind y.kind = true) (hk : x.kind.isWord = true)
    (h : (Expr.binary (.arith op) k x y).Has Unselected) : x.Has Unselected ∨ y.Has Unselected := by
  refine (has_binary.1 h).resolve_left fun hself => ?_
  have hinexact : (x.kind.isInexact || y.kind.isInexact) = true := hself.inexact
  have hx : x.kind.isInexact = false := Kind.not_isInexact_of_isScalar (Kind.isScalar_of_isWord hk)
  rw [hx, not_isInexact_of_arithAdmits hadmits hx] at hinexact
  cases hinexact

theorem has_of_scalar {op : CompareOp} (hcheck : checkBinary (.compare op) x y = .ok k) (hk : x.kind.isScalar = true)
    (h : (Expr.binary (.compare op) k x y).Has Unselected) : x.Has Unselected ∨ y.Has Unselected := by
  obtain ⟨hadmits, -, -⟩ := checkBinary_eq_ok.1 hcheck
  have hkinds : x.kind = y.kind := by
    cases op <;> simp_all [binaryAdmits]
  refine (has_binary.1 h).resolve_left fun hself => ?_
  have hinexact : (x.kind.isInexact || y.kind.isInexact) = true := hself.inexact
  rw [← hkinds, Kind.not_isInexact_of_isScalar hk] at hinexact
  cases hinexact

theorem spoils_into_binary {op : BinaryOp} (hcheck : checkBinary op x y = .ok k) (hx : Spots (unselected f) x)
    (hy : Spots (unselected f) y) (dst : Expr) (origin : Option Expr) :
    Leaves f refusal ((unselected f).Asks (.binary op k x y) dst origin) (into dst (.binary op k x y) origin) := by
  obtain ⟨hadmits, -, hkind⟩ := checkBinary_eq_ok.1 hcheck
  cases op with
  | arith a =>
    obtain rfl : x.kind = k := hkind
    by_cases hk : x.kind.isWord = true
    · refine (leaves_into_arith hadmits hk hx hy).mono fun h => ⟨⟨has_of_word hadmits hk h.part, h.other⟩, trivial⟩
    · rw [into, if_neg (by exact hk)]
      exact spoils_passThrough.mono fun _ => refused_assign_binary
  | compare c =>
    by_cases hk : x.kind.isScalar = true
    · exact (finds_into_compare hk hx hy).mono fun h => has_of_scalar hcheck hk h.part
    · rw [into, if_neg hk]
      exact spoils_passThrough.mono fun _ => refused_assign_binary
  | logic o =>
    simp only [binaryAdmits, Bool.and_eq_true, Kind.isBool, beq_iff_eq] at hadmits
    have hky : y.kind = .bool := hadmits.1 ▸ hadmits.2
    refine (leaves_into_logic hadmits.2 hky hx hy (fun _ h => h) fun _ _ h => h).mono fun h => ⟨?_, trivial⟩
    exact (has_binary.1 h.part).resolve_left (by rintro ⟨⟨⟩, -, -, -⟩)
  | assign =>
    rw [into]
    refine ((spoils_assign hx hy).mono fun h => ?_).first fun _ => leaves_of_grows
    exact (has_binary.1 h.part).resolve_left (by rintro ⟨⟨⟩, -, -, -⟩)
  | compound a =>
    rw [into]
    exact ((spoils_compound hcheck hx hy).mono Search.Asks.part).first fun _ => leaves_of_grows
  | jumpIf | cmp | test =>
    rw [into]
    exact spoils_passThrough.mono fun _ => refused_assign_binary

theorem spots_unselected_binary {op : BinaryOp} (hcheck : checkBinary op x y = .ok k) (hx : Spots (unselected f) x)
    (hy : Spots (unselected f) y) : Spots (unselected f) (.binary op k x y) := by
  refine spots_binary (spoils_into_binary hcheck hx hy) ?_ ?_
  · rintro a rfl hk t shape hshape
    obtain ⟨hadmits, -, rfl⟩ := checkBinary_eq_ok.1 hcheck
    exact (finds_addNode ⟨_, hshape⟩ hadmits hk hx hy).mono (has_of_word hadmits hk)
  · rintro rfl
    obtain ⟨hadmits, -, rfl⟩ := checkBinary_eq_ok.1 hcheck
    have hword : x.kind.isWord = true := by
      simp only [binaryAdmits, arithAdmits, Bool.and_eq_true] at hadmits
      simp [Kind.isWord, hadmits.2]
    exact (leaves_testBits hx.value hy.value).mono (has_of_word hadmits hword)

end Nodes

/-- Selection of a well-kinded expression spots the arithmetic that it has no instructions for. -/
theorem spots {f : Frame} (e : Expr) (hwell : e.WellKinded) : Spots (unselected f) e := by
  induction e with
  | const | reg | memAt | label => exact spots_of_leaf rfl
  | mem k ro a ih => exact spots_mem (fun h => (has_mem.1 h).resolve_left (by rintro ⟨⟨⟩, -, -, -⟩)) hwell.1 (ih hwell.2.2)
  | unary op k x ih => exact spots_unselected_unary hwell.1 (ih hwell.2)
  | binary op k x y ihx ihy => exact spots_unselected_binary hwell.1 (ihx hwell.2.1) (ihy hwell.2.2)
  | ret vs => exact spots_ret vs
  | call l n sig args => exact spots_call args

/-! ## Statements -/

section Statements

variable {f : Frame} {e : Expr}

theorem spoils_jumpIf (c : Expr) (hwell : c.WellKinded) :
    ∀ l sense, Spoils f (c.Has Unselected) (jumpIf l c sense) := by
  have htest : ∀ {c : Expr} (l : Label) (sense : Bool), c.WellKinded → Spoils f (c.Has Unselected) (do
      releasing do testZero .bool (← value c)
      jcc (if sense then .ne else .eq) l) := fun l sense hwell =>
    Leaves.first (.releasing ((spots _ hwell).value.first fun v => leaves_of_grows)) fun _ => leaves_of_grows
  induction c with
  | const c =>
    intro l sense
    have hno : ¬(Expr.const c).Has Unselected := not_has_of_children rfl
    rw [jumpIf]
    exact .ite (fun _ => spoils_emit.mono fun h => absurd h hno) fun _ => leaves_of_grows.mono hno
  | reg r => exact fun l sense => htest l sense hwell
  | mem k ro a => exact fun l sense => htest l sense hwell
  | memAt k ro m => exact fun l sense => htest l sense hwell
  | label l' => exact fun l sense => htest l sense hwell
  | unary op k x ih =>
    intro l sense
    by_cases hop : op = .lnot
    · subst hop
      rw [jumpIf]
      refine (ih hwell.2 l _).mono fun hhas => (has_unary.1 hhas).resolve_left ?_
      rintro ⟨⟨⟩, -, -, -⟩
    · rw [jumpIf]
      · exact htest l sense hwell
      all_goals simp [hop]
  | binary op k x y ihx ihy =>
    intro l sense
    have hx := spots (f := f) x hwell.2.1
    have hy := spots (f := f) y hwell.2.2
    cases op with
    | compare op =>
      rw [jumpIf]
      refine .ite (fun hk => ?_) fun _ => ?_
      · refine Leaves.first ?_ fun _ => leaves_of_grows
        exact (hx.flags op hk hy.value).mono (has_of_scalar hwell.1 hk)
      · exact .second leaves_of_grows fun _ => spoils_emit.mono fun _ => refused_jumpIf
    | logic op =>
      have hhas : (Expr.binary (.logic op) k x y).Has Unselected → x.Has Unselected ∨ y.Has Unselected := fun hhas =>
        (has_binary.1 hhas).resolve_left (by rintro ⟨⟨⟩, -, -, -⟩)
      rw [jumpIf]
      refine .ite (fun _ => ?_) fun _ => ?_
      · refine .second spoils_newLabel fun skip => ((ihx hwell.2.1 skip _).bind fun _ => ?_).mono hhas
        exact (ihy hwell.2.2 l sense).first fun _ => spoils_emit.mono False.elim
      · exact ((ihx hwell.2.1 l sense).bind fun _ => ihy hwell.2.2 l sense).mono hhas
    | _ =>
      rw [jumpIf]
      · exact htest l sense hwell
      all_goals simp
  | ret vs => exact fun l sense => htest l sense hwell
  | call l' n sig args => exact fun l sense => htest l sense hwell

theorem spoils_leave : Spoils f False leave := by
  refine spoils_emitFrame.first fun _ => .second leaves_of_grows fun g => ?_
  exact (leaves_forM fun r _ => leaves_of_grows).first fun _ => spoils_emit.mono False.elim

/-- At statement level, steps of numbers that fit a register have instructions. -/
def Spotted (e : Expr) : Prop := e.Has fun x => Unselected x ∧ (x = e → x.isNarrowStep = false)

theorem Spotted.has (h : Spotted e) : e.Has Unselected := by
  obtain ⟨x, hx, hU, -⟩ := h
  exact ⟨x, hx, hU⟩

theorem Spotted.cases {op : UnaryOp} {k : Kind} {x : Expr} (h : Spotted (.unary op k x)) :
    (Unselected (.unary op k x) ∧ isNarrowStep (.unary op k x) = false) ∨ x.Has Unselected := by
  obtain ⟨y, hy, hU, hstep⟩ := h
  cases hy with
  | refl => exact .inl ⟨hU, hstep rfl⟩
  | child hc hy =>
    obtain rfl := List.mem_singleton.1 hc
    exact .inr ⟨y, hy, hU⟩

/-- Inexact arithmetic at statement level is refused whatever it works on, steps for their width. -/
theorem refused_inexact {op : UnaryOp} {k : Kind} {x : Expr} (hinexact : isInexact (.unary op k x) = true)
    (hstep : isNarrowStep (.unary op k x) = false) (d : Expr) : Refused (.unary op k d) := by
  have hwide : isNarrowStep (.unary .inc k x) = false → 8 < k.size := by
    simp only [isNarrowStep, decide_eq_false_iff_not]
    omega
  cases op with
  | neg | cast => exact refused_value (by simp)
  | inc | dec => exact refused_wide_step (by simp) (hwide hstep)
  | _ => cases hinexact

theorem Spotted.refused {op : UnaryOp} {k : Kind} {x : Expr} (h : Spotted (.unary op k x)) : Refused (.unary op k x) := by
  rcases h.cases with ⟨hself, hstep⟩ | hx
  · exact refused_inexact hself.inexact hstep x
  · exact refused_unary (operand_of_children (children_of_has hx))

theorem spoils_step {op : UnaryOp} {k : Kind} {x : Expr} (hx : Spots (unselected f) x) :
    Spoils f (Spotted (.unary op k x)) (do
      let d ← resolveTarget x
      emit (.unary op k d)
      return d) := by
  have hself : ∀ d, Spoils f (Unselected (.unary op k x) ∧ isNarrowStep (.unary op k x) = false)
      (emit (.unary op k d)) := fun d => spoils_emit.mono fun h => refused_inexact h.1.inexact h.2 d
  exact (hx.target.bind fun d => (hself d).first fun _ => leaves_of_grows).mono fun h => h.cases.symm

/-- What a statement that is not selected gives back is refused. -/
theorem refused_of_returned {r : Expr} {s s' : Session} (heffect : e.isEffectFree = false) (he : Spotted e → Refused e)
    (h : Gives f (do warn e; return e) s r s') :
    s.Precedes s' ∧ (Spotted e → s'.Spoiled ∨ (r.isEffectFree = false ∧ Refused r)) := by
  obtain ⟨_, s₁, hwarn, hret⟩ := h.bind
  obtain rfl := Gives.note hwarn
  obtain ⟨rfl, rfl⟩ := hret.pure
  exact ⟨.refl _, fun hspot => .inr ⟨heffect, he hspot⟩⟩

theorem spoils_selectReturn (vs : List Expr) (hlen : vs.length ≤ 2) (hwell : ∀ v ∈ vs, v.WellKinded) :
    Spoils f (∃ v ∈ vs, v.Has Unselected) (selectReturn vs) := by
  have hinto : ∀ {v : Expr}, Spots (unselected f) v → ∀ dst, Spoils f (v.Has Unselected) (into dst v none) := fun hv dst =>
    (hv.into_none dst).mono fun h => ⟨h, trivial⟩
  match vs, hlen with
  | [], _ => exact (spoils_leave.first fun _ => leaves_of_grows).mono (by simp)
  | [v], _ =>
    have hv := hinto (spots (f := f) v (hwell v (by simp))) (fixed v.kind rax)
    exact (hv.first fun _ => spoils_leave.first fun _ => leaves_of_grows).mono (by simp)
  | [v, w], _ =>
    have hv := spots (f := f) v (hwell v (by simp))
    have hw := spots (f := f) w (hwell w (by simp))
    refine Leaves.mono (B := fun _ => v.Has Unselected ∨ w.Has Unselected) ?_ (by simp)
    refine .second leaves_of_grows fun a => (hinto hv a).bind fun _ => .second leaves_of_grows fun b => ?_
    refine (hinto hw b).first fun _ => .second leaves_of_grows fun _ => .second leaves_of_grows fun _ => ?_
    exact spoils_leave.first fun _ => leaves_of_grows

/-- A statement with unselected arithmetic in it leaves a refused item, or is given back and refused. -/
theorem refused_statement (hwell : e.WellKinded) (heffect : e.isEffectFree = false) {s s' : Session} {r : Expr}
    (h : Gives f (statement e) s r s') :
    s.Precedes s' ∧ (Spotted e → s'.Spoiled ∨ (r.isEffectFree = false ∧ Refused r)) := by
  have hspoils : ∀ {B : Prop} {act : Lower Expr}, Spoils f B act → (Spotted e → B) → Gives f act s r s' →
      s.Precedes s' ∧ (Spotted e → s'.Spoiled ∨ (r.isEffectFree = false ∧ Refused r)) := fun hact hB hg =>
    ⟨(hact hg).1, fun hspot => .inl ((hact hg).2 (hB hspot))⟩
  have hpure : ¬Spotted e → Gives f (pure e) s r s' →
      s.Precedes s' ∧ (Spotted e → s'.Spoiled ∨ (r.isEffectFree = false ∧ Refused r)) := by
    intro hno hg
    obtain ⟨-, rfl⟩ := hg.pure
    exact ⟨.refl _, fun hspot => absurd hspot hno⟩
  unfold statement at h
  rw [if_neg (by simp [heffect])] at h
  cases e with
  | const | reg | memAt => cases heffect
  | label l => exact hpure (fun hspot => not_has_of_children rfl hspot.has) h
  | mem k ro a => exact refused_of_returned heffect (fun _ => refused_mem) h
  | unary op k x =>
    have hx := spots (f := f) x hwell.2
    cases op with
    | inc | dec | zero => exact hspoils (spoils_step hx) id h
    | jump =>
      cases x with
      | label l =>
        refine hpure (fun hspot => ?_) h
        rcases hspot.cases with ⟨⟨⟨⟩, -, -, -⟩, -⟩ | hlabel
        exact not_has_of_children rfl hlabel
      | _ => exact refused_of_returned heffect Spotted.refused h
    | _ => exact refused_of_returned heffect Spotted.refused h
  | binary op k x y =>
    have hx := spots (f := f) x hwell.2.1
    have hy := spots (f := f) y hwell.2.2
    have hinner : isInexact (.binary op k x y) = false → Spotted (.binary op k x y) →
        x.Has Unselected ∨ y.Has Unselected := by
      intro hno hspot
      refine (has_binary.1 hspot.has).resolve_left fun hself => ?_
      rw [hself.inexact] at hno
      cases hno
    cases op with
    | jumpIf =>
      cases x with
      | label l =>
        refine hspoils ((spoils_jumpIf y hwell.2.2 l true).first fun _ => leaves_of_grows) (fun hspot => ?_) h
        exact (hinner rfl hspot).resolve_left (not_has_of_children rfl)
      | _ => exact refused_of_returned heffect (fun _ => refused_jumpIf) h
    | assign => exact hspoils (spoils_assign hx hy) (hinner rfl) h
    | compound a => exact hspoils (spoils_compound hwell.1 hx hy) Spotted.has h
    | _ => exact hspoils (spots (f := f) _ hwell).value Spotted.has h
  | ret vs =>
    have hargs : Spotted (.ret vs) → ∃ v ∈ vs, v.Has Unselected := fun hspot =>
      (has_iff.1 hspot.has).resolve_left (by rintro ⟨⟨⟩, -, -, -⟩)
    by_cases hlen : vs.length ≤ 2
    · exact hspoils (spoils_selectReturn vs hlen ((wellKindedL_iff vs).1 hwell)) hargs h
    · match vs, hlen with
      | [], hlen => simp at hlen
      | [_], hlen => simp at hlen
      | [_, _], hlen => simp at hlen
      | u :: v :: w :: vs, _ => exact refused_of_returned heffect (fun _ => refused_ret (by simp)) h
  | call l n sig args =>
    have hcall : Spoils f (args ≠ []) (discard (emitCall (.call l n sig args))) :=
      spoils_emitCall.first (k := fun _ => pure ()) fun _ => leaves_of_grows
    exact hspoils (hcall.first fun _ => leaves_of_grows) (fun hspot => children_of_has hspot.has) h

theorem spoils_selectBody {flat : Flat} (hcode : ∀ e ∈ flat.code.toList, e.isEffectFree = false ∧ e.WellKinded)
    (he : e ∈ flat.code.toList) : Spoils f (Spotted e) (flat.selectBody select) := by
  have hone : ∀ d ∈ flat.code.toList, Spoils f (Spotted d) (do
      let m := (← get).mark
      let r ← select d true
      if !r.isEffectFree then Lower.emit r
      modify (Session.release m)) := by
    intro d hd
    refine .second leaves_of_grows fun s₀ => ?_
    intro s u s' hg
    obtain ⟨r, s₁, hr, hrest⟩ := hg.bind
    obtain ⟨hle, hspoiled⟩ := refused_statement (hcode d hd).2 (hcode d hd).1 hr
    have hemit : Spoils f (r.isEffectFree = false ∧ Refused r) (do
        if !r.isEffectFree then Lower.emit r
        modify (Session.release s₀.mark)) := by
      have hrelease : Spoils f False (modify (Session.release s₀.mark) : Lower Unit) := leaves_of_grows
      refine .ite (fun _ => (spoils_emit.mono And.right).first fun _ => hrelease) fun hfree => hrelease.mono fun h => ?_
      exact hfree (by rw [h.1]; rfl)
    refine ⟨hle.trans (hemit hrest).1, fun hspot => ?_⟩
    exact (hspoiled hspot).elim (fun h => h.mono (hemit hrest).1) (hemit hrest).2
  exact leaves_forM_of_mem he (hone e he) fun d hd => (hone d hd).mono False.elim

end Statements

/-! ## Functions -/

/-- Arithmetic on floats or complex numbers, at statement level or nested, makes compilation fail, unless it is a compound
assignment or, at statement level, a step by one of a number that fits a register. -/
theorem compile_inexact {f : Func} {registry : Registry} (hreg : registry.get .amd64 = .ok target)
    (hb : ∀ s ∈ f.source, s.Built) {flat : Flat} {log log' : Log} (hflat : f.flatten log = (.ok flat, log'))
    {e x : Expr} (he : e ∈ flat.code.toList) (hx : x.Within e) (hinexact : x.isInexact = true)
    (hsoft : ∀ z ∈ x.children, z.isPhysical = false) (hcompound : x.isNarrowCompound = false)
    (hstep : x = e → x.isNarrowStep = false) :
    ∃ err, (f.compile registry .w64 .amd64 log).1 = .error err := by
  have hbuilt := Func.flatten_built hb hflat
  have hspotted : Spotted e := by
    refine ⟨x, hx, ⟨hinexact, hsoft, ?_, hcompound⟩, hstep⟩
    rintro k c rfl
    exact (hbuilt e he).2.folded ⟨_, hx, k, c, rfl⟩
  rcases hrun : f.compile registry .w64 .amd64 log with ⟨err | code, log₁⟩
  · exact ⟨err, rfl⟩
  -- had it succeeded, selection would have left a refused item to the assembler
  · exfalso
    obtain ⟨l, log₂, hlower, hassemble⟩ := Stage.of_run_bind hrun
    obtain ⟨flat', logf, s₁, s₂, hflat', henter, hbody, hl⟩ := Func.lower_eq_ok hreg hlower
    cases hflat.symm.trans hflat'
    have hcode : ∀ e ∈ flat.code.toList, e.isEffectFree = false ∧ e.WellKinded := fun d hd =>
      ⟨(hbuilt d hd).1, (hbuilt d hd).2.wellKinded⟩
    obtain ⟨d, hd, hmem⟩ := (spoils_selectBody hcode he hbody).2 hspotted
    have hitem : .instr d ∈ l.code := by
      rw [hl]
      unfold Frame.code
      split
      · exact List.mem_filter.2 ⟨hmem, rfl⟩
      · exact hmem
    have hfst := Lowered.assemble_fst hreg (by rw [hl] : l.arch = .amd64) log₂
    obtain ⟨err, herr⟩ := assemble_refused hd hitem log₂
    rw [hassemble, herr] at hfst
    cases hfst

/-- A function of two numbers of eight bytes that runs `e`. -/
def floatFunc (e : Expr) : Func where
  name := "f"
  sig := ⟨[.float64, .float64], []⟩
  regs := [Func.softReg 0 .float64, Func.softReg 1 .float64]
  labels := {}
  source := [.expr e, .expr (.ret [])]

/-- The first number less the second one. -/
def floatDifference : Expr :=
  .binary (.arith .sub) .float64 (.reg (Func.softReg 0 .float64)) (.reg (Func.softReg 1 .float64))

/-- Stores the difference in the first parameter. -/
def storeDifference : Expr := .binary .assign .float64 (.reg (Func.softReg 0 .float64)) floatDifference

theorem compile_inexact_floatDifference : floatDifference.isInexact = true ∧ floatDifference.Within storeDifference ∧
    ∃ err, ((floatFunc storeDifference).compile ⟨[target]⟩ .w64 .amd64 #[]).1 = .error err := by
  have ha : (Expr.reg (Func.softReg 0 .float64)).Built := .reg _
  have hb : (Expr.reg (Func.softReg 1 .float64)).Built := .reg _
  have hbuilt : ∀ s ∈ (floatFunc storeDifference).source, s.Built := by
    refine List.forall_mem_cons.2 ⟨.expr (.binary .assign ha (.binary (.arith .sub) ha hb rfl) rfl), ?_⟩
    exact List.forall_mem_singleton.2 (.expr (.ret (List.forall_mem_nil _) rfl))
  have hflat : ∃ flat log', (floatFunc storeDifference).flatten #[] = (.ok flat, log') ∧
      storeDifference ∈ flat.code.toList := ⟨_, _, rfl, List.mem_cons_self⟩
  obtain ⟨flat, log', hflat, hmem⟩ := hflat
  have hwithin : floatDifference.Within storeDifference := .child (List.mem_cons_of_mem _ List.mem_cons_self) .refl
  exact ⟨rfl, hwithin, compile_inexact rfl hbuilt hflat hmem hwithin rfl (by decide) rfl (by decide)⟩

/-- Adds the second parameter to the first one. -/
def floatSum : Expr :=
  .binary (.compound .add) .float64 (.reg (Func.softReg 0 .float64)) (.reg (Func.softReg 1 .float64))

/-- A compound assignment to a float is compiled, to the addition of integers `add rsi, rdi`. -/
theorem compile_floatSum : floatSum.Built ∧ floatSum.isInexact = true ∧
    (∃ flat, ((floatFunc floatSum).flatten #[]).1 = .ok flat ∧ floatSum ∈ flat.code.toList) ∧
    ((floatFunc floatSum).compile ⟨[target]⟩ .w64 .amd64 #[]).1.toOption.map MachineCode.code =
      some [0x48, 0x01, 0xFE, 0xC3] := by
  refine ⟨?_, rfl, ⟨_, rfl, List.mem_cons_self⟩, by cbv⟩
  exact .binary (.compound .add) (.reg (Func.softReg 0 .float64)) (.reg (Func.softReg 1 .float64)) rfl

end Amd64

end JitBackend
