import JitBackend.Proofs.Amd64.Acceptance
import JitBackend.Proofs.Amd64.Roundtrip
import JitBackend.Proofs.Amd64.Signs

/-!
# Code that the encoder refuses

What selection has no instructions for, it stores as it is, and the encoder refuses it: the operands of an instruction
are registers, addresses over registers, constants and labels. A function with one such item is not assembled
(`assemble_refused`).

Such an item is a sign (`refusal`), and `Lower.Spoils` says when a computation of selection leaves one.
-/

namespace JitBackend

/-- A hard register or an address over hard registers. -/
def Expr.isPhysical : Expr → Bool
  | reg r => !r.id.isSoft
  | memAt .. => true
  | _ => false

namespace Amd64

/-! ## Refused instructions -/

/-- The encoder has no bytes for the expression. -/
def Refused (e : Expr) : Prop := e.isLabel = false ∧ ∀ pre u post, (instruction e).run pre ≠ (.ok u, post)

section Instructions

variable {op : UnaryOp} {k g : Kind} {x y z : Expr}

theorem operand_of_children (h : x.children ≠ []) (o : Operand) : operand x ≠ .ok o := by
  intro ho
  rcases operand_cases ho with ⟨_, _, _, rfl, -⟩ | ⟨_, _, _, rfl, -⟩ | ⟨_, _, rfl, -⟩ | ⟨_, rfl, -⟩ <;> exact h rfl

theorem isPhysical_of_operand {o : Operand} {n : Nat} {rm : Rm} (ho : operand x = .ok o) (hrm : rmOf? o n = some rm) :
    x.isPhysical = true := by
  rcases operand_cases ho with ⟨_, _, _, rfl, -⟩ | ⟨_, _, _, rfl, -⟩ | ⟨_, _, rfl, rfl⟩ | ⟨_, rfl, rfl⟩
  · rfl
  · rfl
  · cases hrm
  · cases hrm

theorem width_of_lt (hk : 8 < k.size) (n : Nat) : width k ≠ .ok n := by
  cases k <;> first | (intro h; cases h; done) | exact absurd hk (by decide)

theorem refused_ret {vs : List Expr} (h : vs ≠ []) : Refused (.ret vs) := by
  cases vs with
  | nil => exact absurd rfl h
  | cons v vs => exact ⟨rfl, fun _ _ _ => run_throw_ne_ok⟩

theorem refused_call {l : Label} {n : Option String} {sig : Signature} {args : List Expr} (h : args ≠ []) :
    Refused (.call l n sig args) := by
  cases args with
  | nil => exact absurd rfl h
  | cons a as => exact ⟨rfl, fun _ _ _ => run_throw_ne_ok⟩

theorem refused_mem {ro : Bool} : Refused (.mem k ro x) := ⟨rfl, fun _ _ _ => run_throw_ne_ok⟩

theorem refused_jumpIf : Refused (.binary .jumpIf k x y) := ⟨rfl, fun _ _ _ => run_throw_ne_ok⟩

/-- An operation on something that is no operand. -/
theorem refused_unary (hx : ∀ o, operand x ≠ .ok o) : Refused (.unary op k x) := by
  have hlabel : ∀ l, jumpTarget x ≠ .ok l := by
    intro l hl
    obtain rfl := jumpTarget_eq_ok hl
    exact hx _ rfl
  have hdest : ∀ n rm, destination x n ≠ .ok rm := by
    intro n rm hrm
    obtain ⟨o, ho, -⟩ := destination_eq_ok hrm
    exact hx o ho
  refine ⟨rfl, fun pre u post h => ?_⟩
  simp only [instruction] at h
  cases op <;> simp only [outUnary, run_bind_eq_ok, run_lift_eq_ok, run_throw_ne_ok] at h
  case jump | jcc =>
    obtain ⟨_, _, -, l, _, ⟨hl, -⟩, -⟩ := h
    exact hlabel l hl
  case setcc =>
    obtain ⟨rm, _, ⟨hrm, -⟩, -⟩ := h
    exact hdest _ _ hrm
  case inc | dec =>
    obtain ⟨_, _, -, rm, _, ⟨hrm, -⟩, -⟩ := h
    exact hdest _ _ hrm
  case push | pop =>
    obtain ⟨o, _, ⟨ho, -⟩, -⟩ := h
    exact hx o ho
  case zero =>
    obtain ⟨_, _, -, o, _, ⟨ho, -⟩, -⟩ := h
    exact hx o ho

/-- Negations and casts are instructions only with a target. -/
theorem refused_value (hop : op = .neg ∨ op = .cast) : Refused (.unary op k x) := by
  rcases hop with rfl | rfl <;> exact ⟨rfl, fun _ _ _ => run_throw_ne_ok⟩

theorem refused_wide_step (hop : op = .inc ∨ op = .dec) (hk : 8 < k.size) : Refused (.unary op k x) := by
  refine ⟨rfl, fun pre u post h => ?_⟩
  rcases hop with rfl | rfl <;> simp only [instruction, outUnary, run_bind_eq_ok, run_lift_eq_ok] at h
  all_goals
    obtain ⟨n, _, ⟨hn, -⟩, -⟩ := h
    exact width_of_lt hk n hn

/-- No operation is wider than a register. -/
theorem refused_wide_compound {a : ArithOp} (hx : x.kind = k) (hk : 8 < k.size) : Refused (.binary (.compound a) k x y) := by
  refine ⟨rfl, fun pre u post h => ?_⟩
  have hwide := width_of_lt hk
  cases a
  all_goals
    simp only [instruction, outBinary, aluDigit, outDivide, run_bind_eq_ok, run_lift_eq_ok, run_throw_ne_ok, hx] at h
  case quo | rem =>
    obtain ⟨_, _, -, _, _, -, n, _, ⟨hn, -⟩, -⟩ := h
    exact hwide n hn
  all_goals
    obtain ⟨n, _, ⟨hn, -⟩, -⟩ := h
    exact hwide n hn

theorem refused_assign_binary {op : BinaryOp} : Refused (.binary .assign g z (.binary op k x y)) := by
  refine ⟨rfl, fun pre u post h => ?_⟩
  simp only [instruction, outBinary, aluDigit, outAssign, run_bind_eq_ok, run_lift_eq_ok] at h
  obtain ⟨_, _, -, _, _, -, o, _, ⟨ho, -⟩, -⟩ := h
  cases ho

theorem refused_assign_ret {vs : List Expr} : Refused (.binary .assign g z (.ret vs)) := by
  refine ⟨rfl, fun pre u post h => ?_⟩
  simp only [instruction, outBinary, aluDigit, outAssign, run_bind_eq_ok, run_lift_eq_ok] at h
  obtain ⟨_, _, -, _, _, -, o, _, ⟨ho, -⟩, -⟩ := h
  cases ho

theorem refused_assign_unary (hx : ∀ o, operand x ≠ .ok o) : Refused (.binary .assign g z (.unary op k x)) := by
  refine ⟨rfl, fun pre u post h => ?_⟩
  simp only [instruction, outBinary, aluDigit, outAssign, run_bind_eq_ok, run_lift_eq_ok] at h
  obtain ⟨_, _, -, dst, _, -, h⟩ := h
  cases op <;> simp only [run_bind_eq_ok, run_lift_eq_ok, run_throw_ne_ok] at h
  case lea | neg | inv =>
    obtain ⟨o, _, ⟨ho, -⟩, -⟩ := h
    exact hx o ho
  case cast =>
    cases dst <;> simp only [outCast, run_bind_eq_ok, run_lift_eq_ok, run_throw_ne_ok, and_false, exists_false] at h
    obtain ⟨_, _, -, _, _, -, o, _, ⟨ho, -⟩, -⟩ := h
    exact hx o ho

/-- A negation is done in place, so its operand is the target. -/
theorem refused_assign_neg (hx : x.isPhysical = false) : Refused (.binary .assign g z (.unary .neg k x)) := by
  refine ⟨rfl, fun pre u post h => ?_⟩
  simp only [instruction, outBinary, aluDigit, outAssign, run_bind_eq_ok, run_lift_eq_ok] at h
  obtain ⟨n, _, -, dst, _, ⟨hdst, -⟩, o, _, ⟨ho, -⟩, h⟩ := h
  split at h
  · simp only [run_bind_eq_ok, run_throw_ne_ok, false_and, exists_false] at h
  · rename_i heq
    obtain rfl : o = dst := by simpa using heq
    simp only [run_bind_eq_ok, run_lift_eq_ok] at h
    obtain ⟨rm, _, ⟨hrm, -⟩, -⟩ := h
    obtain ⟨o', ho', hrm⟩ := destination_eq_ok hrm
    cases hdst.symm.trans ho'
    rw [isPhysical_of_operand ho hrm] at hx
    cases hx

theorem refused_assign_step (hop : op = .inc ∨ op = .dec) : Refused (.binary .assign g z (.unary op k x)) := by
  refine ⟨rfl, fun pre u post h => ?_⟩
  rcases hop with rfl | rfl
  all_goals
    simp only [instruction, outBinary, aluDigit, outAssign, run_bind_eq_ok, run_lift_eq_ok, run_throw_ne_ok, and_false,
      exists_false] at h

end Instructions

/-! ## Assembling -/

section Assembling

theorem encode_refused {e : Expr} (he : Refused e) {b b' : Buffer} {log log' : Log} {u : Unit} :
    encode e b log ≠ ((.ok u, b'), log') := by
  intro h
  unfold encode at h
  obtain ⟨_, _, _, -, h⟩ := Assemble.of_run_bind h
  dsimp only at h
  split at h
  · cases he.1
  · rcases hrun : (instruction e).run [] with ⟨err | u, pieces⟩
    · rw [hrun] at h
      obtain ⟨_, _, _, -, h⟩ := Assemble.of_run_bind h
      obtain ⟨_, _, _, h, -⟩ := Assemble.of_run_bind h
      cases h
    · exact he.2 _ _ _ hrun

theorem forM_refused {n : Nat} {e : Expr} (he : Refused e) : ∀ {items : List Item}, .instr e ∈ items →
    ∀ {b b' : Buffer} {log log' : Log} {u : Unit}, items.forM (encodeItem n) b log ≠ ((.ok u, b'), log')
  | i :: items, hmem, b, b', log, log', u, h => by
    rw [List.forM] at h
    obtain ⟨_, b₁, log₁, hi, hrest⟩ := Assemble.of_run_bind h
    rcases List.mem_cons.1 hmem with rfl | hmem
    · exact encode_refused he hi
    · exact forM_refused he hmem hrest

/-- A function with a refused item is not assembled. -/
theorem assemble_refused {l : Lowered} {e : Expr} (he : Refused e) (hmem : .instr e ∈ l.code) (log : Log) :
    ∃ err, (assemble l log).1 = .error err := by
  rw [assemble_eq]
  rcases hrun : l.code.forM (encodeItem l.frame) (Buffer.withLabels l.labels.size) log with ⟨⟨err | u, b⟩, log'⟩
  · exact ⟨err, rfl⟩
  · exact absurd hrun (forM_refused he hmem)

end Assembling

end Amd64

/-! ## Refused items of a session -/

/-- Some item is refused. -/
def Session.Spoiled (s : Session) : Prop := ∃ e, Amd64.Refused e ∧ .instr e ∈ s.items.toList

theorem Session.Spoiled.mono {s s' : Session} (h : s.Spoiled) (hle : s.Precedes s') : s'.Spoiled := by
  obtain ⟨e, he, hmem⟩ := h
  exact ⟨e, he, hle.items.subset hmem⟩

/-- A refused item. -/
def refusal : Sign where
  Seen _ s' := s'.Spoiled
  widen _ h hle := h.mono hle

namespace Lower

/-- The computation leaves a refused item if `B`. -/
abbrev Spoils {α : Type} (f : Frame) (B : Prop) (act : Lower α) : Prop := Leaves f refusal (fun _ => B) act

section Rules

variable {f : Frame}

theorem spoils_newLabel : Spoils f False newLabel := by
  intro s l s' hg
  obtain ⟨-, rfl⟩ := hg.newLabel
  exact ⟨⟨List.prefix_rfl, le_rfl⟩, False.elim⟩

theorem spoils_emit {e : Expr} : Spoils f (Amd64.Refused e) (emit e) := by
  intro s u s' hg
  obtain rfl := hg.emit
  exact ⟨.push s _, fun he => ⟨e, he, by simp⟩⟩

theorem spoils_emitFrame {op : Op} : Spoils f False (emitFrame op) := by
  refine .second leaves_of_grows fun g => ?_
  split
  · exact .throw
  · refine .second leaves_of_grows fun _ => ?_
    intro s u s' hg
    obtain rfl := hg.modify
    exact ⟨.push s _, False.elim⟩

end Rules

end Lower

namespace Amd64

open Lower

section Operands

variable {f : Frame} {dst : Expr} {op : ArithOp} {y : Lower Expr}

theorem spoils_passThrough {e : Expr} : Spoils f (Refused (.binary .assign dst.kind dst e)) (passThrough dst e) :=
  .second leaves_of_grows fun _ => spoils_emit

/-- An operation that is wider than a register. -/
theorem spoils_opAssign_wide (hk : 8 < dst.kind.size) (hop : op ∈ [ArithOp.add, .sub, .mul, .quo])
    (hy : Spoils f False y) : Spoils f True (opAssign dst op y) := by
  have hemit : ∀ {a : ArithOp} {d v : Expr}, d.kind = dst.kind →
      Spoils f True (emit (.binary (.compound a) dst.kind d v)) := fun hd =>
    spoils_emit.mono fun _ => refused_wide_compound hd hk
  have h1 : ¬dst.kind.size = 1 := by omega
  refine .releasing ?_
  simp only [List.mem_cons, List.not_mem_nil, or_false] at hop
  rcases hop with rfl | rfl | rfl | rfl
  · exact hy.second fun v => .second leaves_of_grows fun w => hemit rfl
  · exact hy.second fun v => .second leaves_of_grows fun w => hemit rfl
  · refine .ite (fun h => absurd h h1) fun _ => .ite (fun _ => ?_) fun _ => ?_
    · refine .second_of (P := fun t : Reg => t.kind = dst.kind) leaves_of_grows ?_ ?_
      · intro s t s' hg
        obtain ⟨r, -, rfl, -⟩ := scratch_eq_ok hg.change
        rfl
      · intro t ht
        refine .second leaves_of_grows fun _ => Leaves.first (.releasing ?_) fun _ => leaves_of_grows
        exact hy.second fun v => .second leaves_of_grows fun w => hemit ht
    · exact hy.second fun v => .second leaves_of_grows fun w => hemit rfl
  · have hdivide : ∀ d, Spoils f True (do
        mov (fixed dst.kind rax) dst
        emit (.binary (.compound .quo) dst.kind (fixed dst.kind rax) d)
        mov dst (fixed dst.kind rax)) := fun d =>
      .second leaves_of_grows fun _ => Leaves.first (hemit rfl) fun _ => leaves_of_grows
    refine .ite (fun h => absurd h h1) fun _ => hy.second fun v => .ite (fun _ => ?_) fun _ => ?_
    · exact hdivide v
    · exact .second leaves_of_grows fun r => hdivide (.reg r)

end Operands

/-! ## Calls -/

section Calls

variable {f : Frame} {l : Label} {n : Option String} {sig : Signature} {args : List Expr}

/-- A call with arguments is refused. -/
theorem spoils_emitCall : Spoils f (args ≠ []) (emitCall (.call l n sig args)) := by
  rw [emitCall_eq]
  refine .second (.ite (fun _ => leaves_of_grows) fun _ => leaves_of_grows) fun _ => ?_
  refine Leaves.first (.releasing ?_) fun _ => leaves_of_grows
  refine .second leaves_of_grows fun s => .second leaves_of_grows fun g => .second leaves_of_grows fun saved => ?_
  exact (spoils_emit.mono refused_call).first fun _ => leaves_forM fun _ _ => leaves_of_grows

theorem spoils_callValue : Spoils f (args ≠ []) (callValue (.call l n sig args)) := by
  refine spoils_emitCall.first fun v => ?_
  exact .ite (fun _ => leaves_of_grows) fun _ => leaves_of_grows

end Calls

end Amd64

end JitBackend
