import JitBackend.Proofs.Amd64.Appending
import JitBackend.Proofs.Amd64.Recursion

/-!
# Termination of selection

Unrolling the equations of selection deep enough answers a call, whatever answers the calls at the bottom (`Answered`), so
the recursion ends and its functions are the one solution of the equations (`selection_terminates`).

No single measure gets smaller with every call. The order is that of the trees, and on one node the order in which a node is
taken apart: as an address by its operands, then computed into a place, then a value, and last a term. Only for a logical
operation does the tree not bound the depth: it takes temporaries until one is not in the way, and these run out.
-/

namespace JitBackend.Amd64

open Lower

/-! ## Convergence -/

/-- Rounds of the equations over the functions of selection, or at least `n` rounds over any others. -/
def Near (n : Nat) (S : Solver) : Prop := ∃ S₀ m, S = unroll^[m] S₀ ∧ (n ≤ m ∨ S₀ = selection)

theorem Near.mono {n m : Nat} {S : Solver} (h : Near m S) (hle : n ≤ m) : Near n S := by
  obtain ⟨S₀, d, rfl, hd⟩ := h
  exact ⟨S₀, d, rfl, hd.imp_left hle.trans⟩

/-- From some depth on, `p` runs like `q` in the given state. -/
def ConvergesAt {α : Type} (f : Frame) (s : Session) (log : Log) (p : Solver → Lower α) (q : Lower α) : Prop :=
  ∃ n, ∀ S, Near n S → p S f s log = q f s log

def Converges {α : Type} (p : Solver → Lower α) (q : Lower α) : Prop := ∀ f s log, ConvergesAt f s log p q

/-- In every state, finitely many rounds answer a call. -/
abbrev Answered {α : Type} (c : Call α) : Prop := Converges (fun S => S α c) (selection α c)

section Convergence

variable {α β : Type} {f : Frame} {s : Session} {log : Log} {p : Solver → Lower α} {q : Lower α}

theorem run_bind_ok {act : Lower α} {k : α → Lower β} {a : α} {s' : Session} {log' : Log}
    (h : act f s log = ((.ok a, s'), log')) : (act >>= k) f s log = k a f s' log' := by
  simp only [Bind.bind, ReaderT.bind, ExceptT.bind, ExceptT.mk, StateT.bind, h, ExceptT.bindCont]

theorem run_bind_error {act : Lower α} {k : α → Lower β} {e : Error} {s' : Session} {log' : Log}
    (h : act f s log = ((.error e, s'), log')) : (act >>= k) f s log = ((.error e, s'), log') := by
  simp only [Bind.bind, ReaderT.bind, ExceptT.bind, ExceptT.mk, StateT.bind, h, ExceptT.bindCont]
  rfl

theorem run_bind_congr {act act' : Lower α} {s' : Session} {log' : Log} (h : act f s log = act' f s' log')
    (k : α → Lower β) : (act >>= k) f s log = (act' >>= k) f s' log' := by
  rcases hact : act' f s' log' with ⟨⟨_ | a, s₁⟩, log₁⟩
  · rw [run_bind_error (h.trans hact), run_bind_error hact]
  · rw [run_bind_ok (h.trans hact), run_bind_ok hact]

theorem run_releasing (act : Lower α) : Lower.releasing act f s log =
    (((act f s log).1.1, (act f s log).1.2.release s.mark), (act f s log).2) := rfl

theorem Converges.same (q : Lower α) : Converges (fun _ => q) q := fun _ _ _ => ⟨0, fun _ _ => rfl⟩

theorem Converges.of_eq (h : ∀ S, p S = q) : Converges p q :=
  fun f s log => ⟨0, fun S _ => congrFun (congrFun (congrFun (h S) f) s) log⟩

theorem ConvergesAt.bind {k : Solver → α → Lower β} {k' : α → Lower β} (h : ConvergesAt f s log p q)
    (hk : ∀ a s' log', q f s log = ((.ok a, s'), log') → ConvergesAt f s' log' (fun S => k S a) (k' a)) :
    ConvergesAt f s log (fun S => p S >>= k S) (q >>= k') := by
  obtain ⟨n, hn⟩ := h
  rcases hq : q f s log with ⟨⟨_ | a, s'⟩, log'⟩
  · exact ⟨n, fun S hS => (run_bind_error ((hn S hS).trans hq)).trans (run_bind_error hq).symm⟩
  · obtain ⟨m, hm⟩ := hk a s' log' hq
    refine ⟨max n m, fun S hS => ?_⟩
    have hp := (hn S (hS.mono (le_max_left n m))).trans hq
    exact (run_bind_ok hp).trans ((hm S (hS.mono (le_max_right n m))).trans (run_bind_ok hq).symm)

theorem Converges.bind {k : Solver → α → Lower β} {k' : α → Lower β} (h : Converges p q)
    (hk : ∀ a, Converges (fun S => k S a) (k' a)) : Converges (fun S => p S >>= k S) (q >>= k') :=
  fun f s log => (h f s log).bind fun a s' log' _ => hk a f s' log'

/-- Only results that occur have to be gone on from. -/
theorem Converges.bind_of {P : α → Prop} {k : Solver → α → Lower β} {k' : α → Lower β} (h : Converges p q)
    (hP : ∀ {f s a s'}, Gives f q s a s' → P a) (hk : ∀ a, P a → Converges (fun S => k S a) (k' a)) :
    Converges (fun S => p S >>= k S) (q >>= k') :=
  fun f s log => (h f s log).bind fun a s' log' hq => hk a (hP ⟨log, log', hq⟩) f s' log'

theorem ConvergesAt.releasing (h : ConvergesAt f s log p q) :
    ConvergesAt f s log (fun S => Lower.releasing (p S)) (Lower.releasing q) := by
  obtain ⟨n, hn⟩ := h
  refine ⟨n, fun S hS => ?_⟩
  show Lower.releasing (p S) f s log = _
  rw [run_releasing, run_releasing, hn S hS]

theorem Converges.releasing (h : Converges p q) : Converges (fun S => Lower.releasing (p S)) (Lower.releasing q) :=
  fun f s log => (h f s log).releasing

/-- A call converges if what it does once converges. -/
theorem ConvergesAt.call {c : Call α} (h : ConvergesAt f s log (fun S => unroll S α c) (selection α c)) :
    ConvergesAt f s log (fun S => S α c) (selection α c) := by
  obtain ⟨n, hn⟩ := h
  refine ⟨n + 1, fun S hS => ?_⟩
  obtain ⟨S₀, m, rfl, hm⟩ := hS
  cases m with
  | zero =>
    obtain hm | rfl := hm
    · cases hm
    · rfl
  | succ m =>
    rw [Function.iterate_succ_apply']
    exact hn _ ⟨S₀, m, rfl, hm.imp_left Nat.le_of_succ_le_succ⟩

theorem Converges.call {c : Call α} (h : Converges (fun S => unroll S α c) (selection α c)) : Answered c :=
  fun f s log => (h f s log).call

/-- A call that makes no calls. -/
theorem Answered.of_eq {c : Call α} (h : ∀ S, unroll S α c = selection α c) : Answered c := .call (Converges.of_eq h)

end Convergence

/-! ## Operands -/

/-- Operands that selection leaves as they are. -/
inductive Ready : Expr → Prop
  | const (c : Const) : Ready (.const c)
  | label (l : Label) : Ready (.label l)
  | memAt (k : Kind) (ro : Bool) (m : AddrMode) : Ready (.memAt k ro m)
  | reg (k : Kind) (h : HardReg) (ro : Bool) : Ready (.reg ⟨k, .hard h, ro⟩)

section Operands

variable {f : Frame} {s s' : Session} {e v : Expr}

theorem ready_of_resolve {r : Reg} (h : f.resolve r = .ok v) : Ready v := by
  obtain ⟨k, id, ro⟩ := r
  cases id with
  | hard hr =>
    cases h
    exact .reg k hr ro
  | soft id =>
    simp only [Frame.resolve] at h
    split at h
    · cases h
      exact .reg ..
    · cases h
      exact .memAt ..
    · cases h

theorem ready_of_temp {k : Kind} {p : Purpose} (h : Gives f (temp k p) s v s') : Ready v := by
  rcases temp_eq_ok h.change with ⟨r, hs, rfl⟩ | hs
  · obtain ⟨hr, -, rfl, -⟩ := scratch_eq_ok hs
    exact .reg ..
  · obtain ⟨_, -, -, rfl, -⟩ := stackTemp_eq_ok hs
    exact .memAt ..

theorem ready_of_emitCall (h : Gives f (emitCall e) s v s') : Ready v := by
  rw [emitCall_eq] at h
  obtain ⟨_, _, -, hrest⟩ := h.bind
  obtain ⟨_, _, -, hpure⟩ := hrest.bind
  obtain ⟨rfl, -⟩ := hpure.pure
  split
  · exact .const _
  · exact .reg ..

theorem ready_of_callValue (h : Gives f (callValue e) s v s') : Ready v := by
  obtain ⟨c, s₁, hcall, hrest⟩ := h.bind
  split at hrest
  · obtain ⟨rfl, -⟩ := hrest.pure
    exact ready_of_emitCall hcall
  · obtain ⟨t, _, ht, hrest⟩ := hrest.bind
    obtain ⟨_, _, -, hpure⟩ := hrest.bind
    obtain ⟨rfl, -⟩ := hpure.pure
    exact ready_of_temp ht

theorem ready_of_value (h : Gives f (value e) s v s') : Ready v := by
  rw [value.eq_def] at h
  cases e with
  | const c =>
    obtain ⟨rfl, -⟩ := h.pure
    exact .const c
  | label l =>
    obtain ⟨rfl, -⟩ := h.pure
    exact .label l
  | memAt k ro m =>
    obtain ⟨rfl, -⟩ := h.pure
    exact .memAt k ro m
  | reg r => exact ready_of_resolve h.resolve.1
  | mem k ro a =>
    obtain ⟨m, _, -, hpure⟩ := h.bind
    obtain ⟨rfl, -⟩ := hpure.pure
    exact .memAt ..
  | call => exact ready_of_callValue h
  | unary | binary | ret =>
    obtain ⟨t, _, ht, hrest⟩ := h.bind
    obtain ⟨_, _, -, hpure⟩ := hrest.bind
    obtain ⟨rfl, -⟩ := hpure.pure
    exact ready_of_temp ht

/-- The value of an operand is the operand. -/
theorem Ready.value_eq (h : Ready v) : value v = pure v := by
  rw [value.eq_def]
  cases h <;> rfl

theorem Ready.unroll_value (h : Ready v) (S : Solver) : unroll S _ (.value v) = pure v := by
  cases h <;> rfl

theorem Ready.answered_value (h : Ready v) : Answered (.value v) :=
  .of_eq fun S => (h.unroll_value S).trans h.value_eq.symm

theorem Ready.converges_value (h : Ready v) : Converges (fun S => S _ (.value v)) (pure v) := by
  rw [← h.value_eq]
  exact h.answered_value

theorem answered_registerOf (h : Answered (.value e)) : Answered (.registerOf e) :=
  .call (.bind h fun v => .same (toRegister v))

theorem Ready.converges_registerOf (h : Ready v) : Converges (fun S => S _ (.registerOf v)) (toRegister v) := by
  have heq : selection _ (.registerOf v) = toRegister v := by rw [selection, h.value_eq, pure_bind]
  rw [← heq]
  exact answered_registerOf h.answered_value

theorem Ready.converges_legal (h : Ready v) (dst : Expr) : Converges (fun S => S.legal dst v) (legalSource dst v) := by
  unfold Solver.legal legalSource
  split
  · exact .same _
  · exact .bind h.converges_registerOf fun _ => .same _

theorem Ready.converges_left (h : Ready v) : Converges (fun S => S.left v) (toPlace v) := by
  unfold Solver.left toPlace
  split
  · exact .bind h.converges_registerOf fun _ => .same _
  · exact .same _

theorem converges_hard (h : Answered (.value e)) : Converges (fun S => S.hard e) (value e >>= toHard) := by
  unfold Solver.hard toHard
  rw [← bind_assoc]
  exact .bind (answered_registerOf h) fun _ => .same _

theorem Ready.converges_hard (h : Ready v) : Converges (fun S => S.hard v) (toHard v) := by
  have hcall := Amd64.converges_hard h.answered_value
  rwa [h.value_eq, pure_bind] at hcall

end Operands

/-! ## Logical operations -/

section Logic

variable {f : Frame} {s s' : Session} {log : Log} {op : LogicOp} {y dst : Expr} {left right : Expr → Lower Unit}

theorem release_release {μ ν : Mark} (h : μ ≤ ν) (s : Session) : (s.release ν).release μ = s.release μ := by
  simp only [Session.release, Session.mk.injEq, true_and, and_true]
  have h₁ := h.1
  have h₂ := h.2
  omega

theorem refuge_error {e : Error} (hh : hazard f y dst = .error e) : refuge f y dst s = (.error e, s) := by
  rw [refuge, hh]

theorem refuge_safe (hh : hazard f y dst = .ok false) : refuge f y dst s = (.ok [], s) := by
  rw [refuge, hh]

theorem refuge_stuck {e : Error} (hh : hazard f y dst = .ok true)
    (ht : s.temp f .bool (.note "logical operand") = (.error e, s')) : refuge f y dst s = (.error e, s') := by
  rw [refuge, hh]
  dsimp only
  split
  · rename_i ht'
    cases ht.symm.trans ht'
    rfl
  · rename_i ht'
    cases ht.symm.trans ht'

theorem refuge_next {t : Expr} (hh : hazard f y dst = .ok true)
    (ht : s.temp f .bool (.note "logical operand") = (.ok t, s')) :
    refuge f y dst s = ((refuge f y t s').1.map ((s.mark, t) :: ·), (refuge f y t s').2) := by
  rw [refuge, hh]
  dsimp only
  split
  · rename_i ht'
    cases ht.symm.trans ht'
  · rename_i ht'
    cases ht.symm.trans ht'
    rfl

/-- A logical operation by way of the temporaries of `refuge`. -/
def sheltered (op : LogicOp) (y dst : Expr) (left right : Expr → Lower Unit) : Lower Unit := do
  let chain ← change fun f => refuge f y dst
  logicAt op ((chain.getLast?.map (·.2)).getD dst) left right
  unwind dst chain

theorem run_sheltered_ok {chain : List (Mark × Expr)} (h : refuge f y dst s = (.ok chain, s')) :
    sheltered op y dst left right f s log =
      (do logicAt op ((chain.getLast?.map (·.2)).getD dst) left right; unwind dst chain : Lower Unit) f s' log :=
  run_bind_ok (congrArg (·, log) h)

theorem run_sheltered_error {e : Error} (h : refuge f y dst s = (.error e, s')) :
    sheltered op y dst left right f s log = ((.error e, s'), log) := run_bind_error (congrArg (·, log) h)

/-- The first temporary shelters what the others shelter. -/
theorem run_sheltered {t : Expr} {s₁ : Session} (hh : hazard f y dst = .ok true)
    (ht : s.temp f .bool (.note "logical operand") = (.ok t, s₁)) : sheltered op y dst left right f s log =
      (do sheltered op y t left right; mov dst t; modify (Session.release s.mark) : Lower Unit) f s₁ log := by
  have hrefuge := refuge_next hh ht
  rcases hr : refuge f y t s₁ with ⟨_ | rest, s₂⟩
  · rw [hr] at hrefuge
    rw [run_sheltered_error hrefuge]
    exact (run_bind_error (run_sheltered_error hr)).symm
  · rw [hr] at hrefuge
    have hlast : (((s.mark, t) :: rest).getLast?.map (·.2)).getD dst = (rest.getLast?.map (·.2)).getD t := by
      cases rest with
      | nil => rfl
      | cons c rest => rw [List.getLast?_cons_cons]; rfl
    rw [run_sheltered_ok hrefuge, run_bind_congr (run_sheltered_ok hr), bind_assoc, hlast]
    rfl

/-- What is sheltered gives its temporaries back. -/
theorem release_sheltered {u : Unit} {log' : Log} (hh : hazard f y dst = .ok true)
    (h : sheltered op y dst left right f s log = ((.ok u, s'), log')) : s'.release s.mark = s' := by
  rcases ht : s.temp f .bool (.note "logical operand") with ⟨_ | t, s₁⟩
  · rw [run_sheltered_error (refuge_stuck hh ht)] at h
    cases h
  · rw [run_sheltered hh ht] at h
    obtain ⟨_, _, -, hrest⟩ := Gives.bind ⟨log, log', h⟩
    obtain ⟨_, _, -, hrelease⟩ := hrest.bind
    rw [hrelease.modify, release_release le_rfl]

theorem run_hazard_ok {b : Bool} {act act' : Lower Unit} (hh : hazard f y dst = .ok b) :
    (do if ← hazard (← read) y dst then act else act' : Lower Unit) f s log = (if b then act else act') f s log := by
  show (liftM (hazard f y dst) >>= fun b => if b then act else act' : Lower Unit) f s log = _
  rw [hh]
  rfl

theorem run_hazard_error {e : Error} {act act' : Lower Unit} (hh : hazard f y dst = .error e) :
    (do if ← hazard (← read) y dst then act else act' : Lower Unit) f s log = ((.error e, s), log) := by
  show (liftM (hazard f y dst) >>= fun b => if b then act else act' : Lower Unit) f s log = _
  rw [hh]
  rfl

/-- A logical operation is a sheltered one; after a failure, temporaries may have been given back early. -/
theorem run_logicInto {r : Except Error Unit} {log' : Log} (h : sheltered op y dst left right f s log = ((r, s'), log')) :
    ∃ s'', logicInto op y dst left right f s log = ((r, s''), log') ∧ (∀ u, r = .ok u → s'' = s') ∧
      ∀ μ ≤ s.mark, s''.release μ = s'.release μ := by
  rcases hh : hazard f y dst with err | _ | _
  · rw [run_sheltered_error (refuge_error hh)] at h
    cases h
    exact ⟨s, run_hazard_error hh, fun _ _ => rfl, fun _ _ => rfl⟩
  · rw [run_sheltered_ok (refuge_safe hh)] at h
    have hunit : (logicAt op dst left right >>= fun _ => pure ()) = logicAt op dst left right := bind_pure_unit
    refine ⟨s', (run_hazard_ok hh).trans ?_, fun _ _ => rfl, fun _ _ => rfl⟩
    exact (congrFun (congrFun (congrFun hunit f) s) log).symm.trans h
  · refine ⟨s'.release s.mark, (run_hazard_ok hh).trans ?_, fun u hu => ?_, fun μ hμ => release_release hμ s'⟩
    · show releasing (sheltered op y dst left right) f s log = _
      rw [run_releasing, h]
    · exact release_sheltered hh (hu ▸ h)

/-- By way of a temporary, a logical operation is one in the temporary and a move. -/
theorem logicInto_eq (op : LogicOp) (y dst : Expr) (left right : Expr → Lower Unit) : logicInto op y dst left right = (do
    if ← hazard (← read) y dst then releasing do
      let t ← temp .bool (.note "logical operand")
      logicInto op y t left right
      mov dst t
    else logicAt op dst left right) := by
  funext f s log
  rcases hh : hazard f y dst with err | _ | _
  · rw [run_hazard_error hh]
    exact run_hazard_error hh
  · rw [run_hazard_ok hh]
    exact run_hazard_ok hh
  rw [run_hazard_ok hh]
  refine (run_hazard_ok hh).trans ?_
  show releasing (sheltered op y dst left right) f s log = releasing _ f s log
  rw [run_releasing, run_releasing]
  rcases ht : s.temp f .bool (.note "logical operand") with ⟨_ | t, s₁⟩
  · rw [run_sheltered_error (refuge_stuck hh ht), run_bind_error (congrArg (·, log) ht)]
  have htemp : (do
      let t ← temp .bool (.note "logical operand")
      logicInto op y t left right
      mov dst t : Lower Unit) f s log = (do logicInto op y t left right; mov dst t : Lower Unit) f s₁ log :=
    run_bind_ok (congrArg (·, log) ht)
  rw [run_sheltered hh ht, htemp]
  -- the marks of the inner temporaries are not below the one that everything is given back to
  have hle : s.mark ≤ s₁.mark := (temp_below ht).2.2.2
  rcases hs : sheltered op y t left right f s₁ log with ⟨⟨r, s₂⟩, log₂⟩
  obtain ⟨s₃, hlogic, hsame, hrelease⟩ := run_logicInto hs
  cases r with
  | error e => rw [run_bind_error hs, run_bind_error hlogic, hrelease _ hle]
  | ok u =>
    obtain rfl := hsame u rfl
    rw [run_bind_ok hs, run_bind_ok hlogic]
    rcases hmov : mov dst t f s₃ log₂ with ⟨⟨_ | _, s₄⟩, log₄⟩
    · rw [run_bind_error hmov]
    · rw [run_bind_ok hmov]
      exact congrArg (fun s' => ((Except.ok (), s'), log₄)) (release_release le_rfl s₄)

theorem converges_logicAt {x y : Expr} (hx : ∀ p, Answered (.into p x none)) (hy : ∀ p, Answered (.into p y none))
    (op : LogicOp) (dst : Expr) :
    Converges (fun S => logicAt op dst (fun p => S _ (.into p x none)) (fun p => S _ (.into p y none)))
      (logicAt op dst (fun p => into p x none) (fun p => into p y none)) :=
  .bind (.same _) fun _ => .bind (hx dst) fun _ => .bind (.same _) fun _ => .bind (.same _) fun _ =>
    .bind (hy dst) fun _ => .same _

/-- Every temporary that is taken leaves less of them, so that at some depth there is no hazard or no temporary. -/
theorem answered_logicalInto {x y : Expr} (hx : ∀ p, Answered (.into p x none)) (hy : ∀ p, Answered (.into p y none))
    (op : LogicOp) (dst : Expr) : Answered (.logicalInto dst op x y) := by
  intro f s log
  induction hn : supply f s using Nat.strong_induction_on generalizing dst s log with
  | _ n ih =>
    apply ConvergesAt.call (c := .logicalInto dst op x y)
    rw [selection, logicInto_eq]
    refine (Converges.same read f s log).bind ?_
    rintro g s₁ log₁ ⟨⟩
    refine (Converges.same _ f s log).bind ?_
    intro b s₁ log₁ hh
    obtain ⟨-, hs⟩ := Gives.lift ⟨_, _, hh⟩
    rw [hs]
    cases b with
    | false => exact converges_logicAt hx hy op dst f s log₁
    | true =>
      refine ConvergesAt.releasing ((Converges.same _ f s log₁).bind fun t s₂ log₂ ht => ?_)
      have hlt : supply f s₂ < n := hn ▸ supply_temp_lt (Gives.change ⟨_, _, ht⟩)
      exact (ih _ hlt t s₂ log₂ rfl).bind fun _ s₃ log₃ _ => Converges.same (mov dst t) f s₃ log₃

end Logic

/-! ## Instructions on operands -/

section Instructions

variable {v x y : Expr}

theorem Ready.converges_first {β : Type} {k : Solver → Expr → Lower β} {q : Lower β} (h : Ready v)
    (hk : Converges (fun S => k S v) q) : Converges (fun S => S _ (.value v) >>= k S) q := by
  have hq : (pure v >>= fun _ => q : Lower β) = q := pure_bind _ _
  intro f s log
  rw [← hq]
  refine (h.converges_value f s log).bind ?_
  rintro a s' log' ⟨⟩
  exact hk f s log

theorem Ready.converges_mask (h : Ready v) (dst : Expr) : Converges (fun S => S.mask dst v) (inverted dst v) := by
  cases h with
  | const c => exact (Ready.const _).converges_first ((Ready.const _).converges_legal dst)
  | label | memAt | reg => exact .of_eq fun _ => rfl

theorem Ready.converges_widen (h : Ready v) (dst : Expr) (k : Kind) :
    Converges (fun S => S.widen dst k v) (widen dst k v) := by
  unfold Solver.widen widen
  by_cases hl : v.isLabel = true
  · simp only [hl, if_true]
    exact .bind h.converges_registerOf fun _ => .same _
  · simp only [hl]
    exact .same _

theorem Ready.converges_testZero (h : Ready v) (k : Kind) : Converges (fun S => S.testZero k v) (testZero k v) := by
  cases h with
  | const c => exact .bind (Ready.const c).converges_registerOf fun _ => .same _
  | label l => exact .bind (Ready.label l).converges_registerOf fun _ => .same _
  | memAt | reg => exact .of_eq fun _ => rfl

theorem converges_testOperands {p q : Expr} (hp : Ready p) (hq : Ready q) (k : Kind) :
    Converges (fun S => S.testOperands k p q) (testOperands k p q) := by
  refine .bind hp.converges_left fun p' => ?_
  split
  · exact .same _
  · exact .bind (hq.converges_legal p') fun _ => .same _

theorem converges_compareOperands {a b : Expr} (ha : Ready a) (hb : Ready b) (k : Kind) :
    Converges (fun S => S.compareOperands k a b) (compareOperands k a b) :=
  .bind ha.converges_left fun a' => .bind (hb.converges_legal a') fun _ => .same _

theorem converges_testBits (hx : Answered (.value x)) (hy : Answered (.value y)) (k : Kind) :
    Converges (fun S => S.testBits k x y) (testBits k (value x) (value y)) := by
  refine .bind_of hx ready_of_value fun p hp => .bind_of hy ready_of_value fun q hq => ?_
  split
  · exact converges_testOperands hq hp k
  · exact converges_testOperands hp hq k

theorem converges_compareFlags (hx : Answered (.value x)) (hy : Answered (.value y)) (k : Kind) (cond : Cond) :
    Converges (fun S => S.compareFlags k cond x y) (compareFlags k cond (value x) (value y)) := by
  refine .bind_of hx ready_of_value fun a ha => .bind_of hy ready_of_value fun b hb => ?_
  split
  · exact .bind (converges_compareOperands hb ha k) fun _ => .same _
  · exact .bind (converges_compareOperands ha hb k) fun _ => .same _

theorem converges_divide (hy : Answered (.value y)) (dst : Expr) (op : ArithOp) :
    Converges (fun S => S.divide dst op y) (divideInto dst op (value y)) := by
  unfold Solver.divide divideInto
  dsimp only
  split
  · exact .bind hy fun _ => .same _
  · refine .bind_of hy ready_of_value fun v hv => ?_
    split
    · exact .same _
    · exact .bind hv.converges_registerOf fun _ => .same _

theorem converges_pair (hy : Answered (.value y)) (dst : Expr) (op : ArithOp) (k : Kind) :
    Converges (fun S => do emit (.binary (.compound op) k dst (← S.legal dst (← S _ (.value y)))))
      (do emit (.binary (.compound op) k dst (← legalSource dst (← value y)))) :=
  .bind_of hy ready_of_value fun _ hv => .bind (hv.converges_legal dst) fun _ => .same _

theorem converges_mul_reg (hy : Answered (.value y)) {r : Reg} (hr : r.kind.size ≠ 1) :
    Converges (fun S => S _ (.opAssign (.reg r) .mul y))
      (releasing do emit (.binary (.compound .mul) r.kind (.reg r) (← legalSource (.reg r) (← value y)))) := by
  have hsize : (Expr.reg r).kind.size ≠ 1 := hr
  have heq : opAssign (.reg r) .mul (value y) =
      releasing (do emit (.binary (.compound .mul) r.kind (.reg r) (← legalSource (.reg r) (← value y)))) := by
    unfold opAssign
    dsimp only
    rw [if_neg hsize]
    rfl
  have hunroll : ∀ S : Solver, unroll S _ (.opAssign (.reg r) .mul y) =
      releasing (do emit (.binary (.compound .mul) r.kind (.reg r) (← S.legal (.reg r) (← S _ (.value y))))) := by
    intro S
    simp only [unroll]
    rw [if_neg hsize]
    rfl
  rw [← heq]
  apply Converges.call (c := .opAssign (.reg r) .mul y)
  rw [selection, heq]
  simp only [hunroll]
  exact (converges_pair hy (.reg r) .mul r.kind).releasing

/-- A product in memory is one in a register. -/
theorem answered_opAssign (hy : Answered (.value y)) (dst : Expr) (op : ArithOp) : Answered (.opAssign dst op y) := by
  apply Converges.call
  rw [selection]
  refine .releasing ?_
  cases op with
  | add | sub | and | or | xor => exact converges_pair hy dst _ _
  | andNot => exact .bind_of hy ready_of_value fun v hv => .bind (hv.converges_mask dst) fun _ => .same _
  | shl | shr => exact .bind hy fun _ => .same _
  | quo | rem => exact converges_divide hy dst _
  | mul =>
    dsimp only
    split
    · exact .bind hy fun _ => .same _
    rename_i hsize
    split
    · refine .bind_of (P := fun t => t.kind = dst.kind) (.same _) (fun h => ?_) fun t ht => .bind (.same _) fun _ => ?_
      · obtain ⟨_, -, rfl, -⟩ := scratch_eq_ok h.change
        rfl
      · rw [← ht] at hsize ⊢
        exact .bind (converges_mul_reg hy hsize) fun _ => .same _
    · exact converges_pair hy dst _ _

end Instructions

/-! ## Addresses -/

section Addresses

variable {e x y : Expr} {t : Terms}

theorem converges_finish (t : Terms) : Converges (fun S => S.finish t) t.finish := by
  unfold Solver.finish Terms.finish
  split
  · exact .same _
  · exact .bind (.same _) fun _ => .bind (Ready.const _).converges_hard fun _ => .same _

theorem converges_asTerm (he : Answered (.value e)) (t : Terms) : Converges (fun S => S.asTerm t e) (addOpaque t e) := by
  rw [addOpaque]
  refine .bind (.same _) fun t => ?_
  rw [← bind_assoc]
  exact .bind (converges_hard he) fun _ => .same _

theorem converges_addNode (hx : Answered (.value x)) (hxt : ∀ t, Answered (.addTerm t x))
    (hyt : ∀ t, Answered (.addTerm t y)) (t : Terms) (shape : Shape) :
    Converges (fun S => S.addNode t shape x y) (addNode t shape x y) := by
  rw [addNode.eq_def]
  cases shape with
  | sum => exact .bind (hxt t) hyt
  | difference c => exact .bind (hxt t) fun _ => .same _
  | scaled s =>
    refine .bind (.same _) fun t => ?_
    rw [← bind_assoc]
    exact .bind (converges_hard hx) fun _ => .same _
  | doubled s =>
    dsimp only
    rw [← bind_assoc]
    exact .bind (converges_hard hx) fun _ => .same _

theorem answered_synthesize (he : Answered (.addTerm { narrow := e.kind.size == 4 } e)) : Answered (.synthesize e) := by
  apply Converges.call
  rw [selection, address]
  exact .bind he converges_finish

end Addresses

/-! ## Nodes -/

/-- Whatever is made of an expression converges. -/
structure Terminates (e : Expr) : Prop where
  value : Answered (.value e)
  into : ∀ dst origin, Answered (.into dst e origin)
  target : Converges (fun S => S.target e) (resolveTarget e)
  term : ∀ t, Answered (.addTerm t e)
  bits : ∀ k a m, e = .binary (.arith .and) k a m → Answered (.value a) ∧ Answered (.value m)

section Nodes

variable {e x y : Expr}

theorem converges_flags (hx : Terminates x) (hy : Terminates y) (op : CompareOp) :
    Converges (fun S => S.flags op x y) (flags op x y) := by
  unfold flags
  refine .releasing ?_
  have hzero : Converges (fun S => do S.testZero x.kind (← S _ (.value x)); return Cond.ofCompare op x.kind)
      (do testZero x.kind (← value x); return Cond.ofCompare op x.kind) :=
    .bind_of hx.value ready_of_value fun v hv => .bind (hv.converges_testZero _) fun _ => .same _
  split
  · cases x with
    | binary op' k a m =>
      cases op' with
      | arith op' =>
        cases op' with
        | and =>
          obtain ⟨ha, hm⟩ := hx.bits k a m rfl
          exact .bind (converges_testBits ha hm k) fun _ => .same _
        | _ => exact hzero
      | _ => exact hzero
    | _ => exact hzero
  · exact converges_compareFlags hx.value hy.value _ _

/-- Nothing is given back by what takes nothing. -/
theorem releasing_eq {α : Type} {act : Lower α} (h : ∀ f s log, (act f s log).1.2.mark = s.mark) : releasing act = act := by
  funext f s log
  have hrelease : (act f s log).1.2.release s.mark = (act f s log).1.2 := by
    rw [← h f s log]
    simp only [Session.release, Session.mark, min_self]
  rw [run_releasing, hrelease]
  rfl

theorem releasing_passThrough (dst e : Expr) : releasing (passThrough dst e) = passThrough dst e :=
  releasing_eq fun _ _ _ => rfl

theorem releasing_pure {α : Type} (a : α) : releasing (pure a) = pure a := releasing_eq fun _ _ _ => rfl

theorem answered_castInto (hx : Terminates x) (dst : Expr) (k : Kind) : Answered (.castInto dst k x) := by
  apply Converges.call
  rw [selection]
  dsimp only [unroll]
  split
  · refine .bind_of hx.value ready_of_value fun v hv => ?_
    cases hv with
    | const c => exact .same _
    | label | memAt | reg =>
      dsimp only
      split
      · exact .same _
      · exact Ready.converges_widen (by constructor) dst k
  · exact .same _

theorem answered_unaryInto (hx : Terminates x) (dst : Expr) (op : UnaryOp) (k : Kind) :
    Answered (.unaryInto dst op k x) := by
  apply Converges.call
  rw [selection, into.eq_def]
  cases op with
  | neg | inv =>
    dsimp only [unroll]
    split
    · exact .bind (hx.into dst none) fun _ => .same _
    · exact .same _
  | lnot => exact .bind (hx.into dst none) fun _ => .same _
  | cast =>
    have hcast := (answered_castInto hx dst k).releasing
    rw [selection] at hcast
    dsimp only
    split at hcast
    · rename_i hk
      rw [if_pos hk]
      exact hcast
    · rename_i hk
      rw [if_neg hk, ← releasing_passThrough]
      exact hcast
  | _ => exact .same _

/-- A sum is taken apart as an address by way of its operands alone. -/
theorem answered_addTerm (hx : Terminates x) (hy : Terminates y) {t : Terms} {op : ArithOp} (k : Kind)
    (h : (Shape.of? t op y).isSome = true) : Answered (.addTerm t (.binary (.arith op) k x y)) := by
  obtain ⟨shape, hs⟩ := Option.isSome_iff_exists.1 h
  apply Converges.call
  rw [selection, addTerm.eq_def]
  dsimp only [unroll]
  rw [hs]
  exact converges_addNode hx.value hx.term hy.term t shape

theorem isSome_of_isAddressLike {k : Kind} {op : ArithOp} (h : isAddressLike k op x y = true) (narrow : Bool) :
    (Shape.of? { narrow } op y).isSome = true := by
  simp only [isAddressLike, Bool.and_eq_true] at h
  obtain ⟨⟨-, h⟩, -⟩ := h
  cases op with
  | add => rfl
  | sub =>
    cases y with
    | const c => rfl
    | _ => cases h
  | mul =>
    cases y with
    | const c =>
      change ((directScale c).or (doubledScale c)).isSome = true at h
      simp only [Shape.of?]
      cases hd : directScale c with
      | some s => rfl
      | none => simpa [hd] using h
    | _ => cases h
  | shl =>
    cases y with
    | const c => simpa [Shape.of?] using h
    | _ => cases h
  | _ => cases h

/-- One address computation is the address of the node. -/
theorem leaInto_eq {k : Kind} {op : ArithOp} (h : isAddressLike k op x y = true) (dst : Expr) :
    leaInto dst k op x y = (do loadAddress dst k (← address (.binary (.arith op) k x y)); return true) := by
  obtain ⟨shape, hs⟩ := Option.isSome_iff_exists.1 (isSome_of_isAddressLike h (k.size == 4))
  have hs' : Shape.of? {} op y = some shape := hs
  have hterm : addTerm { narrow := k.size == 4 } (.binary (.arith op) k x y) =
      addNode { narrow := k.size == 4 } shape x y := by
    rw [addTerm.eq_def]
    dsimp only
    rw [hs]
  rw [leaInto, address, hs']
  dsimp only
  rw [bind_assoc]
  show _ = (addTerm { narrow := k.size == 4 } (.binary (.arith op) k x y) >>= _)
  rw [hterm]

theorem converges_tryLea (hx : Terminates x) (hy : Terminates y) (dst : Expr) (k : Kind) (op : ArithOp) :
    Converges (fun S => if dst.isReg then releasing (S.tryLea dst k op x y) else pure false)
      (if dst.isReg && isAddressLike k op x y then releasing (leaInto dst k op x y) else pure false) := by
  unfold Solver.tryLea
  cases hr : dst.isReg with
  | false => exact .same _
  | true =>
    by_cases ha : isAddressLike k op x y = true
    · simp only [ha, Bool.and_true, if_true, leaInto_eq ha]
      refine .releasing (.bind (answered_synthesize ?_) fun _ => .same _)
      exact answered_addTerm hx hy k (isSome_of_isAddressLike ha _)
    · simp only [ha, Bool.and_false, Bool.false_eq_true, if_true, if_false]
      rw [releasing_pure]
      exact .same _

theorem converges_arith (hx : Terminates x) (hy : Terminates y) (dst : Expr) (k : Kind) (op : ArithOp)
    (origin : Option Expr) : Converges (fun S => S.arith dst k op x y origin) (arith dst k op x y origin) := by
  rw [arith]
  refine .bind (.same _) fun f => .bind (.same _) fun here => ?_
  cases here with
  | true => exact answered_opAssign hy.value dst op
  | false =>
    refine .bind (.same _) fun there => ?_
    cases there with
    | true => exact answered_opAssign hx.value dst op
    | false =>
      refine .bind (converges_tryLea hx hy dst k op) fun done => ?_
      cases done with
      | true => exact .same _
      | false =>
        refine .bind (.same _) fun f => .bind (.same _) fun hazard => ?_
        cases hazard with
        | true =>
          exact .releasing (.bind (.same _) fun t => .bind (hx.into t none) fun _ =>
            .bind (answered_opAssign hy.value t op) fun _ => .same _)
        | false => exact .bind (hx.into dst none) fun _ => answered_opAssign hy.value dst op

theorem converges_assign (hx : Terminates x) (hy : Terminates y) :
    Converges (fun S => do let d ← S.target x; S _ (.into d y (some x)); return d) (assign x y) := by
  rw [assign]
  exact .bind hx.target fun d => .bind (hy.into d (some x)) fun _ => .same _

theorem converges_compound (hx : Terminates x) (hy : Terminates y) (op : ArithOp) :
    Converges (fun S => do let d ← S.target x; S _ (.opAssign d op y); return d) (compound op x y) := by
  rw [compound]
  exact .bind hx.target fun d => .bind (answered_opAssign hy.value d op) fun _ => .same _

theorem answered_binaryInto (hx : Terminates x) (hy : Terminates y) (dst : Expr) (op : BinaryOp) (k : Kind)
    (origin : Option Expr) : Answered (.binaryInto dst op k x y origin) := by
  apply Converges.call
  rw [selection, into.eq_def]
  cases op with
  | compare op =>
    dsimp only [unroll]
    split
    · exact .bind (converges_flags hx hy op) fun _ => .same _
    · exact .same _
  | logic op => exact answered_logicalInto (hx.into · none) (hy.into · none) op dst
  | assign =>
    exact .bind (.call (c := .compile (.binary .assign k x y) true) (converges_assign hx hy)) fun _ => .same _
  | compound op =>
    exact .bind (.call (c := .compile (.binary (.compound op) k x y) true) (converges_compound hx hy op)) fun _ => .same _
  | arith op =>
    dsimp only [unroll]
    split
    · exact converges_arith hx hy dst k op origin
    · exact .same _
  | jumpIf | cmp | test => exact .same _

/-- A value is computed into a temporary. -/
theorem answered_value (h : ∀ dst, Answered (.into dst e none))
    (hv : value e = (do let t ← temp e.kind (.value e); into t e none; return t))
    (hS : ∀ S, unroll S _ (.value e) = (do let t ← temp e.kind (.value e); S _ (.into t e none); return t)) :
    Answered (.value e) := by
  apply Converges.call
  rw [selection, hv]
  simp only [hS]
  exact .bind (.same _) fun t => .bind (h t) fun _ => .same _

/-- An operand is moved. -/
theorem answered_into (h : Answered (.value e)) (hi : ∀ dst origin, into dst e origin = releasing (value e >>= mov dst))
    (hS : ∀ S dst origin, unroll S _ (.into dst e origin) = releasing (S _ (.value e) >>= mov dst)) (dst : Expr)
    (origin : Option Expr) : Answered (.into dst e origin) := by
  apply Converges.call
  rw [selection, hi]
  simp only [hS]
  exact .releasing (.bind h fun _ => .same _)

/-- An expression that is one term of an address. -/
theorem terminates_leaf (hvalue : Answered (.value e)) (hinto : ∀ dst origin, Answered (.into dst e origin))
    (htarget : Converges (fun S => S.target e) (resolveTarget e)) (hterm : ∀ t, addTerm t e = addOpaque t e)
    (hS : ∀ S t, unroll S _ (.addTerm t e) = S.asTerm t e) (hbits : ∀ k a m, e ≠ .binary (.arith .and) k a m) :
    Terminates e := by
  refine ⟨hvalue, hinto, htarget, fun t => ?_, fun k a m h => absurd h (hbits k a m)⟩
  apply Converges.call
  rw [selection, hterm]
  simp only [hS]
  exact converges_asTerm hvalue t

theorem terminates_unary (hx : Terminates x) (op : UnaryOp) (k : Kind) : Terminates (.unary op k x) := by
  have hinto : ∀ dst origin, Answered (.into dst (.unary op k x) origin) := by
    intro dst origin
    have horigin : into dst (.unary op k x) origin = into dst (.unary op k x) none := by
      rw [into.eq_def, into.eq_def dst _ none]
    apply Converges.call
    rw [selection, horigin]
    exact answered_unaryInto hx dst op k
  have hvalue : Answered (.value (.unary op k x)) := answered_value (hinto · none) (by rw [value.eq_def]) fun _ => rfl
  refine ⟨hvalue, hinto, ?_, fun t => ?_, nofun⟩
  · rw [resolveTarget.eq_def]
    exact .same _
  apply Converges.call
  rw [selection, addTerm.eq_def]
  have hterm := converges_asTerm hvalue t
  cases op with
  | cast =>
    dsimp only [unroll]
    split
    · exact hx.term t
    · exact hterm
  | _ => exact hterm

theorem terminates_binary (hx : Terminates x) (hy : Terminates y) (op : BinaryOp) (k : Kind) :
    Terminates (.binary op k x y) := by
  have hinto : ∀ dst origin, Answered (.into dst (.binary op k x y) origin) :=
    fun dst origin => .call (answered_binaryInto hx hy dst op k origin)
  have hvalue : Answered (.value (.binary op k x y)) := answered_value (hinto · none) (by rw [value.eq_def]) fun _ => rfl
  refine ⟨hvalue, hinto, ?_, fun t => ?_, ?_⟩
  · rw [resolveTarget.eq_def]
    exact .same _
  · have hterm := converges_asTerm hvalue t
    cases op with
    | arith op =>
      rcases hs : Shape.of? t op y with _ | shape
      · apply Converges.call (c := .addTerm t (.binary (.arith op) k x y))
        rw [selection, addTerm.eq_def]
        dsimp only [unroll]
        rw [hs]
        exact hterm
      · exact answered_addTerm hx hy k (by rw [hs]; rfl)
    | _ =>
      apply Converges.call
      rw [selection, addTerm.eq_def]
      exact hterm
  · rintro k a m ⟨⟩
    exact ⟨hx.value, hy.value⟩

theorem terminates (e : Expr) : Terminates e := by
  induction e with
  | unary op k x ih => exact terminates_unary ih op k
  | binary op k x y ihx ihy => exact terminates_binary ihx ihy op k
  | mem k ro a ih =>
    have ha := answered_synthesize (ih.term { narrow := a.kind.size == 4 })
    have hvalue : Answered (.value (.mem k ro a)) := by
      apply Converges.call
      rw [selection, value.eq_def]
      exact .bind ha fun _ => .same _
    refine terminates_leaf hvalue (answered_into hvalue (fun dst origin => ?_) fun _ _ _ => rfl) ?_
      (fun t => by rw [addTerm.eq_def]) (fun _ _ => rfl) nofun
    · rw [into.eq_def, value.eq_def]
      dsimp only
      rw [bind_assoc]
      rfl
    · rw [resolveTarget.eq_def]
      exact .bind ha fun _ => .same _
  | const c =>
    refine ⟨(Ready.const c).answered_value, fun dst origin => .of_eq fun S => ?_, ?_, fun t => .of_eq fun S => ?_, nofun⟩
    · rw [selection, into.eq_def]
      rfl
    · rw [resolveTarget.eq_def]
      exact .same _
    · rw [selection, addTerm.eq_def]
      rfl
  | reg r =>
    have hv : value (.reg r) = resolve r := by rw [value.eq_def]
    have hvalue : Answered (.value (.reg r)) := .of_eq fun S => hv.symm
    refine terminates_leaf hvalue (answered_into hvalue (fun dst origin => ?_) fun _ _ _ => rfl) ?_
      (fun t => by rw [addTerm.eq_def]) (fun _ _ => rfl) nofun
    · rw [into.eq_def, hv]
    · rw [resolveTarget.eq_def]
      exact .same _
  | memAt k ro m =>
    have hready := Ready.memAt k ro m
    refine terminates_leaf hready.answered_value (answered_into hready.answered_value (fun dst origin => ?_)
      fun _ _ _ => rfl) ?_
      (fun t => by rw [addTerm.eq_def]) (fun _ _ => rfl) nofun
    · rw [into.eq_def, hready.value_eq, pure_bind]
    · rw [resolveTarget.eq_def]
      exact .same _
  | label l =>
    have hready := Ready.label l
    refine terminates_leaf hready.answered_value (answered_into hready.answered_value (fun dst origin => ?_)
      fun _ _ _ => rfl) ?_
      (fun t => by rw [addTerm.eq_def]) (fun _ _ => rfl) nofun
    · rw [into.eq_def, hready.value_eq, pure_bind]
    · rw [resolveTarget.eq_def]
      exact .same _
  | ret vs =>
    have hinto : ∀ dst origin, Answered (.into dst (.ret vs) origin) := by
      intro dst origin
      refine .of_eq fun S => ?_
      rw [selection, into.eq_def]
      rfl
    refine terminates_leaf (answered_value (hinto · none) (by rw [value.eq_def]) fun _ => rfl) hinto ?_
      (fun t => by rw [addTerm.eq_def]) (fun _ _ => rfl) nofun
    rw [resolveTarget.eq_def]
    exact .same _
  | call l n sig args =>
    refine terminates_leaf (.of_eq fun S => ?_) (fun dst origin => .of_eq fun S => ?_) ?_ (fun t => by rw [addTerm.eq_def])
      (fun _ _ => rfl) nofun
    · rw [selection, value.eq_def]
      rfl
    · rw [selection, into.eq_def]
      rfl
    · rw [resolveTarget.eq_def]
      exact .same _

end Nodes

/-! ## Statements -/

theorem converges_test (e : Expr) (c : Cond) (l : Label) :
    Converges (fun S => do releasing (do S.testZero .bool (← S _ (.value e))); jcc c l)
      (do releasing (do testZero .bool (← value e)); jcc c l) :=
  .bind (.releasing (.bind_of (terminates e).value ready_of_value fun _ hv => hv.converges_testZero .bool)) fun _ => .same _

theorem answered_jumpIf (cond : Expr) (l : Label) (sense : Bool) : Answered (.jumpIf l cond sense) := by
  induction cond generalizing l sense with
  | const c => exact .of_eq fun S => rfl
  | unary op k x ih =>
    apply Converges.call
    cases op with
    | lnot => exact ih l !sense
    | _ => exact converges_test _ _ l
  | binary op k x y ihx ihy =>
    apply Converges.call
    rw [selection, jumpIf.eq_def]
    cases op with
    | compare op =>
      dsimp only [unroll]
      split
      · exact .bind (converges_flags (terminates x) (terminates y) op) fun _ => .same _
      · exact .same _
    | logic op =>
      dsimp only [unroll]
      split
      · exact .bind (.same _) fun skip => .bind (ihx skip !sense) fun _ => .bind (ihy l sense) fun _ => .same _
      · exact .bind (ihx l sense) fun _ => ihy l sense
    | _ => exact converges_test _ _ l
  | reg | mem | memAt | label | ret | call => exact .call (converges_test _ _ l)

theorem converges_returns (values : List Expr) : Converges (fun S => S.returns values) (selectReturn values) := by
  rcases values with _ | ⟨v, _ | ⟨w, _ | ⟨_, _⟩⟩⟩
  · exact .same _
  · exact .bind ((terminates v).into _ none) fun _ => .same _
  · exact .bind (.same _) fun a => .bind ((terminates v).into a none) fun _ => .bind (.same _) fun b =>
      .bind ((terminates w).into b none) fun _ => .same _
  · exact .same _

theorem converges_statement (e : Expr) : Converges (fun S => S.statement e) (statement e) := by
  unfold Solver.statement statement
  split
  · exact .same _
  cases e with
  | unary op k x =>
    cases op with
    | inc | dec | zero => exact .bind (terminates x).target fun _ => .same _
    | jump => cases x <;> exact .same _
    | _ => exact .same _
  | binary op k x y =>
    cases op with
    | jumpIf =>
      cases x with
      | label l => exact .bind (answered_jumpIf y l true) fun _ => .same _
      | _ => exact .same _
    | assign => exact converges_assign (terminates x) (terminates y)
    | compound op => exact converges_compound (terminates x) (terminates y) op
    | _ => exact (terminates _).value
  | ret vs => exact converges_returns vs
  | _ => exact .same _

theorem answered {α : Type} (c : Call α) : Answered c := by
  cases c with
  | compile e toplevel =>
    apply Converges.call
    rw [selection, select]
    dsimp only [unroll]
    split
    · exact converges_statement e
    · exact (terminates e).value
  | value e => exact (terminates e).value
  | registerOf e => exact answered_registerOf (terminates e).value
  | into dst e origin => exact (terminates e).into dst origin
  | unaryInto dst op k x => exact answered_unaryInto (terminates x) dst op k
  | castInto dst k x => exact answered_castInto (terminates x) dst k
  | binaryInto dst op k x y origin => exact answered_binaryInto (terminates x) (terminates y) dst op k origin
  | opAssign dst op y => exact answered_opAssign (terminates y).value dst op
  | logicalInto dst op x y => exact answered_logicalInto ((terminates x).into · none) ((terminates y).into · none) op dst
  | jumpIf l cond sense => exact answered_jumpIf cond l sense
  | synthesize e => exact answered_synthesize ((terminates e).term _)
  | addTerm t e => exact (terminates e).term t

/-- The recursion of selection ends. Whatever the expression, the allocation, the scratch registers and the session, a call
ends with a result or an error after finitely many rounds of the equations, and the functions of selection are the one
solution of the equations. -/
theorem selection_terminates :
    (∀ α (c : Call α) f s log, ∃ n, ∀ S m, n ≤ m → unroll^[m] S α c f s log = selection α c f s log) ∧
      ∀ S, unroll S = S ↔ S = selection := by
  refine ⟨fun α c f s log => ?_, fun S => ⟨fun hS => ?_, ?_⟩⟩
  · obtain ⟨n, hn⟩ := answered c f s log
    exact ⟨n, fun S m hm => hn _ ⟨S, m, rfl, .inl hm⟩⟩
  · funext α c f s log
    obtain ⟨n, hn⟩ := answered c f s log
    have hfixed : unroll^[n] S = S := Function.iterate_fixed hS n
    exact hfixed ▸ hn _ ⟨S, n, rfl, .inl le_rfl⟩
  · rintro rfl
    funext α c f s log
    obtain ⟨n, hn⟩ := answered c f s log
    exact hn _ ⟨selection, 1, rfl, .inr rfl⟩

end JitBackend.Amd64
