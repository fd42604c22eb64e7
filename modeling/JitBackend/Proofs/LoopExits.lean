import JitBackend.Proofs.Compilation

/-!
# Exits and returns

A `break` or `continue` has a loop to leave if it stands in the body or in the step of one; the initial statement of a loop
belongs to what is around the loop. Flattening a function fails exactly if it holds an exit without such a loop, and names
the first one (`Func.Made.flatten_outcome`). Nothing else goes wrong: the conditions of statements are checked to be truth
values when the statements are made, so their negations and the jumps under them are well formed. And since the returns of
a statement are checked when it is added to the function, those in the code agree with the signature.
-/

namespace JitBackend

/-! ## Exits -/

namespace Stmt

mutual
/-- The exits of a statement that stands inside `depth` loops, in the order in which they are flattened, each with the
number of loops that it stands inside of. -/
def exits (depth : Nat) : Stmt → List (LoopExit × Nat)
  | block list => exitsL depth list
  | ite _ t e => exits depth t ++ exitsO depth e
  | loop i _ p b => exitsO depth i ++ exits (depth + 1) b ++ exitsO (depth + 1) p
  | exit e => [(e, depth)]
  | expr _ => []
def exitsL (depth : Nat) : List Stmt → List (LoopExit × Nat)
  | [] => []
  | s :: ss => exits depth s ++ exitsL depth ss
def exitsO (depth : Nat) : Option Stmt → List (LoopExit × Nat)
  | none => []
  | some s => exits depth s
end

/-- The first exit that stands in no loop. -/
def stray (es : List (LoopExit × Nat)) : Option LoopExit := (es.find? (·.2 = 0)).map (·.1)

@[simp] theorem stray_nil : stray [] = none := rfl

@[simp] theorem stray_append (es es' : List (LoopExit × Nat)) : stray (es ++ es') = (stray es).or (stray es') := by
  rw [stray, List.find?_append, Option.map_or]
  rfl

theorem stray_isSome {es : List (LoopExit × Nat)} : (∃ e, stray es = some e) ↔ ∃ e, (e, 0) ∈ es := by
  rw [← Option.isSome_iff_exists, stray, Option.isSome_map, List.find?_isSome]
  constructor
  · rintro ⟨⟨e, n⟩, he, hn⟩
    obtain rfl : n = 0 := by simpa using hn
    exact ⟨e, he⟩
  · rintro ⟨e, he⟩
    exact ⟨_, he, by simp⟩

end Stmt

/-! ## Conditions -/

namespace Expr

theorem kind_mkNot {c : Expr} (hc : c.WellKinded) (hk : c.kind = .bool) : (mkNot c).kind = .bool := by
  unfold mkNot
  split
  · obtain ⟨hx, -⟩ := hc
    exact (by simpa [unaryAdmits, Kind.isBool] using (checkUnary_eq_ok.1 hx).1)
  · split <;> rfl
  · rfl

/-- A condition has a negation, which is a condition. -/
theorem exists_negated {c : Expr} (hc : c.WellKinded) (hk : c.kind = .bool) :
    ∃ d, mkUnary .lnot c = .ok d ∧ d.kind = .bool := by
  have hcheck : checkUnary .lnot c = .ok .bool := by
    simp [checkUnary_eq_ok, unaryAdmits, unaryKind, hk, Kind.isBool, UnaryOp.isAssign]
  unfold mkUnary
  rw [hcheck]
  cases c with
  | const c => exact ⟨_, rfl, rfl⟩
  | _ => exact ⟨_, rfl, kind_mkNot hc hk⟩

theorem mkJumpIf_of_bool {c : Expr} (l : Label) (hk : c.kind = .bool) : mkJumpIf l c = .ok (jumpIf l c) := by
  have hcheck : checkBinary .jumpIf (.label l) c = .ok .void := by
    simp [checkBinary_eq_ok, binaryAdmits, binaryKind, hk, Kind.isBool, BinaryOp.isAssign]
    rfl
  unfold mkJumpIf mkBinary
  rw [hcheck]
  rfl

end Expr

namespace Stmt

theorem kind_of_mkIf {c : Expr} {t s : Stmt} {e : Option Stmt} (h : mkIf c t e = .ok s) : c.kind = .bool := by
  unfold mkIf checkCond at h
  split at h
  · assumption
  · cases h

theorem kind_of_mkFor {i p : Option Stmt} {c : Option Expr} {b s : Stmt} (h : mkFor i c p b = .ok s) :
    (loopCond c).kind = .bool := by
  cases c with
  | none => rfl
  | some c =>
    unfold mkFor Option.forM checkCond at h
    dsimp only at h
    split at h
    · assumption
    · cases h

/-- The conditions of a built statement are truth values. -/
theorem Built.kind_cond {c : Expr} {t : Stmt} {e : Option Stmt} (h : (Stmt.ite c t e).Built) : c.kind = .bool := by
  cases h with
  | ite _ _ _ h =>
    cases mkIf_eq_ok h
    exact kind_of_mkIf h
  | loop _ _ _ _ h => cases mkFor_eq_ok h

theorem Built.kind_loopCond {i p : Option Stmt} {c : Option Expr} {b : Stmt} (h : (Stmt.loop i c p b).Built) :
    (loopCond c).kind = .bool := by
  cases h with
  | ite _ _ _ h => cases mkIf_eq_ok h
  | loop _ _ _ _ h =>
    cases mkFor_eq_ok h
    exact kind_of_mkFor h

end Stmt

/-! ## Failures -/

namespace Flatten

/-- The computation succeeds, or fails at the exit given. -/
def Ends {α : Type} (act : Flatten α) (o : Option LoopExit) : Prop :=
  ∀ f log, o.elim (∃ r, (act f log).1 = .ok r) fun e => (act f log).1 = .error (.outsideLoop e)

variable {α β : Type} {act : Flatten α} {k : α → Flatten β} {o o' : Option LoopExit}

theorem Ends.bind (h : Ends act o) (hk : ∀ a, Ends (k a) o') : Ends (act >>= k) (o.or o') := by
  intro f log
  have hact := h f log
  rcases hrun : act f log with ⟨r, log₁⟩
  rw [hrun] at hact
  simp only [Bind.bind, StateT.bind, ExceptT.bind, ExceptT.mk, hrun]
  cases o with
  | some e =>
    obtain rfl : r = .error (.outsideLoop e) := hact
    rfl
  | none =>
    obtain ⟨⟨a, f₁⟩, rfl⟩ : ∃ r', r = .ok r' := hact
    exact hk a f₁ log₁

theorem Ends.next (h : Ends act none) (hk : ∀ a, Ends (k a) o) : Ends (act >>= k) o := h.bind hk

theorem ends_lift {x : Except Error α} {a : α} (hx : x = .ok a) (hk : Ends (k a) o) : Ends (liftM x >>= k) o := by
  subst hx
  exact hk

theorem ends_pure (a : α) : Ends (pure a : Flatten α) none := fun _ _ => ⟨_, rfl⟩

theorem ends_newLabel : Ends newLabel none := fun _ _ => ⟨_, rfl⟩

theorem ends_add (e : Expr) : Ends (add e) none := fun _ _ => ⟨_, rfl⟩

end Flatten

open Flatten in
open Stmt in
mutual
theorem ends_flatten : ∀ (s : Stmt) {around : Option LoopLabels} {depth : Nat}, s.Built → (around = none ↔ depth = 0) →
    Ends (s.flatten around) (stray (s.exits depth))
  | .block ss, around, depth, hb, hd => by
    rw [flatten, exits]
    exact ends_flattenL ss hb.parts hd
  | .expr e, around, depth, _, _ => by
    rw [flatten, exits]
    exact ends_add e
  | .exit e, around, depth, _, hd => by
    rw [exits]
    cases around with
    | none =>
      obtain rfl : depth = 0 := hd.1 rfl
      rw [flatten]
      exact fun _ _ => rfl
    | some l =>
      have hne : depth ≠ 0 := fun h => by cases hd.2 h
      rw [flatten, show stray [(e, depth)] = none by simp [stray, hne]]
      exact ends_add _
  | .ite c t e, around, depth, hb, hd => by
    obtain ⟨hc, ht, he⟩ := hb.parts
    obtain ⟨d, hnot, hkind⟩ := Expr.exists_negated hc.wellKinded hb.kind_cond
    rw [flatten, exits, stray_append]
    refine ends_newLabel.next fun other => ends_newLabel.next fun done => ends_lift hnot ?_
    refine ends_lift (Expr.mkJumpIf_of_bool other hkind) ((ends_add _).next fun _ => ?_)
    refine (ends_flatten t ht hd).bind fun _ => (ends_add _).next fun _ => (ends_add _).next fun _ => ?_
    rw [← Option.or_none (o := stray (exitsO depth e))]
    exact (ends_flattenO e he hd).bind fun _ => ends_add _
  | .loop i c p b, around, depth, hb, hd => by
    obtain ⟨hi, hp, hbody⟩ := hb.parts
    have hinner : ∀ l : LoopLabels, some l = none ↔ depth + 1 = 0 := fun l => by simp
    rw [flatten, exits, stray_append, stray_append, Option.or_assoc]
    refine ends_newLabel.next fun top => ends_newLabel.next fun test => ends_newLabel.next fun exit => ?_
    refine (ends_flattenO i hi hd).bind fun _ => (ends_add _).next fun _ => (ends_add _).next fun _ => ?_
    refine (ends_flatten b hbody (hinner _)).bind fun _ => ?_
    rw [← Option.or_none (o := stray (exitsO (depth + 1) p))]
    refine (ends_flattenO p hp (hinner _)).bind fun _ => (ends_add _).next fun _ => ?_
    exact ends_lift (Expr.mkJumpIf_of_bool top hb.kind_loopCond) ((ends_add _).next fun _ => ends_add _)
theorem ends_flattenL : ∀ (ss : List Stmt) {around : Option LoopLabels} {depth : Nat}, (∀ s ∈ ss, s.Built) →
    (around = none ↔ depth = 0) → Ends (flattenL around ss) (stray (exitsL depth ss))
  | [], around, depth, _, _ => by
    rw [flattenL, exitsL]
    exact ends_pure ()
  | s :: ss, around, depth, hb, hd => by
    obtain ⟨hs, hss⟩ := List.forall_mem_cons.1 hb
    rw [flattenL, exitsL, stray_append]
    exact (ends_flatten s hs hd).bind fun _ => ends_flattenL ss hss hd
theorem ends_flattenO : ∀ (o : Option Stmt) {around : Option LoopLabels} {depth : Nat}, (∀ s ∈ o, s.Built) →
    (around = none ↔ depth = 0) → Ends (flattenO around o) (stray (exitsO depth o))
  | none, around, depth, _, _ => by
    rw [flattenO, exitsO]
    exact ends_pure ()
  | some s, around, depth, hb, hd => by
    rw [flattenO, exitsO]
    exact ends_flatten s (hb s rfl) hd
end

/-! ## Returns -/

namespace Func

/-- Functions as they are made: statements of the checked constructors are added one by one. -/
inductive Made : Func → Prop
  | empty (name : String) (sig : Signature) : Made (Func.empty name sig)
  | newReg {f : Func} (h : Made f) (k : Kind) : Made (f.newReg k).2
  | newLabel {f : Func} (h : Made f) (name : Option String) : Made (f.newLabel name).2
  | addStmt {f g : Func} {s : Stmt} (h : Made f) (hs : s.Built) (ha : f.addStmt s = .ok g) : Made g

/-- The expression is no return, or returns values of the kinds that the signature asks for. -/
def Agrees (sig : Signature) (e : Expr) : Prop := ∀ vs, e = .ret vs → vs.map Expr.kind = sig.results

theorem agrees_of_checkReturn {sig : Signature} {e : Expr} (h : checkReturn sig e = .ok ()) : Agrees sig e := by
  rintro vs rfl
  simp only [checkReturn] at h
  split at h
  · cases h
  · rename_i hlen
    split at h
    · cases h
    · rename_i hnone
      exact (Expr.kindMismatch_eq_none (by simpa using hlen)).1 hnone

theorem forM_eq_ok {α : Type} {check : α → Except Error Unit} {xs : List α} (h : xs.forM check = .ok ()) :
    ∀ x ∈ xs, check x = .ok () := by
  induction xs with
  | nil => simp
  | cons x xs ih =>
    rw [List.forM] at h
    cases hx : check x with
    | error err =>
      rw [hx] at h
      cases h
    | ok u =>
      rw [hx] at h
      exact List.forall_mem_cons.2 ⟨hx, ih h⟩

theorem addStmt_eq_ok {f g : Func} {s : Stmt} (h : f.addStmt s = .ok g) :
    g = { f with source := f.source ++ [s] } ∧ ∀ e ∈ s.exprs, Agrees f.sig e := by
  unfold addStmt at h
  cases hcheck : s.exprs.forM (checkReturn f.sig) with
  | error err =>
    rw [hcheck] at h
    cases h
  | ok u =>
    rw [hcheck] at h
    cases h
    exact ⟨rfl, fun e he => agrees_of_checkReturn (forM_eq_ok hcheck e he)⟩

theorem exprsL_append (ss ss' : List Stmt) : Stmt.exprsL (ss ++ ss') = Stmt.exprsL ss ++ Stmt.exprsL ss' := by
  induction ss with
  | nil => rfl
  | cons s ss ih => rw [List.cons_append, Stmt.exprsL, Stmt.exprsL, ih, List.append_assoc]

/-- The statements of a made function are built, and their returns agree with the signature. -/
theorem Made.source {f : Func} (hf : f.Made) :
    (∀ s ∈ f.source, s.Built) ∧ ∀ e ∈ Stmt.exprsL f.source, Agrees f.sig e := by
  induction hf with
  | empty => exact ⟨by simp [Func.empty], by simp [Func.empty, Stmt.exprsL]⟩
  | newReg _ _ ih => exact ih
  | newLabel _ _ ih => exact ih
  | addStmt _ hs ha ih =>
    obtain ⟨rfl, hagree⟩ := addStmt_eq_ok ha
    refine ⟨List.forall_mem_append.2 ⟨ih.1, List.forall_mem_singleton.2 hs⟩, ?_⟩
    rw [exprsL_append, List.forall_mem_append]
    exact ⟨ih.2, by simpa [Stmt.exprsL] using hagree⟩

theorem isTested_agrees (sig : Signature) : Stmt.IsTested (Agrees sig) := by
  have hjump : ∀ {l c j}, Expr.mkJumpIf l c = .ok j → Agrees sig j := by
    intro l c j hj
    obtain rfl := mkJumpIf_eq_ok hj
    rintro _ ⟨⟩
  refine ⟨?_, fun _ _ hj => hjump hj, fun _ hj => hjump hj⟩
  rintro _ ⟨⟩

/-- Flattening succeeds, or fails at the first stray exit. -/
theorem flatten_ends {f : Func} (hb : ∀ s ∈ f.source, s.Built) (log : Log) :
    (Stmt.stray (Stmt.exitsL 0 f.source)).elim (∃ flat, (f.flatten log).1 = .ok flat)
      fun e => (f.flatten log).1 = .error (.outsideLoop e) := by
  have hends := ends_flattenL f.source hb (show (none : Option LoopLabels) = none ↔ 0 = 0 by simp)
    ⟨{ f with source := [] }, #[]⟩ log
  rw [flatten_fst]
  cases hstray : Stmt.stray (Stmt.exitsL 0 f.source) with
  | none =>
    rw [hstray] at hends
    obtain ⟨r, hr⟩ := hends
    exact ⟨r.2, by rw [hr]; rfl⟩
  | some e =>
    rw [hstray] at hends
    show Except.map _ _ = _
    rw [show ((Stmt.flattenL none f.source) _ log).1 = .error (.outsideLoop e) from hends]
    rfl

theorem flatten_eq_error_iff {f : Func} (hb : ∀ s ∈ f.source, s.Built) {log : Log} {err : Error} :
    (f.flatten log).1 = .error err ↔ ∃ e, Stmt.stray (Stmt.exitsL 0 f.source) = some e ∧ err = .outsideLoop e := by
  have hends := flatten_ends hb log
  cases hstray : Stmt.stray (Stmt.exitsL 0 f.source) with
  | none =>
    rw [hstray] at hends
    obtain ⟨flat, hflat⟩ : ∃ flat, (f.flatten log).1 = .ok flat := hends
    simp [hflat]
  | some e =>
    rw [hstray] at hends
    have hfail : (f.flatten log).1 = .error (.outsideLoop e) := hends
    simp [hfail, eq_comm]

/-- Flattening a function fails exactly if some exit stands in no loop's body or step; the failure is that of the first
such exit, and there is no other. If it succeeds, all returns of the code agree with the signature. -/
theorem Made.flatten_outcome {f : Func} (hf : f.Made) (log : Log) :
    ((∃ err, (f.flatten log).1 = .error err) ↔ ∃ e, (e, 0) ∈ Stmt.exitsL 0 f.source) ∧
    (∀ err, (f.flatten log).1 = .error err → ∃ e, Stmt.stray (Stmt.exitsL 0 f.source) = some e ∧ err = .outsideLoop e) ∧
    ∀ flat, (f.flatten log).1 = .ok flat → ∀ vs, .ret vs ∈ flat.code → vs.map Expr.kind = f.sig.results := by
  obtain ⟨hbuilt, hagree⟩ := hf.source
  refine ⟨?_, fun err => (flatten_eq_error_iff hbuilt).1, ?_⟩
  · rw [← Stmt.stray_isSome]
    constructor
    · rintro ⟨err, herr⟩
      obtain ⟨e, he, -⟩ := (flatten_eq_error_iff hbuilt).1 herr
      exact ⟨e, he⟩
    · rintro ⟨e, he⟩
      exact ⟨_, (flatten_eq_error_iff hbuilt).2 ⟨e, he, rfl⟩⟩
  · intro flat hflat vs hvs
    have hrun : f.flatten log = (.ok flat, (f.flatten log).2) := Prod.ext hflat rfl
    have hyields := Func.flatten_yields (P := Agrees f.sig) (fun l => ⟨by rintro _ ⟨⟩, by rintro _ ⟨⟩⟩)
      (Stmt.yieldsL_of_exprsL (isTested_agrees f.sig) f.source hagree) hrun
    exact (hyields _ (Array.mem_toList_iff.2 hvs)).2 vs rfl

/-- The loop starts with `init` and is left at once by a return, in front of a `break` and with a `continue` as its step. -/
def leavingLoop (init : Stmt) : Stmt :=
  .loop (some init) none (some (.exit .cont)) (.block [.expr (.ret [.reg (softReg 0 .int64)]), .exit .brk])

def leaving (init : Stmt) : Func :=
  { Func.empty "leave" ⟨[.int64], [.int64]⟩ with source := [leavingLoop init, .expr (.ret [.reg (softReg 0 .int64)])] }

theorem leaving_made {init : Stmt} (hb : init.Built) (hret : init.exprs = []) : (leaving init).Made := by
  have hn : (Expr.ret [.reg (softReg 0 .int64)]).Built := .ret (List.forall_mem_singleton.2 (.reg (softReg 0 .int64))) rfl
  have hloop : (leavingLoop init).Built := by
    refine .loop (i := some init) (c := none) (p := some (.exit .cont)) ?_ (by simp) ?_ (.block ?_) rfl
    · rintro s ⟨⟩
      exact hb
    · rintro s ⟨⟩
      exact .exit .cont
    · exact List.forall_mem_cons.2 ⟨.expr hn, List.forall_mem_singleton.2 (.exit .brk)⟩
  have hadd : (Func.empty "leave" ⟨[.int64], [.int64]⟩).addStmt (leavingLoop init) =
      .ok { Func.empty "leave" ⟨[.int64], [.int64]⟩ with source := [leavingLoop init] } := by
    simp only [addStmt, leavingLoop, Stmt.exprs, Stmt.exprsO, hret]
    rfl
  exact .addStmt (.addStmt (.empty "leave" ⟨[.int64], [.int64]⟩) hloop hadd) (.expr hn) rfl

/-- A `continue` that starts a loop is outside of it, and is met before the exits inside; the exit of a loop that starts
another is inside. -/
theorem flatten_outcome_leaving :
    ((leaving (.exit .cont)).flatten #[]).1 = .error (.outsideLoop .cont) ∧
    ∃ flat, ((leaving (.loop none none none (.exit .brk))).flatten #[]).1 = .ok flat ∧
      ∀ vs, .ret vs ∈ flat.code → vs.map Expr.kind = [.int64] := by
  constructor
  · obtain ⟨hiff, hfirst, -⟩ := Made.flatten_outcome (leaving_made (.exit .cont) rfl) #[]
    obtain ⟨err, herr⟩ := hiff.2 ⟨.cont, by decide⟩
    obtain ⟨e, he, rfl⟩ := hfirst err herr
    obtain rfl : LoopExit.cont = e := Option.some.inj he
    exact herr
  · have hinner : (Stmt.loop none none none (.exit .brk)).Built :=
      .loop (i := none) (c := none) (p := none) (by simp) (by simp) (by simp) (.exit .brk) rfl
    obtain ⟨hiff, -, hreturns⟩ := Made.flatten_outcome (leaving_made hinner rfl) #[]
    cases hrun : ((leaving (.loop none none none (.exit .brk))).flatten #[]).1 with
    | error err =>
      obtain ⟨e, he⟩ := hiff.1 ⟨err, hrun⟩
      cases e <;> exact absurd he (by decide)
    | ok flat => exact ⟨flat, rfl, hreturns flat hrun⟩

end Func

end JitBackend
