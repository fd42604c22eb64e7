import JitBackend.Proofs.Labels
import JitBackend.Proofs.Structured

/-!
# Flattening keeps the meaning of statements

`Emits` says which code stands for a statement, whatever the names of its labels. Code of that shape runs like the
statement, in both directions (`Emits.exec_of_runs`, `Emits.runs_of_exec`), as long as every label is placed once in
the whole; flattening gives such code (`flatten_emits`). Together they make up `flatten_completes_iff`: the flattened
function and its statements come to the same end, or both come to none.
-/

namespace JitBackend

open JitBackend.Expr (jumpTo)

/-! ## Negated conditions -/

namespace Expr

variable {w : World} {σ : Store}

theorem asBool_bool (b : Bool) : (Const.bool b).asBool = b := by cases b <;> rfl

theorem asBool_at_bool (c : Const) : (Const.at .bool c).asBool = c.asBool := by
  simp only [Const.at, Const.ofBits, Const.asBool, Kind.canonical]
  split
  · rename_i h
    rw [h]
  · rename_i h
    exact (bne_iff_ne.2 h).symm

/-- Logical not as a node of its own. -/
theorem holds_lnot (c : Expr) : (unary .lnot .bool c).holds w σ = (c.holds w σ).map fun r => (!r.1, r.2) := by
  simp only [holds, run, UnaryOp.isAssign, Bool.false_eq_true, if_false, Option.bind_eq_bind]
  cases c.run w σ with
  | none => rfl
  | some r => simp [World.unary, Const.lnot, asBool_at_bool, asBool_bool]

theorem holds_mkNot {c : Expr} (hc : c.WellKinded) (hk : c.kind = .bool) :
    (mkNot c).holds w σ = (c.holds w σ).map fun r => (!r.1, r.2) := by
  unfold mkNot
  split
  · rename_i k x
    obtain rfl : k = .bool := hk
    rw [holds_lnot, Option.map_map]
    cases x.holds w σ <;> simp
  · rename_i op k x y
    split
    · rename_i hf
      obtain rfl : k = .bool := hk
      have ha := (checkBinary_eq_ok.1 hc.1).1
      simp only [holds, run, Option.bind_eq_bind]
      cases hx : x.run w σ with
      | none => rfl
      | some p =>
        obtain ⟨a, τ⟩ := p
        cases hy : y.run w τ with
        | none => simp [hy]
        | some q =>
          obtain ⟨b, υ⟩ := q
          rw [← kind_of_run hx] at ha hf
          obtain ⟨t, ht, hnt⟩ := Const.compare_negated (y := b) ha hf
          simp [hy, World.binary, World.settle, Const.binary, ht, hnt, Except.map, asBool_at_bool, asBool_bool]
    · exact holds_lnot _
  · exact holds_lnot _

/-- The negated condition holds exactly where the condition does not, and does the same to the store. -/
theorem holds_negated {c d : Expr} (hc : c.WellKinded) (h : mkUnary .lnot c = .ok d) :
    d.holds w σ = (c.holds w σ).map fun r => (!r.1, r.2) := by
  obtain ⟨k, hk, ⟨h, -⟩ | ⟨h, -⟩ | ⟨-, v, rfl, rfl⟩ | ⟨-, rfl⟩ | rfl⟩ := mkUnary_eq_ok h
  · cases h
  · cases h
  · simp [holds, run, Const.lnot, asBool_bool]
  · have ha := (checkUnary_eq_ok.1 hk).1
    exact holds_mkNot hc (by simpa [unaryAdmits, Kind.isBool] using ha)
  · obtain rfl : Kind.bool = k := (checkUnary_eq_ok.1 hk).2.2
    exact holds_lnot c

end Expr

/-! ## Code of a statement -/

/-- The code of a statement inside the loop `around`, if there is one. -/
inductive Emits : Option LoopLabels → Stmt → List Expr → Prop
  | nil {around} : Emits around (.block []) []
  | cons {around s ss k ks} (first : Emits around s k) (rest : Emits around (.block ss) ks) :
      Emits around (.block (s :: ss)) (k ++ ks)
  | dropped {around e} (he : e.isEffectFree = true) : Emits around (.expr e) []
  | kept {around e} (ht : e.isTransfer = false) : Emits around (.expr e) [e]
  | ite {around c d t e kt ke} (other done : Label) (hc : c.WellKinded) (hd : Expr.mkUnary .lnot c = .ok d)
      (yes : Emits around t kt) (no : Emits around (e.getD .skip) ke) :
      Emits around (.ite c t e) (jumpIf other d :: (kt ++ jumpTo done :: .label other :: (ke ++ [.label done])))
  | loop {around i c p b ki kb} (top test exit : Label) (init : Emits around (i.getD .skip) ki)
      (turn : Emits (some ⟨exit, test⟩) (.block [b, p.getD .skip]) kb) :
      Emits around (.loop i c p b) (ki ++ jumpTo test :: .label top :: (kb ++
        [.label test, jumpIf top (Stmt.loopCond c), .label exit]))
  | exit {l : LoopLabels} {e} : Emits (some l) (.exit e) [jumpTo (l.target e)]

/-! ## Steps of flattened code -/

section Steps

variable {w : World} {code : List Expr} {n : Nat} {rest : List Expr} {σ τ : Store} {l : Label}

theorem exec_nil : exec w code n [] σ = some (σ, none) := by cases n <;> rfl

theorem exec_label : exec w code (n + 1) (.label l :: rest) σ = exec w code n rest σ := rfl

theorem exec_jumpTo {k : List Expr} (h : behind l code = some k) :
    exec w code (n + 1) (jumpTo l :: rest) σ = exec w code n k σ := by
  simp [exec, jumpTo, h]

theorem exec_jumpIf {k : List Expr} (h : behind l code = some k) {c : Expr} {b : Bool} (hc : c.holds w σ = some (b, τ)) :
    exec w code (n + 1) (jumpIf l c :: rest) σ = exec w code n (if b then k else rest) τ := by
  cases b <;> simp [exec, jumpIf, h, hc]

theorem exec_jumpIf_none {c : Expr} (hc : c.holds w σ = none) : exec w code (n + 1) (jumpIf l c :: rest) σ = none := by
  simp [exec, jumpIf, hc]

theorem exec_ret {vs : List Expr} :
    exec w code (n + 1) (.ret vs :: rest) σ = (Expr.runL w vs σ).map fun r => (r.2, some r.1) := by
  simp only [exec]
  cases Expr.runL w vs σ <;> rfl

theorem exec_expr {e : Expr} (ht : e.isTransfer = false) (hr : ∀ vs, e ≠ .ret vs) :
    exec w code (n + 1) (e :: rest) σ = (e.run w σ).bind fun r => exec w code n rest r.2 := by
  conv_lhs => unfold exec
  split
  · simp [Expr.isTransfer] at ht
  · exact absurd rfl (hr _)
  · simp [Expr.isTransfer] at ht
  · simp [Expr.isTransfer] at ht
  · rfl

end Steps

/-! ## Code runs like its statement -/

/-- The end that code comes to after a statement with outcome `o`: behind it, at an exit of the loop around, or with
the returned values. -/
def Goes (w : World) (code : List Expr) (n : Nat) (rest : List Expr) (exits : LoopExit → List Expr) (τ : Store)
    (o : Outcome) (res : Store × Option (List Const)) : Prop :=
  match o with
  | .next => exec w code n rest τ = some res
  | .exit e => exec w code n (exits e) τ = some res
  | .ret cs => res = (τ, some cs)

section Goes

variable {w : World} {code : List Expr} {n : Nat} {e : Expr} {rest rest' : List Expr} {exits : LoopExit → List Expr}
  {τ : Store} {o : Outcome} {res : Store × Option (List Const)}

theorem Goes.before (hgo : Goes w code n rest exits τ o res)
    (h : ∀ m, exec w code (m + 1) (e :: rest') τ = exec w code m rest τ) :
    ∃ m, Goes w code m (e :: rest') exits τ o res := by
  cases o with
  | next => exact ⟨n + 1, (h n).trans hgo⟩
  | exit e => exact ⟨n, hgo⟩
  | ret cs => exact ⟨n, hgo⟩

theorem Goes.past (hgo : Goes w code n (e :: rest') exits τ o res)
    (h : ∀ m, exec w code (m + 1) (e :: rest') τ = exec w code m rest τ) :
    ∃ m ≤ n, Goes w code m rest exits τ o res := by
  cases o with
  | next =>
    cases n with
    | zero => cases hgo
    | succ n => exact ⟨n, Nat.le_succ n, (h n).symm.trans hgo⟩
  | exit e => exact ⟨n, le_rfl, hgo⟩
  | ret cs => exact ⟨n, le_rfl, hgo⟩

end Goes

/-- The labels of the loop around stand where its exits lead. -/
def ExitsAt (code : List Expr) (around : Option LoopLabels) (exits : LoopExit → List Expr) : Prop :=
  ∀ l, around = some l → ∀ e, behind (l.target e) code = some (exits e)

/-- The test of a loop and what follows it. -/
def testCode (top exit : Label) (c : Option Expr) (rest : List Expr) : List Expr :=
  jumpIf top (Stmt.loopCond c) :: .label exit :: rest

/-- Leaving a loop leads behind it, continuing it to its test. -/
def loopExits (top exit : Label) (c : Option Expr) (rest : List Expr) : LoopExit → List Expr
  | .brk => rest
  | .cont => testCode top exit c rest

/-- The body and the test of a loop stand where its labels lead. -/
structure LoopAt (code : List Expr) (top test exit : Label) (c : Option Expr) (kb rest : List Expr) : Prop where
  start : behind top code = some (kb ++ .label test :: testCode top exit c rest)
  exits : ExitsAt code (some ⟨exit, test⟩) (loopExits top exit c rest)
  body : kb ++ .label test :: testCode top exit c rest <:+ code

theorem ite_append (kt ke rest : List Expr) (c : Expr) (other done : Label) :
    jumpIf other c :: (kt ++ jumpTo done :: .label other :: (ke ++ [.label done])) ++ rest =
      jumpIf other c :: (kt ++ jumpTo done :: .label other :: (ke ++ .label done :: rest)) := by
  simp

theorem loop_append (kb rest : List Expr) (c : Option Expr) (top test exit : Label) :
    [] ++ jumpTo test :: .label top :: (kb ++ [.label test, jumpIf top (Stmt.loopCond c), .label exit]) ++ rest =
      jumpTo test :: .label top :: (kb ++ .label test :: testCode top exit c rest) := by
  simp [testCode]

namespace Stmt.Runs

variable {w : World} {i p : Option Stmt} {c : Option Expr} {b : Stmt} {σ τ υ : Store} {o : Outcome}

theorem init_getD (start : Runs w (i.getD skip) σ τ .next) (rest : Runs w (.loop none c p b) τ υ o) :
    Runs w (.loop i c p b) σ υ o := by
  cases i with
  | none =>
    cases start
    exact rest
  | some i => exact .init start rest

theorem initStop_getD (start : Runs w (i.getD skip) σ τ o) (ho : o ≠ .next) : Runs w (.loop i c p b) σ τ o := by
  cases i with
  | none =>
    cases start
    exact absurd rfl ho
  | some i => exact .initStop start ho

end Stmt.Runs

section Simulation

variable {w : World} {code : List Expr} (hnd : (placed code).Nodup)

include hnd

/-- The labels of a branch lead to its `else` part and behind it. -/
theorem iteAt_of_suffix {other done : Label} {c : Expr} {kt ke rest : List Expr}
    (h : jumpIf other c :: (kt ++ jumpTo done :: .label other :: (ke ++ .label done :: rest)) <:+ code) :
    behind done code = some rest ∧ behind other code = some (ke ++ .label done :: rest) ∧
      ke ++ .label done :: rest <:+ code := by
  have hjump := (List.suffix_append kt _).trans ((List.suffix_cons _ _).trans h)
  have hother := (List.suffix_cons _ _).trans hjump
  have helse := (List.suffix_cons _ _).trans hother
  exact ⟨behind_of_suffix hnd ((List.suffix_append ke _).trans helse), behind_of_suffix hnd hother, helse⟩

theorem loopAt_of_suffix {top test exit : Label} {c : Option Expr} {kb rest : List Expr}
    (h : .label top :: (kb ++ .label test :: testCode top exit c rest) <:+ code) :
    LoopAt code top test exit c kb rest := by
  have hbody := (List.suffix_cons _ _).trans h
  have htest := (List.suffix_append kb _).trans hbody
  have hexit : .label exit :: rest <:+ code :=
    ((List.suffix_cons _ _).trans (List.suffix_cons _ _)).trans htest
  refine ⟨behind_of_suffix hnd h, ?_, hbody⟩
  rintro l ⟨⟩ e
  cases e with
  | brk => exact behind_of_suffix hnd hexit
  | cont => exact behind_of_suffix hnd htest

/-- The code of a loop without an initial statement jumps to its test. -/
theorem exec_loop {top test exit : Label} {c : Option Expr} {kb rest : List Expr} {n : Nat} {σ : Store}
    (h : jumpTo test :: .label top :: (kb ++ .label test :: testCode top exit c rest) <:+ code) :
    LoopAt code top test exit c kb rest ∧
      exec w code (n + 1) (jumpTo test :: .label top :: (kb ++ .label test :: testCode top exit c rest)) σ =
        exec w code n (testCode top exit c rest) σ := by
  have hloop := loopAt_of_suffix hnd ((List.suffix_cons _ _).trans h)
  exact ⟨hloop, exec_jumpTo (hloop.exits _ rfl .cont)⟩

/-- A loop whose condition holds runs its body. -/
theorem exec_turn {top test exit : Label} {c : Option Expr} {kb rest : List Expr} {n : Nat} {σ τ : Store}
    (h : jumpTo test :: .label top :: (kb ++ .label test :: testCode top exit c rest) <:+ code)
    (cond : (Stmt.loopCond c).holds w σ = some (true, τ)) :
    exec w code (n + 2) (jumpTo test :: .label top :: (kb ++ .label test :: testCode top exit c rest)) σ =
      exec w code n (kb ++ .label test :: testCode top exit c rest) τ := by
  rw [(exec_loop hnd h).2]
  exact exec_jumpIf (loopAt_of_suffix hnd ((List.suffix_cons _ _).trans h)).start cond

/-- Where the statement runs, its code runs alike and goes on as the outcome says. -/
theorem Emits.exec_of_runs {s : Stmt} {σ τ : Store} {o : Outcome} (h : s.Runs w σ τ o) :
    ∀ {around : Option LoopLabels} {k : List Expr}, Emits around s k →
    ∀ {rest : List Expr} {exits : LoopExit → List Expr}, k ++ rest <:+ code → ExitsAt code around exits →
    ∀ {n : Nat} {res : Store × Option (List Const)}, Goes w code n rest exits τ o res →
    ∃ m, exec w code m (k ++ rest) σ = some res := by
  induction h with
  | nil =>
    rintro _ _ ⟨⟩ rest exits - - n res hgo
    exact ⟨n, hgo⟩
  | cons _ _ ih₁ ih₂ =>
    rintro _ _ (_ | ⟨first, rest⟩) k exits hcode hex n res hgo
    rw [List.append_assoc] at hcode ⊢
    obtain ⟨m, hm⟩ := ih₂ rest ((List.suffix_append _ _).trans hcode) hex hgo
    exact ih₁ first hcode hex (n := m) hm
  | @stop _ _ _ _ o _ ho ih =>
    rintro _ _ (_ | ⟨first, rest⟩) k exits hcode hex n res hgo
    rw [List.append_assoc] at hcode ⊢
    cases o with
    | next => exact absurd rfl ho
    | exit e => exact ih first hcode hex (n := n) hgo
    | ret cs => exact ih first hcode hex (n := n) hgo
  | @expr e c σ τ h he =>
    intro _ _ hemit rest exits hcode hex n res hgo
    cases hemit with
    | dropped hfree =>
      obtain ⟨d, hd⟩ := Expr.run_of_isEffectFree (w := w) e hfree σ
      obtain ⟨rfl, rfl⟩ : d = c ∧ σ = τ := by simpa [hd] using h
      exact ⟨n, hgo⟩
    | kept ht =>
      refine ⟨n + 1, ?_⟩
      rw [List.singleton_append, exec_expr ht he, h]
      exact hgo
  | ret h =>
    intro _ _ hemit rest exits hcode hex n res hgo
    cases hemit with
    | dropped hfree => simp [Expr.isEffectFree] at hfree
    | kept ht =>
      refine ⟨1, ?_⟩
      rw [List.singleton_append, exec_ret, h]
      exact congrArg some hgo.symm
  | @ite c t e b σ τ υ o cond branch ih =>
    intro _ _ hemit rest exits hcode hex n res hgo
    cases hemit with
    | @ite _ _ d _ _ kt ke other done hc hd yes no =>
      rw [ite_append] at hcode ⊢
      obtain ⟨hdone, hother, helse⟩ := iteAt_of_suffix hnd hcode
      have hnot : d.holds w σ = some (!b, τ) := by rw [Expr.holds_negated hc hd, cond]; rfl
      cases b with
      | true =>
        obtain ⟨m, hm⟩ := hgo.before fun _ => exec_jumpTo hdone
        obtain ⟨m, hm⟩ := ih yes ((List.suffix_cons _ _).trans hcode) hex hm
        exact ⟨m + 1, (exec_jumpIf hother hnot).trans hm⟩
      | false =>
        obtain ⟨m, hm⟩ := hgo.before fun _ => exec_label
        obtain ⟨m, hm⟩ := ih no helse hex hm
        exact ⟨m + 1, (exec_jumpIf hother hnot).trans hm⟩
  | exit =>
    intro _ _ hemit rest exits hcode hex n res hgo
    cases hemit with
    | exit => exact ⟨n + 1, (exec_jumpTo (hex _ rfl _)).trans hgo⟩
  | init _ _ ih₁ ih₂ =>
    intro _ _ hemit rest exits hcode hex n res hgo
    cases hemit with
    | loop top test exit init turn =>
      rw [List.append_assoc] at hcode ⊢
      obtain ⟨m, hm⟩ := ih₂ (Emits.loop top test exit Emits.nil turn) ((List.suffix_append _ _).trans hcode) hex hgo
      exact ih₁ init hcode hex (n := m) hm
  | @initStop _ _ _ _ _ _ o _ ho ih =>
    intro _ _ hemit rest exits hcode hex n res hgo
    cases hemit with
    | loop top test exit init turn =>
      rw [List.append_assoc] at hcode ⊢
      cases o with
      | next => exact absurd rfl ho
      | exit e => exact ih init hcode hex (n := n) hgo
      | ret cs => exact ih init hcode hex (n := n) hgo
  | finish cond =>
    intro _ _ hemit rest exits hcode hex n res hgo
    cases hemit with
    | loop top test exit init turn =>
      cases init
      rw [loop_append] at hcode ⊢
      obtain ⟨hloop, hentry⟩ := exec_loop hnd (n := n + 2) hcode
      exact ⟨n + 3, hentry.trans ((exec_jumpIf hloop.start cond).trans hgo)⟩
  | again cond _ ho _ ih₁ ih₂ =>
    intro _ _ hemit rest exits hcode hex n res hgo
    cases hemit with
    | loop top test exit init turn =>
      cases init
      obtain ⟨m, hm⟩ := ih₂ (Emits.loop top test exit Emits.nil turn) hcode hex hgo
      rw [loop_append] at hcode hm ⊢
      cases m with
      | zero => cases hm
      | succ m =>
        obtain ⟨hloop, hentry⟩ := exec_loop hnd (n := m) hcode
        rw [hentry] at hm
        rcases ho with rfl | rfl
        · obtain ⟨m, hm⟩ := ih₁ turn hloop.body hloop.exits (n := m + 1) (exec_label.trans hm)
          exact ⟨m + 2, (exec_turn hnd hcode cond).trans hm⟩
        · obtain ⟨m, hm⟩ := ih₁ turn hloop.body hloop.exits (n := m) hm
          exact ⟨m + 2, (exec_turn hnd hcode cond).trans hm⟩
  | leave cond _ ih | loopRet cond _ ih =>
    intro _ _ hemit rest exits hcode hex n res hgo
    cases hemit with
    | loop top test exit init turn =>
      cases init
      rw [loop_append] at hcode ⊢
      have hloop := loopAt_of_suffix hnd ((List.suffix_cons _ _).trans hcode)
      obtain ⟨m, hm⟩ := ih turn hloop.body hloop.exits (n := n) hgo
      exact ⟨m + 2, (exec_turn hnd hcode cond).trans hm⟩

omit hnd in
/-- Where the code of a loop comes to an end from its test, the loop runs. Each turn takes a step at least. -/
theorem runs_of_exec_test {top test exit : Label} {p : Option Stmt} {c : Option Expr} {b : Stmt} {kb rest : List Expr}
    {exits : LoopExit → List Expr} {res : Store × Option (List Const)} (hloop : LoopAt code top test exit c kb rest)
    (turn : ∀ {n σ}, exec w code n (kb ++ .label test :: testCode top exit c rest) σ = some res →
      ∃ m ≤ n, ∃ τ o, (Stmt.block [b, p.getD .skip]).Runs w σ τ o ∧
        Goes w code m (.label test :: testCode top exit c rest) (loopExits top exit c rest) τ o res) :
    ∀ (n : Nat) (σ : Store), exec w code n (testCode top exit c rest) σ = some res →
      ∃ m ≤ n, ∃ τ o, (Stmt.loop none c p b).Runs w σ τ o ∧ Goes w code m rest exits τ o res := by
  intro n
  induction n using Nat.strong_induction_on with
  | _ n ih =>
    intro σ h
    obtain ⟨n, rfl⟩ : ∃ m, n = m + 1 := Nat.exists_eq_succ_of_ne_zero (by rintro rfl; cases h)
    cases hcond : (Stmt.loopCond c).holds w σ with
    | none =>
      rw [testCode, exec_jumpIf_none hcond] at h
      cases h
    | some r =>
      obtain ⟨t, τ⟩ := r
      rw [testCode, exec_jumpIf hloop.start hcond] at h
      cases t with
      | false =>
        obtain ⟨n, rfl⟩ : ∃ m, n = m + 1 := Nat.exists_eq_succ_of_ne_zero (by rintro rfl; cases h)
        exact ⟨n, by omega, τ, .next, .finish hcond, h⟩
      | true =>
        obtain ⟨m, hm, υ, o, hs, hgo⟩ := turn h
        match o, hgo with
        | .ret cs, hgo => exact ⟨m, by omega, υ, _, .loopRet hcond hs, hgo⟩
        | .exit .brk, hgo => exact ⟨m, by omega, υ, .next, .leave hcond hs, hgo⟩
        | .exit .cont, hgo =>
          obtain ⟨m', hm', φ, o, hrest, hgo⟩ := ih m (by omega) υ hgo
          exact ⟨m', by omega, φ, o, .again hcond hs (.inr rfl) hrest, hgo⟩
        | .next, hgo =>
          obtain ⟨m, rfl⟩ : ∃ m', m = m' + 1 := Nat.exists_eq_succ_of_ne_zero (by rintro rfl; cases hgo)
          obtain ⟨m', hm', φ, o, hrest, hgo⟩ := ih m (by omega) υ hgo
          exact ⟨m', by omega, φ, o, .again hcond hs (.inl rfl) hrest, hgo⟩

/-- Where the code comes to an end, the statement runs, and the code goes on as its outcome says in no more steps. -/
theorem Emits.runs_of_exec {around : Option LoopLabels} {s : Stmt} {k : List Expr} (h : Emits around s k) :
    ∀ {rest : List Expr} {exits : LoopExit → List Expr}, k ++ rest <:+ code → ExitsAt code around exits →
    ∀ {n : Nat} {σ : Store} {res : Store × Option (List Const)}, exec w code n (k ++ rest) σ = some res →
    ∃ m ≤ n, ∃ τ o, s.Runs w σ τ o ∧ Goes w code m rest exits τ o res := by
  induction h with
  | nil =>
    intro rest exits _ _ n σ res h
    exact ⟨n, le_rfl, σ, .next, .nil, h⟩
  | cons _ _ ih₁ ih₂ =>
    intro rest exits hcode hex n σ res h
    rw [List.append_assoc] at hcode h
    obtain ⟨m, hm, τ, o, hs, hgo⟩ := ih₁ hcode hex h
    cases o with
    | next =>
      obtain ⟨m', hm', υ, o, hss, hgo⟩ := ih₂ ((List.suffix_append _ _).trans hcode) hex hgo
      exact ⟨m', hm'.trans hm, υ, o, .cons hs hss, hgo⟩
    | exit e => exact ⟨m, hm, τ, _, .stop hs (by simp), hgo⟩
    | ret cs => exact ⟨m, hm, τ, _, .stop hs (by simp), hgo⟩
  | @dropped _ e he =>
    intro rest exits _ _ n σ res h
    obtain ⟨c, hc⟩ := Expr.run_of_isEffectFree (w := w) e he σ
    refine ⟨n, le_rfl, σ, .next, .expr hc ?_, h⟩
    rintro vs rfl
    simp [Expr.isEffectFree] at he
  | @kept _ e ht =>
    intro rest exits _ _ n σ res h
    obtain ⟨n, rfl⟩ : ∃ m, n = m + 1 := Nat.exists_eq_succ_of_ne_zero (by rintro rfl; cases h)
    rw [List.singleton_append] at h
    by_cases hr : ∃ vs, e = .ret vs
    · obtain ⟨vs, rfl⟩ := hr
      rw [exec_ret, Option.map_eq_some_iff] at h
      obtain ⟨⟨cs, τ⟩, hcs, rfl⟩ := h
      exact ⟨n, Nat.le_succ n, τ, _, .ret hcs, rfl⟩
    · rw [not_exists] at hr
      rw [exec_expr ht hr, Option.bind_eq_some_iff] at h
      obtain ⟨⟨c, τ⟩, hc, h⟩ := h
      exact ⟨n, Nat.le_succ n, τ, _, .expr hc hr, h⟩
  | @ite _ c d t e kt ke other done hc hd _ _ iht ihe =>
    intro rest exits hcode hex n σ res h
    rw [ite_append] at hcode h
    obtain ⟨hdone, hother, helse⟩ := iteAt_of_suffix hnd hcode
    obtain ⟨n, rfl⟩ : ∃ m, n = m + 1 := Nat.exists_eq_succ_of_ne_zero (by rintro rfl; cases h)
    have hnot := Expr.holds_negated (w := w) (σ := σ) hc hd
    cases hcond : c.holds w σ with
    | none =>
      rw [hcond] at hnot
      rw [exec_jumpIf_none hnot] at h
      cases h
    | some r =>
      obtain ⟨b, τ⟩ := r
      rw [hcond] at hnot
      rw [exec_jumpIf hother hnot] at h
      cases b with
      | true =>
        obtain ⟨m, hm, υ, o, hs, hgo⟩ := iht ((List.suffix_cons _ _).trans hcode) hex h
        obtain ⟨m', hm', hgo⟩ := hgo.past fun _ => exec_jumpTo hdone
        exact ⟨m', by omega, υ, o, .ite hcond hs, hgo⟩
      | false =>
        obtain ⟨m, hm, υ, o, hs, hgo⟩ := ihe helse hex h
        obtain ⟨m', hm', hgo⟩ := hgo.past fun _ => exec_label
        exact ⟨m', by omega, υ, o, .ite hcond hs, hgo⟩
  | @loop _ i c p b ki kb top test exit _ _ ihi ihb =>
    intro rest exits hcode hex n σ res h
    rw [List.append_assoc] at hcode h
    obtain ⟨m, hm, τ, o, hi, hgo⟩ := ihi hcode hex h
    cases o with
    | exit e => exact ⟨m, hm, τ, _, hi.initStop_getD (by simp), hgo⟩
    | ret cs => exact ⟨m, hm, τ, _, hi.initStop_getD (by simp), hgo⟩
    | next =>
      have hcode := (List.suffix_append _ _).trans hcode
      have hgo : exec w code m _ τ = some res := hgo
      rw [← List.nil_append (jumpTo test :: _), loop_append] at hcode hgo
      obtain ⟨m, rfl⟩ : ∃ m', m = m' + 1 := Nat.exists_eq_succ_of_ne_zero (by rintro rfl; cases hgo)
      obtain ⟨hloop, hentry⟩ := exec_loop hnd (n := m) hcode
      rw [hentry] at hgo
      obtain ⟨m', hm', υ, o, hs, hgo⟩ := runs_of_exec_test hloop (fun h => ihb hloop.body hloop.exits h) m τ hgo
      exact ⟨m', by omega, υ, o, hi.init_getD hs, hgo⟩
  | @exit l e =>
    intro rest exits _ hex n σ res h
    obtain ⟨n, rfl⟩ : ∃ m, n = m + 1 := Nat.exists_eq_succ_of_ne_zero (by rintro rfl; cases h)
    rw [List.singleton_append, exec_jumpTo (hex l rfl e)] at h
    exact ⟨n, Nat.le_succ n, σ, _, .exit, h⟩

end Simulation

/-! ## Flattening gives such code -/

/-- The computation succeeds on `f` with the result `a`, and makes it `f'`. -/
def Flatten.Gives {α : Type} (act : Flatten α) (f : Flat) (a : α) (f' : Flat) : Prop :=
  ∃ log log', act f log = (.ok (a, f'), log')

namespace Flatten.Gives

variable {α β : Type} {f f' : Flat}

theorem bind {act : Flatten α} {g : α → Flatten β} {b : β} (h : (act >>= g).Gives f b f') :
    ∃ a f₁, act.Gives f a f₁ ∧ (g a).Gives f₁ b f' := by
  obtain ⟨log, log', h⟩ := h
  rcases hact : act f log with ⟨_ | ⟨a, f₁⟩, log₁⟩
  · simp only [Bind.bind, StateT.bind, ExceptT.bind, ExceptT.mk, hact, ExceptT.bindCont] at h
    cases h
  · simp only [Bind.bind, StateT.bind, ExceptT.bind, ExceptT.mk, hact, ExceptT.bindCont] at h
    exact ⟨a, f₁, ⟨log, log₁, hact⟩, ⟨log₁, log', h⟩⟩

theorem pure {a b : α} (h : (Pure.pure a : Flatten α).Gives f b f') : b = a ∧ f' = f := by
  obtain ⟨log, log', h⟩ := h
  cases h
  exact ⟨rfl, rfl⟩

theorem lift {x : Except Error α} {a : α} (h : (liftM x : Flatten α).Gives f a f') : x = .ok a ∧ f' = f := by
  obtain ⟨log, log', h⟩ := h
  cases x with
  | error e => cases h
  | ok b => cases h; exact ⟨rfl, rfl⟩

theorem newLabel {l : Label} (h : Flatten.newLabel.Gives f l f') :
    l = ⟨f.func.labels.size⟩ ∧ f'.code = f.code ∧ f'.func.labels.size = f.func.labels.size + 1 := by
  obtain ⟨log, log', h⟩ := h
  cases h
  refine ⟨rfl, rfl, ?_⟩
  simp [Func.newLabel, LabelPool.fresh, LabelPool.size]

theorem add {e : Expr} (h : (Flatten.add e).Gives f () f') :
    f'.func = f.func ∧ f'.code.toList = f.code.toList ++ if e.isEffectFree then [] else [e] := by
  obtain ⟨log, log', h⟩ := h
  obtain rfl : (f.add e log).1 = f' := by
    cases h
    rfl
  unfold Flat.add
  split
  · exact ⟨rfl, (List.append_nil _).symm⟩
  · exact ⟨rfl, Array.toList_push⟩

end Flatten.Gives

/-- The code `k` has been appended, and its labels are new ones. -/
structure Flat.Grows (f f' : Flat) (k : List Expr) : Prop where
  code : f'.code.toList = f.code.toList ++ k
  fresh : Fresh f.func.labels.size f'.func.labels.size k

theorem Flat.Grows.refl (f : Flat) : f.Grows f [] := ⟨(List.append_nil _).symm, .of_placed_nil rfl rfl⟩

theorem Flat.Grows.trans {f f₁ f' : Flat} {k k' : List Expr} (h : f.Grows f₁ k) (h' : f₁.Grows f' k') :
    f.Grows f' (k ++ k') :=
  ⟨by rw [h'.code, h.code, List.append_assoc], h.fresh.append h'.fresh⟩

/-- The expressions `k` have been appended, and `n` labels issued. -/
structure Flat.Adds (f : Flat) (n : Nat) (f' : Flat) (k : List Expr) : Prop where
  code : f'.code.toList = f.code.toList ++ k
  labels : f'.func.labels.size = f.func.labels.size + n

theorem Flat.Adds.trans {n n' : Nat} {f f₁ f' : Flat} {k k' : List Expr} (h : f.Adds n f₁ k) (h' : f₁.Adds n' f' k') :
    f.Adds (n + n') f' (k ++ k') :=
  ⟨by rw [h'.code, h.code, List.append_assoc], by rw [h'.labels, h.labels, Nat.add_assoc]⟩

/-- What cannot be dropped is appended. -/
theorem Flatten.Gives.add_kept {e : Expr} {f f' : Flat} (he : e.isEffectFree = false) (h : (Flatten.add e).Gives f () f') :
    f.Adds 0 f' [e] := by
  obtain ⟨hfunc, hcode⟩ := h.add
  rw [he, if_neg (by simp)] at hcode
  exact ⟨hcode, by rw [hfunc, Nat.add_zero]⟩

theorem Flatten.Gives.adds_newLabel {l : Label} {f f' : Flat} (h : Flatten.newLabel.Gives f l f') : f.Adds 1 f' [] :=
  ⟨by rw [h.newLabel.2.1, List.append_nil], h.newLabel.2.2⟩

theorem mkJumpIf_eq_ok {l : Label} {c e : Expr} (h : Expr.mkJumpIf l c = .ok e) : e = jumpIf l c := by
  unfold Expr.mkJumpIf Expr.mkBinary at h
  cases hk : Expr.checkBinary .jumpIf (.label l) c with
  | error err => rw [hk] at h; cases h
  | ok k =>
    obtain rfl : Kind.void = k := (Expr.checkBinary_eq_ok.1 hk).2.2
    rw [hk] at h
    cases h
    rfl

/-- The code around the branches of a condition, which jumps to the first of two labels if the condition fails. -/
theorem Flatten.Gives.ite {around : Option LoopLabels} {c : Expr} {t : Stmt} {e : Option Stmt} {f f' : Flat}
    (h : (Stmt.flatten around (.ite c t e)).Gives f () f') :
    ∃ d f₁ f₂ f₃ f₄, Expr.mkUnary .lnot c = .ok d ∧ f.Adds 2 f₁ [jumpIf ⟨f.func.labels.size⟩ d] ∧
      (Stmt.flatten around t).Gives f₁ () f₂ ∧
      f₂.Adds 0 f₃ [jumpTo ⟨f.func.labels.size + 1⟩, .label ⟨f.func.labels.size⟩] ∧
      (Stmt.flattenO around e).Gives f₃ () f₄ ∧ f₄.Adds 0 f' [.label ⟨f.func.labels.size + 1⟩] := by
  rw [Stmt.flatten] at h
  obtain ⟨other, g₁, hother, h⟩ := h.bind
  obtain ⟨done, g₂, hdone, h⟩ := h.bind
  obtain ⟨d, g₃, hd, h⟩ := h.bind
  obtain ⟨j, g₄, hj, h⟩ := h.bind
  obtain ⟨_, f₁, hjump, h⟩ := h.bind
  obtain ⟨_, f₂, hthen, h⟩ := h.bind
  obtain ⟨_, g₅, hgoto, h⟩ := h.bind
  obtain ⟨_, f₃, hplace, h⟩ := h.bind
  obtain ⟨_, f₄, helse, hend⟩ := h.bind
  have hissue := hother.adds_newLabel.trans hdone.adds_newLabel
  obtain ⟨rfl, -, hn⟩ := hother.newLabel
  obtain ⟨rfl, -, -⟩ := hdone.newLabel
  obtain ⟨hnot, rfl⟩ := hd.lift
  obtain ⟨hjok, rfl⟩ := hj.lift
  obtain rfl := mkJumpIf_eq_ok hjok
  rw [hn] at hgoto hend
  exact ⟨d, f₁, f₂, f₃, f₄, hnot, hissue.trans (hjump.add_kept rfl), hthen,
    (hgoto.add_kept rfl).trans (hplace.add_kept rfl), helse, hend.add_kept rfl⟩

/-- The code around the parts of a loop: its three labels are those of the body, of the test and of the exit. -/
theorem Flatten.Gives.loop {around : Option LoopLabels} {i p : Option Stmt} {c : Option Expr} {b : Stmt} {f f' : Flat}
    (h : (Stmt.flatten around (.loop i c p b)).Gives f () f') :
    ∃ f₁ f₂ f₃ f₄ f₅, f.Adds 3 f₁ [] ∧ (Stmt.flattenO around i).Gives f₁ () f₂ ∧
      f₂.Adds 0 f₃ [jumpTo ⟨f.func.labels.size + 1⟩, .label ⟨f.func.labels.size⟩] ∧
      (Stmt.flatten (some ⟨⟨f.func.labels.size + 2⟩, ⟨f.func.labels.size + 1⟩⟩) b).Gives f₃ () f₄ ∧
      (Stmt.flattenO (some ⟨⟨f.func.labels.size + 2⟩, ⟨f.func.labels.size + 1⟩⟩) p).Gives f₄ () f₅ ∧
      f₅.Adds 0 f' [.label ⟨f.func.labels.size + 1⟩, jumpIf ⟨f.func.labels.size⟩ (Stmt.loopCond c),
        .label ⟨f.func.labels.size + 2⟩] := by
  rw [Stmt.flatten] at h
  obtain ⟨top, g₁, htop, h⟩ := h.bind
  obtain ⟨test, g₂, htest, h⟩ := h.bind
  obtain ⟨exit, f₁, hexit, h⟩ := h.bind
  obtain ⟨_, f₂, hinit, h⟩ := h.bind
  obtain ⟨_, g₃, hgoto, h⟩ := h.bind
  obtain ⟨_, f₃, hplace, h⟩ := h.bind
  obtain ⟨_, f₄, hbody, h⟩ := h.bind
  obtain ⟨_, f₅, hpost, h⟩ := h.bind
  obtain ⟨_, g₄, hplace', h⟩ := h.bind
  obtain ⟨j, g₅, hj, h⟩ := h.bind
  obtain ⟨_, g₆, hjump, hend⟩ := h.bind
  have hissue := (htop.adds_newLabel.trans htest.adds_newLabel).trans hexit.adds_newLabel
  obtain ⟨rfl, -, hn₁⟩ := htop.newLabel
  obtain ⟨rfl, -, hn₂⟩ := htest.newLabel
  obtain ⟨rfl, -, -⟩ := hexit.newLabel
  obtain ⟨hjok, rfl⟩ := hj.lift
  obtain rfl := mkJumpIf_eq_ok hjok
  rw [hn₂, hn₁] at hbody hpost hend
  rw [hn₁] at hgoto hplace'
  exact ⟨f₁, f₂, f₃, f₄, f₅, hissue, hinit, (hgoto.add_kept rfl).trans (hplace.add_kept rfl), hbody, hpost,
    ((hplace'.add_kept rfl).trans (hjump.add_kept rfl)).trans (hend.add_kept rfl)⟩

namespace Stmt

theorem mkIf_eq_ok {c : Expr} {t s : Stmt} {e : Option Stmt} (h : mkIf c t e = .ok s) : s = .ite c t e := by
  unfold mkIf at h
  cases hc : checkCond c with
  | error err => rw [hc] at h; cases h
  | ok u => rw [hc] at h; cases h; rfl

theorem mkFor_eq_ok {i p : Option Stmt} {c : Option Expr} {b s : Stmt} (h : mkFor i c p b = .ok s) :
    s = .loop i c p b := by
  unfold mkFor at h
  cases hc : c.forM checkCond with
  | error err => rw [hc] at h; cases h
  | ok u => rw [hc] at h; cases h; rfl

/-- The parts of a built statement are built. -/
theorem Built.parts {s : Stmt} (h : s.Built) : match s with
    | .block ss => ∀ s ∈ ss, s.Built
    | .ite c t e => c.Built ∧ t.Built ∧ ∀ s ∈ e, s.Built
    | .loop i _ p b => (∀ s ∈ i, s.Built) ∧ (∀ s ∈ p, s.Built) ∧ b.Built
    | .exit _ | .expr _ => True := by
  cases h with
  | block h => exact h
  | ite hc ht he h =>
    cases mkIf_eq_ok h
    exact ⟨hc, ht, he⟩
  | loop hi _ hp hb h =>
    cases mkFor_eq_ok h
    exact ⟨hi, hp, hb⟩
  | exit | expr => trivial

mutual
/-- Flattening a statement appends code of it. -/
theorem flatten_emits : ∀ (s : Stmt) (around : Option LoopLabels) {f f' : Flat}, s.Built →
    (∀ e ∈ s.expressions, e.isTransfer = false) → (flatten around s).Gives f () f' → ∃ k, Emits around s k ∧ f.Grows f' k
  | .block ss, around, f, f', hb, ht, h => by
    rw [flatten] at h
    rw [expressions] at ht
    exact flattenL_emits ss around hb.parts ht h
  | .expr e, around, f, f', hb, ht, h => by
    rw [flatten] at h
    obtain ⟨hfunc, hcode⟩ := h.add
    have hnot := ht e (by simp [expressions])
    cases he : e.isEffectFree with
    | true => exact ⟨[], .dropped he, by simpa [he] using hcode, .of_placed_nil (by rw [hfunc]) rfl⟩
    | false =>
      have hlabel : placed [e] = [] := by
        cases e <;> first | rfl | simp [Expr.isTransfer] at hnot
      exact ⟨[e], .kept hnot, by simpa [he] using hcode, .of_placed_nil (by rw [hfunc]) hlabel⟩
  | .exit e, around, f, f', hb, ht, h => by
    cases around with
    | none =>
      rw [flatten] at h
      obtain ⟨log, log', h⟩ := h
      cases h
    | some l =>
      rw [flatten] at h
      have hadd := h.add_kept rfl
      exact ⟨_, .exit, hadd.code, .of_placed_nil hadd.labels.symm rfl⟩
  | .ite c t e, around, f, f', hb, ht, h => by
    obtain ⟨hc, hbt, hbe⟩ := hb.parts
    rw [expressions, List.forall_mem_append] at ht
    obtain ⟨d, f₁, f₂, f₃, f₄, hnot, h₁, hthen, h₂, helse, h₃⟩ := h.ite
    obtain ⟨kt, hkt, hgt⟩ := flatten_emits t around hbt ht.1 hthen
    obtain ⟨ke, hke, hge⟩ := flattenO_emits e around hbe ht.2 helse
    refine ⟨_, .ite ⟨f.func.labels.size⟩ ⟨f.func.labels.size + 1⟩ hc.wellKinded hnot hkt hke, ?_, ?_⟩
    · rw [h₃.code, hge.code, h₂.code, hgt.code, h₁.code]
      simp
    · have hfresh := hgt.fresh
      have hfresh' := hge.fresh
      rw [h₁.labels] at hfresh
      rw [h₂.labels] at hfresh'
      rw [h₃.labels]
      refine (hfresh.append hfresh').issue [⟨f.func.labels.size⟩, ⟨f.func.labels.size + 1⟩] ?_ (Nat.add_comm 2 _) ?_ ?_
      · simpa using perm_interleave (placed kt) (placed ke) [⟨f.func.labels.size + 1⟩] ⟨f.func.labels.size⟩
      · simp
      · simp
  | .loop i c p b, around, f, f', hb, ht, h => by
    obtain ⟨hbi, hbp, hbb⟩ := hb.parts
    rw [expressions, List.forall_mem_append, List.forall_mem_append] at ht
    obtain ⟨f₁, f₂, f₃, f₄, f₅, h₁, hinit, h₂, hbody, hpost, h₃⟩ := h.loop
    obtain ⟨ki, hki, hgi⟩ := flattenO_emits i around hbi ht.1.1 hinit
    obtain ⟨kb, hkb, hgb⟩ := flatten_emits b _ hbb ht.2 hbody
    obtain ⟨kp, hkp, hgp⟩ := flattenO_emits p _ hbp ht.1.2 hpost
    refine ⟨_, .loop ⟨f.func.labels.size⟩ ⟨f.func.labels.size + 1⟩ ⟨f.func.labels.size + 2⟩ hki
      (.cons hkb (.cons hkp .nil)), ?_, ?_⟩
    · rw [h₃.code, hgp.code, hgb.code, h₂.code, hgi.code, h₁.code]
      simp
    · have hfresh := hgi.fresh
      have hturn := (hgb.trans hgp).fresh
      rw [h₁.labels] at hfresh
      rw [h₂.labels] at hturn
      rw [h₃.labels]
      refine (hfresh.append hturn).issue
        [⟨f.func.labels.size⟩, ⟨f.func.labels.size + 1⟩, ⟨f.func.labels.size + 2⟩] ?_ (Nat.add_comm 3 _) ?_ ?_
      · simpa using perm_interleave (placed ki) (placed (kb ++ kp))
          [⟨f.func.labels.size + 1⟩, ⟨f.func.labels.size + 2⟩] ⟨f.func.labels.size⟩
      · simp
      · simp
theorem flattenL_emits : ∀ (ss : List Stmt) (around : Option LoopLabels) {f f' : Flat}, (∀ s ∈ ss, s.Built) →
    (∀ e ∈ expressionsL ss, e.isTransfer = false) → (flattenL around ss).Gives f () f' →
    ∃ k, Emits around (.block ss) k ∧ f.Grows f' k
  | [], around, f, f', _, _, h => by
    rw [flattenL] at h
    obtain rfl := h.pure.2
    exact ⟨[], .nil, .refl _⟩
  | s :: ss, around, f, f', hb, ht, h => by
    rw [flattenL] at h
    rw [expressionsL, List.forall_mem_append] at ht
    rw [List.forall_mem_cons] at hb
    obtain ⟨_, f₁, hs, hss⟩ := h.bind
    obtain ⟨k, hk, hg⟩ := flatten_emits s around hb.1 ht.1 hs
    obtain ⟨ks, hks, hgs⟩ := flattenL_emits ss around hb.2 ht.2 hss
    exact ⟨k ++ ks, .cons hk hks, hg.trans hgs⟩
theorem flattenO_emits : ∀ (o : Option Stmt) (around : Option LoopLabels) {f f' : Flat}, (∀ s ∈ o, s.Built) →
    (∀ e ∈ expressionsO o, e.isTransfer = false) → (flattenO around o).Gives f () f' →
    ∃ k, Emits around (o.getD skip) k ∧ f.Grows f' k
  | none, around, f, f', _, _, h => by
    rw [flattenO] at h
    obtain rfl := h.pure.2
    exact ⟨[], .nil, .refl _⟩
  | some s, around, f, f', hb, ht, h => by
    rw [flattenO] at h
    rw [expressionsO] at ht
    exact flatten_emits s around (hb s rfl) ht h
end

end Stmt

/-! ## Functions -/

theorem Func.flatten_fst (f : Func) (log : Log) :
    (f.flatten log).1 = ((Stmt.flattenL none f.source) ⟨{ f with source := [] }, #[]⟩ log).1.map (·.2) := by
  rcases hrun : Stmt.flattenL none f.source ⟨{ f with source := [] }, #[]⟩ log with ⟨_ | ⟨u, flat⟩, log₁⟩
  all_goals
    simp only [Func.flatten, StateT.run, bind, ExceptT.bind, ExceptT.mk, StateT.bind, hrun, ExceptT.bindCont]
    rfl

theorem Func.gives_of_flatten {f : Func} {flat : Flat} {log log' : Log} (h : f.flatten log = (.ok flat, log')) :
    (Stmt.flattenL none f.source).Gives ⟨{ f with source := [] }, #[]⟩ () flat := by
  have hfst := Func.flatten_fst f log
  rw [h] at hfst
  rcases hrun : Stmt.flattenL none f.source ⟨{ f with source := [] }, #[]⟩ log with ⟨_ | ⟨u, flat'⟩, log₁⟩
  all_goals
    rw [hrun] at hfst
    cases hfst
  exact ⟨log, log₁, hrun⟩

/-- The statements of a function and its flattened form come to the same ends, with the same store and the same
returned values; so one comes to an end exactly when the other does. -/
theorem Func.flatten_completes_iff {f : Func} {flat : Flat} {log log' : Log} (h : f.flatten log = (.ok flat, log'))
    (hb : ∀ s ∈ f.source, s.Built) (ht : ∀ e ∈ Stmt.expressionsL f.source, e.isTransfer = false) (w : World)
    (σ τ : Store) (r : Option (List Const)) : flat.Completes w σ τ r ↔ Stmt.Completes w f.source σ τ r := by
  obtain ⟨k, hk, hg⟩ := Stmt.flattenL_emits f.source none hb ht (Func.gives_of_flatten h)
  have hcode : flat.code.toList = k := hg.code
  have hnd : (placed k).Nodup := hg.fresh.once
  have hsuffix : k ++ [] <:+ k := by simp
  unfold Flat.Completes
  rw [hcode]
  constructor
  · rintro ⟨n, hn⟩
    -- Nothing outside of a loop jumps to an exit, so the exits may be code that cannot run.
    have hexits : ExitsAt k none fun _ => [.unary .zero .void (.const (.zero .void))] := fun l hl => by cases hl
    obtain ⟨m, -, υ, o, hs, hgo⟩ := hk.runs_of_exec hnd hsuffix hexits (by rwa [List.append_nil])
    cases o with
    | next =>
      cases exec_nil.symm.trans hgo
      exact hs
    | ret cs =>
      cases hgo
      exact hs
    | exit e => cases m <;> cases hgo
  · intro hc
    have hexits : ExitsAt k none fun _ => [] := fun l hl => by cases hl
    have hrun : ∀ {o}, (Stmt.block f.source).Runs w σ τ o → Goes w k 0 [] (fun _ => []) τ o (τ, r) →
        ∃ n, exec w k n k σ = some (τ, r) := by
      intro o hs hgo
      obtain ⟨m, hm⟩ := hk.exec_of_runs hnd hs hsuffix hexits hgo
      exact ⟨m, by rwa [List.append_nil] at hm⟩
    cases r with
    | none => exact hrun hc rfl
    | some cs => exact hrun hc rfl

/-- Counts up to the square root of its parameter: a loop with all its parts, left from inside a branch, with a sum
before it that has no effect. -/
def squareRoot : Func :=
  let n : Expr := .reg (Func.softReg 0 .int64)
  let i : Expr := .reg (Func.softReg 1 .int64)
  { name := "root", sig := ⟨[.int64], [.int64]⟩, regs := [Func.softReg 0 .int64, Func.softReg 1 .int64], labels := {},
    source :=
      [.expr (.binary (.arith .add) .int64 i n),
       .loop (some (.expr (.binary .assign .int64 i (.const (Const.int64 0)))))
        (some (.binary (.compare .lss) .bool i n)) (some (.expr (.unary .inc .int64 i)))
        (.ite (.binary (.compare .eql) .bool n (.binary (.arith .mul) .int64 i i)) (.exit .brk) none),
       .expr (.ret [i])] }

theorem squareRoot_built : ∀ s ∈ squareRoot.source, s.Built := by
  have hn : (Expr.reg (Func.softReg 0 .int64)).Built := .reg _
  have hi : (Expr.reg (Func.softReg 1 .int64)).Built := .reg _
  have hcond : (Expr.binary (.compare .lss) .bool (.reg (Func.softReg 1 .int64)) (.reg (Func.softReg 0 .int64))).Built :=
    .binary (.compare .lss) hi hn rfl
  refine List.forall_mem_cons.2 ⟨.expr (.binary (.arith .add) hi hn rfl), List.forall_mem_cons.2 ⟨?_, ?_⟩⟩
  · refine .loop (i := some _) (p := some _) ?_ (fun _ h => Option.some.inj h ▸ hcond) ?_ (.ite (e := none)
      (.binary (.compare .eql) hn (.binary (.arith .mul) hi hi rfl) rfl) (.exit .brk) (by simp) rfl) rfl
    · rintro s ⟨⟩
      exact .expr (.binary .assign hi (.const (Const.canonical_ofInt .int64 0)) rfl)
    · rintro s ⟨⟩
      exact .expr (.unary .inc hi rfl)
  · exact List.forall_mem_singleton.2 (.expr (.ret (List.forall_mem_singleton.2 hi) rfl))

theorem flatten_completes_iff_squareRoot : ∃ flat log', squareRoot.flatten #[] = (.ok flat, log') ∧
    ∀ w σ τ r, flat.Completes w σ τ r ↔ Stmt.Completes w squareRoot.source σ τ r := by
  have h : ∃ flat log', squareRoot.flatten #[] = (.ok flat, log') := ⟨_, _, rfl⟩
  obtain ⟨flat, log', h⟩ := h
  exact ⟨flat, log', h, Func.flatten_completes_iff h squareRoot_built (by decide)⟩

end JitBackend
