import JitBackend.Proofs.LinearScan
import JitBackend.Proofs.Subexpressions

/-!
# Values that survive calls

An interval that covers the position of a call only ever takes a register that calls preserve; otherwise it goes to the
stack, and what is on the stack stays there. So a register that is live at a call, at any depth of an expression, has a place
that the call leaves alone (`allocate_survives`). Registers may stand more than once in the list, so that nothing of `Inv` is
used here: `Spared` is kept by every step on its own.
-/

namespace JitBackend

/-! ## Calls in expressions -/

namespace Expr

/-- A call. -/
def IsCall (e : Expr) : Prop := ∃ l n sig args, e = .call l n sig args

mutual
theorem containsOp_call_iff : ∀ e : Expr, e.containsOp .call = true ↔ e.Has IsCall
  | const _ | reg _ | label _ | memAt .. => by rw [has_iff]; simp [containsOp, IsCall, children]
  | mem _ _ a => by simp [containsOp, has_mem, IsCall, containsOp_call_iff a]
  | unary _ _ x => by simp [containsOp, has_unary, IsCall, containsOp_call_iff x]
  | binary _ _ x y => by simp [containsOp, has_binary, IsCall, containsOp_call_iff x, containsOp_call_iff y]
  | ret vs => by rw [has_iff]; simp [containsOp, IsCall, children, containsOpL_call_iff vs]
  | call _ _ _ args => by rw [has_iff]; simp [containsOp, IsCall]
theorem containsOpL_call_iff : ∀ es : List Expr, containsOpL .call es = true ↔ ∃ e ∈ es, e.Has IsCall
  | [] => by simp [containsOpL]
  | e :: es => by simp [containsOpL, containsOp_call_iff e, containsOpL_call_iff es]
end

end Expr

theorem Flat.mem_callPositions {f : Flat} {i : Nat} {e : Expr} (he : f.code[i]? = some e) (hc : e.Has Expr.IsCall) :
    i + 1 ∈ f.callPositions := by
  refine List.mem_filterMap.2 ⟨(e, i + 1), mem_positions.2 ⟨by omega, he⟩, ?_⟩
  simp only [(Expr.containsOp_call_iff e).2 hc, if_true]

namespace LinearScan

variable {scan : LinearScan} {calls : List Nat} {done : List Interval} {a : Allocation} {st : State} {iv old : Interval}
  {r : HardReg}

theorem usable_of_victim {usable : HardReg → Bool} {active : List (Interval × HardReg)} {b : Interval × HardReg}
    (h : victim usable active = some b) : usable b.2 = true := by
  have hmem : b ∈ active.filter fun c => usable c.2 := by
    have hsame : victim usable (active.filter fun c => usable c.2) = some b := by
      unfold victim at h ⊢
      rwa [List.filter_filter, show (fun c : Interval × HardReg => usable c.2 && usable c.2) = fun c => usable c.2 from
        funext fun c => Bool.and_self _]
    exact mem_of_victim hsame
  exact (List.mem_filter.1 hmem).2

/-! ## The invariant -/

/-- Every interval has a place, and a register only if it may take that register. -/
def Spared (scan : LinearScan) (calls : List Nat) (done : List Interval) (a : Allocation) : Prop :=
  ∀ iv ∈ done, ∃ loc, a.get? iv.id = some loc ∧ ∀ r, loc = .reg r → scan.usable calls iv r = true

/-- A move to the stack spoils nothing. -/
theorem Spared.evict (h : Spared scan calls done a) (old : Interval) : Spared scan calls done (scan.spill old a).2 := by
  intro jv hj
  rw [get?_spill]
  split
  · exact ⟨_, rfl, by rintro r ⟨⟩⟩
  · exact h jv hj

theorem Spared.concat (h : Spared scan calls done a)
    (hiv : ∃ loc, a.get? iv.id = some loc ∧ ∀ r, loc = .reg r → scan.usable calls iv r = true) :
    Spared scan calls (done ++ [iv]) a := by
  intro jv hj
  rcases List.mem_append.1 hj with hj | hj
  · exact h jv hj
  · obtain rfl := List.mem_singleton.1 hj
    exact hiv

theorem Spared.spill (h : Spared scan calls done a) (iv : Interval) :
    Spared scan calls (done ++ [iv]) (scan.spill iv a).2 := by
  refine (h.evict iv).concat ⟨.stack scan.stackPointer a.frame, ?_, by rintro r ⟨⟩⟩
  rw [get?_spill, if_pos rfl]

theorem Spared.take (h : Spared scan calls done st.alloc) (hid : iv.id ∉ done.map (·.id))
    (hr : scan.usable calls iv r = true) : Spared scan calls (done ++ [iv]) (take iv r st).alloc := by
  have hold : Spared scan calls done (LinearScan.take iv r st).alloc := by
    intro jv hj
    have hne : jv.id ≠ iv.id := fun he => hid (List.mem_map.2 ⟨jv, hj, he⟩)
    simpa [LinearScan.take, hne] using h jv hj
  refine hold.concat ⟨.reg r, by simp [LinearScan.take], ?_⟩
  rintro r' ⟨⟩
  exact hr

/-- One step keeps values out of the registers that calls change. -/
theorem Spared.place (h : Spared scan calls done st.alloc) (hid : iv.id ∉ done.map (·.id)) (log : Log) :
    Spared scan calls (done ++ [iv]) (scan.place calls st iv log).1.alloc := by
  have hexpire : (scan.expire iv.start st).alloc = st.alloc := by
    unfold LinearScan.expire
    rw [List.partition_eq_filter_filter]
  rcases @place_cases scan calls st iv log with ⟨r, hf, he⟩ | ⟨old, r, -, hv, -, he⟩ | ⟨-, -, he⟩
  · rw [he]
    exact Spared.take (by rw [hexpire]; exact h) hid (List.find?_some hf)
  · rw [he]
    refine Spared.take ?_ hid (usable_of_victim hv)
    exact Spared.evict (by rw [hexpire]; exact h) old
  · rw [he]
    exact Spared.spill (by rw [hexpire]; exact h) iv

theorem Spared.run (calls : List Nat) : ∀ (ivs done : List Interval) (st : State) (log : Log),
    Spared scan calls done st.alloc → ((done ++ ivs).map (·.id)).Nodup →
    Spared scan calls (done ++ ivs) (ivs.foldlM (scan.place calls) st log).1.alloc
  | [], done, st, log, h, _ => by rw [List.append_nil]; exact h
  | iv :: ivs, done, st, log, h, hids => by
    have hid : iv.id ∉ done.map (·.id) := by
      rw [List.map_append] at hids
      exact fun hm => (List.nodup_append.1 hids).2.2 _ hm _ List.mem_cons_self rfl
    have hrest := Spared.run calls ivs (done ++ [iv]) _ (scan.place calls st iv log).2 (h.place hid log)
      (by simpa using hids)
    rw [show done ++ iv :: ivs = done ++ [iv] ++ ivs by simp, List.foldlM_cons]
    exact hrest

/-! ## Allocations of a function -/

theorem allocate_spared (f : Flat) (log : Log) : Spared scan f.callPositions f.intervals (scan.allocate f log).1 := by
  have hperm : (byStart f.intervals).Perm f.intervals := List.mergeSort_perm _ _
  have hids : ((byStart f.intervals).map (·.id)).Nodup := (hperm.map _).nodup_iff.2 f.noted_intervals.nodup
  have h := @Spared.run scan f.callPositions (byStart f.intervals) [] { free := scan.regs } log (by simp [Spared])
    (by simpa using hids)
  intro iv hiv
  exact h iv (hperm.mem_iff.2 hiv)

/-- An interval that covers a call has a place that calls leave alone. -/
theorem allocate_across (f : Flat) (log : Log) {p : Nat} (hiv : iv ∈ f.intervals) (hp : p ∈ f.callPositions)
    (hc : iv.covers p = true) : ∃ loc, (scan.allocate f log).1.get? iv.id = some loc ∧
      ((∃ r ∈ scan.preserved, loc = .reg r) ∨ ∃ o, loc = .stack scan.stackPointer o) := by
  obtain ⟨loc, hloc, hsp⟩ := @allocate_spared scan f log iv hiv
  refine ⟨loc, hloc, ?_⟩
  rcases allocate_places f log hloc with ⟨r, -, rfl⟩ | ⟨o, ho, -⟩
  · have hu := hsp r rfl
    have hany : f.callPositions.any iv.covers = true := List.any_eq_true.2 ⟨p, hp, hc⟩
    rw [usable, hany] at hu
    exact .inl ⟨r, by simpa using hu, rfl⟩
  · exact .inr ⟨o, ho⟩

/-- A register that is live at an expression with a call, at any depth, is in a preserved register or on the stack. -/
theorem allocate_survives (scan : LinearScan) (f : Flat) (hl : f.LabelsOnce) (log : Log) {id i : Nat} {e : Expr}
    (he : f.code[i]? = some e) (hcall : e.Has Expr.IsCall) (hlive : f.Live id (i + 1)) :
    ∃ loc, (scan.allocate f log).1.get? id = some loc ∧
      ((∃ r ∈ scan.preserved, loc = .reg r) ∨ ∃ o, loc = .stack scan.stackPointer o) := by
  obtain ⟨iv, hiv, rfl, hp⟩ := hlive.covered hl
  exact allocate_across f log hiv (Flat.mem_callPositions he hcall) hp

/-- A loop whose body adds the result of a call: `s256` is live at the call along the jump back only. -/
def callingLoop : Flat where
  func := Func.empty "calling" ⟨[.int64], []⟩
  code :=
    let s := fun i => Expr.reg (Func.softReg i .int64)
    let call := Expr.call ⟨1⟩ none ⟨[], [.int64]⟩ []
    #[.label ⟨0⟩, .binary .assign .int64 (s 1) (s 0),
      .binary .assign .int64 (s 2) (.binary (.arith .add) .int64 call (.const (Const.int64 1))),
      .binary .jumpIf .void (.label ⟨0⟩) (.binary (.compare .neq) .bool (s 2) (.const (Const.int64 0)))]

theorem allocate_survives_callingLoop :
    let scan : LinearScan := ⟨[⟨.amd64, 6⟩, ⟨.amd64, 6⟩, ⟨.amd64, 3⟩], [⟨.amd64, 3⟩], ⟨.amd64, 4⟩⟩
    callingLoop.LabelsOnce ∧ callingLoop.Live 256 3 ∧
      ∃ loc, (scan.allocate callingLoop #[]).1.get? 256 = some loc ∧
        ((∃ r ∈ scan.preserved, loc = .reg r) ∨ ∃ o, loc = .stack scan.stackPointer o) := by
  intro scan
  have honce : callingLoop.LabelsOnce := by
    intro i j l hi hj
    have hi' : i < 4 := (Array.getElem?_eq_some_iff.1 hi).1
    have hj' : j < 4 := (Array.getElem?_eq_some_iff.1 hj).1
    interval_cases i <;> simp [callingLoop] at hi
    interval_cases j <;> simp [callingLoop] at hj
    rfl
  have hnext : ∀ i < 3, callingLoop.Edge (i + 1) (i + 2) := by
    intro i hi
    interval_cases i <;> exact Flat.Edge.next rfl rfl
  have hback : callingLoop.Edge 4 1 := Flat.Edge.jump (i := 3) (j := 0) rfl rfl rfl
  have hto : callingLoop.Path 2 3 := .single (hnext 1 (by omega))
  have hround : callingLoop.Path 3 2 :=
    ((Relation.ReflTransGen.single (hnext 2 (by omega))).tail hback).tail (hnext 0 (by omega))
  have hlive : callingLoop.Live 256 3 :=
    ⟨2, 2, ⟨Func.softReg 0 .int64, rfl, by decide⟩, hto, hround, ⟨Func.softReg 0 .int64, rfl, by decide⟩⟩
  have hcall : (Expr.binary .assign .int64 (.reg (Func.softReg 2 .int64)) (.binary (.arith .add) .int64
      (.call ⟨1⟩ none ⟨[], [.int64]⟩ []) (.const (Const.int64 1)))).Has Expr.IsCall :=
    (Expr.containsOp_call_iff _).1 rfl
  exact ⟨honce, hlive, allocate_survives scan callingLoop honce #[] (i := 2) rfl hcall hlive⟩

end LinearScan

end JitBackend
