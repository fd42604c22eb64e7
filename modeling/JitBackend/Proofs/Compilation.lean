import JitBackend.Amd64.Target
import JitBackend.Pipeline
import JitBackend.Proofs.Flatten
import JitBackend.Proofs.LinearScan
import JitBackend.Proofs.Lowering

/-!
# From a function to selected code

What is true of the statements of a function is true of the code that they flatten to, as far as it is a property of
single expressions; expressions without an effect are dropped (`Func.flatten_yields`). What lowering gives is the session
of selection over that code and an allocation of it (`Func.lower_eq_ok`).
-/

namespace JitBackend

/-! ## Flattened expressions -/

namespace Stmt

mutual
/-- Every expression that flattening the statement can append satisfies `P`, labels and plain jumps apart. -/
def Yields (P : Expr → Prop) : Stmt → Prop
  | block list => YieldsL P list
  | expr e => e.isEffectFree = false → P e
  | ite c t e => (∀ l d j, Expr.mkUnary .lnot c = .ok d → Expr.mkJumpIf l d = .ok j → P j) ∧ Yields P t ∧ YieldsO P e
  | loop i c p b => (∀ l j, Expr.mkJumpIf l (loopCond c) = .ok j → P j) ∧ YieldsO P i ∧ YieldsO P p ∧ Yields P b
  | exit _ => True
def YieldsL (P : Expr → Prop) : List Stmt → Prop
  | [] => True
  | s :: ss => Yields P s ∧ YieldsL P ss
def YieldsO (P : Expr → Prop) : Option Stmt → Prop
  | none => True
  | some s => Yields P s
end

end Stmt

/-- Every expression of the code has an effect and satisfies `P`. -/
def Flat.Consists (P : Expr → Prop) (f : Flat) : Prop := ∀ e ∈ f.code.toList, e.isEffectFree = false ∧ P e

/-- The computation appends expressions with an effect that satisfy `P` only. -/
def Flatten.Appends {α : Type} (P : Expr → Prop) (act : Flatten α) : Prop :=
  ∀ ⦃f a f'⦄, act.Gives f a f' → f.Consists P → f'.Consists P

section Appends

open Flatten

variable {α β : Type} {P : Expr → Prop}

theorem Flatten.Appends.bind {act : Flatten α} {k : α → Flatten β} (h : Appends P act) (hk : ∀ a, Appends P (k a)) :
    Appends P (act >>= k) := by
  intro f b f' hg hf
  obtain ⟨a, f₁, ha, hb⟩ := hg.bind
  exact hk a hb (h ha hf)

theorem appends_pure (a : α) : Appends P (pure a : Flatten α) := by
  intro f b f' hg hf
  obtain ⟨-, rfl⟩ := hg.pure
  exact hf

/-- A checked part of the computation, with what the check gives. -/
theorem appends_lift {x : Except Error α} {k : α → Flatten β} (hk : ∀ a, x = .ok a → Appends P (k a)) :
    Appends P (liftM x >>= k) := by
  intro f b f' hg hf
  obtain ⟨a, f₁, ha, hb⟩ := hg.bind
  obtain ⟨hx, rfl⟩ := ha.lift
  exact hk a hx hb hf

theorem appends_newLabel : Appends P Flatten.newLabel := by
  intro f l f' hg hf
  unfold Flat.Consists
  rw [hg.newLabel.2.1]
  exact hf

theorem appends_add {e : Expr} (h : e.isEffectFree = false → P e) : Appends P (Flatten.add e) := by
  intro f u f' hg hf d hd
  rw [hg.add.2, List.mem_append] at hd
  rcases hd with hd | hd
  · exact hf d hd
  · split at hd
    · cases hd
    · rename_i hfree
      obtain rfl := List.mem_singleton.1 hd
      exact ⟨by simpa using hfree, h (by simpa using hfree)⟩

open Stmt in
mutual
theorem appends_flatten (hl : ∀ l, P (.label l) ∧ P (.jumpTo l)) : ∀ (s : Stmt) (around : Option LoopLabels),
    s.Yields P → Appends P (s.flatten around)
  | .block ss, around, h => by
    rw [flatten]
    rw [Yields] at h
    exact appends_flattenL hl ss around h
  | .expr e, around, h => by
    rw [flatten]
    rw [Yields] at h
    exact appends_add h
  | .exit e, around, _ => by
    cases around with
    | none =>
      rw [flatten]
      rintro f u f' ⟨log, log', h⟩
      cases h
    | some l =>
      rw [flatten]
      exact appends_add fun _ => (hl _).2
  | .ite c t e, around, h => by
    rw [flatten]
    rw [Yields] at h
    obtain ⟨hc, ht, he⟩ := h
    refine appends_newLabel.bind fun other => appends_newLabel.bind fun done => ?_
    refine appends_lift fun d hd => appends_lift fun j hj => ?_
    refine (appends_add fun _ => hc other d j hd hj).bind fun _ => (appends_flatten hl t around ht).bind fun _ => ?_
    refine (appends_add fun _ => (hl done).2).bind fun _ => (appends_add fun _ => (hl other).1).bind fun _ => ?_
    exact (appends_flattenO hl e around he).bind fun _ => appends_add fun _ => (hl done).1
  | .loop i c p b, around, h => by
    rw [flatten]
    rw [Yields] at h
    obtain ⟨hc, hi, hp, hb⟩ := h
    refine appends_newLabel.bind fun top => appends_newLabel.bind fun test => appends_newLabel.bind fun exit => ?_
    refine (appends_flattenO hl i around hi).bind fun _ => (appends_add fun _ => (hl test).2).bind fun _ => ?_
    refine (appends_add fun _ => (hl top).1).bind fun _ => (appends_flatten hl b _ hb).bind fun _ => ?_
    refine (appends_flattenO hl p _ hp).bind fun _ => (appends_add fun _ => (hl test).1).bind fun _ => ?_
    refine appends_lift fun j hj => (appends_add fun _ => hc top j hj).bind fun _ => ?_
    exact appends_add fun _ => (hl exit).1
theorem appends_flattenL (hl : ∀ l, P (.label l) ∧ P (.jumpTo l)) : ∀ (ss : List Stmt) (around : Option LoopLabels),
    YieldsL P ss → Appends P (flattenL around ss)
  | [], around, _ => by
    rw [flattenL]
    exact appends_pure ()
  | s :: ss, around, h => by
    rw [flattenL]
    rw [YieldsL] at h
    exact (appends_flatten hl s around h.1).bind fun _ => appends_flattenL hl ss around h.2
theorem appends_flattenO (hl : ∀ l, P (.label l) ∧ P (.jumpTo l)) : ∀ (o : Option Stmt) (around : Option LoopLabels),
    YieldsO P o → Appends P (flattenO around o)
  | none, around, _ => by
    rw [flattenO]
    exact appends_pure ()
  | some s, around, h => by
    rw [flattenO]
    rw [YieldsO] at h
    exact appends_flatten hl s around h
end

/-- The flattened code consists of labels, jumps and what the statements yield. -/
theorem Func.flatten_yields {f : Func} {flat : Flat} {log log' : Log} (hl : ∀ l, P (.label l) ∧ P (.jumpTo l))
    (hsource : Stmt.YieldsL P f.source) (h : f.flatten log = (.ok flat, log')) : flat.Consists P :=
  appends_flattenL hl f.source none hsource (Func.gives_of_flatten h) (by simp [Flat.Consists])

end Appends

/-! ### From statements to expressions -/

namespace Stmt

/-- A property of conditions that goes over to the jumps under them and under their negations. -/
structure IsTested (P : Expr → Prop) : Prop where
  true : P (.const (Const.bool .true))
  branch : ∀ {l c d j}, P c → Expr.mkUnary .lnot c = .ok d → Expr.mkJumpIf l d = .ok j → P j
  jump : ∀ {l c j}, P c → Expr.mkJumpIf l c = .ok j → P j

variable {P : Expr → Prop}

mutual
/-- Such a property goes from the expressions of a statement to what it yields. -/
theorem yields_of_exprs (hP : IsTested P) : ∀ s : Stmt, (∀ e ∈ s.exprs, P e) → s.Yields P
  | .block ss, h => by
    rw [exprs] at h
    rw [Yields]
    exact yieldsL_of_exprsL hP ss h
  | .expr e, h => by
    rw [Yields]
    exact fun _ => h e (by simp [exprs])
  | .exit _, _ => by
    rw [Yields]
    trivial
  | .ite c t e, h => by
    simp only [exprs, List.forall_mem_cons, List.forall_mem_append] at h
    obtain ⟨hc, ht, he⟩ := h
    rw [Yields]
    exact ⟨fun l d j hd hj => hP.branch hc hd hj, yields_of_exprs hP t ht, yieldsO_of_exprsO hP e he⟩
  | .loop i c p b, h => by
    simp only [exprs, List.forall_mem_append] at h
    obtain ⟨⟨⟨hi, hc⟩, hp⟩, hb⟩ := h
    rw [Yields]
    refine ⟨fun l j hj => hP.jump ?_ hj, yieldsO_of_exprsO hP i hi, yieldsO_of_exprsO hP p hp, yields_of_exprs hP b hb⟩
    cases c with
    | none => exact hP.true
    | some c => exact hc c (by simp)
theorem yieldsL_of_exprsL (hP : IsTested P) : ∀ ss : List Stmt, (∀ e ∈ exprsL ss, P e) → YieldsL P ss
  | [], _ => by
    rw [YieldsL]
    trivial
  | s :: ss, h => by
    rw [exprsL, List.forall_mem_append] at h
    rw [YieldsL]
    exact ⟨yields_of_exprs hP s h.1, yieldsL_of_exprsL hP ss h.2⟩
theorem yieldsO_of_exprsO (hP : IsTested P) : ∀ o : Option Stmt, (∀ e ∈ exprsO o, P e) → YieldsO P o
  | none, _ => by
    rw [YieldsO]
    trivial
  | some s, h => by
    rw [exprsO] at h
    rw [YieldsO]
    exact yields_of_exprs hP s h
end

end Stmt

/-! ### Built code -/

namespace Stmt

theorem built_loopCond {i p : Option Stmt} {c : Option Expr} {b : Stmt} (h : (Stmt.loop i c p b).Built) :
    (loopCond c).Built := by
  cases h with
  | ite _ _ _ h => cases mkIf_eq_ok h
  | loop _ hc _ _ h =>
    cases mkFor_eq_ok h
    cases c with
    | none => exact .const (Const.canonical_bool true)
    | some c => exact hc c rfl

theorem built_expr {e : Expr} (h : (Stmt.expr e).Built) : e.Built := by
  cases h with
  | ite _ _ _ h => cases mkIf_eq_ok h
  | loop _ _ _ _ h => cases mkFor_eq_ok h
  | expr he => exact he

mutual
theorem Built.yields : ∀ s : Stmt, s.Built → s.Yields Expr.Built
  | .block ss, h => by
    rw [Yields]
    exact built_yieldsL ss h.parts
  | .expr e, h => by
    rw [Yields]
    exact fun _ => built_expr h
  | .exit _, _ => by
    rw [Yields]
    trivial
  | .ite c t e, h => by
    obtain ⟨hc, ht, he⟩ := h.parts
    rw [Yields]
    refine ⟨?_, Built.yields t ht, built_yieldsO e he⟩
    intro l d j hd hj
    exact .binary .jumpIf (.label l) (.unary .lnot hc hd) hj
  | .loop i c p b, h => by
    obtain ⟨hi, hp, hb⟩ := h.parts
    rw [Yields]
    refine ⟨?_, built_yieldsO i hi, built_yieldsO p hp, Built.yields b hb⟩
    exact fun l j hj => .binary .jumpIf (.label l) (built_loopCond h) hj
theorem built_yieldsL : ∀ ss : List Stmt, (∀ s ∈ ss, s.Built) → YieldsL Expr.Built ss
  | [], _ => by
    rw [YieldsL]
    trivial
  | s :: ss, h => by
    rw [YieldsL]
    obtain ⟨hs, hss⟩ := List.forall_mem_cons.1 h
    exact ⟨Built.yields s hs, built_yieldsL ss hss⟩
theorem built_yieldsO : ∀ o : Option Stmt, (∀ s ∈ o, s.Built) → YieldsO Expr.Built o
  | none, _ => by
    rw [YieldsO]
    trivial
  | some s, h => by
    rw [YieldsO]
    exact Built.yields s (h s rfl)
end

end Stmt

/-- A function of built statements flattens to built expressions. -/
theorem Func.flatten_built {f : Func} {flat : Flat} {log log' : Log} (hb : ∀ s ∈ f.source, s.Built)
    (h : f.flatten log = (.ok flat, log')) : flat.Consists Expr.Built :=
  Func.flatten_yields (fun l => ⟨.label l, .unary .jump (.label l) rfl⟩) (Stmt.built_yieldsL f.source hb) h

/-! ## Lowering -/

theorem mem_dedupAdjacent {r : HardReg} : ∀ {rs : List HardReg}, r ∈ dedupAdjacent rs ↔ r ∈ rs
  | [] | [_] => Iff.rfl
  | a :: b :: rest => by
    have ih : r ∈ dedupAdjacent (b :: rest) ↔ r ∈ b :: rest := mem_dedupAdjacent
    rw [dedupAdjacent]
    split
    · rename_i hab
      rw [ih, hab]
      simp
    · rw [List.mem_cons, ih, ← List.mem_cons]

/-- A frame saves the registers of its allocation that are to be handed back. -/
theorem Frame.mem_saved {f : Frame} {r : HardReg} :
    r ∈ f.saved ↔ r ∈ f.regs.calleeSaved ∧ ∃ id, (id, .reg r) ∈ f.alloc.places := by
  unfold Frame.saved
  rw [mem_dedupAdjacent, List.mem_mergeSort, List.mem_filterMap]
  constructor
  · rintro ⟨⟨id, loc⟩, hmem, hloc⟩
    cases loc with
    | stack b o => cases hloc
    | reg r' =>
      obtain ⟨hr, ⟨⟩⟩ := Option.ite_none_right_eq_some.1 hloc
      exact ⟨by simpa using hr, id, hmem⟩
  · rintro ⟨hr, id, hmem⟩
    exact ⟨(id, .reg r), hmem, by simp [hr]⟩

theorem dedupAdjacent_pairwise : ∀ {rs : List HardReg}, rs.Pairwise (·.index ≤ ·.index) →
    (∀ a ∈ rs, ∀ b ∈ rs, a.index = b.index → a = b) → (dedupAdjacent rs).Pairwise (·.index < ·.index)
  | [], _, _ => .nil
  | [a], _, _ => List.pairwise_singleton _ a
  | a :: b :: rest, h, hinj => by
    obtain ⟨ha, hrest⟩ := List.pairwise_cons.1 h
    have ih := dedupAdjacent_pairwise hrest fun c hc d hd => hinj c (List.mem_cons_of_mem a hc) d (List.mem_cons_of_mem a hd)
    rw [dedupAdjacent]
    split
    · exact ih
    · rename_i hab
      refine List.pairwise_cons.2 ⟨fun c hc => ?_, ih⟩
      rw [mem_dedupAdjacent] at hc
      refine lt_of_le_of_ne (ha c hc) fun heq => hab ?_
      -- `b` stands between `a` and `c`
      have hbc : b.index ≤ c.index := by
        rcases List.mem_cons.1 hc with rfl | hc
        · exact le_rfl
        · exact (List.pairwise_cons.1 hrest).1 c hc
      have hle := ha b List.mem_cons_self
      exact hinj a (by simp) b (by simp) (by omega)

/-- Every register is saved once. -/
theorem Frame.nodup_saved {f : Frame}
    (hinj : ∀ a ∈ f.regs.calleeSaved, ∀ b ∈ f.regs.calleeSaved, a.index = b.index → a = b) :
    f.saved.Nodup := by
  have hmem : ∀ r ∈ f.saved, r ∈ f.regs.calleeSaved := fun r hr => (Frame.mem_saved.1 hr).1
  have hstrict : f.saved.Pairwise (·.index < ·.index) := by
    unfold Frame.saved at hmem ⊢
    simp only [mem_dedupAdjacent] at hmem
    refine dedupAdjacent_pairwise ?_ fun a ha b hb => hinj a (hmem a ha) b (hmem b hb)
    refine (List.pairwise_mergeSort (fun a b c => ?_) (fun a b => ?_) _).imp fun h => by simpa using h
    · simp only [decide_eq_true_eq]
      omega
    · simp only [Bool.or_eq_true, decide_eq_true_eq]
      omega
  exact hstrict.imp fun h heq => by
    rw [heq] at h
    exact lt_irrefl _ h

theorem Allocation.mem_of_get? {a : Allocation} {id : Nat} {loc : Location} (h : a.get? id = some loc) :
    (id, loc) ∈ a.places := by
  obtain ⟨places, frame⟩ := a
  unfold get? at h
  induction places with
  | nil => cases h
  | cons p places ih =>
    obtain ⟨i, l⟩ := p
    rw [lookup_cons_eq] at h
    split at h
    · rename_i hi
      cases h
      rw [hi]
      exact List.mem_cons_self
    · exact List.mem_cons_of_mem _ (ih h)

namespace Amd64

/-- The allocator of the machine. -/
def scan : LinearScan := ⟨allocatable, calleeSaved, rsp⟩

/-- The frame of a flattened function, with an allocation that was made under `log`. -/
def frameOf (flat : Flat) (log : Log) : Frame := ⟨regFile, (scan.allocate flat log).1, flat.makesCalls⟩

end Amd64

theorem Stage.of_run_bind {α β : Type} {act : Stage α} {k : α → Stage β} {b : β} {log log' : Log}
    (h : (act >>= k) log = (.ok b, log')) : ∃ a log₁, act log = (.ok a, log₁) ∧ k a log₁ = (.ok b, log') := by
  have hbind : (act >>= k) log = ExceptT.bindCont k (act log).1 (act log).2 := rfl
  rw [hbind] at h
  rcases hact : act log with ⟨_ | a, log₁⟩
  · rw [hact] at h
    cases h
  · rw [hact] at h
    exact ⟨a, log₁, rfl, h⟩

/-- Lowering runs the entry of the function and then selects its body. -/
theorem Flat.lower_fst {registry : Registry} (hreg : registry.get .amd64 = .ok Amd64.target) (flat : Flat)
    (alloc : Allocation) (log : Log) : (flat.lower registry .w64 .amd64 alloc log).1 =
      let frame : Frame := ⟨Amd64.regFile, alloc, flat.makesCalls⟩
      let entry := Amd64.enter frame { labels := flat.func.labels } log
      match entry.1.1 with
      | .error e => .error e
      | .ok _ =>
        let body := flat.selectBody Amd64.select frame entry.1.2 entry.2
        match body.1.1 with
        | .error e => .error e
        | .ok _ => .ok ⟨.amd64, flat.func.name, body.1.2.labels, frame.size body.1.2, frame.code body.1.2⟩ := by
  have hrun : (flat.lower registry .w64 .amd64 alloc log).1 =
      ((flat.lowerWith registry .w64 .amd64 alloc fun t => t.enter.getD (pure ())) log).1.2 := rfl
  rw [hrun, Flat.lowerWith, hreg]
  dsimp only
  rw [if_neg (by decide)]
  rcases henter : Amd64.enter ⟨Amd64.regFile, alloc, flat.makesCalls⟩ { labels := flat.func.labels } log with
    ⟨⟨_ | u, s₁⟩, log₁⟩
  · simp only [Amd64.target, Option.getD_some, bind, StateT.bind, ExceptT.run, StateT.run, henter]
    rfl
  · rcases hbody : flat.selectBody Amd64.select ⟨Amd64.regFile, alloc, flat.makesCalls⟩ s₁ log₁ with
      ⟨⟨_ | u, s₂⟩, log₂⟩
    all_goals
      simp only [Amd64.target, Option.getD_some, bind, StateT.bind, ExceptT.run, StateT.run, henter, hbody]
      rfl

theorem Flat.lower_eq_ok {flat : Flat} {registry : Registry} {alloc : Allocation} {l : Lowered} {log log' : Log}
    (hreg : registry.get .amd64 = .ok Amd64.target) (h : flat.lower registry .w64 .amd64 alloc log = (.ok l, log')) :
    let frame : Frame := ⟨Amd64.regFile, alloc, flat.makesCalls⟩
    ∃ s₁ s₂, Lower.Gives frame Amd64.enter { labels := flat.func.labels } () s₁ ∧
      Lower.Gives frame (flat.selectBody Amd64.select) s₁ () s₂ ∧
      l = ⟨.amd64, flat.func.name, s₂.labels, frame.size s₂, frame.code s₂⟩ := by
  have hfst := Flat.lower_fst hreg flat alloc log
  rw [h] at hfst
  rcases henter : Amd64.enter ⟨Amd64.regFile, alloc, flat.makesCalls⟩ { labels := flat.func.labels } log with
    ⟨⟨_ | u, s₁⟩, log₁⟩
  · simp only [henter] at hfst
    cases hfst
  · rcases hbody : flat.selectBody Amd64.select ⟨Amd64.regFile, alloc, flat.makesCalls⟩ s₁ log₁ with
      ⟨⟨_ | u, s₂⟩, log₂⟩
    · simp only [henter, hbody] at hfst
      cases hfst
    · simp only [henter, hbody] at hfst
      cases hfst
      exact ⟨s₁, s₂, ⟨log, log₁, henter⟩, ⟨log₁, log₂, hbody⟩, rfl⟩

/-- Lowering flattens the function, allocates its registers and lowers what flattening gave. -/
theorem Func.lower_stages {f : Func} {registry : Registry} {l : Lowered} {log log' : Log}
    (hreg : registry.get .amd64 = .ok Amd64.target) (h : f.lower registry .w64 .amd64 log = (.ok l, log')) :
    ∃ flat log₁ log₂, f.flatten log = (.ok flat, log₁) ∧
      flat.lower registry .w64 .amd64 (Amd64.scan.allocate flat log₁).1 log₂ = (.ok l, log') := by
  obtain ⟨t, log₀, ht, h⟩ := Stage.of_run_bind h
  rw [hreg] at ht
  cases ht
  obtain ⟨flat, log₁, hflat, h⟩ := Stage.of_run_bind h
  obtain ⟨scan, log₂, hscan, h⟩ := Stage.of_run_bind h
  cases hscan
  obtain ⟨alloc, log₃, halloc, h⟩ := Stage.of_run_bind h
  obtain rfl : (Amd64.scan.allocate flat log₁).1 = alloc := by
    cases halloc
    rfl
  exact ⟨flat, log₁, log₃, hflat, h⟩

/-- Lowering flattens the function, allocates its registers and selects the code between them. -/
theorem Func.lower_eq_ok {f : Func} {registry : Registry} {l : Lowered} {log log' : Log}
    (hreg : registry.get .amd64 = .ok Amd64.target) (h : f.lower registry .w64 .amd64 log = (.ok l, log')) :
    ∃ flat log₁ s₁ s₂, f.flatten log = (.ok flat, log₁) ∧
      Lower.Gives (Amd64.frameOf flat log₁) Amd64.enter { labels := flat.func.labels } () s₁ ∧
      Lower.Gives (Amd64.frameOf flat log₁) (flat.selectBody Amd64.select) s₁ () s₂ ∧
      l = ⟨.amd64, flat.func.name, s₂.labels, (Amd64.frameOf flat log₁).size s₂, (Amd64.frameOf flat log₁).code s₂⟩ := by
  obtain ⟨flat, log₁, log₂, hflat, hlower⟩ := Func.lower_stages hreg h
  obtain ⟨s₁, s₂, henter, hbody, rfl⟩ := Flat.lower_eq_ok hreg hlower
  exact ⟨flat, log₁, s₁, s₂, hflat, henter, hbody, rfl⟩

/-- Lowered code is assembled by the machine's assembler. -/
theorem Lowered.assemble_fst {registry : Registry} (hreg : registry.get .amd64 = .ok Amd64.target) {l : Lowered}
    (harch : l.arch = .amd64) (log : Log) : (l.assemble registry log).1 =
      (Amd64.assemble l log).1.map fun r => ⟨Amd64.target, l.name, r.1, r.2⟩ := by
  unfold Lowered.assemble
  rw [harch, hreg]
  have hbind : ∀ k : List Byte × List (Option Nat) → Stage MachineCode,
      (Amd64.assemble l >>= k) log = ExceptT.bindCont k (Amd64.assemble l log).1 (Amd64.assemble l log).2 := fun _ => rfl
  refine (congrArg Prod.fst (hbind _)).trans ?_
  rcases Amd64.assemble l log with ⟨_ | r, log₁⟩
  · rfl
  · rfl

end JitBackend
