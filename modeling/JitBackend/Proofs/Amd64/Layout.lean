import JitBackend.Proofs.Amd64.Appending
import JitBackend.Proofs.Compilation
import JitBackend.Proofs.Placement

/-!
# Labels of selected code

A statement keeps the label that it is and has new labels otherwise, so that the labels of a body are those of its code,
in their order, and new ones, each placed once (`sets_selectBody`). With flattening before it, the same holds of a
function, whatever the allocation of its registers (`Func.lower_laid`).
-/

namespace JitBackend.Amd64

open Lower

/-! ## Statements -/

/-- The instructions among items. -/
def instrs (items : List Item) : List Expr := items.filterMap fun
  | .instr e => some e
  | .frame .. => none

@[simp] theorem instrs_append (a b : List Item) : instrs (a ++ b) = instrs a ++ instrs b := List.filterMap_append

@[simp] theorem instrs_map (code : List Expr) : instrs (code.map Item.instr) = code := by
  simp [instrs, List.filterMap_map]

/-- The items have been appended; their labels below the bound are those given, and the others are new. -/
structure Laying (b : Nat) (old : List Label) (s s' : Session) (items : List Item) : Prop where
  appended : s'.items.toList = s.items.toList ++ items
  laid : Laid b s.labels.size s'.labels.size old (placed (instrs items))

/-- Whatever the computation gives, it appends items whose labels are the ones given and new ones, and its result
satisfies `P`. -/
def Sets {α : Type} (f : Frame) (b : Nat) (old : List Label) (act : Lower α) (P : α → Prop) : Prop :=
  ∀ ⦃s a s'⦄, Gives f act s a s' → b ≤ s.labels.size → (∃ items, Laying b old s s' items) ∧ P a

section Statements

variable {α β : Type} {f : Frame} {b : Nat} {old old' : List Label} {act : Lower α} {k : α → Lower β} {P : α → Prop}
  {Q : β → Prop}

theorem Sets.bind (h : Sets f b old act P) (hk : ∀ a, P a → Sets f b old' (k a) Q) :
    Sets f b (old ++ old') (act >>= k) Q := by
  intro s c s' hg hb
  obtain ⟨a, s₁, h₁, h₂⟩ := hg.bind
  obtain ⟨⟨i, hi⟩, ha⟩ := h h₁ hb
  obtain ⟨⟨j, hj⟩, hc⟩ := hk a ha h₂ (hb.trans hi.laid.le)
  refine ⟨⟨i ++ j, by rw [hj.appended, hi.appended, List.append_assoc], ?_⟩, hc⟩
  rw [instrs_append, placed_append]
  exact hi.laid.append hj.laid

/-- A computation without labels of the source, and what follows. -/
theorem Sets.then (h : Sets f b [] act P) (hk : ∀ a, P a → Sets f b old (k a) Q) : Sets f b old (act >>= k) Q := h.bind hk

theorem sets_of_grows (act : Lower α) [h : Grows f act] : Sets f b [] act fun _ => True := by
  intro s a s' hg hb
  obtain ⟨code, hcode⟩ := h.grown hg
  refine ⟨⟨_, hcode.items, ?_⟩, trivial⟩
  rw [instrs_map]
  exact .of_fresh hb hcode.fresh

theorem sets_pure {a : α} (ha : P a) : Sets f b [] (pure a) P := by
  intro s c s' hg hb
  obtain ⟨rfl, rfl⟩ := hg.pure
  exact ⟨⟨[], by simp, .nil hb⟩, ha⟩

theorem sets_emit {e : Expr} (he : placed [e] = []) : Sets f b [] (emit e) fun _ => True :=
  have := steady_emit (f := f) he
  sets_of_grows _

/-- A label of the source is placed as it stands. -/
theorem sets_label {l : Label} (hl : l.index < b) : Sets f b [l] (emit (.label l)) fun _ => True := by
  intro s u s' hg hb
  obtain rfl := hg.emit
  exact ⟨⟨[.instr (.label l)], by simp, .single hb hl⟩, trivial⟩

theorem sets_emitFrame (op : Op) : Sets f b [] (emitFrame op) fun _ => True := by
  intro s u s' hg hb
  obtain ⟨sp, -, rfl⟩ := hg.emitFrame
  exact ⟨⟨[.frame op sp], by simp, .nil hb⟩, trivial⟩

theorem sets_leave : Sets f b [] leave fun _ => True := by
  refine (sets_emitFrame _).then fun _ _ => ?_
  have := fun rs : List HardReg => grows_forM (f := f) (k := fun r => emit (.unary .pop .int64 (fixed .int64 r)))
    (fun _ => inferInstance) rs
  refine (sets_of_grows read).then fun g _ => (sets_of_grows _).then fun _ _ => ?_
  exact sets_emit rfl

theorem sets_enter : Sets f b [] enter fun _ => True := by
  have := fun rs : List HardReg => grows_forM (f := f) (k := fun r => emit (.unary .push .int64 (fixed .int64 r)))
    (fun _ => inferInstance) rs
  refine (sets_of_grows read).then fun g _ => (sets_of_grows _).then fun _ _ => ?_
  exact sets_emitFrame _

theorem sets_selectReturn (vs : List Expr) : Sets f b [] (selectReturn vs) fun r => placed [r] = [] := by
  have hinto := fun e dst origin => (lays (f := f) e).into dst origin
  unfold selectReturn
  split
  · exact sets_leave.then fun _ _ => sets_pure rfl
  · rename_i v
    exact (sets_of_grows _).then fun _ _ => sets_leave.then fun _ _ => sets_pure rfl
  · refine (sets_of_grows _).then fun _ _ => (sets_of_grows _).then fun _ _ => (sets_of_grows _).then fun _ _ => ?_
    refine (sets_of_grows _).then fun _ _ => (sets_of_grows _).then fun _ _ => (sets_of_grows _).then fun _ _ => ?_
    exact sets_leave.then fun _ _ => sets_pure rfl
  · exact (sets_of_grows _).then fun _ _ => sets_pure rfl

/-- A resolved target is no label. -/
theorem sets_resolveTarget (x : Expr) : Sets f b [] (resolveTarget x) fun r => placed [r] = [] := by
  have hx := (lays (f := f) x).target
  intro s r s' hg hb
  refine ⟨(sets_of_grows _ hg hb).1, ?_⟩
  rw [resolveTarget.eq_def] at hg
  split at hg
  · obtain ⟨hres, -⟩ := hg.resolve
    unfold Frame.resolve at hres
    repeat' split at hres
    all_goals cases hres <;> rfl
  · obtain ⟨m, s₁, -, h⟩ := hg.bind
    obtain ⟨rfl, -⟩ := h.pure
    rfl
  · obtain ⟨rfl, -⟩ := hg.pure
    rfl
  · exact hg.throw.elim

/-- A temporary is no label. -/
theorem placed_temp {k : Kind} {p : Purpose} {s s' : Session} {t : Expr} (h : Gives f (temp k p) s t s') :
    placed [t] = [] := by
  rcases temp_eq_ok h.change with ⟨r, -, rfl⟩ | hs
  · rfl
  · obtain ⟨_, -, -, rfl, -⟩ := stackTemp_eq_ok hs
    rfl

theorem sets_value_binary (op : BinaryOp) (k : Kind) (x y : Expr) :
    Sets f b [] (value (.binary op k x y)) fun r => placed [r] = [] := by
  have hv := (lays (f := f) (.binary op k x y)).value
  intro s r s' hg hb
  refine ⟨(sets_of_grows _ hg hb).1, ?_⟩
  rw [value.eq_def] at hg
  obtain ⟨t, s₁, ht, h⟩ := hg.bind
  obtain ⟨_, s₂, -, h⟩ := h.bind
  obtain ⟨rfl, -⟩ := h.pure
  exact placed_temp ht

theorem placed_of_not_isLabel {e : Expr} (h : e.isLabel = false) : placed [e] = [] := by
  cases e <;> first | rfl | cases h

/-- A statement that is no label places none of the source, and what is left of it is no label. -/
theorem sets_statement {e : Expr} (he : e.isLabel = false) : Sets f b [] (statement e) fun r => placed [r] = [] := by
  have hself : placed [e] = [] := placed_of_not_isLabel he
  have hinto := fun e dst origin => (lays (f := f) e).into dst origin
  have hvalue := fun e => (lays (f := f) e).value
  have hjump := fun c => grows_jumpIf (f := f) c
  have hwarn : Sets f b [] (do warn e; return e) fun r => placed [r] = [] :=
    (sets_of_grows _).then fun _ _ => sets_pure hself
  unfold statement
  split
  · exact sets_pure hself
  split
  · exact sets_pure hself
  · exact sets_pure hself
  · rename_i op k x _ _
    split
    all_goals first
      | exact hwarn
      | exact (sets_resolveTarget x).then fun d hd => (sets_of_grows _).then fun _ _ => sets_pure hd
  · exact (sets_of_grows _).then fun _ _ => sets_pure rfl
  · exact hwarn
  · rename_i k x y _
    rw [assign]
    exact (sets_resolveTarget x).then fun d hd => (sets_of_grows _).then fun _ _ => sets_pure hd
  · rename_i op k x y _
    rw [compound]
    exact (sets_resolveTarget x).then fun d hd => (sets_of_grows _).then fun _ _ => sets_pure hd
  · exact sets_value_binary ..
  · exact sets_selectReturn _
  · rename_i l n sig args _
    have : Grows f (discard (emitCall (.call l n sig args))) :=
      inferInstanceAs (Grows f (emitCall (.call l n sig args) >>= fun _ => pure ()))
    exact (sets_of_grows (discard (emitCall (.call l n sig args)))).then fun _ _ => sets_pure rfl
  · exact hwarn

/-- The labels of a body are those of its code, in their order, and new ones. -/
theorem sets_selectBody {flat : Flat} (hl : ∀ l ∈ placed flat.code.toList, l.index < b) :
    Sets f b (placed flat.code.toList) (flat.selectBody select) fun _ => True := by
  unfold Flat.selectBody
  generalize flat.code.toList = code at hl
  induction code with
  | nil => exact sets_pure trivial
  | cons e code ih =>
    have hcode : placed (e :: code) = placed [e] ++ placed code := placed_append [e] code
    rw [hcode, List.forall_mem_append] at hl
    rw [hcode, List.forM]
    refine Sets.bind (P := fun _ => True) ?_ fun _ _ => ih hl.2
    refine (sets_of_grows get).then fun _ _ => ?_
    by_cases he : e.isLabel = true
    · obtain ⟨l, rfl⟩ : ∃ l, e = .label l := by
        cases e <;> first | exact ⟨_, rfl⟩ | cases he
      refine (sets_pure (P := (· = .label l)) rfl).then fun r hr => ?_
      subst hr
      exact (sets_label (hl.1 l (by simp))).bind fun _ _ => sets_of_grows _
    · have he : e.isLabel = false := by simpa using he
      rw [placed_of_not_isLabel he]
      refine (sets_statement he).then fun r hr => ?_
      have := steady_emit (f := f) hr
      exact sets_of_grows _

end Statements

/-! ## Functions -/

theorem instrs_filter (items : List Item) : instrs (items.filter Item.isInstr) = instrs items := by
  induction items with
  | nil => rfl
  | cons i items ih =>
    cases i with
    | instr e => exact congrArg (e :: ·) ih
    | frame op sp => exact ih

theorem instrs_code (f : Frame) (s : Session) : instrs (f.code s) = instrs s.items.toList := by
  unfold Frame.code
  split
  · exact instrs_filter _
  · rfl

/-- The labels of lowered code below the number of labels that the function has are the labels that stand as its
statements, in their order; the others are numbered from there on, and each is placed once. -/
theorem Func.lower_laid {f : Func} {flat : Flat} {registry : Registry} {alloc : Allocation} {l : Lowered}
    {log log₁ log₂ log' : Log} (hreg : registry.get .amd64 = .ok target)
    (hl : ∀ l ∈ Stmt.labelsL f.source, l.index < f.labels.size) (hflat : f.flatten log = (.ok flat, log₁))
    (h : flat.lower registry .w64 .amd64 alloc log₂ = (.ok l, log')) :
    Laid f.labels.size f.labels.size l.labels.size (Stmt.labelsL f.source) (placed (instrs l.code)) := by
  obtain ⟨s₁, s₂, henter, hbody, rfl⟩ := Flat.lower_eq_ok hreg h
  obtain ⟨k, hk⟩ := Stmt.flattenL_lays f.source none le_rfl hl (Func.gives_of_flatten hflat)
  have hk' : Laid f.labels.size f.labels.size flat.func.labels.size (Stmt.labelsL f.source) (placed flat.code.toList) := by
    have := hk.laid
    rwa [show k = flat.code.toList by simpa using hk.code.symm] at this
  have hbelow : ∀ l ∈ placed flat.code.toList, l.index < flat.func.labels.size := by
    intro l hmem
    by_cases hlt : l.index < f.labels.size
    · exact hlt.trans_le hk'.le
    · exact (hk'.range l hmem (not_lt.1 hlt)).2
  obtain ⟨⟨i, hi⟩, -⟩ := sets_enter henter (b := flat.func.labels.size) le_rfl
  obtain ⟨⟨j, hj⟩, -⟩ := sets_selectBody hbelow hbody hi.laid.le
  have hitems : s₂.items.toList = i ++ j := by
    rw [hj.appended, hi.appended]
    simp
  rw [instrs_code, hitems, instrs_append, placed_append]
  exact hk'.trans (hi.laid.append hj.laid)

end JitBackend.Amd64
