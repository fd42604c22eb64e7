import JitBackend.Proofs.Amd64.Bodies
import JitBackend.Proofs.Amd64.Layout

/-!
# Labels that selected code refers to

Selected code refers to labels that the source refers to and to labels that selection or flattening issued, and to no
others (`Func.lower_inside`). For selection this is a law, `citing`.
-/

namespace JitBackend.Amd64

open Lower

/-! ## Selection -/

/-- If the labels that the computation issues are in `S`, then it keeps the labels of the instructions inside `S`, and
its result satisfies `Q`. -/
def Cites {α : Type} (f : Frame) (S : Label → Prop) (act : Lower α) (Q : α → Prop) : Prop :=
  ∀ ⦃s a s'⦄, Gives f act s a s' → (∀ l : Label, s.labels.size ≤ l.index → l.index < s'.labels.size → S l) →
    (∀ e ∈ instrs s.items.toList, e.Inside S) →
    s.labels.size ≤ s'.labels.size ∧ (∀ e ∈ instrs s'.items.toList, e.Inside S) ∧ Q a

section Cites

variable {α β : Type} {f : Frame} {S : Label → Prop} {act : Lower α} {k : α → Lower β} {P : α → Prop} {Q : β → Prop}

theorem Cites.bind (h : Cites f S act P) [hw : ∀ a, Widens f (k a)] (hk : ∀ a, P a → Cites f S (k a) Q) :
    Cites f S (act >>= k) Q := by
  intro s b s' hg hnew hin
  obtain ⟨a, s₁, h₁, h₂⟩ := hg.bind
  have hle := ((hw a).le h₂).1
  obtain ⟨hle₁, hin₁, ha⟩ := h h₁ (fun l hlo hhi => hnew l hlo (by omega)) hin
  obtain ⟨hle₂, hin₂, hb⟩ := hk a ha h₂ (fun l hlo hhi => hnew l (by omega) hhi) hin₁
  exact ⟨hle₁.trans hle₂, hin₂, hb⟩

/-- A computation that appends nothing and issues no labels. -/
theorem Cites.of_eq (h : ∀ {s a s'}, Gives f act s a s' → s'.items = s.items ∧ s'.labels = s.labels ∧ P a) :
    Cites f S act P := by
  intro s a s' hg _ hin
  obtain ⟨hi, hl, ha⟩ := h hg
  exact ⟨by rw [hl], by rw [hi]; exact hin, ha⟩

theorem cites_emit {e : Expr} (he : e.Inside S) : Cites f S (emit e) fun _ => True := by
  intro s a s' hg _ hin
  obtain rfl := hg.emit
  refine ⟨le_rfl, ?_, trivial⟩
  rw [Array.toList_push, instrs_append, List.forall_mem_append]
  exact ⟨hin, List.forall_mem_singleton.2 he⟩

theorem cites_emitFrame (op : Op) : Cites f S (emitFrame op) fun _ => True := by
  intro s u s' hg _ hin
  obtain ⟨sp, -, rfl⟩ := hg.emitFrame
  refine ⟨le_rfl, ?_, trivial⟩
  rw [Array.toList_push, instrs_append, List.forall_mem_append]
  exact ⟨hin, by simp [instrs]⟩

/-- The label of a piece of code is a new one. -/
theorem cites_labelled {body : Label → Lower Unit} (hg : ∀ l, Grows f (body l))
    (hb : ∀ l, S l → Cites f S (body l) fun _ => True) :
    Cites f S (do let l ← newLabel; body l; emit (.label l)) fun _ => True := by
  intro s a s' h hnew hin
  obtain ⟨l, s₁, hl, h₁⟩ := h.bind
  obtain ⟨⟨⟩, s₂, hbody, h₂⟩ := h₁.bind
  obtain ⟨rfl, rfl⟩ := hl.newLabel
  obtain rfl := h₂.emit
  have hsize : (s.labels.fresh none).2.size = s.labels.size + 1 := by simp [LabelPool.fresh, LabelPool.size]
  have hle := (Widens.le hbody).1
  simp only [hsize] at hle
  have hlab : S ⟨s.labels.size⟩ := hnew _ le_rfl hle
  obtain ⟨-, hin', -⟩ := hb _ hlab hbody (fun l hlo hhi => hnew l (by rw [hsize] at hlo; omega) hhi) hin
  obtain ⟨-, hall, -⟩ := cites_emit (f := f) (.label hlab) h₂ (fun l hlo hhi => absurd hlo (not_le.2 hhi)) hin'
  exact ⟨Nat.le_of_lt hle, hall, trivial⟩

/-- The rules for the labels of instructions. -/
def citingRules (f : Frame) (S : Label → Prop) : Rules f where
  Holds := Cites f S
  Allowed _ := True
  mono h hPQ s a s' hg hnew hin := (h hg hnew hin).imp_right (.imp_right (hPQ a))
  bind h _ hk := h.bind hk
  lift _ := .of_eq fun hg => by
    obtain ⟨hx, rfl⟩ := hg.lift
    exact ⟨rfl, rfl, hx⟩
  read := .of_eq fun hg => by
    obtain ⟨rfl, rfl⟩ := hg.read
    exact ⟨rfl, rfl, rfl⟩
  get := .of_eq fun hg => by
    obtain ⟨log, log', h⟩ := hg
    cases h
    exact ⟨rfl, rfl, trivial⟩
  note e := .of_eq fun hg => by
    obtain rfl := hg.note
    exact ⟨rfl, rfl, trivial⟩
  releasing h s a s' hg hnew hin := by
    obtain ⟨s₁, h₁, rfl⟩ := hg.releasing
    obtain ⟨hle, hall, ha⟩ := h h₁ hnew hin
    exact ⟨hle, hall, ha⟩

theorem cites_change {step : Frame → Session → Except Error α × Session}
    (h : ∀ {s a s'}, step f s = (.ok a, s') → (s'.items = s.items ∧ s'.labels = s.labels) ∧ P a) :
    Cites f S (change step) P := .of_eq fun hg => by
  obtain ⟨⟨hi, hl⟩, ha⟩ := h hg.change
  exact ⟨hi, hl, ha⟩

theorem cites_modify {g : Session → Session} (h : ∀ s, (g s).items = s.items ∧ (g s).labels = s.labels) :
    Cites f S (modify g : Lower Unit) fun _ => True := .of_eq fun hg => by
  obtain rfl := hg.modify
  exact ⟨(h _).1, (h _).2, trivial⟩

theorem inside_temp {k : Kind} {p : Purpose} {s s' : Session} {t : Expr} (h : s.temp f k p = (.ok t, s')) : t.Inside S := by
  rcases temp_eq_ok h with ⟨r, -, rfl⟩ | hs
  · infer_instance
  · obtain ⟨_, -, -, rfl, -⟩ := stackTemp_eq_ok hs
    infer_instance

theorem inside_resolve {r : Reg} {v : Expr} (h : f.resolve r = .ok v) : v.Inside S := by
  unfold Frame.resolve at h
  repeat' split at h
  all_goals cases h <;> infer_instance

theorem inside_emitted {e : Expr} (h : Emitted (Expr.Inside S) (fun _ _ => True) (Expr.Inside S) S e) : e.Inside S := by
  cases h with
  | assign hd hv | compound hd hv | flip hd hv => infer_instance
  | load hr hv => infer_instance
  | self hd hk => infer_instance
  | cmp ha hb | test ha hb => infer_instance
  | setcc hd hk => infer_instance
  | jump hl | jcc hl =>
    have := Expr.Inside.label hl
    infer_instance
  | jumpIf hl hc =>
    have := Expr.Inside.label hl
    infer_instance

instance (k : Kind) (h : HardReg) : Expr.Inside S (fixed k h) := inferInstanceAs (Expr.Inside S (.reg _))

theorem cites_leave : Cites f S leave fun _ => True := by
  have hpops : ∀ rs : List HardReg, Cites f S (rs.forM fun r => emit (.unary .pop .int64 (fixed .int64 r))) fun _ => True :=
    fun rs => Rules.forM (R := citingRules f S) (fun _ => inferInstance) fun _ _ => cites_emit inferInstance
  refine (cites_emitFrame _).bind fun _ _ => (citingRules f S).read.bind fun g _ => (hpops _).bind fun _ _ => ?_
  exact cites_emit ⟨by simp [Expr.mentions, Expr.mentionsL]⟩

theorem cites_enter : Cites f S enter fun _ => True := by
  have hpushes : ∀ rs : List HardReg,
      Cites f S (rs.forM fun r => emit (.unary .push .int64 (fixed .int64 r))) fun _ => True :=
    fun rs => Rules.forM (R := citingRules f S) (fun _ => inferInstance) fun _ _ => cites_emit inferInstance
  exact (citingRules f S).read.bind fun g _ => (hpushes _).bind fun _ _ => cites_emitFrame _

/-- Selection refers to labels of its source and to those that it issues. -/
def citing (f : Frame) (S : Label → Prop) : BodyLaw f where
  toRules := citingRules f S
  Good := Expr.Inside S
  Target _ := True
  Place := Expr.Inside S
  Fits _ _ := True
  Src := Expr.Inside S
  Hard _ := True
  Lab := S
  Marked _ := True
  other _ _ := trivial
  good_reads _ _ _ _ := trivial
  scratch k p := cites_change fun h => by
    obtain ⟨hr, -, rfl, rfl⟩ := scratch_eq_ok h
    exact ⟨⟨rfl, rfl⟩, inferInstance, hr, rfl, trivial⟩
  temp k p := cites_change fun h =>
    ⟨⟨(temp_below h).1, (temp_below h).2.1⟩,
      .of_temp h (fun _ _ => ⟨inferInstance, trivial⟩) fun _ => inside_temp h⟩
  refuge _ _ := cites_change fun h => ⟨⟨(refuge_below h).1.1, (refuge_below h).1.2.1⟩, fun c hc => by
    obtain ⟨_, _, _, -, -, ht, -⟩ := (refuge_below h).2 c hc
    exact ⟨trivial, inside_temp ht, (temp_operand ht).1⟩⟩
  release _ := cites_modify fun _ => ⟨rfl, rfl⟩
  freeScratch _ := .of_eq fun hg => by
    obtain ⟨g, s₁, hr, hm⟩ := hg.bind
    obtain ⟨rfl, rfl⟩ := hr.read
    obtain rfl := hm.modify
    unfold Session.freeScratch
    split <;> exact ⟨rfl, rfl, trivial⟩
  emit h := cites_emit (inside_emitted h)
  labelled := cites_labelled
  call hg := Rules.emitCall (S := Expr.Inside S)
    (fun k p => cites_change fun h => by
      obtain ⟨_, -, -, rfl, rfl⟩ := stackTemp_eq_ok h
      exact ⟨⟨rfl, rfl⟩, inferInstance⟩)
    (fun r slot hs => cites_emit (by
      have := hs
      infer_instance))
    (fun r _ slot hs => cites_emit (by
      have := hs
      infer_instance))
    (cites_emit hg)
  place_src h := h
  place_fixed _ := inferInstanceAs (Expr.Inside S (.reg _))
  place_scratch _ _ := inferInstanceAs (Expr.Inside S (.reg _))
  src_const _ := inferInstance
  src_reg _ := inferInstance
  src_memAt _ _ _ := inferInstance
  src_unary h := have := h; inferInstance
  fits_kind := trivial
  fits_unary _ _ _ := trivial
  fits_lnot _ _ := trivial
  fits_arith _ _ := trivial
  fits_compare _ _ := trivial
  fits_logic _ _ := ⟨trivial, trivial⟩
  fits_assign _ _ := trivial
  good_src h := h
  good_mem h := h.address
  good_unary h := h.unary
  good_left h := h.left
  good_right h := h.right
  good_reg _ h := ⟨inside_resolve h, fun _ _ _ _ => trivial⟩
  good_assign _ := trivial
  good_compound _ := trivial
  target_reg _ h := inside_resolve h
  target_mem _ _ := inferInstance
  target_memAt _ := inferInstance
  step _ hd _ := cites_emit (by
    have := hd
    infer_instance)
  source hg _ := cites_emit hg
  leave := cites_leave
  marked _ := trivial
  good_ret := Expr.inside_values
  good_jump h := h.left.mem _ (by simp [Expr.mentions])
  good_step _ _ := ⟨trivial, fun _ => trivial⟩

end Cites

/-! ## Functions -/

/-- Lowered code refers to labels that the function refers to, and to those issued on the way. -/
theorem Func.lower_inside {f : Func} {flat : Flat} {registry : Registry} {alloc : Allocation} {l : Lowered}
    {log log₁ log₂ log' : Log} {S : Label → Prop} (hreg : registry.get .amd64 = .ok target)
    (hl : ∀ l ∈ Stmt.labelsL f.source, l.index < f.labels.size) (hflat : f.flatten log = (.ok flat, log₁))
    (h : flat.lower registry .w64 .amd64 alloc log₂ = (.ok l, log')) (hS : ∀ k ∈ Stmt.mentionsL f.source, S k)
    (hnew : ∀ k : Label, f.labels.size ≤ k.index → k.index < l.labels.size → S k) : ∀ e ∈ instrs l.code, e.Inside S := by
  obtain ⟨s₁, s₂, henter, hbody, rfl⟩ := Flat.lower_eq_ok hreg h
  obtain ⟨k, hk⟩ := Stmt.flattenL_lays f.source none le_rfl hl (Func.gives_of_flatten hflat)
  have hsource : f.labels.size ≤ flat.func.labels.size := hk.laid.le
  have hbodyLe : s₁.labels.size ≤ s₂.labels.size := (Widens.le hbody).1
  have henterLe : flat.func.labels.size ≤ s₁.labels.size := (Widens.le henter).1
  have hcode : ∀ e ∈ flat.code.toList, e.Inside S := by
    have := hk.inside S hS (by simp) fun l hlo hhi => hnew l hlo (hhi.trans_le (henterLe.trans hbodyLe))
    rwa [show k = flat.code.toList by simpa using hk.code.symm] at this
  obtain ⟨-, hs₁, -⟩ := cites_enter henter (fun l hlo hhi => hnew l (hsource.trans hlo) (hhi.trans_le hbodyLe))
    (by simp [instrs])
  obtain ⟨-, hs₂, -⟩ := (BodyLaw.selectBody (L := citing _ S) hcode) hbody
    (fun l hlo hhi => hnew l ((hsource.trans henterLe).trans hlo) hhi) hs₁
  rwa [instrs_code]

end JitBackend.Amd64
