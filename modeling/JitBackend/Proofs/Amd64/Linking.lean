import Mathlib
import JitBackend.Proofs.Amd64.Acceptance
import JitBackend.Proofs.Amd64.Citations

/-!
# Linking of lowered code

The encoder writes references to labels that stand in the instruction, and its own refusals are not about labels
(`refers_instruction`). So assembling fails because of a label for two reasons only: code that places a label twice, and
code that refers to a label without a place (`assemble_label`).
-/

namespace JitBackend.Amd64

/-! ## References of instructions -/

section Refers

variable {α β : Type} {S : Label → Prop} {P : α → Prop} {Q : β → Prop}

/-- The result satisfies `Q`, and a failure is not about a label. -/
def Settles (x : Except Error α) (P : α → Prop) : Prop := (∀ a, x = .ok a → P a) ∧ ∀ err, x = .error err → ¬LinkError err

theorem settles_ok {a : α} (h : P a) : Settles (.ok a) P := ⟨by rintro _ ⟨⟩; exact h, by rintro _ ⟨⟩⟩

theorem settles_error {err : Error} (h : ¬LinkError err) : Settles (.error err : Except Error α) P :=
  ⟨by rintro _ ⟨⟩, by rintro _ ⟨⟩; exact h⟩

theorem Settles.bind {x : Except Error α} {k : α → Except Error β} (h : Settles x P) (hk : ∀ a, P a → Settles (k a) Q) :
    Settles (x >>= k) Q := by
  cases x with
  | ok a => exact hk a (h.1 a rfl)
  | error err => exact settles_error (h.2 err rfl)

theorem not_link_unsupported (r : Refusal) : ¬LinkError (.unsupported r) := by rintro ⟨⟩

theorem settles_width (k : Kind) : Settles (width k) fun _ => True := by
  unfold width
  split
  · exact settles_ok trivial
  · exact settles_error (not_link_unsupported _)

/-- A label that is an operand is in `S`. -/
def Within (S : Label → Prop) (o : Operand) : Prop := ∀ l, o = .label l → S l

theorem settles_operand {x : Expr} (h : x.Inside S) : Settles (operand x) (Within S) := by
  unfold operand
  split
  · split
    · split
      · exact settles_ok (by rintro _ ⟨⟩)
      · exact settles_error (not_link_unsupported _)
    · exact settles_error (by rintro ⟨⟩)
  · exact settles_ok (by rintro _ ⟨⟩)
  · rename_i c
    unfold immediate
    split
    · exact settles_error (not_link_unsupported _)
    · split <;> exact settles_ok (by rintro _ ⟨⟩)
  · exact settles_ok (by rintro _ ⟨⟩; exact h.mem _ (by simp [Expr.mentions]))
  · exact settles_error (not_link_unsupported _)
  · exact settles_error (not_link_unsupported _)

theorem settles_rmOr (o : Operand) (n : Nat) (what : Refusal) : Settles (rmOr o n what) (·.references = []) := by
  unfold rmOr
  split
  · rename_i rm hrm
    exact settles_ok (rmOf?_references hrm)
  · exact settles_error (not_link_unsupported _)

theorem settles_destination {x : Expr} (h : x.Inside S) (n : Nat) : Settles (destination x n) (·.references = []) := by
  refine (settles_operand h).bind fun o _ => ?_
  split
  · rename_i rm hrm
    exact settles_ok (rmOf?_references hrm)
  · exact settles_error (by rintro ⟨⟩)

theorem settles_jumpTarget {x : Expr} (h : x.Inside S) : Settles (jumpTarget x) S := by
  unfold jumpTarget
  split
  · exact settles_ok (h.mem _ (by simp [Expr.mentions]))
  · exact settles_error (not_link_unsupported _)

/-- The computation refers to labels in `S` only; its result satisfies `P`, and a failure is not about a label. -/
def Refers (S : Label → Prop) (act : Emit α) (P : α → Prop) : Prop :=
  ∀ pre, (∀ l, .rel32 l ∈ pre → S l) → (∀ l, .rel32 l ∈ (act.run pre).2 → S l) ∧ Settles (act.run pre).1 P

theorem Refers.bind {act : Emit α} {k : α → Emit β} (h : Refers S act P) (hk : ∀ a, P a → Refers S (k a) Q) :
    Refers S (act >>= k) Q := by
  intro pre hpre
  obtain ⟨hmid, hres⟩ := h pre hpre
  have hbind : (act >>= k).run pre = ExceptT.bindCont k (act.run pre).1 (act.run pre).2 := rfl
  rw [hbind]
  rcases hact : act.run pre with ⟨err | a, mid⟩
  · rw [hact] at hmid hres
    exact ⟨hmid, settles_error (hres.2 err rfl)⟩
  · rw [hact] at hmid hres
    exact hk a (hres.1 a rfl) mid hmid

theorem refers_pure {a : α} (h : P a) : Refers S (pure a) P := fun _ hpre => ⟨hpre, settles_ok h⟩

theorem refers_throw {err : Error} (h : ¬LinkError err) : Refers S (throw err : Emit α) P :=
  fun _ hpre => ⟨hpre, settles_error h⟩

theorem refers_refuse (r : Refusal) : Refers S (throw (.unsupported r) : Emit α) P := refers_throw (not_link_unsupported r)

theorem refers_refuse_then (r : Refusal) (k : β → Emit α) : Refers S (throw (.unsupported r) >>= k) P :=
  Refers.bind (P := fun _ => False) (refers_refuse r) fun _ h => h.elim

theorem refers_lift {x : Except Error α} (h : Settles x P) : Refers S (liftM x : Emit α) P := by
  intro pre hpre
  cases x with
  | ok a => exact ⟨hpre, h⟩
  | error err => exact ⟨hpre, h⟩

theorem refers_out (bs : List Byte) : Refers S (out bs) fun _ => True := by
  intro pre hpre
  have hrun : (out bs).run pre = (.ok (), pre ++ bs.map Piece.byte) := rfl
  rw [hrun]
  refine ⟨fun l hl => ?_, settles_ok trivial⟩
  rcases List.mem_append.1 hl with h | h
  · exact hpre l h
  · simp at h

theorem refers_outLabel {l : Label} (h : S l) : Refers S (outLabel l) fun _ => True := by
  intro pre hpre
  have hrun : (outLabel l).run pre = (.ok (), pre ++ [.rel32 l]) := rfl
  rw [hrun]
  refine ⟨fun l' hl => ?_, settles_ok trivial⟩
  rcases List.mem_append.1 hl with hl | hl
  · exact hpre l' hl
  · cases List.mem_singleton.1 hl
    exact h

end Refers

section Instructions

variable {S : Label → Prop} {size : Nat} {rm : Rm} {dst src : Operand} {k : Kind} {x y : Expr}

theorem refers_outModRM {reg : Nat} (h : ∀ l ∈ rm.references, S l) : Refers S (outModRM reg rm) fun _ => True := by
  cases rm with
  | reg r s => exact refers_out _
  | rip l => exact (refers_out _).bind fun _ _ => refers_outLabel (h l (by simp [Rm.references]))
  | mem m =>
    rw [outModRM]
    split
    · exact refers_refuse _
    · exact refers_out _

theorem refers_inst {opcode : List Byte} {field : RegField} (h : ∀ l ∈ rm.references, S l) :
    Refers S (inst size opcode field rm) fun _ => True := by
  rw [inst_eq]
  exact (refers_out _).bind fun _ _ => (refers_out _).bind fun _ _ => refers_outModRM h

theorem refers_inst_nil {opcode : List Byte} {field : RegField} (h : rm.references = []) :
    Refers S (inst size opcode field rm) fun _ => True := refers_inst (by simp [h])

theorem refers_instPlus {opcode : Nat} {r : HardReg} : Refers S (instPlus size opcode r) fun _ => True :=
  (refers_out _).bind fun _ _ => refers_out _

theorem refers_outImm (v : Word) : Refers S (outImm size v) fun _ => True := by
  unfold outImm
  split
  · exact refers_out _
  · exact refers_out _
  · split
    · exact refers_out _
    · exact refers_throw (by rintro ⟨⟩)

theorem refers_outAlu (digit : Nat) : Refers S (outAlu digit size dst src) fun _ => True := by
  refine (refers_lift (settles_rmOr _ _ _)).bind fun rm hrm => ?_
  split
  · exact refers_inst_nil hrm
  · exact refers_inst_nil rfl
  · split
    · exact (refers_inst_nil hrm).bind fun _ _ => refers_outImm _
    · split <;> exact (refers_inst_nil hrm).bind fun _ _ => refers_outImm _
  · exact refers_refuse _

theorem refers_outTest : Refers S (outTest size dst src) fun _ => True := by
  unfold outTest
  refine (refers_lift (settles_rmOr _ _ _)).bind fun rm hrm => ?_
  split
  · exact refers_inst_nil hrm
  · exact (refers_inst_nil hrm).bind fun _ _ => refers_outImm _
  · exact refers_refuse _

theorem refers_outMov (h : Within S src) : Refers S (outMov size dst src) fun _ => True := by
  unfold outMov
  split
  · split
    · exact refers_pure trivial
    · exact refers_inst_nil rfl
  · exact refers_inst_nil rfl
  · exact refers_inst_nil rfl
  · split
    · exact refers_instPlus.bind fun _ _ => refers_outImm _
    · exact refers_instPlus.bind fun _ _ => refers_outImm _
    · exact refers_instPlus.bind fun _ _ => refers_outImm _
    · split
      · exact (refers_inst_nil rfl).bind fun _ _ => refers_outImm _
      · split <;> exact refers_instPlus.bind fun _ _ => refers_out _
  · exact (refers_inst_nil rfl).bind fun _ _ => refers_outImm _
  · exact refers_inst (by simpa [Rm.references] using h _ rfl)
  · exact refers_refuse _

theorem refers_outCast (h : x.Inside S) : Refers S (outCast dst k x) fun _ => True := by
  refine (refers_lift (settles_width _)).bind fun wide _ => (refers_lift (settles_width _)).bind fun size _ => ?_
  split
  · refine (refers_lift (settles_operand h)).bind fun s hs => ?_
    split
    · exact refers_outMov hs
    · refine (refers_lift (settles_rmOr _ _ _)).bind fun rm hrm => ?_
      split
      all_goals first | exact refers_inst_nil hrm | exact refers_refuse _
  · exact refers_refuse _

theorem refers_outMul : Refers S (outMul size dst src) fun _ => True := by
  unfold outMul
  split
  · split
    · exact refers_refuse _
    · split
      · split <;> exact (refers_inst_nil rfl).bind fun _ _ => refers_outImm _
      · exact (refers_lift (settles_rmOr _ _ _)).bind fun rm hrm => refers_inst_nil hrm
  · exact refers_refuse _

theorem refers_outShift (digit : Nat) : Refers S (outShift size digit dst src) fun _ => True := by
  refine (refers_lift (settles_rmOr _ _ _)).bind fun rm hrm => ?_
  split
  · exact (refers_inst_nil hrm).bind fun _ _ => refers_outImm _
  · split
    · exact refers_inst_nil hrm
    · exact refers_refuse _
  · exact refers_refuse _

theorem refers_outDivide (isRem : Bool) : Refers S (outDivide isRem k dst src) fun _ => True := by
  have hrest : ∀ (size digit : Nat) (rm : Rm), rm.references = [] → Refers S (do
      inst size [0xF7] (.digit digit) rm
      if isRem then inst size [0x89] (.reg rdx size) (.reg rax size)) fun _ => True := fun size digit rm hrm => by
    refine (refers_inst_nil hrm).bind fun _ _ => ?_
    split
    · exact refers_inst_nil rfl
    · exact refers_pure trivial
  refine (refers_lift (settles_width _)).bind fun size _ => ?_
  dsimp only
  split
  · exact refers_refuse_then _ _
  split
  · exact refers_refuse_then _ _
  split
  · exact refers_refuse_then _ _
  refine (refers_lift (settles_rmOr _ _ _)).bind fun rm hrm => ?_
  split <;> exact (refers_out _).bind fun _ _ => hrest _ _ rm hrm

theorem refers_outAssign (hx : x.Inside S) (hy : y.Inside S) : Refers S (outAssign k x y) fun _ => True := by
  refine (refers_lift (settles_width _)).bind fun size _ => (refers_lift (settles_operand hx)).bind fun dst _ => ?_
  split
  · rename_i op ky z
    have hstep : ∀ opcode field, Refers S (do
        if (← operand z) ≠ dst then throw (.unsupported (.otherOperand x (.unary op ky z)))
        inst size opcode field (← destination x size)) fun _ => True := fun opcode field => by
      refine (refers_lift (settles_operand hy.unary)).bind fun o _ => ?_
      dsimp only
      split
      · exact refers_refuse_then _ _
      · exact (refers_lift (settles_destination hx size)).bind fun rm hrm => refers_inst_nil hrm
    split
    · refine (refers_lift (settles_operand hy.unary)).bind fun o _ => ?_
      split
      · exact refers_inst_nil rfl
      · exact refers_refuse _
    · exact hstep _ _
    · exact hstep _ _
    · exact refers_outCast hy.unary
    · exact refers_refuse _
  · exact (refers_lift (settles_operand hy)).bind fun o ho => refers_outMov ho

theorem refers_outUnary (op : UnaryOp) (hx : x.Inside S) : Refers S (outUnary op k x) fun _ => True := by
  have hjump : ∀ bs, Refers S (do out bs; outLabel (← jumpTarget x)) fun _ => True := fun bs =>
    (refers_out _).bind fun _ _ => (refers_lift (settles_jumpTarget hx)).bind fun l hl => refers_outLabel hl
  have hstep : ∀ (opcode : Nat → List Byte) (field : RegField), Refers S (do
      let size ← width k
      inst size (opcode size) field (← destination x size)) fun _ => True := fun opcode field =>
    (refers_lift (settles_width _)).bind fun size _ =>
      (refers_lift (settles_destination hx size)).bind fun rm hrm => refers_inst_nil hrm
  unfold outUnary
  split
  · exact hjump _
  · exact hjump _
  · exact (refers_lift (settles_destination hx 1)).bind fun rm hrm => refers_inst_nil hrm
  · exact hstep _ _
  · exact hstep _ _
  · refine (refers_lift (settles_operand hx)).bind fun o _ => ?_
    split
    · exact refers_instPlus
    · exact refers_refuse _
  · refine (refers_lift (settles_operand hx)).bind fun o _ => ?_
    split
    · exact refers_instPlus
    · exact refers_refuse _
  · refine (refers_lift (settles_width _)).bind fun size _ => (refers_lift (settles_operand hx)).bind fun o _ => ?_
    split
    · exact refers_inst_nil rfl
    · exact refers_outMov (by rintro _ ⟨⟩)
    · exact refers_throw (by rintro ⟨⟩)
  · exact refers_refuse _

theorem refers_outBinary (op : BinaryOp) (hx : x.Inside S) (hy : y.Inside S) :
    Refers S (outBinary op k x y) fun _ => True := by
  have hpair : ∀ {act : Operand → Operand → Emit Unit}, (∀ o p, Refers S (act o p) fun _ => True) →
      Refers S (do act (← operand x) (← operand y)) fun _ => True := fun h =>
    (refers_lift (settles_operand hx)).bind fun o _ => (refers_lift (settles_operand hy)).bind fun p _ => h o p
  have hsized : ∀ {g : Kind} {act : Nat → Operand → Operand → Emit Unit}, (∀ n o p, Refers S (act n o p) fun _ => True) →
      Refers S (do let n ← width g; act n (← operand x) (← operand y)) fun _ => True := fun h =>
    (refers_lift (settles_width _)).bind fun n _ => hpair (h n)
  unfold outBinary
  split
  · exact hsized fun _ _ _ => refers_outAlu _
  split
  · exact refers_outAssign hx hy
  · exact hsized fun _ _ _ => refers_outTest
  · exact hsized fun _ _ _ => refers_outMul
  · exact hsized fun _ _ _ => refers_outShift _
  · exact hsized fun _ _ _ => refers_outShift _
  · exact hpair fun _ _ => refers_outDivide _
  · exact hpair fun _ _ => refers_outDivide _
  · exact refers_refuse _

/-- An instruction refers to labels that stand in it, and is not refused because of one. -/
theorem refers_instruction {e : Expr} (he : e.Inside S) : Refers S (instruction e) fun _ => True := by
  unfold instruction
  split
  · exact refers_outUnary _ he.unary
  · exact refers_outBinary _ he.left he.right
  · exact refers_out _
  · exact (refers_out _).bind fun _ _ => refers_outLabel (he.mem _ (by simp [Expr.mentions]))
  · exact refers_refuse _

end Instructions

/-! ## Labels of the buffer -/

/-- The labels bound so far are those placed so far, and fields wait for labels in `S` that are not among them. -/
structure Linked (S : Label → Prop) (done : List Label) (b : Buffer) : Prop where
  bound : ∀ l, (b.labelOffset l).isSome = true ↔ l ∈ done
  waiting : ∀ x ∈ b.fixups, S x.label ∧ x.label ∉ done

/-- The failure is not about a label, or it is about one that has been placed twice. -/
def Doubled (placed : List Label) (err : Error) : Prop :=
  (∀ l, err = .labelRedefined l → 2 ≤ placed.count l) ∧ ∀ l, err ≠ .unresolvedLabel l

/-- The computation places the labels given, and fields wait for labels in `S` only. -/
def Binds {α : Type} (S : Label → Prop) (new : List Label) (act : Assemble α) : Prop :=
  ∀ ⦃done b⦄ (log : Log), Linked S done b → (∀ err, (act b log).1.1 = .error err → Doubled (done ++ new) err) ∧
    ∀ a, (act b log).1.1 = .ok a → Linked S (done ++ new) (act b log).1.2

theorem Doubled.append {ls : List Label} {err : Error} (h : Doubled ls err) (ls' : List Label) : Doubled (ls ++ ls') err :=
  ⟨fun l hl => (h.1 l hl).trans (by simp), h.2⟩

theorem doubled_of_not_link {ls : List Label} {err : Error} (h : ¬LinkError err) : Doubled ls err :=
  ⟨fun l hl => absurd (hl ▸ .redefined l) h, fun l hl => h (hl ▸ .unresolved l)⟩

section Binds

variable {α β : Type} {S : Label → Prop} {new new' : List Label} {act : Assemble α}

theorem Binds.bind {k : α → Assemble β} (h : Binds S new act) (hk : ∀ a, Binds S new' (k a)) :
    Binds S (new ++ new') (act >>= k) := by
  intro done b log hb
  have hbind : (act >>= k) b log = ExceptT.bindCont k (act b log).1.1 (act b log).1.2 (act b log).2 := rfl
  obtain ⟨herr, hok⟩ := h log hb
  rw [hbind, ← List.append_assoc]
  rcases hact : act b log with ⟨⟨err | a, b₁⟩, log₁⟩
  · rw [hact] at herr
    refine ⟨?_, by rintro _ ⟨⟩⟩
    rintro _ ⟨⟩
    exact (herr err rfl).append new'
  · rw [hact] at hok
    exact hk a log₁ (hok a rfl)

theorem Binds.then {k : α → Assemble β} (h : Binds S new act) (hk : ∀ a, Binds S [] (k a)) : Binds S new (act >>= k) := by
  have := h.bind hk
  rwa [List.append_nil] at this

theorem binds_pure (a : α) : Binds S [] (pure a) := fun _ _ _ hb =>
  ⟨by rintro _ ⟨⟩, fun _ _ => by rw [List.append_nil]; exact hb⟩

theorem binds_get : Binds S [] (get : Assemble Buffer) := fun _ _ _ hb =>
  ⟨by rintro _ ⟨⟩, fun _ _ => by rw [List.append_nil]; exact hb⟩

theorem binds_note (e : Event) : Binds S [] (note e : Assemble Unit) := fun _ _ _ hb =>
  ⟨by rintro _ ⟨⟩, fun _ _ => by rw [List.append_nil]; exact hb⟩

theorem binds_throw {err : Error} (h : ¬LinkError err) : Binds S new (throw err : Assemble α) :=
  fun _ _ _ _ => ⟨by rintro _ ⟨⟩; exact doubled_of_not_link h, by rintro _ ⟨⟩⟩

/-- Only the bytes change. -/
theorem binds_modify {g : Buffer → Buffer} (h : ∀ b, (g b).labels = b.labels ∧ (g b).fixups = b.fixups) :
    Binds S [] (modify g : Assemble Unit) := by
  intro done b log hb
  refine ⟨by rintro _ ⟨⟩, fun _ _ => ?_⟩
  rw [List.append_nil]
  refine ⟨fun l => ?_, fun x hx => hb.waiting x ((h b).2 ▸ hx)⟩
  have hoffset : (g b).labelOffset l = b.labelOffset l := by rw [Buffer.labelOffset, (h b).1, Buffer.labelOffset]
  exact (congrArg (·.isSome = true) hoffset).to_iff.trans (hb.bound l)

theorem binds_patch (place here : Nat) : Binds S [] (Assemble.patch place here) := by
  unfold Assemble.patch
  dsimp only
  split
  · intro done b log hb
    refine ⟨?_, by rintro _ ⟨⟩⟩
    rintro _ ⟨⟩
    exact ⟨by rintro _ ⟨⟩, by rintro _ ⟨⟩⟩
  · exact binds_modify fun b => ⟨labels_overwrite b place _, fixups_overwrite b place _⟩

theorem binds_forM {xs : List β} {k : β → Assemble Unit} {ls : β → List Label} (h : ∀ x ∈ xs, Binds S (ls x) (k x)) :
    Binds S (xs.flatMap ls) (xs.forM k) := by
  induction xs with
  | nil => exact binds_pure ()
  | cons x xs ih =>
    obtain ⟨hx, hxs⟩ := List.forall_mem_cons.1 h
    rw [List.forM, List.flatMap_cons]
    exact hx.bind fun _ => ih hxs

theorem binds_forM_nil {xs : List β} {k : β → Assemble Unit} (h : ∀ x ∈ xs, Binds S [] (k x)) : Binds S [] (xs.forM k) := by
  have := binds_forM h
  rwa [List.flatMap_eq_nil_iff.2 fun _ _ => rfl] at this

theorem binds_label (l : Label) : Binds S [l] (Assemble.bind l) := by
  intro done b log hb
  unfold Assemble.bind
  rw [Assemble.run_bind rfl]
  simp only [List.partition_eq_filter_filter]
  by_cases hsome : (b.labelOffset l).isSome = true
  · rw [if_pos hsome]
    refine ⟨?_, by rintro _ ⟨⟩⟩
    rintro _ ⟨⟩
    refine ⟨?_, by rintro _ ⟨⟩⟩
    rintro _ ⟨⟩
    have := List.one_le_count_iff.2 ((hb.bound l).1 hsome)
    simpa using this
  · rw [if_neg hsome]
    have hl : l ∉ done := fun h => hsome ((hb.bound l).2 h)
    have hset : Linked S (done ++ [l]) { b with
        labels := b.bound l b.code.size, fixups := b.fixups.filter fun x => !decide (x.label = l) } := by
      refine ⟨fun l' => ?_, fun x hx => ?_⟩
      · rw [labelOffset_bound, List.mem_append, List.mem_singleton]
        by_cases hl' : l' = l
        · simp [hl']
        · simp [hl', hb.bound]
      · obtain ⟨hmem, hne⟩ := List.mem_filter.1 hx
        obtain ⟨hin, hnot⟩ := hb.waiting x hmem
        exact ⟨hin, by simpa [hnot] using hne⟩
    have hpatches : Binds S [] ((b.fixups.filter fun x => x.label = l).forM fun x => do
        note (.patched l x.place b.code.size)
        Assemble.patch x.place b.code.size) :=
      binds_forM_nil fun x _ => (binds_note _).then fun _ => binds_patch _ _
    have := hpatches log hset
    rw [List.append_nil] at this
    exact this

theorem binds_emitRel32 {l : Label} (hl : S l) : Binds S [] (Assemble.emitRel32 l) := by
  have hemit : Binds S [] (Assemble.emit (littleEndian 4 0)) := binds_modify fun b => ⟨rfl, rfl⟩
  refine binds_get.then fun b₀ => hemit.then fun _ => ?_
  intro done b log hb
  rw [Assemble.run_bind rfl]
  cases hoffset : b.labelOffset l with
  | some target => exact binds_patch _ _ log hb
  | none =>
    refine ⟨by rintro _ ⟨⟩, fun _ _ => ?_⟩
    have hnot : l ∉ done := fun h => by simpa [hoffset] using (hb.bound l).2 h
    rw [List.append_nil]
    refine ⟨hb.bound, fun x hx => ?_⟩
    rcases List.mem_append.1 hx with hx | hx
    · exact hb.waiting x hx
    · obtain rfl := List.mem_singleton.1 hx
      exact ⟨hl, hnot⟩

theorem binds_piece {p : Piece} (h : ∀ l, p = .rel32 l → S l) : Binds S [] p.emit := by
  cases p with
  | byte b => exact binds_modify fun b => ⟨rfl, rfl⟩
  | rel32 l => exact binds_emitRel32 (h l rfl)

theorem binds_encode {e : Expr} (he : e.Inside S) : Binds S (placed [e]) (encode e) := by
  have hnote : ∀ g : Buffer → Event, Binds S [] (do note (g (← get)) : Assemble Unit) := fun _ =>
    binds_get.then fun _ => binds_note _
  unfold encode
  by_cases hl : ∃ l, e = .label l
  · obtain ⟨l, rfl⟩ := hl
    exact binds_get.bind fun b => (binds_label l).then fun _ => hnote _
  · have hplaced : placed [e] = [] := by
      cases e <;> first | rfl | exact absurd ⟨_, rfl⟩ hl
    obtain ⟨hpieces, -, herr⟩ := refers_instruction he [] (by simp)
    have hemit : Binds S [] (((instruction e).run []).2.forM Piece.emit) :=
      binds_forM_nil fun p hp => binds_piece fun l hl => hpieces l (hl ▸ hp)
    rw [hplaced]
    refine binds_get.then fun b => ?_
    dsimp only
    split
    · exact absurd ⟨_, rfl⟩ hl
    refine hemit.then fun _ => ?_
    split
    · exact hnote _
    · rename_i err hres
      exact (binds_throw (herr err hres)).then fun _ => hnote _

theorem binds_encodeItem {n : Nat} {i : Item} (hi : ∀ e ∈ instrs [i], e.Inside S) :
    Binds S (placed (instrs [i])) (encodeItem n i) := by
  cases i with
  | instr e => exact binds_encode (hi e (by simp [instrs]))
  | frame op sp =>
    unfold encodeItem Item.instruction
    cases op with
    | binary op => exact binds_encode (inferInstanceAs (Expr.Inside S (.binary _ _ (.reg _) (.const _))))
    | unary op | ret | call => exact binds_throw (not_link_unsupported _)

theorem linked_empty (n : Nat) : Linked S [] (.withLabels n) where
  bound l := by
    rw [congrFun (Follows.empty n).labels l]
    simp [Step.boundAt]
  waiting := by simp [Buffer.withLabels]

theorem flatMap_placed (items : List Item) : items.flatMap (fun i => placed (instrs [i])) = placed (instrs items) := by
  induction items with
  | nil => rfl
  | cons i items ih =>
    rw [List.flatMap_cons, ih, ← placed_append, ← instrs_append]
    rfl

/-- Assembling fails because of a label only if the label is placed twice, or if code refers to it and it is not placed. -/
theorem assemble_label {l : Lowered} (hin : ∀ e ∈ instrs l.code, e.Inside S) {log log' : Log} {err : Error}
    (h : assemble l log = (.error err, log')) : (∀ k, err = .labelRedefined k → 2 ≤ (placed (instrs l.code)).count k) ∧
      ∀ k, err = .unresolvedLabel k → S k ∧ k ∉ placed (instrs l.code) := by
  have hitem : ∀ i ∈ l.code, Binds S (placed (instrs [i])) (encodeItem l.frame i) := fun i hi => binds_encodeItem fun e he =>
    hin e (List.mem_filterMap.2 ⟨i, hi, by simpa [instrs] using he⟩)
  obtain ⟨herr, hok⟩ := binds_forM hitem log (linked_empty l.labels.size)
  rw [List.nil_append, flatMap_placed] at herr hok
  rw [assemble_eq] at h
  split at h
  · rename_i e b log₁ hrun
    cases h
    rw [hrun] at herr
    exact ⟨(herr err rfl).1, fun k hk => absurd hk ((herr err rfl).2 k)⟩
  · rename_i b log₁ hrun
    rw [hrun] at hok
    unfold Buffer.finish at h
    split at h
    · cases h
    · rename_i x xs hfix
      cases h
      refine ⟨by rintro _ ⟨⟩, ?_⟩
      rintro _ ⟨⟩
      exact (hok () rfl).waiting x (hfix ▸ List.mem_cons_self)

end Binds

/-! ## Functions -/

/-- The labels of lowered code are those of the function, placed where its statements place them, and those issued on the
way, which have the next numbers and are placed once each. So assembling finds a label twice only if the function places
it twice, and misses one only if the function refers to it and never places it. The allocation of registers is any;
`Func.lower_stages` gives the one of lowering. -/
theorem Func.lower_links {f : Func} {flat : Flat} {registry : Registry} {alloc : Allocation} {l : Lowered}
    {log logFlat logAlloc log' : Log} (hreg : registry.get .amd64 = .ok target)
    (hown : ∀ k ∈ Stmt.mentionsL f.source, k.index < f.labels.size) (hflat : f.flatten log = (.ok flat, logFlat))
    (h : flat.lower registry .w64 .amd64 alloc logAlloc = (.ok l, log')) :
    f.labels.size ≤ l.labels.size ∧
    (placed (instrs l.code)).filter (·.index < f.labels.size) = Stmt.labelsL f.source ∧
    (∀ k : Label, f.labels.size ≤ k.index → (placed (instrs l.code)).count k = if k.index < l.labels.size then 1 else 0) ∧
    (∀ e ∈ instrs l.code, ∀ k ∈ e.mentions,
      k ∈ Stmt.mentionsL f.source ∨ f.labels.size ≤ k.index ∧ k.index < l.labels.size) ∧
    ∀ log₁ k,
      ((l.assemble registry log₁).1 = .error (.labelRedefined k) → 2 ≤ (Stmt.labelsL f.source).count k) ∧
      ((l.assemble registry log₁).1 = .error (.unresolvedLabel k) →
        k ∈ Stmt.mentionsL f.source ∧ k ∉ Stmt.labelsL f.source) := by
  have hlabels : ∀ k ∈ Stmt.labelsL f.source, k.index < f.labels.size := fun k hk =>
    hown k (Stmt.mentionsL_of_labelsL f.source hk)
  have hlaid := Func.lower_laid hreg hlabels hflat h
  have hin := Func.lower_inside hreg hlabels hflat h
    (S := fun k => k ∈ Stmt.mentionsL f.source ∨ f.labels.size ≤ k.index ∧ k.index < l.labels.size)
    (fun _ hk => .inl hk) fun _ hlo hhi => .inr ⟨hlo, hhi⟩
  refine ⟨hlaid.le, hlaid.old, fun k hk => hlaid.count_new hk, fun e he => (hin e he).mem, fun log₁ k => ?_⟩
  have hassemble : ∀ err, (l.assemble registry log₁).1 = .error err → ∃ log₂, assemble l log₁ = (.error err, log₂) := by
    intro err herr
    obtain ⟨_, _, _, _, rfl⟩ := Flat.lower_eq_ok hreg h
    rw [Lowered.assemble_fst hreg rfl] at herr
    rcases hrun : assemble _ log₁ with ⟨_ | r, log₂⟩
    · rw [hrun] at herr
      cases herr
      exact ⟨log₂, rfl⟩
    · rw [hrun] at herr
      cases herr
  constructor
  · intro herr
    obtain ⟨log₂, hrun⟩ := hassemble _ herr
    have hcount := (assemble_label hin hrun).1 k rfl
    by_cases hk : k.index < f.labels.size
    · rwa [hlaid.count_old hk] at hcount
    · rw [hlaid.count_new (not_lt.1 hk)] at hcount
      split at hcount <;> omega
  · intro herr
    obtain ⟨log₂, hrun⟩ := hassemble _ herr
    obtain ⟨hcited, hnot⟩ := (assemble_label hin hrun).2 k rfl
    rcases hcited with hcited | ⟨hlo, hhi⟩
    · refine ⟨hcited, fun hmem => hnot ?_⟩
      rw [← hlaid.old] at hmem
      exact (List.mem_filter.1 hmem).1
    · exact absurd ((hlaid.mem_iff hlo).2 hhi) hnot

/-- Places its first label before and behind a loop with a condition of two parts, and jumps to its second label, which
stands nowhere. -/
def relabelled : Func :=
  let x : Expr := .reg (Func.softReg 0 .int64)
  let above (n : Int) : Expr := .binary (.compare .gtr) .bool x (.const (.int64 n))
  { name := "again", sig := ⟨[.int64], []⟩, regs := [Func.softReg 0 .int64],
    labels := ((LabelPool.fresh {} none).2.fresh none).2,
    source :=
      [.expr (.label ⟨0⟩),
       .loop none (some (.binary (.logic .and) .bool (above 1) (above 2))) none (.expr (.unary .dec .int64 x)),
       .expr (.label ⟨0⟩),
       .expr (Expr.jumpTo ⟨1⟩)] }

theorem lower_links_relabelled : (∀ k ∈ Stmt.mentionsL relabelled.source, k.index < relabelled.labels.size) ∧
    ∃ l log', relabelled.lower ⟨[target]⟩ .w64 .amd64 #[] = (.ok l, log') ∧ l.labels.size = 6 ∧
      (placed (instrs l.code)).filter (·.index < 2) = [⟨0⟩, ⟨0⟩] ∧ (placed (instrs l.code)).count ⟨5⟩ = 1 ∧
      (l.assemble ⟨[target]⟩ #[]).1 = .error (.labelRedefined ⟨0⟩) ∧ 2 ≤ (Stmt.labelsL relabelled.source).count ⟨0⟩ := by
  have hown : ∀ k ∈ Stmt.mentionsL relabelled.source, k.index < relabelled.labels.size := by decide
  have hrun : ((relabelled.lower ⟨[target]⟩ .w64 .amd64 #[]).1.toOption.map fun l =>
      (l.labels.size, (l.assemble ⟨[target]⟩ #[]).1.map fun _ => ())) = some (6, .error (.labelRedefined ⟨0⟩)) := by cbv
  rcases hlower : relabelled.lower ⟨[target]⟩ .w64 .amd64 #[] with ⟨_ | l, log'⟩
  · rw [hlower] at hrun
    cases hrun
  · rw [hlower] at hrun
    obtain ⟨hsize, hassemble⟩ := Prod.mk.inj (Option.some.inj hrun)
    have herr : (l.assemble ⟨[target]⟩ #[]).1 = .error (.labelRedefined ⟨0⟩) := by
      rcases hr : (l.assemble ⟨[target]⟩ #[]).1 with err | code
      · rw [hr] at hassemble
        cases hassemble
        rfl
      · rw [hr] at hassemble
        cases hassemble
    obtain ⟨flat, logFlat, logAlloc, hflat, hselect⟩ := Func.lower_stages rfl hlower
    obtain ⟨-, hold, hnew, -, hlinks⟩ := Func.lower_links rfl hown hflat hselect
    have hfive := hnew ⟨5⟩ (by decide)
    rw [hsize] at hfive
    exact ⟨hown, l, log', rfl, hsize, hold, hfive, herr, (hlinks #[] ⟨0⟩).1 herr⟩

end JitBackend.Amd64
