import JitBackend.Amd64.Target
import JitBackend.Proofs.Amd64.Laws

/-!
# Laws of bodies

What a law asks of statements, beyond expressions: that an operation on a target in place, a statement that is passed
through and the end of a function obey it. Then the body of a function does (`BodyLaw.selectBody`).
-/

namespace JitBackend.Amd64

open Lower

/-! ## Labels and stack -/

section Widens

variable {α β : Type} {f : Frame}

instance (priority := low) (act : Lower α) (k : α → Lower β) [h : Widens f act] [hk : ∀ a, Widens f (k a)] :
    Widens f (act >>= k) := h.bind hk

instance (priority := low) (p : Prop) [Decidable p] (x y : Lower α) [hx : Widens f x] [hy : Widens f y] :
    Widens f (if p then x else y) := by
  split
  · exact hx
  · exact hy

instance (priority := low) (k : α → Lower Unit) [hk : ∀ a, Widens f (k a)] (xs : List α) : Widens f (xs.forM k) :=
  widens_forM hk xs

instance (priority := low) (e : Expr) : Widens f (emit e) where
  le hg := by
    obtain rfl := hg.emit
    exact ⟨le_rfl, le_rfl⟩

instance (op : Op) : Widens f (emitFrame op) where
  le hg := by
    obtain ⟨sp, -, rfl⟩ := hg.emitFrame
    exact ⟨le_rfl, le_rfl⟩

instance : Widens f enter := by
  unfold enter
  infer_instance

instance : Widens f leave := by
  unfold leave
  infer_instance

set_option synthInstance.maxSize 4096 in
instance (vs : List Expr) : Widens f (selectReturn vs) := by
  unfold selectReturn
  split <;> infer_instance

instance (e : Expr) : Widens f (statement e) := by
  unfold statement
  split
  · infer_instance
  split
  · infer_instance
  · infer_instance
  · split <;> infer_instance
  · infer_instance
  · infer_instance
  · rw [assign]
    infer_instance
  · rw [compound]
    infer_instance
  · infer_instance
  · infer_instance
  · rename_i l n sig args _
    exact inferInstanceAs (Widens f ((emitCall (.call l n sig args) >>= fun _ => pure ()) >>= fun _ => pure nothing))
  · infer_instance

instance (e : Expr) (b : Bool) : Widens f (select e b) := by
  unfold select
  infer_instance

instance (flat : Flat) : Widens f (flat.selectBody select) := by
  unfold Flat.selectBody
  infer_instance

end Widens

/-! ## Statements -/

/-- The operations that change their operand in place. -/
def IsStep (op : UnaryOp) : Prop := op = .inc ∨ op = .dec ∨ op = .zero

/-- A law with what it asks of statements. -/
structure BodyLaw (f : Frame) extends Law f where
  step : ∀ {op k d}, IsStep op → Place d → Fits d k → Holds (Lower.emit (.unary op k d)) fun _ => True
  source : ∀ {e}, Good e → e ≠ .ret [] → Holds (Lower.emit e) fun _ => True
  leave : Holds leave fun _ => True
  marked : ∀ m, Marked m
  good_ret : ∀ {vs}, Good (.ret vs) → ∀ v ∈ vs, Good v
  good_jump : ∀ {k l c}, Good (.binary .jumpIf k (.label l) c) → Lab l
  good_step : ∀ {op k x}, IsStep op → Good (.unary op k x) → Target x ∧ ∀ {d}, Fits d x.kind → Fits d k

namespace BodyLaw

variable {f : Frame} (L : BodyLaw f)

/-- What is left of a statement: an operand, or the statement itself. -/
def Rest (r : Expr) : Prop := r.isEffectFree = true ∨ L.Good r ∧ r ≠ .ret []

variable {L} {e : Expr}

open Rules (seq pure)

theorem rest_of_free (h : e.isEffectFree = true) : L.Rest e := .inl h

theorem passed (hg : L.Good e) (hne : e ≠ .ret []) : L.Holds (do warn e; return e) L.Rest :=
  seq (Law.warn e) fun _ _ => pure (.inr ⟨hg, hne⟩)

set_option synthInstance.maxSize 4096 in
theorem selectReturn {vs : List Expr} (hg : L.Good (.ret vs)) : L.Holds (selectReturn vs) L.Rest := by
  have hinto : ∀ v ∈ vs, ∀ dst, L.Place dst → dst.kind = v.kind → L.Holds (into dst v none) fun _ => True :=
    fun v hv dst hd hk => (Law.selects v (L.good_ret hg v hv)).into dst none hd (hk ▸ L.fits_kind)
  unfold Amd64.selectReturn
  split
  · exact seq L.leave fun _ _ => pure (rest_of_free rfl)
  · rename_i v
    refine seq (hinto v (by simp) _ (L.place_fixed (by simp)) rfl) fun _ _ => ?_
    exact seq L.leave fun _ _ => pure (rest_of_free rfl)
  · rename_i v w
    refine seq (L.temp _ _) fun a ha => seq (hinto v (by simp) a ha.place ha.kind) fun _ _ => ?_
    refine seq (L.temp _ _) fun b hb => seq (hinto w (by simp) b hb.place hb.kind) fun _ _ => ?_
    refine seq (Law.mov (L.place_fixed (by simp)) (L.place_src ha.place)) fun _ _ => ?_
    refine seq (Law.mov (L.place_fixed (by simp)) (L.place_src hb.place)) fun _ _ => ?_
    exact seq L.leave fun _ _ => pure (rest_of_free rfl)
  · rename_i hne _ _
    exact passed hg (by simpa using hne)

theorem statement (hg : L.Good e) : L.Holds (statement e) L.Rest := by
  unfold Amd64.statement
  split
  · rename_i hfree
    exact pure (rest_of_free hfree)
  split
  · exact pure (.inr ⟨hg, by simp⟩)
  · exact pure (.inr ⟨hg, by simp⟩)
  · rename_i op k x _ _
    have hstep : IsStep op → L.Holds (do
        let d ← resolveTarget x
        Lower.emit (.unary op k d)
        return d) L.Rest := fun hop => by
      obtain ⟨htarget, hfits⟩ := L.good_step hop hg
      refine seq ((Law.selects x (L.good_unary hg)).target htarget) fun d hd => ?_
      exact seq (L.step hop hd.1 (hfits (hd.2.1 ▸ L.fits_kind))) fun _ _ => pure (rest_of_free hd.2.2)
    split
    · exact hstep (.inl rfl)
    · exact hstep (.inr (.inl rfl))
    · exact hstep (.inr (.inr rfl))
    · exact passed hg (by simp)
  · rename_i k l y _
    exact seq (Law.jumpIf y (L.good_right hg) l true (L.good_jump hg)) fun _ _ => pure (rest_of_free rfl)
  · exact passed hg (by simp)
  · rename_i k x y _
    exact L.mono (Law.assign hg (Law.selects x (L.good_left hg)) (Law.selects y (L.good_right hg))) fun d hd => .inl hd.2
  · rename_i op k x y _
    exact L.mono (Law.compound hg (Law.selects x (L.good_left hg)) (Law.selects y (L.good_right hg))) fun d hd => .inl hd.2
  · rename_i op k x y _ _ _ _
    rw [value.eq_def]
    refine seq (L.temp _ _) fun t ht => ?_
    refine seq ((Law.selects _ hg).into t none ht.place (ht.kind ▸ L.fits_kind)) fun _ _ => pure (rest_of_free ht.free)
  · exact selectReturn hg
  · rename_i l n sig args _
    have hcall : L.Holds (emitCall (.call l n sig args) >>= fun _ => Pure.pure ()) fun _ => True :=
      seq (L.call hg) fun _ _ => pure trivial
    have hcall : L.Holds (discard (emitCall (.call l n sig args))) fun _ => True := hcall
    exact seq hcall fun _ _ => pure (rest_of_free rfl)
  · exact passed hg fun h => ‹∀ vs, e = .ret vs → False› [] h

theorem selectBody {flat : Flat} (hg : ∀ e ∈ flat.code.toList, L.Good e) :
    L.Holds (flat.selectBody select) fun _ => True := by
  unfold Flat.selectBody
  generalize flat.code.toList = code at hg
  induction code with
  | nil => exact pure trivial
  | cons e code ih =>
    obtain ⟨he, hcode⟩ := List.forall_mem_cons.1 hg
    rw [List.forM]
    refine L.bind (P := fun _ => True) ?_ (fun _ => inferInstance) fun _ _ => ih hcode
    dsimp only
    refine seq L.get fun s _ => seq (statement he) fun r hr => ?_
    have hrelease : L.Holds (modify (Session.release s.mark)) fun _ => True := L.release (L.marked _)
    split
    · rename_i hfree
      obtain ⟨hgood, hne⟩ := hr.resolve_left (by simpa using hfree)
      exact seq (L.source hgood hne) fun _ _ => hrelease
    · exact hrelease

end BodyLaw

end JitBackend.Amd64
