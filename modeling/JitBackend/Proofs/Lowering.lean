import JitBackend.Frame
import JitBackend.Proofs.Labels

/-!
# What selection does to a session

Computations of instruction selection only append instructions, take labels from the pool and raise the mark of the
stack temporaries (`Lower.Grows`). Most of them keep what is in use as well (`Lower.Steady`): a temporary that was taken
before is still taken after. Both hold of a composition if they hold of its parts, so that they are classes.
-/

namespace JitBackend

/-- What was appended to a session; its labels are new ones. -/
structure Session.Grown (s s' : Session) (code : List Expr) : Prop where
  items : s'.items.toList = s.items.toList ++ code.map Item.instr
  peak : s.tempPeak ≤ s'.tempPeak
  fresh : Fresh s.labels.size s'.labels.size code

/-- Every temporary in use at the first mark is in use at the second. -/
instance : Preorder Mark where
  le μ ν := μ.scratch ≤ ν.scratch ∧ μ.temps ≤ ν.temps
  le_refl _ := ⟨le_rfl, le_rfl⟩
  le_trans _ _ _ h h' := ⟨h.1.trans h'.1, h.2.trans h'.2⟩

namespace Session

theorem Grown.refl (s : Session) : s.Grown s [] := ⟨by simp, le_rfl, .of_placed_nil rfl rfl⟩

theorem Grown.trans {s s₁ s' : Session} {k k' : List Expr} (h : s.Grown s₁ k) (h' : s₁.Grown s' k') :
    s.Grown s' (k ++ k') :=
  ⟨by rw [h'.items, h.items, List.map_append, List.append_assoc], h.peak.trans h'.peak, h.fresh.append h'.fresh⟩

theorem release_grown (m : Mark) (s : Session) : s.Grown (s.release m) [] :=
  ⟨by simp [release], le_rfl, .of_placed_nil rfl rfl⟩

theorem emit_grown (s : Session) {e : Expr} (he : placed [e] = []) :
    s.Grown { s with items := s.items.push (.instr e) } [e] := ⟨by simp, le_rfl, .of_placed_nil rfl he⟩

/-- Giving back what was taken since a mark leads back to it. -/
theorem mark_release {s s' : Session} (h : s.mark ≤ s'.mark) : (s'.release s.mark).mark = s.mark := by
  simp only [release, mark, Mark.mk.injEq]
  exact ⟨min_eq_left h.1, min_eq_left h.2⟩

end Session

/-- The frame covers the stack area, is no wider than a word of four bytes, and keeps the stack aligned at calls. -/
theorem Frame.size_bounds {f : Frame} {s : Session} (h : f.alloc.frame + 8 * s.tempPeak < Session.slotLimit + 16) :
    f.alloc.frame + 8 * s.tempPeak ≤ f.size s ∧ f.size s < 2 ^ 32 ∧
      (f.makesCalls = true → (8 * f.saved.length + f.size s) % 16 = 8) := by
  rw [Session.slotLimit] at h
  have hround : roundUp (f.alloc.frame + 8 * s.tempPeak) 16 % 16 = 0 ∧
      f.alloc.frame + 8 * s.tempPeak ≤ roundUp (f.alloc.frame + 8 * s.tempPeak) 16 ∧
      roundUp (f.alloc.frame + 8 * s.tempPeak) 16 < f.alloc.frame + 8 * s.tempPeak + 16 := by
    rw [roundUp]
    omega
  unfold Frame.size
  generalize roundUp (f.alloc.frame + 8 * s.tempPeak) 16 = aligned at *
  dsimp only
  rw [BitVec.toNat_ofNat]
  split
  · rename_i hcalls
    obtain ⟨-, heven⟩ : f.makesCalls = true ∧ f.saved.length % 2 = 0 := by simpa using hcalls
    rw [Nat.mod_eq_of_lt (by omega)]
    exact ⟨by omega, by omega, fun _ => by omega⟩
  · rename_i hcalls
    rw [Nat.mod_eq_of_lt (by omega)]
    refine ⟨hround.2.1, by omega, fun hmakes => ?_⟩
    have hodd : ¬f.saved.length % 2 = 0 := fun heven => hcalls (by simp [hmakes, heven])
    omega

namespace Lower

/-- The computation succeeds in `s` with the result `a` and leaves `s'`. -/
def Gives {α : Type} (f : Frame) (act : Lower α) (s : Session) (a : α) (s' : Session) : Prop :=
  ∃ log log', act f s log = ((.ok a, s'), log')

section Gives

variable {α β : Type} {f : Frame} {s s' : Session}

theorem Gives.bind {act : Lower α} {k : α → Lower β} {b : β} (h : Gives f (act >>= k) s b s') :
    ∃ a s₁, Gives f act s a s₁ ∧ Gives f (k a) s₁ b s' := by
  obtain ⟨log, log', h⟩ := h
  rcases hact : act f s log with ⟨⟨_ | a, s₁⟩, log₁⟩
  · simp only [Bind.bind, ReaderT.bind, ExceptT.bind, ExceptT.mk, StateT.bind, hact, ExceptT.bindCont] at h
    cases h
  · simp only [Bind.bind, ReaderT.bind, ExceptT.bind, ExceptT.mk, StateT.bind, hact, ExceptT.bindCont] at h
    exact ⟨a, s₁, ⟨log, log₁, hact⟩, ⟨log₁, log', h⟩⟩

theorem Gives.pure {a b : α} (h : Gives f (Pure.pure a) s b s') : b = a ∧ s' = s := by
  obtain ⟨log, log', h⟩ := h
  cases h
  exact ⟨rfl, rfl⟩

theorem Gives.throw {e : Error} {a : α} (h : Gives f (MonadExcept.throw e : Lower α) s a s') : False := by
  obtain ⟨log, log', h⟩ := h
  cases h

theorem Gives.lift {x : Except Error α} {a : α} (h : Gives f (liftM x : Lower α) s a s') : x = .ok a ∧ s' = s := by
  obtain ⟨log, log', h⟩ := h
  cases x with
  | error e => cases h
  | ok b => cases h; exact ⟨rfl, rfl⟩

theorem Gives.read {g : Frame} (h : Gives f (MonadReader.read : Lower Frame) s g s') : g = f ∧ s' = s := by
  obtain ⟨log, log', h⟩ := h
  cases h
  exact ⟨rfl, rfl⟩

theorem Gives.resolve {r : Reg} {v : Expr} (h : Gives f (Lower.resolve r) s v s') : f.resolve r = .ok v ∧ s' = s := by
  obtain ⟨g, s₁, hread, hlift⟩ := h.bind
  obtain ⟨rfl, rfl⟩ := hread.read
  exact hlift.lift

theorem Gives.change {step : Frame → Session → Except Error α × Session} {a : α} (h : Gives f (change step) s a s') :
    step f s = (.ok a, s') := by
  obtain ⟨log, log', h⟩ := h
  have h : ((step f s), log) = (((Except.ok a : Except Error α), s'), log') := h
  exact congrArg Prod.fst h

theorem Gives.of_change {step : Frame → Session → Except Error α × Session} {a : α} (h : step f s = (.ok a, s')) :
    Gives f (Lower.change step) s a s' := ⟨#[], #[], congrArg (·, #[]) h⟩

theorem Gives.note {e : Event} {u : Unit} (h : Gives f (JitBackend.note e : Lower Unit) s u s') : s' = s := by
  obtain ⟨log, log', h⟩ := h
  cases h
  rfl

theorem Gives.modify {g : Session → Session} {u : Unit} (h : Gives f (modify g : Lower Unit) s u s') : s' = g s := by
  obtain ⟨log, log', h⟩ := h
  cases h
  rfl

theorem Gives.emit {e : Expr} {u : Unit} (h : Gives f (Lower.emit e) s u s') :
    s' = { s with items := s.items.push (.instr e) } := by
  obtain ⟨log, log', h⟩ := h
  cases h
  rfl

theorem Gives.emitFrame {op : Op} {u : Unit} (h : Gives f (Lower.emitFrame op) s u s') :
    ∃ sp, f.regs.stackPointer = some sp ∧ s' = { s with items := s.items.push (.frame op sp) } := by
  obtain ⟨g, s₁, hr, hrest⟩ := h.bind
  obtain ⟨rfl, rfl⟩ := hr.read
  split at hrest
  · exact hrest.throw.elim
  · rename_i sp hsp
    obtain ⟨_, s₂, hn, hm⟩ := hrest.bind
    obtain rfl := hn.note
    exact ⟨sp, hsp, hm.modify⟩

/-- Instructions that are emitted one after the other. -/
theorem Gives.emits {g : α → Expr} {xs : List α} {u : Unit} (h : Gives f (xs.forM fun x => Lower.emit (g x)) s u s') :
    s' = { s with items := s.items ++ (xs.map fun x => Item.instr (g x)) } := by
  induction xs generalizing s with
  | nil =>
    obtain ⟨-, rfl⟩ := h.pure
    simp
  | cons x xs ih =>
    rw [List.forM] at h
    obtain ⟨_, s₁, h₁, h₂⟩ := h.bind
    obtain rfl := h₁.emit
    rw [ih h₂]
    simp

theorem Gives.newLabel {l : Label} (h : Gives f Lower.newLabel s l s') :
    l = ⟨s.labels.size⟩ ∧ s' = { s with labels := (s.labels.fresh none).2 } := by
  obtain ⟨log, log', h⟩ := h
  cases h
  exact ⟨rfl, rfl⟩

theorem Gives.releasing {act : Lower α} {a : α} (h : Gives f (Lower.releasing act) s a s') :
    ∃ s₁, Gives f act s a s₁ ∧ s' = s₁.release s.mark := by
  obtain ⟨log, log', h⟩ := h
  rcases hact : act f s log with ⟨⟨r, s₁⟩, log₁⟩
  have h : (((act f s log).1.1, (act f s log).1.2.release s.mark), (act f s log).2) = ((.ok a, s'), log') := h
  rw [hact] at h
  cases h
  exact ⟨s₁, ⟨log, log₁, hact⟩, rfl⟩

end Gives

/-! ## Growth -/

/-- The computation appends instructions with new labels. -/
class Grows {α : Type} (f : Frame) (act : Lower α) : Prop where
  grown : ∀ {s a s'}, Gives f act s a s' → ∃ code, s.Grown s' code

/-- The computation keeps what is in use, too. -/
class Steady {α : Type} (f : Frame) (act : Lower α) : Prop where
  grown : ∀ {s a s'}, Gives f act s a s' → ∃ code, s.Grown s' code
  below : ∀ {s a s'}, Gives f act s a s' → s.mark ≤ s'.mark

section Growth

variable {α β : Type} {f : Frame}

instance (priority := low) (act : Lower α) [h : Steady f act] : Grows f act := ⟨h.grown⟩

theorem Steady.of_grows {act : Lower α} (hg : Grows f act) (hb : ∀ {s a s'}, Gives f act s a s' → s.mark ≤ s'.mark) :
    Steady f act := ⟨fun h => hg.grown h, hb⟩

/-- A computation that leaves the session as it is. -/
theorem Steady.of_eq {act : Lower α} (h : ∀ {s a s'}, Gives f act s a s' → s' = s) : Steady f act :=
  ⟨fun hg => by rw [h hg]; exact ⟨[], .refl _⟩, fun hg => by rw [h hg]⟩

instance (a : α) : Steady f (pure a : Lower α) := .of_eq fun h => h.pure.2

instance (e : Error) : Steady f (throw e : Lower α) := .of_eq fun h => h.throw.elim

instance (x : Except Error α) : Steady f (liftM x : Lower α) := .of_eq fun h => h.lift.2

instance : Steady f (read : Lower Frame) := .of_eq fun h => h.read.2

instance (e : Event) : Steady f (note e : Lower Unit) := .of_eq fun h => h.note

theorem Grows.bind {act : Lower α} {k : α → Lower β} (h : Grows f act) (hk : ∀ a, Grows f (k a)) :
    Grows f (act >>= k) where
  grown hg := by
    obtain ⟨a, s₁, ha, hb⟩ := hg.bind
    obtain ⟨c, hc⟩ := h.grown ha
    obtain ⟨d, hd⟩ := (hk a).grown hb
    exact ⟨c ++ d, hc.trans hd⟩

theorem Steady.bind {act : Lower α} {k : α → Lower β} (h : Steady f act) (hk : ∀ a, Steady f (k a)) :
    Steady f (act >>= k) where
  grown hg := (Grows.bind inferInstance fun _ => inferInstance : Grows f (act >>= k)).grown hg
  below hg := by
    obtain ⟨a, s₁, ha, hb⟩ := hg.bind
    exact (h.below ha).trans ((hk a).below hb)

instance (act : Lower α) (k : α → Lower β) [h : Grows f act] [hk : ∀ a, Grows f (k a)] : Grows f (act >>= k) := h.bind hk

instance (act : Lower α) (k : α → Lower β) [h : Steady f act] [hk : ∀ a, Steady f (k a)] : Steady f (act >>= k) :=
  h.bind hk

instance (p : Prop) [Decidable p] (x y : Lower α) [hx : Grows f x] [hy : Grows f y] : Grows f (if p then x else y) := by
  split
  · exact hx
  · exact hy

instance (p : Prop) [Decidable p] (x y : Lower α) [hx : Steady f x] [hy : Steady f y] :
    Steady f (if p then x else y) := by
  split
  · exact hx
  · exact hy

theorem Grows.releasing {act : Lower α} (h : Grows f act) : Grows f (Lower.releasing act) where
  grown hg := by
    obtain ⟨s₁, ha, rfl⟩ := hg.releasing
    obtain ⟨c, hc⟩ := h.grown ha
    exact ⟨c ++ [], hc.trans (Session.release_grown _ _)⟩

theorem Steady.releasing {act : Lower α} (h : Steady f act) : Steady f (Lower.releasing act) where
  grown hg := (Grows.releasing inferInstance : Grows f (Lower.releasing act)).grown hg
  below hg := by
    obtain ⟨s₁, ha, rfl⟩ := hg.releasing
    rw [Session.mark_release (h.below ha)]

instance (act : Lower α) [h : Grows f act] : Grows f (Lower.releasing act) := h.releasing

instance (act : Lower α) [h : Steady f act] : Steady f (Lower.releasing act) := h.releasing

/-- Any expression but a label may be appended. -/
theorem steady_emit {e : Expr} (he : placed [e] = []) : Steady f (emit e) where
  grown hg := by
    obtain rfl := hg.emit
    exact ⟨[e], Session.emit_grown _ he⟩
  below hg := by
    obtain rfl := hg.emit
    exact ⟨le_rfl, le_rfl⟩

instance (op : UnaryOp) (k : Kind) (x : Expr) : Steady f (emit (.unary op k x)) := steady_emit rfl

instance (op : BinaryOp) (k : Kind) (x y : Expr) : Steady f (emit (.binary op k x y)) := steady_emit rfl

/-- A change that takes temporaries only. -/
theorem steady_change {step : Frame → Session → Except Error α × Session}
    (h : ∀ {s a s'}, step f s = (.ok a, s') → s'.items = s.items ∧ s'.labels = s.labels ∧ s.tempPeak ≤ s'.tempPeak ∧
      s.mark ≤ s'.mark) : Steady f (change step) where
  grown hg := by
    obtain ⟨hi, hl, hp, -⟩ := h hg.change
    exact ⟨[], by simp [hi], hp, .of_placed_nil (by rw [hl]) rfl⟩
  below hg := (h hg.change).2.2.2

theorem scratch_eq_ok {k : Kind} {p : Purpose} {s s' : Session} {r : Reg} (h : s.scratch f k p = (.ok r, s')) :
    ∃ hr, f.regs.scratch[s.scratchUsed]? = some hr ∧ r = .hard k hr ∧
      s' = { s with scratchUsed := s.scratchUsed + 1 } := by
  unfold Session.scratch at h
  split at h
  · rename_i hr hget
    cases h
    exact ⟨hr, hget, rfl, rfl⟩
  · cases h

theorem stackTemp_eq_ok {k : Kind} {p : Purpose} {s s' : Session} {t : Expr} (h : s.stackTemp f k p = (.ok t, s')) :
    ∃ sp, f.regs.stackPointer = some sp ∧ s.slotOffset f < Session.slotLimit ∧
      t = .memAt k false (.ofBase sp (.ofNat 32 (s.slotOffset f))) ∧
      s' = { s with
        temps := s.temps + roundUp (max k.size 1) 8 / 8
        tempPeak := max s.tempPeak (s.temps + roundUp (max k.size 1) 8 / 8) } := by
  unfold Session.stackTemp at h
  split at h
  · cases h
  · rename_i sp hsp
    simp only [Prod.mk.injEq] at h
    obtain ⟨h, rfl⟩ := h
    split at h
    · rename_i hlt
      cases h
      exact ⟨sp, hsp, hlt, rfl, rfl⟩
    · cases h

theorem temp_eq_ok {k : Kind} {p : Purpose} {s s' : Session} {t : Expr} (h : s.temp f k p = (.ok t, s')) :
    (∃ r, s.scratch f k p = (.ok r, s') ∧ t = .reg r) ∨ s.stackTemp f k p = (.ok t, s') := by
  unfold Session.temp at h
  split at h
  · rcases hs : s.scratch f k p with ⟨_ | r, s₁⟩
    · rw [hs] at h
      cases h
    · rw [hs] at h
      cases h
      exact .inl ⟨r, rfl, rfl⟩
  · exact .inr h

instance (k : Kind) (p : Purpose) : Steady f (Lower.scratch k p) := steady_change fun h => by
  obtain ⟨_, -, -, rfl⟩ := scratch_eq_ok h
  exact ⟨rfl, rfl, le_rfl, Nat.le_succ _, le_rfl⟩

theorem stackTemp_below {k : Kind} {p : Purpose} {s s' : Session} {t : Expr} (h : s.stackTemp f k p = (.ok t, s')) :
    s'.items = s.items ∧ s'.labels = s.labels ∧ s.tempPeak ≤ s'.tempPeak ∧ s.mark ≤ s'.mark := by
  obtain ⟨_, -, -, -, rfl⟩ := stackTemp_eq_ok h
  exact ⟨rfl, rfl, le_max_left _ _, le_rfl, Nat.le_add_right _ _⟩

instance (k : Kind) (p : Purpose) : Steady f (Lower.stackTemp k p) := steady_change stackTemp_below

theorem temp_below {k : Kind} {p : Purpose} {s s' : Session} {t : Expr} (h : s.temp f k p = (.ok t, s')) :
    s'.items = s.items ∧ s'.labels = s.labels ∧ s.tempPeak ≤ s'.tempPeak ∧ s.mark ≤ s'.mark := by
  rcases temp_eq_ok h with ⟨r, hs, -⟩ | hs
  · obtain ⟨_, -, -, rfl⟩ := scratch_eq_ok hs
    exact ⟨rfl, rfl, le_rfl, Nat.le_succ _, le_rfl⟩
  · exact stackTemp_below hs

instance (k : Kind) (p : Purpose) : Steady f (Lower.temp k p) := steady_change temp_below

instance (r : Reg) : Steady f (Lower.resolve r) := inferInstanceAs (Steady f (read >>= fun g => liftM (g.resolve r)))

instance (r : HardReg) : Grows f (Lower.freeScratch r) where
  grown hg := by
    obtain ⟨g, s₁, hr, hm⟩ := hg.bind
    obtain ⟨rfl, rfl⟩ := hr.read
    obtain rfl := hm.modify
    unfold Session.freeScratch
    split
    · exact ⟨[], by simp, le_rfl, .of_placed_nil rfl rfl⟩
    · exact ⟨[], .refl _⟩

instance (m : Mark) : Grows f (modify (Session.release m) : Lower Unit) where
  grown hg := by
    obtain rfl := hg.modify
    exact ⟨[], Session.release_grown m _⟩

end Growth

end Lower

end JitBackend
