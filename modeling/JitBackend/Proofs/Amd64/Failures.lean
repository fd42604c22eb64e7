import JitBackend.Proofs.Amd64.Bodies
import JitBackend.Proofs.Compilation

/-!
# Failures of selection

Selection may fail: an expression may have no instruction for it, or need more temporaries than there are. It does not fail
because an address has no form (`address_fits`), and if it fails because a register has no place, then the register is one of
the source that the allocation leaves out. `avoiding` is the law that says so, and `lower_avoids` the fact for functions.
-/

namespace JitBackend.Amd64

open Lower

/-- No failure of an address, and none of a register but for the missing ones. -/
structure Benign (Missing : Nat → Prop) (err : Error) : Prop where
  address : err.isAddressOverflow = false
  missing : ∀ id, err = .unallocatedRegister id → Missing id

theorem Benign.other {Missing : Nat → Prop} {err : Error} (ha : err.isAddressOverflow = false)
    (hu : err.isUnplaced = false) : Benign Missing err := by
  refine ⟨ha, ?_⟩
  rintro id rfl
  cases hu

/-- The soft registers of the expression that have no place are among the missing ones. -/
def Homed (f : Frame) (Missing : Nat → Prop) (e : Expr) : Prop :=
  ∀ r ∈ e.regs, ∀ id, r.id = .soft id → f.alloc.get? id = none → Missing id

section Places

variable {f : Frame} {Missing : Nat → Prop} {dst e : Expr}

theorem Homed.of_subset {x : Expr} (h : Homed f Missing e) (hsub : x.regs ⊆ e.regs) : Homed f Missing x :=
  fun r hr => h r (hsub hr)

theorem regs_subset_regsL {es : List Expr} (h : e ∈ es) : e.regs ⊆ Expr.regsL es := by
  induction es with
  | nil => cases h
  | cons x es ih =>
    rw [Expr.regsL]
    rcases List.mem_cons.1 h with rfl | h
    · exact List.subset_append_left _ _
    · exact fun r hr => List.mem_append_right _ (ih h hr)

theorem clean_resolve {r : Reg} (h : ∀ id, r.id = .soft id → f.alloc.get? id = none → Missing id) :
    Clean (Benign Missing) (f.resolve r) := by
  unfold Frame.resolve Allocation.get
  cases hid : r.id with
  | hard g => exact .ok _
  | soft id =>
    dsimp only
    cases hloc : f.alloc.get? id with
    | none =>
      refine .error ⟨rfl, ?_⟩
      rintro _ ⟨⟩
      exact h id hid hloc
    | some loc => cases loc <;> exact .ok _

mutual
theorem clean_reads : ∀ e : Expr, Homed f Missing e → Clean (Benign Missing) (reads f dst e)
  | .reg r, h => by
    rw [reads]
    refine (clean_resolve (h r (by simp [Expr.regs]))).bind fun p => ?_
    split <;> exact .ok _
  | .memAt .., _ | .const _, _ | .label _, _ => by
    rw [reads]
    exact .ok _
  | .mem _ _ a, h => by
    rw [reads]
    exact clean_reads a h
  | .unary _ _ x, h => by
    rw [reads]
    exact clean_reads x h
  | .binary _ _ x y, h => by
    rw [reads]
    refine (clean_reads x fun r hr => h r (List.mem_append_left _ hr)).bind fun b => ?_
    split
    · exact .ok _
    · exact clean_reads y fun r hr => h r (List.mem_append_right _ hr)
  | .ret vs, h => by
    rw [reads]
    exact clean_readsL vs fun e he => Homed.of_subset (e := .ret vs) h (regs_subset_regsL he)
  | .call l n sig as, h => by
    rw [reads]
    exact clean_readsL as fun e he => Homed.of_subset (e := .call l n sig as) h (regs_subset_regsL he)
theorem clean_readsL : ∀ es : List Expr, (∀ e ∈ es, Homed f Missing e) → Clean (Benign Missing) (readsL f dst es)
  | [], _ => by
    rw [readsL]
    exact .ok _
  | e :: es, h => by
    rw [readsL]
    obtain ⟨he, hes⟩ := List.forall_mem_cons.1 h
    exact (clean_reads e he).bind fun _ => (clean_readsL es hes).bind fun _ => .ok _
end

end Places

/-! ## Temporaries -/

section Temporaries

variable {f : Frame} {Missing : Nat → Prop}

theorem clean_scratch (k : Kind) (p : Purpose) (s : Session) : Clean (Benign Missing) (s.scratch f k p).1 := by
  unfold Session.scratch
  split
  · exact .ok _
  · exact .error (.other rfl rfl)

theorem clean_stackTemp (k : Kind) (p : Purpose) (s : Session) : Clean (Benign Missing) (s.stackTemp f k p).1 := by
  unfold Session.stackTemp
  split
  · exact .error (.other rfl rfl)
  · dsimp only
    split
    · exact .ok _
    · exact .error (.other rfl rfl)

theorem clean_temp (k : Kind) (p : Purpose) (s : Session) : Clean (Benign Missing) (s.temp f k p).1 := by
  unfold Session.temp
  split
  · cases h : (s.scratch f k p).1 with
    | error e => exact .error (clean_scratch k p s e h)
    | ok r => exact .ok _
  · exact clean_stackTemp k p s

theorem clean_refuge {e : Expr} (he : Homed f Missing e) (dst : Expr) (s : Session) :
    Clean (Benign Missing) (refuge f e dst s).1 := by
  induction dst, s using refuge.induct f e with
  | case1 dst s err hh =>
    rw [refuge, hh]
    exact .error ((clean_reads e he).hazard err hh)
  | case2 dst s hh =>
    rw [refuge, hh]
    exact .ok _
  | case3 dst s hh err s₁ ht =>
    have htemp := @clean_temp f Missing .bool (.note "logical operand") s
    rw [refuge, hh]
    dsimp only
    split
    · rename_i err' _ ht'
      rw [ht'] at htemp
      exact .error (htemp err' rfl)
    · rename_i ht'
      cases ht.symm.trans ht'
  | case4 dst s hh t s₁ ht hlt rest' s₂' hr' ih =>
    rw [refuge, hh]
    dsimp only
    split
    · rename_i ht'
      cases ht.symm.trans ht'
    · rename_i t' s₁' ht'
      cases ht.symm.trans ht'
      cases hr : (refuge f e t s₁).1 with
      | error err => exact .error (ih err hr)
      | ok rest => exact .ok _

end Temporaries

/-! ## The law -/

/-- Where the computation fails, it is with a benign failure, and its results satisfy `Q`. -/
def Avoids {α : Type} (f : Frame) (Missing : Nat → Prop) (act : Lower α) (Q : α → Prop) : Prop :=
  ∀ s log, Clean (Benign Missing) (act f s log).1.1 ∧ ∀ a, (act f s log).1.1 = .ok a → Q a

section Avoids

variable {α β : Type} {f : Frame} {Missing : Nat → Prop}

theorem Avoids.bind {act : Lower α} {k : α → Lower β} {P : α → Prop} {Q : β → Prop} (h : Avoids f Missing act P)
    (hk : ∀ a, P a → Avoids f Missing (k a) Q) : Avoids f Missing (act >>= k) Q := by
  intro s log
  obtain ⟨hclean, hok⟩ := h s log
  rcases hact : act f s log with ⟨⟨r, s₁⟩, log₁⟩
  rw [hact] at hclean hok
  simp only [Bind.bind, ReaderT.bind, ExceptT.bind, ExceptT.mk, StateT.bind, hact, ExceptT.bindCont]
  cases r with
  | error e => exact ⟨.error (hclean e rfl), by rintro _ ⟨⟩⟩
  | ok a => exact hk a (hok a rfl) s₁ log₁

/-- A computation whose result does not depend on what it does to the session. -/
theorem Avoids.of_eq {act : Lower α} {Q : α → Prop} (r : Session → Except Error α)
    (h : ∀ s log, (act f s log).1.1 = r s) (hclean : ∀ s, Clean (Benign Missing) (r s)) (hok : ∀ s a, r s = .ok a → Q a) :
    Avoids f Missing act Q :=
  fun s log => ⟨by rw [h]; exact hclean s, fun a ha => hok s a (by rw [← h s log]; exact ha)⟩

theorem avoids_emit (e : Expr) : Avoids f Missing (Lower.emit e) fun _ => True :=
  .of_eq (fun _ => .ok ()) (fun _ _ => rfl) (fun _ => .ok _) fun _ _ _ => trivial

/-- A change of the session that succeeds or fails in a benign way. -/
theorem avoids_change {step : Frame → Session → Except Error α × Session} {Q : α → Prop}
    (h : ∀ s, Clean (Benign Missing) (step f s).1) (hq : ∀ s a s', step f s = (.ok a, s') → Q a) :
    Avoids f Missing (change step) Q :=
  .of_eq _ (fun _ _ => rfl) h fun s a ha => hq s a (step f s).2 (by rw [← ha])

theorem avoids_newLabel : Avoids f Missing newLabel fun _ => True :=
  .of_eq (fun s => .ok ⟨s.labels.size⟩) (fun _ _ => rfl) (fun _ => .ok _) fun _ _ _ => trivial

/-- The rules for computations that fail in benign ways only. -/
def avoidingRules (f : Frame) (Missing : Nat → Prop) : Rules f where
  Holds := Avoids f Missing
  Allowed := Benign Missing
  mono h hPQ s log := ⟨(h s log).1, fun a ha => hPQ a ((h s log).2 a ha)⟩
  bind h _ hk := h.bind hk
  lift {α x} hx := by
    refine .of_eq (fun _ => x) (fun s log => ?_) (fun _ => hx) fun _ _ h => h
    cases x <;> rfl
  read := .of_eq (fun _ => .ok f) (fun _ _ => rfl) (fun _ => .ok _) fun _ _ h => (Except.ok.inj h).symm
  get := .of_eq .ok (fun _ _ => rfl) (fun _ => .ok _) fun _ _ _ => trivial
  note e := .of_eq (fun _ => .ok ()) (fun _ _ => rfl) (fun _ => .ok _) fun _ _ _ => trivial
  releasing h s log := h s log

theorem avoids_emitFrame (op : Op) : Avoids f Missing (emitFrame op) fun _ => True := by
  unfold emitFrame
  refine (avoidingRules f Missing).read.bind fun g _ => ?_
  split
  · exact Rules.throw (R := avoidingRules f Missing) (.other rfl rfl)
  · refine ((avoidingRules f Missing).note _).bind fun _ _ => ?_
    exact .of_eq (fun _ => .ok ()) (fun _ _ => rfl) (fun _ => .ok _) fun _ _ _ => trivial

theorem avoids_stack (op : UnaryOp) (rs : List HardReg) :
    Avoids f Missing (rs.forM fun r => Lower.emit (.unary op .int64 (fixed .int64 r))) fun _ => True :=
  Rules.forM (R := avoidingRules f Missing) (fun _ => inferInstance) fun _ _ => avoids_emit _

theorem avoids_enter : Avoids f Missing enter fun _ => True :=
  (avoidingRules f Missing).read.bind fun g _ => (avoids_stack .push g.saved).bind fun _ _ => avoids_emitFrame _

theorem avoids_leave : Avoids f Missing leave fun _ => True :=
  (avoids_emitFrame _).bind fun _ _ => (avoidingRules f Missing).read.bind fun g _ =>
    (avoids_stack .pop g.saved.reverse).bind fun _ _ => avoids_emit _

/-- Selection fails in benign ways only. -/
def avoiding (f : Frame) (Missing : Nat → Prop) : BodyLaw f where
  toRules := avoidingRules f Missing
  Good := Homed f Missing
  Target _ := True
  Place _ := True
  Fits _ _ := True
  Src _ := True
  Hard _ := True
  Lab _ := True
  Marked _ := True
  other := .other
  good_reads _ := clean_reads _
  scratch k p := .of_eq (fun s => (s.scratch f k p).1) (fun _ _ => rfl) (clean_scratch k p) fun s r hr => by
    rcases hs : s.scratch f k p with ⟨r', s'⟩
    rw [hs] at hr
    subst hr
    obtain ⟨h, -, rfl, -⟩ := scratch_eq_ok hs
    exact ⟨trivial, h, rfl, trivial⟩
  temp k p := avoids_change (clean_temp k p) fun _ _ _ ht =>
    .of_temp ht (fun _ _ => ⟨trivial, trivial⟩) fun _ => trivial
  refuge dst he := avoids_change (clean_refuge he dst) fun _ _ _ h c hc => by
    obtain ⟨_, _, _, -, -, ht, -⟩ := (refuge_below h).2 c hc
    exact ⟨trivial, trivial, (temp_operand ht).1⟩
  release _ := .of_eq (fun _ => .ok ()) (fun _ _ => rfl) (fun _ => .ok _) fun _ _ _ => trivial
  freeScratch _ := .of_eq (fun _ => .ok ()) (fun _ _ => rfl) (fun _ => .ok _) fun _ _ _ => trivial
  emit _ := avoids_emit _
  labelled _ h := avoids_newLabel.bind fun l _ => (h l trivial).bind fun _ _ => avoids_emit _
  call _ := Rules.emitCall (S := fun _ => True) (fun k p => avoids_change (clean_stackTemp k p) fun _ _ _ _ => trivial)
    (fun _ _ _ => avoids_emit _) (fun _ _ _ _ => avoids_emit _) (avoids_emit _)
  place_src _ := trivial
  place_fixed _ := trivial
  place_scratch _ _ := trivial
  src_const _ := trivial
  src_reg _ := trivial
  src_memAt _ _ _ := trivial
  src_unary _ := trivial
  fits_kind := trivial
  fits_unary _ _ _ := trivial
  fits_lnot _ _ := trivial
  fits_arith _ _ := trivial
  fits_compare _ _ := trivial
  fits_logic _ _ := ⟨trivial, trivial⟩
  fits_assign _ _ := trivial
  good_src _ := trivial
  good_mem h := h
  good_unary h := h
  good_left h := h.of_subset (List.subset_append_left _ _)
  good_right h := h.of_subset (List.subset_append_right _ _)
  good_reg _ _ := ⟨trivial, fun _ _ _ _ => trivial⟩
  good_assign _ := trivial
  good_compound _ := trivial
  target_reg _ _ := trivial
  target_mem _ _ := trivial
  target_memAt _ := trivial
  step _ _ _ := avoids_emit _
  source _ _ := avoids_emit _
  leave := avoids_leave
  marked _ := trivial
  good_ret h v hv := h.of_subset (regs_subset_regsL hv)
  good_jump _ := trivial
  good_step _ _ := ⟨trivial, fun _ => trivial⟩

/-- Synthesis does not fail because the displacement or the scale of an address does not fit. -/
theorem address_fits (f : Frame) (e : Expr) (s : Session) (log : Log) {err : Error}
    (h : (address e f s log).1.1 = .error err) : err.isAddressOverflow = false := by
  have hgood : (avoiding f fun _ => True).Good e := fun _ _ _ _ _ => trivial
  exact ((Law.address (Law.selects e hgood) s log).1 err h).address

/-- Lowering fails in benign ways only. -/
theorem lower_avoids {registry : Registry} (hreg : registry.get .amd64 = .ok target) {flat : Flat} {alloc : Allocation}
    (hcode : ∀ e ∈ flat.code.toList, Homed ⟨regFile, alloc, flat.makesCalls⟩ Missing e) (width : Width) (log : Log) :
    Clean (Benign Missing) (flat.lower registry width .amd64 alloc log).1 := by
  by_cases hw : width = .w64
  · subst hw
    rw [Flat.lower_fst hreg]
    dsimp only
    have henter := @avoids_enter ⟨regFile, alloc, flat.makesCalls⟩ Missing { labels := flat.func.labels } log
    split
    · rename_i e he
      exact .error (henter.1 e he)
    · split
      · rename_i e he
        exact .error ((BodyLaw.selectBody (L := avoiding _ Missing) hcode _ _).1 e he)
      · exact .ok _
  · have herr : (flat.lower registry width .amd64 alloc log).1 = .error (.widthMismatch target.name target.width width) := by
      have hne : target.width ≠ width := fun h => hw h.symm
      simp only [Flat.lower, Flat.lowerWith, hreg, if_pos hne]
      rfl
    rw [herr]
    exact .error (.other rfl rfl)

end Avoids

end JitBackend.Amd64
