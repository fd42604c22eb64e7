import JitBackend.Proofs.Amd64.Operations
import JitBackend.Proofs.Amd64.Signs
import JitBackend.Proofs.Subexpressions

/-!
# Operands that are skipped

The code of a logical operation whose value is asked for computes both operands in one place, with a test in between: where
the left operand settles the operation, the run executes nothing of the code of the right one (`Skips`). Wherever such an
operation stands in an expression, its code is found in that of the whole (`Plain.spots_skipping`).
-/

namespace JitBackend.Amd64

open Lower

/-! ## What a run executes -/

/-- The expressions that a run executes. -/
def executed : List Expr → Status → List Expr
  | [], _ => []
  | e :: code, .at m => e :: executed code (step e (.at m))
  | e :: code, q => executed code (step e q)

/-- On its way to a label, a run executes nothing. -/
theorem executed_seek {l : Label} {m : Machine} : ∀ {code : List Expr}, l ∉ placed code → executed code (.seek l m) = []
  | [], _ => rfl
  | e :: code, h => by
    rw [← List.singleton_append, placed_append, List.mem_append, not_or] at h
    have hstep : step e (.seek l m) = .seek l m := exec_seek h.1
    rw [executed, hstep]
    · exact executed_seek h.2
    · simp

/-! ## Logical operations in the code -/

/-- The code that selection gives for a value in a place. -/
def ComputesInto (f : Frame) (p e : Expr) (code : List Expr) : Prop :=
  ∃ s s', Gives f (into p e none) s () s' ∧ s.Grown s' code

/-- The code of a logical operation: that of the left operand, a test, and that of the right operand, both for one place.
In a machine of `M`, the former leaves the value of the left operand there. Where this settles the operation, the run
executes nothing of the latter. -/
structure SkipsRight (f : Frame) (M : Machine → Prop) (val : Expr → Option Const) (op : LogicOp) (x y p : Expr)
    (done : Label) (left right : List Expr) : Prop where
  ofLeft : ComputesInto f p x left
  ofRight : ComputesInto f p y right
  skips : ∀ m c, M m → val x = some c → ∃ m₁, exec left (.at m) = .at m₁ ∧ m₁.Holds c p ∧
    if op.settledBy c then executed right (exec [logicTest p, logicJump op done] (.at m₁)) = []
    else ∃ m₂, exec [logicTest p, logicJump op done] (.at m₁) = .at m₂

/-- Such a piece of code is in the code. -/
def Skips (f : Frame) (M : Machine → Prop) (val : Expr → Option Const) (op : LogicOp) (x y : Expr) (code : List Expr) :
    Prop :=
  ∃ p done left right, SkipsRight f M val op x y p done left right ∧
    left ++ (logicTest p :: logicJump op done :: (right ++ [.label done])) <:+: code

section Skips

variable {f : Frame} {M : Machine → Prop} {val : Expr → Option Const} {op : LogicOp} {x y : Expr} {code code' : List Expr}

theorem Skips.mono (h : Skips f M val op x y code) (hc : code <:+: code') : Skips f M val op x y code' := by
  obtain ⟨p, done, left, right, hskips, hinfix⟩ := h
  exact ⟨p, done, left, right, hskips, hinfix.trans hc⟩

/-- Code between two sessions is in the code around it. -/
theorem infix_of_precedes {s s₁ s₂ s' : Session} (hle : s.Precedes s₁) (hcode : s₁.Grown s₂ code) (hle' : s₂.Precedes s')
    (h : s.Grown s' code') : code <:+: code' := by
  obtain ⟨pre, hpre⟩ := hle.items
  obtain ⟨post, hpost⟩ := hle'.items
  have hitems : s.items.toList ++ code'.map Item.instr = s.items.toList ++ (pre ++ code.map .instr ++ post) := by
    rw [← h.items, ← hpost, hcode.items, ← hpre]
    simp only [List.append_assoc]
  obtain ⟨a, b, rfl, ha, hb⟩ := List.map_eq_append_iff.1 (List.append_cancel_left hitems)
  obtain ⟨c, d, rfl, hc, hd⟩ := List.map_eq_append_iff.1 ha
  obtain rfl : d = code := List.map_injective_iff.2 (fun _ _ h => Item.instr.inj h) hd
  exact ⟨c, b, rfl⟩

end Skips

/-- The search for the code of a logical operation. -/
def skipping (A : Activation) (V : View A) (σ : Store) (op : LogicOp) (k : Kind) (x y : Expr) : Search A.frame where
  Seen s s' := s'.tempPeak ≤ A.limit → ∃ s₁ s₂ code, s.Precedes s₁ ∧ s₁.Grown s₂ code ∧ s₂.Precedes s' ∧
    Skips A.frame (V.Shows σ) (·.eval V.readable σ) op x y code
  In e := e.Has (· = .binary (.logic op) k x y)
  Ready k p s := k.isScalar = true → s.tempPeak ≤ A.limit → p.kind = k ∧
    ∃ μ, ∃ T ⊆ A.free μ, ∀ m, m.regs rsp = A.sp → Dest A s.mark m p T
  widen hle h hle' hpeak := by
    obtain ⟨s₁, s₂, code, h₁, hcode, h₂, hskips⟩ := h (hle'.peak.trans hpeak)
    exact ⟨s₁, s₂, code, hle.trans h₁, hcode, h₂.trans hle', hskips⟩
  leaf hleaf h := by
    rcases Expr.has_iff.1 h with rfl | ⟨c, hc, -⟩
    · cases hleaf
    · rw [hleaf] at hc
      cases hc
  temp hg hk hpeak := ⟨(dest_temp hk hg hpeak).1, _, (dest_temp hk hg hpeak).2⟩
  keep hmark hle h hk hpeak := by
    obtain ⟨hpk, μ, T, hT, hdest⟩ := h hk (hle.trans hpeak)
    exact ⟨hpk, μ, T, hT, fun m hm => (hdest m hm).mono hmark⟩

section Search

variable {A : Activation} {V : View A} {σ : Store} {op : LogicOp} {k : Kind} {x y e : Expr}

/-- The operation itself is found where it is computed. -/
theorem leaves_skipping (hkx : x.kind = .bool) (hx : Plain A.frame x) (hcov : V.Covers x) (p : Expr) :
    Leaves A.frame (skipping A V σ op k x y).toSign (fun s => True ∧ (skipping A V σ op k x y).Ready .bool p s)
      (logicAt op p (fun p => into p x none) (fun p => into p y none)) := by
  intro s u s' hg
  obtain ⟨s₁, s₂, hgl, hgr, rfl⟩ := logicAt_gives hg
  obtain ⟨left, hleft⟩ := Grows.grown hgl
  obtain ⟨right, hright⟩ := Grows.grown hgr
  have hgrown := grown_logic hleft hright
  refine ⟨hgrown.precedes, fun hready hpeak => ⟨s, _, _, .refl s, hgrown, .refl _, ?_⟩⟩
  obtain ⟨hpk, μ, T, hT, hdest⟩ := hready.2 rfl (hgrown.peak.trans hpeak)
  refine ⟨p, ⟨s.labels.size⟩, left, right, ⟨⟨_, _, hgl, hleft⟩, ⟨_, _, hgr, hright⟩, ?_⟩, List.infix_rfl⟩
  intro m c hm hc
  have hd := hdest m hm.sp
  have hin : x.inPlace V.readable (fun _ => σ) none σ = some c := by
    rw [Expr.inPlace_of_eq V.readable (fun _ => rfl)]
    exact hc
  have hdoes : Does A (into p x none) s.mark m fun _ _ m₁ => m₁.Holds c p :=
    hx.selects.into (Sink.temp hT) hd hm (hpk.trans hkx.symm) hcov (by rintro z v ⟨⟩) hin fun _ _ _ _ hh => hh
  obtain ⟨m₁, hexec, hh⟩ := hdoes.run hgl rfl (hright.peak.trans hpeak) hleft
  refine ⟨m₁, hexec, hh, ?_⟩
  obtain ⟨hck, hcc⟩ := hx.eval_kind hc
  rw [eq_bool_of_canonical (hck.trans hkx) hcc] at hh ⊢
  obtain ⟨fl, htest⟩ := exec_logicTest op ⟨s.labels.size⟩ hh hd.occupies.isConst
  rw [htest]
  split
  · exact executed_seek (not_placed_right hleft hright)
  · exact ⟨_, rfl⟩

/-- A temporary is not read by what is computed next to it. -/
theorem refuge_skipping {dst z : Expr} {s s' : Session} {chain : List (Mark × Expr)} (hz : Plain A.frame z)
    (hhaz : hazard A.frame z dst = .ok true) (hg : Gives A.frame (change fun f => refuge f z dst) s chain s')
    (h : (skipping A V σ op k x y).Ready .bool dst s) :
    (skipping A V σ op k x y).Ready .bool ((chain.getLast?.map (·.2)).getD dst) s' := by
  intro hk hpeak
  obtain ⟨-, μ, T, hT, hdest⟩ := h hk ((refuge_below hg.change).1.2.2.1.trans hpeak)
  have hd := hdest ⟨fun _ => A.sp, fun _ => 0, none⟩ rfl
  rw [hazard_temp hz rfl hd hT] at hhaz
  cases hhaz

/-- A logical operation is found wherever it stands in a plain expression. -/
theorem Plain.spots_skipping (h : Plain A.frame e) (hcov : V.Covers e) (σ : Store) (op : LogicOp) (k : Kind) (x y : Expr) :
    Spots (skipping A V σ op k x y) e := by
  -- what stands in an operation of another kind stands in an operand
  have hunary : ∀ {o g a}, (Expr.unary o g a).Has (· = .binary (.logic op) k x y) → a.Has (· = .binary (.logic op) k x y) :=
    fun h => (Expr.has_unary.1 h).resolve_left (by simp)
  have hbinary : ∀ {o g a b}, (Expr.binary o g a b).Has (· = .binary (.logic op) k x y) →
      Expr.binary o g a b ≠ .binary (.logic op) k x y →
      a.Has (· = .binary (.logic op) k x y) ∨ b.Has (· = .binary (.logic op) k x y) := fun h hne =>
    (Expr.has_binary.1 h).resolve_left hne
  induction h with
  | const | reg => exact spots_of_leaf rfl
  | mem ro hk hp ha ih =>
    exact spots_mem (fun h => (Expr.has_mem.1 h).resolve_left (by simp)) hp (ih hcov)
  | neg hk hx ih =>
    exact spots_unary (fun dst origin => (leaves_into_word (.inl rfl) hk (ih hcov)).mono fun h => ⟨hunary h.part, h.ready⟩)
      (by simp)
  | inv hk hx ih =>
    exact spots_unary (fun dst origin => (leaves_into_word (.inr rfl) hk (ih hcov)).mono fun h => ⟨hunary h.part, h.ready⟩)
      (by simp)
  | lnot hk hx ih =>
    exact spots_unary (fun dst origin => (leaves_into_lnot (ih hcov)).mono fun h => ⟨hunary h.part, hk ▸ h.ready⟩) (by simp)
  | cast hk hx ih =>
    refine spots_unary (fun dst origin => ?_) fun _ _ hkeeps t => ?_
    · refine (finds_into_cast ?_ (ih hcov)).mono fun h => hunary h.part
      rw [hx.isScalar, Kind.isScalar_of_isWord hk]
      rfl
    · simp only [keepsWord, Bool.and_eq_true] at hkeeps
      exact ((ih hcov).term t hkeeps.1.2).mono hunary
  | arith ha hb hx hy ihx ihy =>
    have hsx := ihx fun r hr => hcov r (List.mem_append_left _ hr)
    have hsy := ihy fun r hr => hcov r (List.mem_append_right _ hr)
    have hk := isWord_of_admits hx.isScalar ha
    refine spots_binary (fun dst origin => ?_) ?_ ?_
    · exact (leaves_into_arith ha hk hsx hsy).mono fun h => ⟨⟨hbinary h.part (by simp), h.other⟩, h.ready⟩
    · rintro a ⟨⟩ _ t shape hshape
      exact (finds_addNode ⟨_, hshape⟩ ha hk hsx hsy).mono fun h => hbinary h (by simp)
    · intro _
      exact (leaves_testBits hsx.value hsy.value).mono fun h => hbinary h (by simp)
  | compare o hk hx hy ihx ihy =>
    have hsx := ihx fun r hr => hcov r (List.mem_append_left _ hr)
    have hsy := ihy fun r hr => hcov r (List.mem_append_right _ hr)
    refine spots_binary (fun dst origin => ?_) (by simp) (by simp)
    exact (finds_into_compare hx.isScalar hsx hsy).mono fun h => hbinary h.part (by simp)
  | @logic o a b hka hkb ha hb iha ihb =>
    have hca : V.Covers a := fun r hr => hcov r (List.mem_append_left _ hr)
    have hsa := iha hca
    have hsb := ihb fun r hr => hcov r (List.mem_append_right _ hr)
    refine spots_binary (fun dst origin => ?_) (by simp) (by simp)
    by_cases hself : Expr.binary (.logic o) .bool a b = .binary (.logic op) k x y
    · cases hself
      rw [into]
      exact (leaves_logicInto (leaves_skipping hka ha hca) (refuge_skipping hb)).mono fun h => ⟨trivial, h.ready⟩
    · refine (leaves_into_logic hka hkb hsa hsb (fun {p s u s'} hg h => ?_) (refuge_skipping hb)).mono fun h =>
        ⟨hbinary h.part hself, h.ready⟩
      have := (ha.tidy A.regs_eq).into p none
      exact (skipping A V σ op k x y).keep (Steady.below hg) (Grows.grown hg).choose_spec.peak h

/-- What is found is in the code. -/
theorem skips_of_finds {α : Type} {act : Lower α} {a : α} {s s' : Session} {code : List Expr} {B : Prop}
    (h : (skipping A V σ op k x y).Finds B act) (hB : B) (hg : Gives A.frame act s a s') (hgr : s.Grown s' code)
    (hpeak : s'.tempPeak ≤ A.limit) : Skips A.frame (V.Shows σ) (·.eval V.readable σ) op x y code := by
  obtain ⟨s₁, s₂, block, hle, hblock, hle', hskips⟩ := (h hg).2 hB hpeak
  exact hskips.mono (infix_of_precedes hle hblock hle' hgr)

end Search

end JitBackend.Amd64
