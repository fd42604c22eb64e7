import JitBackend.Proofs.Amd64.Growth
import JitBackend.Proofs.Amd64.Machine
import JitBackend.Proofs.Amd64.Plain

/-!
# Temporaries of selected expressions

Selection of a plain expression keeps every temporary that was in use before it (`Plain.tidy`), and a register that it
returns is one of those that selection leaves alone or a scratch register taken since (`Owned`). That an address gives
back scratch registers of its own terms only is what the induction has to carry.
-/

namespace JitBackend.Amd64

open Lower

/-! ## Registers of one's own -/

/-- The register is one that selection leaves alone, or a scratch register taken between two marks. -/
def Owned (μ : Mark) (r : HardReg) (ν : Mark) : Prop :=
  r ∈ homes ∨ ∃ i, scratch[i]? = some r ∧ μ.scratch ≤ i ∧ i < ν.scratch

theorem Owned.mono {μ μ' ν ν' : Mark} {r : HardReg} (h : Owned μ r ν) (hμ : μ' ≤ μ) (hν : ν ≤ ν') : Owned μ' r ν' := by
  rcases h with h | ⟨i, hi, hle, hlt⟩
  · exact .inl h
  · exact .inr ⟨i, hi, hμ.1.trans hle, hlt.trans_le hν.1⟩

theorem scratch_inj {i j : Nat} {r : HardReg} (hi : scratch[i]? = some r) (hj : scratch[j]? = some r) : i = j := by
  obtain ⟨hi', rfl⟩ := List.getElem?_eq_some_iff.1 hi
  obtain ⟨hj', he⟩ := List.getElem?_eq_some_iff.1 hj
  exact ((List.Nodup.getElem_inj_iff (by decide)).1 he).symm

theorem not_mem_homes {i : Nat} {r : HardReg} (hi : scratch[i]? = some r) : r ∉ homes := by
  have hr : r ∈ scratch := List.mem_of_getElem? hi
  have hall : ∀ r ∈ scratch, r ∉ homes := by decide
  exact hall r hr

/-- The registers of the terms. -/
def Terms.regs (t : Terms) : List HardReg := t.base.toList ++ (t.index.map (·.1)).toList

/-- The registers of the terms are owned since a mark, which is still in use. -/
def Terms.Owned (μ : Mark) (t : Terms) (ν : Mark) : Prop := μ ≤ ν ∧ ∀ r ∈ t.regs, Amd64.Owned μ r ν

theorem Terms.Owned.mono {μ ν ν' : Mark} {t : Terms} (h : t.Owned μ ν) (hν : ν ≤ ν') : t.Owned μ ν' :=
  ⟨h.1.trans hν, fun r hr => (h.2 r hr).mono le_rfl hν⟩

theorem Terms.owned_empty (μ : Mark) (narrow : Bool) (disp : Word) :
    ({ disp := disp, narrow := narrow } : Terms).Owned μ μ := ⟨le_rfl, by simp [Terms.regs]⟩

section Sessions

variable {f : Frame} {s s' : Session}

theorem Gives.mark_emit {e : Expr} {u : Unit} (h : Gives f (emit e) s u s') : s'.mark = s.mark := by
  obtain rfl := h.emit
  rfl

theorem Gives.scratch {k : Kind} {p : Purpose} {r : Reg} (hf : f.regs = regFile) (h : Gives f (Lower.scratch k p) s r s') :
    ∃ h, scratch[s.mark.scratch]? = some h ∧ r = .hard k h ∧ s'.mark = { s.mark with scratch := s.mark.scratch + 1 } := by
  obtain ⟨hr, hget, rfl, rfl⟩ := scratch_eq_ok h.change
  rw [hf] at hget
  exact ⟨hr, hget, rfl, rfl⟩

/-- The target of a sum is a scratch register of one's own. -/
theorem Terms.owned_foldTarget {t : Terms} {μ : Mark} {r : HardReg} (hf : f.regs = regFile)
    (h : Gives f t.foldTarget s r s') (ho : t.Owned μ s.mark) :
    s.mark ≤ s'.mark ∧ ∃ i, Amd64.scratch[i]? = some r ∧ μ.scratch ≤ i ∧ i < s'.mark.scratch := by
  unfold Terms.foldTarget at h
  obtain ⟨g, s₁, hread, hk⟩ := h.bind
  obtain ⟨rfl, rfl⟩ := hread.read
  dsimp only at hk
  split at hk
  · rename_i r' hr'
    obtain ⟨rfl, rfl⟩ := hk.pure
    have hmem : r ∈ t.regs ∧ r ∈ Amd64.scratch := by
      rw [hf] at hr'
      rcases Option.or_eq_some_iff.1 hr' with hb | ⟨-, hi⟩
      · obtain ⟨hb, hp⟩ := Option.filter_eq_some_iff.1 hb
        exact ⟨by simp [Terms.regs, hb], by simpa [regFile] using hp⟩
      · obtain ⟨hi, hp⟩ := Option.filter_eq_some_iff.1 hi
        exact ⟨by simp [Terms.regs, hi], by simpa [regFile] using hp⟩
    refine ⟨le_rfl, ?_⟩
    rcases ho.2 r hmem.1 with ha | hi
    · obtain ⟨i, hi⟩ := List.mem_iff_getElem?.1 hmem.2
      exact absurd ha (not_mem_homes hi)
    · exact hi
  · obtain ⟨q, s₂, hs, hp⟩ := hk.bind
    obtain ⟨r', hr', rfl, hm⟩ := Gives.scratch hf hs
    obtain ⟨rfl, rfl⟩ := hp.pure
    rw [hm]
    exact ⟨⟨Nat.le_succ _, le_rfl⟩, _, hr', ho.1.1, Nat.lt_succ_self _⟩

theorem Terms.fold_owned {t t' : Terms} {μ : Mark} (hf : f.regs = regFile) (h : Gives f t.fold s t' s')
    (ho : t.Owned μ s.mark) : t'.Owned μ s'.mark ∧ t'.index = none := by
  unfold Terms.fold at h
  obtain ⟨mode, s₁, hmode, h₁⟩ := h.bind
  obtain ⟨-, rfl⟩ := hmode.lift
  obtain ⟨r, s₂, htarget, h₂⟩ := h₁.bind
  obtain ⟨u, s₃, hemit, h₃⟩ := h₂.bind
  obtain ⟨u', s₄, hfree, h₄⟩ := h₃.bind
  obtain ⟨rfl, rfl⟩ := h₄.pure
  obtain ⟨hle, i, hi, hμi, hlt⟩ := t.owned_foldTarget hf htarget ho
  have hmark : s₃.mark = s₂.mark := Gives.mark_emit hemit
  -- what is given back is the index register, if it was taken last and is not the target
  have hafter : μ ≤ s'.mark ∧ i < s'.mark.scratch := by
    have hkept : μ ≤ s₃.mark ∧ i < s₃.mark.scratch := by rw [hmark]; exact ⟨ho.1.trans hle, hlt⟩
    cases hx : (t.index.map (·.1)).filter (· ≠ r) with
    | none =>
      rw [hx] at hfree
      obtain ⟨-, rfl⟩ := Gives.pure hfree
      exact hkept
    | some x =>
      rw [hx] at hfree
      obtain ⟨hidx, hne⟩ := Option.filter_eq_some_iff.1 hx
      obtain ⟨g, s₅, hread, hmod⟩ := Gives.bind hfree
      obtain ⟨rfl, rfl⟩ := hread.read
      obtain rfl := hmod.modify
      unfold Session.freeScratch
      split
      · rename_i hlast
        rw [hf] at hlast
        have hown : Amd64.Owned μ x s₁.mark := ho.2 x (by simp [Terms.regs, hidx])
        have hi' : i ≠ s₅.scratchUsed - 1 := by
          rintro rfl
          have hx' := Option.some.inj (hi.symm.trans hlast.2)
          simp [hx'] at hne
        have hμ : μ.scratch ≤ s₅.scratchUsed - 1 := by
          rcases hown with ha | ⟨j, hj, hμj, -⟩
          · exact absurd ha (not_mem_homes hlast.2)
          · rw [scratch_inj hj hlast.2] at hμj
            exact hμj
        have hlt' : i < s₅.scratchUsed := hkept.2
        exact ⟨⟨hμ, hkept.1.2⟩, by show i < s₅.scratchUsed - 1; omega⟩
      · exact hkept
  refine ⟨⟨hafter.1, ?_⟩, rfl⟩
  intro x hx
  have hx : x = r := by simpa [Terms.regs] using hx
  subst hx
  exact .inr ⟨i, hi, hμi, hafter.2⟩

theorem Terms.makeRoom_owned {t t' : Terms} {μ : Mark} (hf : f.regs = regFile) (h : Gives f t.makeRoom s t' s')
    (ho : t.Owned μ s.mark) : t'.Owned μ s'.mark ∧ (t'.index = none ∨ t'.base = none) := by
  unfold Terms.makeRoom at h
  split at h
  · obtain ⟨ho', hi⟩ := t.fold_owned hf h ho
    exact ⟨ho', .inl hi⟩
  · rename_i hfree
    obtain ⟨rfl, rfl⟩ := h.pure
    refine ⟨ho, ?_⟩
    cases hb : t'.base <;> cases hi : t'.index <;> simp_all

/-- The terms with a register in a slot. -/
def Terms.put (t : Terms) (r : HardReg) (c : Scale) : Terms :=
  if c = .one ∧ t.base = none then { t with base := some r } else { t with index := some (r, c) }

theorem Terms.place_eq {t : Terms} {r : HardReg} {c : Scale} (h : t.index = none ∨ c = .one ∧ t.base = none) :
    t.place r c = pure (t.put r c) := by
  unfold Terms.place Terms.put
  split
  · rfl
  · rename_i hno
    rw [if_pos (h.resolve_right hno)]

theorem Terms.Owned.put {t : Terms} {μ ν : Mark} (ho : t.Owned μ ν) {r : HardReg} (hr : Amd64.Owned μ r ν) (c : Scale) :
    (t.put r c).Owned μ ν := by
  refine ⟨ho.1, ?_⟩
  intro x hx
  have hx : x = r ∨ x ∈ t.regs := by
    unfold Terms.put at hx
    split at hx
    · simp only [Terms.regs, Option.toList_some, List.cons_append, List.nil_append, List.mem_cons, List.mem_append] at hx ⊢
      tauto
    · simp only [Terms.regs, Option.map_some, Option.toList_some, List.mem_cons, List.mem_append, List.not_mem_nil] at hx ⊢
      tauto
  rcases hx with rfl | hx
  · exact hr
  · exact ho.2 x hx

/-- The operand is no register, or a register of one's own. -/
def OwnedOperand (μ : Mark) (v : Expr) (ν : Mark) : Prop := ∀ r, v = .reg r → ∃ h, r.id = .hard h ∧ Owned μ h ν

theorem toHard_owned {v : Expr} {r : HardReg} {μ : Mark} (hf : f.regs = regFile) (h : Gives f (toHard v) s r s')
    (hv : OwnedOperand μ v s.mark) (hμ : μ ≤ s.mark) : Owned μ r s'.mark := by
  unfold toHard at h
  obtain ⟨q, s₁, hreg, hk⟩ := h.bind
  suffices hq : ∃ h, q.id = .hard h ∧ Owned μ h s₁.mark by
    obtain ⟨h', he, ho⟩ := hq
    rw [he] at hk
    obtain ⟨rfl, rfl⟩ := hk.pure
    exact ho
  unfold toRegister at hreg
  split at hreg
  · obtain ⟨rfl, rfl⟩ := hreg.pure
    exact hv _ rfl
  · obtain ⟨t, s₂, hs, hm⟩ := hreg.bind
    obtain ⟨u, s₃, hmov, hp⟩ := hm.bind
    obtain ⟨rfl, rfl⟩ := hp.pure
    obtain ⟨h', hget, rfl, hmark⟩ := Gives.scratch hf hs
    have hle := Steady.below hmov
    rw [hmark] at hle
    exact ⟨h', rfl, .inr ⟨_, hget, hμ.1, hle.1⟩⟩

theorem Terms.mode_eq_ok {t : Terms} {m : AddrMode} (h : t.mode = .ok m) : (t.narrow = true ∨ fitsDisp t.disp = true) ∧
    m = ⟨t.base, t.index.map (·.1), (t.index.map (·.2)).getD .one, t.disp.setWidth 32⟩ := by
  unfold Terms.mode at h
  split at h
  · rename_i hd
    cases h
    exact ⟨by simpa using hd, rfl⟩
  · cases h

theorem Terms.finish_owned {t : Terms} {m : AddrMode} {μ : Mark} (hf : f.regs = regFile) (h : Gives f t.finish s m s')
    (ho : t.Owned μ s.mark) : μ ≤ s'.mark ∧ ∀ r ∈ m.regs, Amd64.Owned μ r s'.mark := by
  unfold Terms.finish at h
  split at h
  · obtain ⟨hm, rfl⟩ := h.lift
    obtain ⟨-, rfl⟩ := mode_eq_ok hm
    exact ho
  · obtain ⟨t₁, s₁, hroom, h₁⟩ := h.bind
    obtain ⟨r, s₂, hhard, h₂⟩ := h₁.bind
    obtain ⟨t₂, s₃, hplace, h₃⟩ := h₂.bind
    obtain ⟨ho₁, hfree⟩ := Terms.makeRoom_owned hf hroom (μ := μ) ho
    have hr := toHard_owned hf hhard (by rintro r ⟨⟩) ho₁.1
    rw [Terms.place_eq (hfree.imp_right fun hb => ⟨rfl, hb⟩)] at hplace
    obtain ⟨rfl, rfl⟩ := hplace.pure
    obtain ⟨hm, rfl⟩ := h₃.lift
    obtain ⟨-, rfl⟩ := mode_eq_ok hm
    exact (ho₁.mono (Steady.below hhard)).put hr .one

end Sessions

/-! ## Selection of values -/

/-- What selection of an expression does to the temporaries. -/
structure Tidy (f : Frame) (e : Expr) : Prop where
  into : ∀ dst origin, Steady f (into dst e origin)
  value : Steady f (value e)
  owned : ∀ {s v s'}, Gives f (Amd64.value e) s v s' → OwnedOperand s.mark v s'.mark
  grows : ∀ t, Grows f (addTerm t e)
  term : ∀ {t s t' s' μ}, Gives f (addTerm t e) s t' s' → t.Owned μ s.mark → t'.Owned μ s'.mark
  flags : ∀ op y, Steady f (Amd64.value y) → Steady f (flags op e y)

section Selection

variable {f : Frame} {e x y : Expr}

theorem grows_addOpaque (hv : Steady f (value e)) (t : Terms) : Grows f (addOpaque t e) := by
  have := hv
  rw [addOpaque]
  infer_instance

theorem addOpaque_owned (hf : f.regs = regFile) (hv : Steady f (value e))
    (howned : ∀ {s v s'}, Gives f (value e) s v s' → OwnedOperand s.mark v s'.mark) {t t' : Terms} {s s' : Session}
    {μ : Mark} (h : Gives f (addOpaque t e) s t' s') (ho : t.Owned μ s.mark) : t'.Owned μ s'.mark := by
  rw [addOpaque] at h
  obtain ⟨t₁, s₁, hroom, h₁⟩ := h.bind
  obtain ⟨v, s₂, hval, h₂⟩ := h₁.bind
  obtain ⟨r, s₃, hhard, h₃⟩ := h₂.bind
  obtain ⟨ho₁, hfree⟩ := Terms.makeRoom_owned hf hroom ho
  have hle := hv.below hval
  have hr : Owned μ r s₃.mark := by
    refine toHard_owned hf hhard ?_ (ho₁.1.trans hle)
    intro q hq
    obtain ⟨g, hg, hown⟩ := howned hval q hq
    exact ⟨g, hg, hown.mono ho₁.1 le_rfl⟩
  rw [Terms.place_eq (hfree.imp_right fun hb => ⟨rfl, hb⟩)] at h₃
  obtain ⟨rfl, rfl⟩ := h₃.pure
  exact (ho₁.mono (hle.trans (Steady.below hhard))).put hr .one

/-- The nodes of each shape, and which slots they need free. -/
theorem Shape.of?_eq_some {t : Terms} {op : ArithOp} {shape : Shape} (h : Shape.of? t op y = some shape) :
    (op = .add ∧ shape = .sum) ∨ (∃ c, op = .sub ∧ y = .const c ∧ shape = .difference c) ∨
      (∃ c s, op = .mul ∧ y = .const c ∧ directScale c = some s ∧ t.index = none ∧ shape = .scaled s) ∨
      (∃ c s, op = .mul ∧ y = .const c ∧ doubledScale c = some s ∧ t.index = none ∧ t.base = none ∧ shape = .doubled s) ∨
      ∃ c s, op = .shl ∧ y = .const c ∧ shiftScale c = some s ∧ t.index = none ∧ shape = .scaled s := by
  unfold Shape.of? at h
  split at h
  · cases h
    exact .inl ⟨rfl, rfl⟩
  · cases h
    exact .inr (.inl ⟨_, rfl, rfl, rfl⟩)
  · split at h
    · cases h
    rename_i hi
    have hi : t.index = none := by simpa using hi
    split at h
    · rename_i s hs
      cases h
      exact .inr (.inr (.inl ⟨_, s, rfl, rfl, hs, hi, rfl⟩))
    · split at h
      · cases h
      rename_i hb
      obtain ⟨s, hs, rfl⟩ := Option.map_eq_some_iff.1 h
      exact .inr (.inr (.inr (.inl ⟨_, s, rfl, rfl, hs, hi, by simpa using hb, rfl⟩)))
  · split at h
    · cases h
    rename_i hi
    obtain ⟨s, hs, rfl⟩ := Option.map_eq_some_iff.1 h
    exact .inr (.inr (.inr (.inr ⟨_, s, rfl, rfl, hs, by simpa using hi, rfl⟩)))
  · cases h

theorem Shape.index_eq_none {t : Terms} {op : ArithOp} {c : Scale} (h : Shape.of? t op y = some (.scaled c)) :
    t.index = none := by
  rcases Shape.of?_eq_some h with ⟨-, hs⟩ | ⟨_, -, -, hs⟩ | ⟨_, _, -, -, -, hi, -⟩ | ⟨_, _, -, -, -, hi, -⟩ |
    ⟨_, _, -, -, -, hi, -⟩
  · cases hs
  · cases hs
  · exact hi
  · exact hi
  · exact hi

theorem grows_addNode (hx : Tidy f x) (hy : Tidy f y) (t : Terms) (shape : Shape) : Grows f (addNode t shape x y) := by
  have := hx.grows
  have := hy.grows
  have := hx.value
  rw [addNode.eq_def]
  cases shape <;> infer_instance

theorem addNode_owned (hf : f.regs = regFile) (hx : Tidy f x) (hy : Tidy f y) {t t' : Terms} {shape : Shape}
    {s s' : Session} {μ : Mark} (hshape : ∀ c, shape = .scaled c → t.index = none)
    (h : Gives f (addNode t shape x y) s t' s') (ho : t.Owned μ s.mark) : t'.Owned μ s'.mark := by
  rw [addNode.eq_def] at h
  -- a scaled operand is in a register of its own
  have hard : ∀ {s₁ v s₂ r s₃}, μ ≤ s₁.mark → Gives f (value x) s₁ v s₂ → Gives f (toHard v) s₂ r s₃ →
      s₁.mark ≤ s₃.mark ∧ Owned μ r s₃.mark := by
    intro s₁ v s₂ r s₃ hμ hval hhard
    have hle := hx.value.below hval
    refine ⟨hle.trans (Steady.below hhard), toHard_owned hf hhard ?_ (hμ.trans hle)⟩
    intro q hq
    obtain ⟨g, hg, hown⟩ := hx.owned hval q hq
    exact ⟨g, hg, hown.mono hμ le_rfl⟩
  cases shape with
  | sum =>
    obtain ⟨t₁, s₁, h₁, h₂⟩ := h.bind
    exact hy.term h₂ (hx.term h₁ ho)
  | difference c =>
    obtain ⟨t₁, s₁, h₁, h₂⟩ := h.bind
    obtain ⟨rfl, rfl⟩ := h₂.pure
    have ho₁ := hx.term h₁ ho
    exact ho₁
  | scaled c =>
    have hi := hshape c rfl
    obtain ⟨t₁, s₁, hroom, h₁⟩ := h.bind
    obtain ⟨v, s₂, hval, h₂⟩ := h₁.bind
    obtain ⟨r, s₃, hhard, h₃⟩ := h₂.bind
    rw [Terms.makeRoom, if_neg (by simp [hi])] at hroom
    obtain ⟨rfl, rfl⟩ := hroom.pure
    obtain ⟨hle, hr⟩ := hard ho.1 hval hhard
    rw [Terms.place_eq (.inl hi)] at h₃
    obtain ⟨rfl, rfl⟩ := h₃.pure
    exact (ho.mono hle).put hr c
  | doubled c =>
    obtain ⟨v, s₁, hval, h₁⟩ := h.bind
    obtain ⟨r, s₂, hhard, h₂⟩ := h₁.bind
    obtain ⟨hle, hr⟩ := hard ho.1 hval hhard
    obtain ⟨rfl, rfl⟩ := h₂.pure
    refine ⟨ho.1.trans hle, ?_⟩
    intro q hq
    have hq : q = r := by simpa [Terms.regs] using hq
    subst hq
    exact hr

theorem address_owned (hf : f.regs = regFile) (he : Tidy f e) {s s' : Session} {m : AddrMode}
    (h : Gives f (address e) s m s') : s.mark ≤ s'.mark ∧ ∀ r ∈ m.regs, Owned s.mark r s'.mark := by
  rw [address] at h
  obtain ⟨t, s₁, h₁, h₂⟩ := h.bind
  exact Terms.finish_owned hf h₂ (he.term h₁ (Terms.owned_empty _ _ _))

theorem steady_address (hf : f.regs = regFile) (he : Tidy f e) : Steady f (address e) := by
  refine .of_grows ?_ fun h => (address_owned hf he h).1
  have := he.grows
  rw [address]
  infer_instance

theorem steady_leaInto (hf : f.regs = regFile) (hx : Tidy f x) (hy : Tidy f y) (dst : Expr) (k : Kind) (op : ArithOp) :
    Steady f (leaInto dst k op x y) := by
  refine .of_grows ?_ ?_
  · have := grows_addNode hx hy
    rw [leaInto]
    split <;> infer_instance
  · intro s a s' h
    rw [leaInto] at h
    split at h
    · obtain ⟨-, rfl⟩ := h.pure
      exact le_rfl
    · rename_i shape hshape
      obtain ⟨t, s₁, h₁, h₂⟩ := h.bind
      obtain ⟨m, s₂, hfin, h₃⟩ := h₂.bind
      have ho := addNode_owned hf hx hy (fun c hc => Shape.index_eq_none (hc ▸ hshape)) h₁ (Terms.owned_empty _ _ _)
      obtain ⟨u, s₃, hload, hp⟩ := h₃.bind
      obtain ⟨-, rfl⟩ := hp.pure
      exact (Terms.finish_owned hf hfin ho).1.trans (Steady.below hload)

theorem steady_arith (hf : f.regs = regFile) (hx : Tidy f x) (hy : Tidy f y) (dst : Expr) (k : Kind) (op : ArithOp)
    (origin : Option Expr) : Steady f (arith dst k op x y origin) := by
  have := hx.value
  have := hy.value
  have := hx.into
  have := steady_leaInto hf hx hy
  rw [arith]
  refine Steady.bind inferInstance fun _ => Steady.bind inferInstance fun _ => ?_
  split
  · infer_instance
  refine Steady.bind inferInstance fun _ => ?_
  split
  · infer_instance
  refine Steady.bind inferInstance fun _ => ?_
  split <;> infer_instance

theorem steady_flags (hx : Steady f (value x)) (hy : Steady f (value y)) (op : CompareOp)
    (hparts : ∀ k a m, x = .binary (.arith .and) k a m → Steady f (value a) ∧ Steady f (value m)) :
    Steady f (flags op x y) := by
  unfold flags
  refine Steady.releasing ?_
  split
  · split
    · rename_i k a m
      obtain ⟨ha, hm⟩ := hparts k a m rfl
      infer_instance
    · infer_instance
  · infer_instance

/-- An operation is computed into a temporary, which is then the operand. -/
theorem steady_value (hv : value e = do let t ← temp e.kind (.value e); into t e none; return t)
    (hinto : ∀ dst origin, Steady f (into dst e origin)) : Steady f (value e) := by
  rw [hv]
  infer_instance

theorem value_owned (hf : f.regs = regFile) (hv : value e = do let t ← temp e.kind (.value e); into t e none; return t)
    (hinto : ∀ dst origin, Steady f (into dst e origin)) {s s' : Session} {v : Expr} (h : Gives f (value e) s v s') :
    OwnedOperand s.mark v s'.mark := by
  rw [hv] at h
  obtain ⟨t, s₁, ht, h₁⟩ := h.bind
  obtain ⟨u, s₂, hi, h₂⟩ := h₁.bind
  obtain ⟨rfl, rfl⟩ := h₂.pure
  rintro r rfl
  rcases temp_eq_ok ht.change with ⟨q, hq, hr⟩ | hq
  · cases hr
    obtain ⟨g, hget, rfl, rfl⟩ := scratch_eq_ok hq
    rw [hf] at hget
    have hle := (hinto _ _).below hi
    exact ⟨g, rfl, .inr ⟨_, hget, le_rfl, hle.1⟩⟩
  · obtain ⟨sp, -, -, he, -⟩ := stackTemp_eq_ok hq
    cases he

/-- An operand that is a single term of an address. -/
theorem tidy_of_opaque (hf : f.regs = regFile) (hterm : ∀ t, addTerm t e = addOpaque t e)
    (hinto : ∀ dst origin, Steady f (into dst e origin)) (hv : Steady f (value e))
    (howned : ∀ {s v s'}, Gives f (value e) s v s' → OwnedOperand s.mark v s'.mark)
    (hand : ∀ k a m, e ≠ .binary (.arith .and) k a m) : Tidy f e where
  into := hinto
  value := hv
  owned := howned
  grows t := by
    rw [hterm]
    exact grows_addOpaque hv t
  term h ho := by
    rw [hterm] at h
    exact addOpaque_owned hf hv howned h ho
  flags op y hy := steady_flags hv hy op fun k a m h => absurd h (hand k a m)

/-- An operation that is a single term of an address. -/
theorem tidy_of_operation (hf : f.regs = regFile) (hterm : ∀ t, addTerm t e = addOpaque t e)
    (hv : value e = do let t ← temp e.kind (.value e); into t e none; return t)
    (hinto : ∀ dst origin, Steady f (into dst e origin)) (hand : ∀ k a m, e ≠ .binary (.arith .and) k a m) : Tidy f e :=
  tidy_of_opaque hf hterm hinto (steady_value hv hinto) (value_owned hf hv hinto) hand

/-- A constant takes no temporary, and is a term that is only added to the displacement. -/
theorem tidy_const (c : Const) : Tidy f (.const c) := by
  have hv : Steady f (value (.const c)) := by
    rw [value]
    infer_instance
  refine ⟨?_, hv, ?_, ?_, ?_, ?_⟩
  · intro dst origin
    rw [into]
    infer_instance
  · intro s v s' h
    rw [value] at h
    obtain ⟨rfl, rfl⟩ := h.pure
    rintro r ⟨⟩
  · intro t
    rw [addTerm]
    infer_instance
  · intro t s t' s' μ h ho
    rw [addTerm] at h
    obtain ⟨rfl, rfl⟩ := h.pure
    exact ho
  · intro op y hy
    exact steady_flags hv hy op (by rintro k a m ⟨⟩)

theorem tidy_reg (hf : f.regs = regFile) {r : Reg} (hr : Placed f r) : Tidy f (.reg r) := by
  refine tidy_of_opaque hf (fun t => by rw [addTerm]; all_goals simp) ?_ ?_ ?_ (by rintro k a m ⟨⟩)
  · intro dst origin
    rw [into]
    infer_instance
  · rw [value]
    infer_instance
  · intro s v s' h
    rw [value] at h
    obtain ⟨hres, rfl⟩ := h.resolve
    rintro q rfl
    cases hr with
    | reg g hmem he =>
      cases he.symm.trans hres
      exact ⟨g, rfl, .inl hmem⟩
    | slot o hle he => cases he.symm.trans hres

theorem tidy_mem (hf : f.regs = regFile) (hx : Tidy f x) (k : Kind) (ro : Bool) : Tidy f (.mem k ro x) := by
  have := steady_address hf hx
  refine tidy_of_opaque hf (fun t => by rw [addTerm]; all_goals simp) ?_ ?_ ?_ (by rintro k a m ⟨⟩)
  · intro dst origin
    rw [into]
    infer_instance
  · rw [value]
    infer_instance
  · intro s v s' h
    rw [value] at h
    obtain ⟨m, s₁, -, hp⟩ := h.bind
    obtain ⟨rfl, rfl⟩ := hp.pure
    rintro r ⟨⟩

/-- A conversion is looked through by an address, where it keeps the width. -/
theorem tidy_cast (hf : f.regs = regFile) (hx : Tidy f x) (k : Kind) : Tidy f (.unary .cast k x) := by
  have := hx.value
  have hinto : ∀ dst origin, Steady f (into dst (.unary .cast k x) origin) := by
    intro dst origin
    rw [into]
    infer_instance
  have hval : value (.unary .cast k x) =
      (do let t ← temp (Expr.unary .cast k x).kind (.value (.unary .cast k x))
          into t (.unary .cast k x) none
          return t) := by
    rw [value]
    all_goals simp
  have hv := steady_value hval hinto
  have howned := @value_owned f _ hf hval hinto
  refine ⟨hinto, hv, howned, ?_, ?_, ?_⟩
  · intro t
    rw [addTerm]
    split
    · exact hx.grows t
    · exact grows_addOpaque hv t
  · intro t s t' s' μ h ho
    rw [addTerm] at h
    split at h
    · exact hx.term h ho
    · exact addOpaque_owned hf hv howned h ho
  · intro op y hy
    exact steady_flags hv hy op (by rintro k a m ⟨⟩)

/-- The operations that an address is made of are taken apart there, and a conjunction is taken apart by a test. -/
theorem tidy_arith (hf : f.regs = regFile) (hx : Tidy f x) (hy : Tidy f y) (op : ArithOp) :
    Tidy f (.binary (.arith op) x.kind x y) := by
  have hinto : ∀ dst origin, Steady f (into dst (.binary (.arith op) x.kind x y) origin) := by
    intro dst origin
    have := steady_arith hf hx hy dst x.kind op origin
    rw [into]
    infer_instance
  have hval : value (.binary (.arith op) x.kind x y) =
      (do let t ← temp (Expr.binary (.arith op) x.kind x y).kind (.value (.binary (.arith op) x.kind x y))
          into t (.binary (.arith op) x.kind x y) none
          return t) := by
    rw [value]
    all_goals simp
  have hv := steady_value hval hinto
  have howned := @value_owned f _ hf hval hinto
  refine ⟨hinto, hv, howned, ?_, ?_, ?_⟩
  · intro t
    rw [addTerm]
    split
    · exact grows_addNode hx hy t _
    · exact grows_addOpaque hv t
  · intro t s t' s' μ h ho
    rw [addTerm] at h
    split at h
    · rename_i shape hshape
      exact addNode_owned hf hx hy (fun c hc => Shape.index_eq_none (hc ▸ hshape)) h ho
    · exact addOpaque_owned hf hv howned h ho
  · intro o z hz
    refine steady_flags hv hz o ?_
    rintro k a m ⟨⟩
    exact ⟨hx.value, hy.value⟩

/-- Selection of plain expressions keeps what is in use. -/
theorem Plain.tidy (hf : f.regs = regFile) (h : Plain f e) : Tidy f e := by
  induction h with
  | const hk hc => exact tidy_const _
  | reg hk hsoft hr => exact tidy_reg hf hr
  | mem ro hk hp ha ih => exact tidy_mem hf ih _ ro
  | neg hk hx ih | inv hk hx ih | lnot hk hx ih =>
    have := ih.into
    refine tidy_of_operation hf (fun t => by rw [addTerm]; all_goals simp) (by rw [value]; all_goals simp) ?_
      (by rintro k a m ⟨⟩)
    intro dst origin
    rw [into]
    infer_instance
  | cast hk hx ih => exact tidy_cast hf ih _
  | arith ha hb hx hy ihx ihy => exact tidy_arith hf ihx ihy _
  | @compare op x y hk hx hy ihx ihy =>
    have := ihx.flags op y ihy.value
    refine tidy_of_operation hf (fun t => by rw [addTerm]; all_goals simp) (by rw [value]; all_goals simp) ?_
      (by rintro k a m ⟨⟩)
    intro dst origin
    rw [into]
    infer_instance
  | logic op hkx hky hx hy ihx ihy =>
    have := ihx.into
    have := ihy.into
    refine tidy_of_operation hf (fun t => by rw [addTerm]; all_goals simp) (by rw [value]; all_goals simp) ?_
      (by rintro k a m ⟨⟩)
    intro dst origin
    rw [into]
    infer_instance

end Selection

end JitBackend.Amd64
