import JitBackend.Proofs.Amd64.Acceptance
import JitBackend.Proofs.Lowering

/-!
# Selected code can be encoded

Selection of a function over integers, truth values and pointers appends only items that the encoder takes. The
functions of selection pass operands to each other that are legal: registers that allocation or the scratch pool gave,
addresses without the stack pointer as their index, constants and labels. `Lower.Legal` says both of a computation, that
what it appends can be encoded and what holds of its result; there is one lemma for each function.
-/

namespace JitBackend

/-- The items of `s'` are those of `s` and new ones that can be encoded. -/
def Session.Extends (s s' : Session) : Prop :=
  ∃ new, s'.items.toList = s.items.toList ++ new ∧ ∀ i ∈ new, Amd64.EncodesItem i

section Extends

variable {s s₁ s' : Session}

theorem Session.Extends.of_eq (h : s'.items = s.items) : s.Extends s' := ⟨[], by rw [h, List.append_nil], by simp⟩

theorem Session.Extends.trans (h : s.Extends s₁) (h' : s₁.Extends s') : s.Extends s' := by
  obtain ⟨new, hnew, hall⟩ := h
  obtain ⟨new', hnew', hall'⟩ := h'
  exact ⟨new ++ new', by rw [hnew', hnew, List.append_assoc], List.forall_mem_append.2 ⟨hall, hall'⟩⟩

theorem Session.Extends.push {i : Item} (h : s'.items = s.items.push i) (hi : Amd64.EncodesItem i) : s.Extends s' :=
  ⟨[i], by rw [h, Array.toList_push], List.forall_mem_singleton.2 hi⟩

/-- New code can be encoded. -/
theorem Session.Extends.encodes {code : List Expr} (h : s.Extends s')
    (hcode : s'.items.toList = s.items.toList ++ code.map .instr) : ∀ e ∈ code, Amd64.Encodes e := by
  intro e he
  obtain ⟨new, hnew, hall⟩ := h
  obtain rfl := List.append_cancel_left (hnew.symm.trans hcode)
  exact hall (.instr e) (List.mem_map_of_mem he)

end Extends

namespace Lower

/-- Where the computation succeeds, it appends items that can be encoded, and its result satisfies `Q`. -/
def Legal {α : Type} (f : Frame) (act : Lower α) (Q : α → Prop) : Prop :=
  ∀ ⦃s a s'⦄, Gives f act s a s' → s.Extends s' ∧ Q a

section Rules

variable {α β : Type} {f : Frame} {act : Lower α} {P Q : α → Prop}

theorem Legal.bind {k : α → Lower β} {R : β → Prop} (h : Legal f act P) (hk : ∀ a, P a → Legal f (k a) R) :
    Legal f (act >>= k) R := by
  intro s b s' hg
  obtain ⟨a, s₁, ha, hb⟩ := hg.bind
  obtain ⟨hs₁, hP⟩ := h ha
  obtain ⟨hs', hR⟩ := hk a hP hb
  exact ⟨hs₁.trans hs', hR⟩

theorem Legal.mono (h : Legal f act P) (hPQ : ∀ a, P a → Q a) : Legal f act Q := fun _ a _ hg => (h hg).imp_right (hPQ a)

/-- A computation that appends nothing. -/
theorem Legal.of_items (h : ∀ {s a s'}, Gives f act s a s' → s'.items = s.items ∧ Q a) : Legal f act Q :=
  fun _ _ _ hg => (h hg).imp_left .of_eq

theorem Legal.pure {a : α} (h : Q a) : Legal f (Pure.pure a) Q := .of_items fun hg => by
  obtain ⟨rfl, rfl⟩ := hg.pure
  exact ⟨rfl, h⟩

theorem Legal.throw {e : Error} : Legal f (MonadExcept.throw e : Lower α) Q := fun _ _ _ hg => hg.throw.elim

theorem Legal.lift {x : Except Error α} (h : ∀ a, x = .ok a → Q a) : Legal f (liftM x : Lower α) Q :=
  .of_items fun hg => by
    obtain ⟨hx, rfl⟩ := hg.lift
    exact ⟨rfl, h _ hx⟩

theorem Legal.read {Q : Frame → Prop} (h : Q f) : Legal f (MonadReader.read : Lower Frame) Q := .of_items fun hg => by
  obtain ⟨rfl, rfl⟩ := hg.read
  exact ⟨rfl, h⟩

theorem Legal.change {step : Frame → Session → Except Error α × Session}
    (h : ∀ {s a s'}, step f s = (.ok a, s') → s'.items = s.items ∧ Q a) : Legal f (Lower.change step) Q :=
  .of_items fun hg => h hg.change

theorem Legal.releasing (h : Legal f act Q) : Legal f (Lower.releasing act) Q := by
  intro s a s' hg
  obtain ⟨s₁, ha, rfl⟩ := hg.releasing
  obtain ⟨hs₁, hQ⟩ := h ha
  exact ⟨hs₁, hQ⟩

theorem legal_note {e : Event} : Legal f (note e : Lower Unit) fun _ => True :=
  .of_items fun hg => ⟨by rw [hg.note], trivial⟩

theorem legal_modify {g : Session → Session} (h : ∀ s, (g s).items = s.items) :
    Legal f (modify g : Lower Unit) fun _ => True :=
  .of_items fun hg => by
    obtain rfl := hg.modify
    exact ⟨h _, trivial⟩

theorem legal_get : Legal f (get : Lower Session) fun _ => True := .of_items fun hg => by
  obtain ⟨log, log', h⟩ := hg
  cases h
  exact ⟨rfl, trivial⟩

theorem legal_newLabel : Legal f newLabel fun _ => True := .of_items fun hg => by
  obtain ⟨-, rfl⟩ := hg.newLabel
  exact ⟨rfl, trivial⟩

theorem legal_emit {e : Expr} (h : Amd64.Encodes e) : Legal f (emit e) fun _ => True := by
  intro s u s' hg
  obtain rfl := hg.emit
  exact ⟨.push rfl h, trivial⟩

theorem legal_forM {xs : List β} {act : β → Lower Unit} (h : ∀ x ∈ xs, Legal f (act x) fun _ => True) :
    Legal f (xs.forM act) fun _ => True := by
  induction xs with
  | nil => exact .pure trivial
  | cons x xs ih =>
    rw [List.forM]
    exact (h x List.mem_cons_self).bind fun _ _ => ih fun y hy => h y (List.mem_cons_of_mem _ hy)

end Rules

end Lower

namespace Amd64

open Lower

/-! ## Registers -/

/-- The registers that values are kept in. -/
def IsFree (r : HardReg) : Prop := r ∈ allocatable ++ Amd64.scratch

theorem IsFree.isGpr {r : HardReg} (h : IsFree r) : IsGpr r :=
  (by decide : ∀ r ∈ allocatable ++ Amd64.scratch, IsGpr r) r h

theorem IsFree.not_index {r : HardReg} (h : IsFree r) : r.index ≠ 4 :=
  (by decide : ∀ r ∈ allocatable ++ Amd64.scratch, r.index ≠ 4) r h

theorem IsFree.divisor {r : HardReg} (h : IsFree r) : IsGpr r ∧ r ≠ rax ∧ r ≠ rdx :=
  (by decide : ∀ r ∈ allocatable ++ Amd64.scratch, IsGpr r ∧ r ≠ rax ∧ r ≠ rdx) r h

/-- A frame on this machine: soft registers are in allocatable registers or on the stack. -/
structure IsNative (f : Frame) : Prop where
  regs : f.regs = regFile
  places : ∀ {id loc}, f.alloc.get? id = some loc → (∃ r ∈ allocatable, loc = .reg r) ∨ ∃ o, loc = .stack rsp o

section Operands

variable {f : Frame} {k : Kind} {p : Purpose} {dst src : Expr} {c : Const}

theorem isAddress_ofBase {r : HardReg} {o : BitVec 32} (h : IsGpr r) : IsAddress (AddrMode.ofBase r o) where
  gpr := by simpa [AddrMode.IsGpr, AddrMode.regs, AddrMode.ofBase] using h
  index := rfl

theorem IsNative.resolve (hf : IsNative f) {r : Reg} {v : Expr} (hk : r.kind.isScalar = true) (hs : r.id.isSoft = true)
    (h : f.resolve r = .ok v) : LegalPlace IsFree v ∧ v.kind = r.kind := by
  obtain ⟨k, id, ro⟩ := r
  cases id with
  | hard h => cases hs
  | soft id =>
    unfold Frame.resolve Allocation.get at h
    dsimp only at h
    cases hget : f.alloc.get? id with
    | none =>
      rw [hget] at h
      cases h
    | some loc =>
      rw [hget] at h
      rcases hf.places hget with ⟨r, hr, rfl⟩ | ⟨o, rfl⟩
      · cases h
        exact ⟨.reg hk rfl (List.mem_append_left _ hr), rfl⟩
      · cases h
        exact ⟨.mem _ hk (isAddress_ofBase (by decide)), rfl⟩

theorem legal_scratch (hf : IsNative f) (hk : k.isScalar = true) :
    Legal f (Lower.scratch k p) fun r => LegalPlace IsFree (.reg r) ∧ r.kind = k := .change fun h => by
  obtain ⟨hr, hget, rfl, rfl⟩ := scratch_eq_ok h
  rw [hf.regs] at hget
  exact ⟨rfl, .reg hk rfl (List.mem_append_right _ (List.mem_of_getElem? hget)), rfl⟩

theorem stackTemp_legal (hf : IsNative f) (hk : k.isScalar = true) {s s' : Session} {t : Expr}
    (h : s.stackTemp f k p = (.ok t, s')) : s'.items = s.items ∧ LegalPlace IsFree t ∧ t.kind = k := by
  obtain ⟨sp, hsp, -, rfl, rfl⟩ := stackTemp_eq_ok h
  rw [hf.regs] at hsp
  cases hsp
  exact ⟨rfl, .mem _ hk (isAddress_ofBase (by decide)), rfl⟩

theorem legal_stackTemp (hf : IsNative f) (hk : k.isScalar = true) :
    Legal f (Lower.stackTemp k p) fun t => LegalPlace IsFree t ∧ t.kind = k := .change (stackTemp_legal hf hk)

theorem temp_legal (hf : IsNative f) (hk : k.isScalar = true) {s s' : Session} {t : Expr}
    (h : s.temp f k p = (.ok t, s')) : s'.items = s.items ∧ LegalPlace IsFree t ∧ t.kind = k := by
  rcases temp_eq_ok h with ⟨r, hs, rfl⟩ | hs
  · obtain ⟨hr, hget, rfl, rfl⟩ := scratch_eq_ok hs
    rw [hf.regs] at hget
    exact ⟨rfl, .reg hk rfl (List.mem_append_right _ (List.mem_of_getElem? hget)), rfl⟩
  · exact stackTemp_legal hf hk hs

theorem legal_temp (hf : IsNative f) (hk : k.isScalar = true) :
    Legal f (Lower.temp k p) fun t => LegalPlace IsFree t ∧ t.kind = k := .change (temp_legal hf hk)

theorem legalPlace_fixed {r : HardReg} (hk : k.isScalar = true) (hr : IsGpr r) : LegalPlace IsGpr (fixed k r) :=
  .reg hk rfl hr

theorem LegalPlace.isGpr {e : Expr} (h : LegalPlace IsFree e) : LegalPlace IsGpr e := h.mono fun _ => IsFree.isGpr

theorem LegalValue.isGpr {e : Expr} (h : LegalValue IsFree e) : LegalValue IsGpr e := by
  cases h with
  | place h => exact .place h.isGpr
  | const hk => exact .const hk
  | label l => exact .label l

/-- A register can stand against every place. -/
theorem legalSource_reg {r : Reg} (h : LegalPlace IsGpr (.reg r)) : LegalSource dst (.reg r) := .place h rfl

/-! ## Moves -/

theorem legal_storeConst (hf : IsNative f) (hd : LegalPlace IsGpr dst) (hc : c.kind = dst.kind) :
    Legal f (storeConst dst c) fun _ => True := by
  have hk := hd.isScalar
  refine .releasing ?_
  split
  · refine (legal_scratch hf hk).bind fun r hr => ?_
    have hload : Encodes (.binary .assign dst.kind (.reg r) (.const c)) := by
      rw [← hc]
      exact encodes_assign_const (hc ▸ hk) hr.1.isGpr rfl
    exact (legal_emit hload).bind fun _ _ => legal_emit (encodes_assign hk hd (legalSource_reg hr.1.isGpr))
  · rename_i hfits
    refine legal_emit ?_
    cases hreg : dst.isReg with
    | true =>
      rw [← hc]
      exact encodes_assign_const (hc ▸ hk) hd hreg
    | false =>
      have hmem : dst.isMem = true := by rw [hd.isMem_eq, hreg]; rfl
      exact encodes_assign hk hd (.const (hc ▸ hk) (by simpa [hmem] using hfits))

theorem legal_mov (hf : IsNative f) (hd : LegalPlace IsGpr dst) (hs : LegalValue IsGpr src)
    (hc : ∀ c, src = .const c → c.kind = dst.kind) : Legal f (mov dst src) fun _ => True := by
  have hk := hd.isScalar
  unfold mov
  split
  · exact .pure trivial
  refine .releasing ?_
  cases hs with
  | const hkc => exact legal_storeConst hf hd (hc _ rfl)
  | label l =>
    dsimp only
    rw [if_neg (by simp [Expr.isMem]), Expr.isLabel, Bool.and_true]
    split
    · refine (legal_scratch hf rfl).bind fun r hr => ?_
      exact (legal_emit (encodes_assign_label rfl hr.1.isGpr rfl)).bind fun _ _ =>
        legal_emit (encodes_assign hk hd (legalSource_reg hr.1.isGpr))
    · rename_i hmem
      exact legal_emit (encodes_assign_label hk hd (by simpa [hd.isMem_eq] using hmem))
  | place h =>
    have hgoal : Legal f (if dst.isMem && src.isMem then do
          let t := Expr.reg (← Lower.scratch dst.kind (.note "memory move"))
          emitAssign dst.kind t src
          emitAssign dst.kind dst t
        else if dst.isMem && src.isLabel then do
          let t := Expr.reg (← Lower.scratch .ptr (.note "label address"))
          emitAssign .ptr t src
          emitAssign dst.kind dst t
        else emitAssign dst.kind dst src) fun _ => True := by
      split
      · refine (legal_scratch hf hk).bind fun r hr => ?_
        exact (legal_emit (encodes_assign hk hr.1.isGpr (.place h (by simp [Expr.isMem])))).bind fun _ _ =>
          legal_emit (encodes_assign hk hd (legalSource_reg hr.1.isGpr))
      · rename_i hmem
        rw [h.isLabel, Bool.and_false, if_neg (by simp)]
        exact legal_emit (encodes_assign hk hd (.place h (by rw [Bool.and_comm]; simpa using hmem)))
    cases h with
    | reg => exact hgoal
    | mem => exact hgoal

/-- A legal operand moves to a place of its kind. -/
theorem legal_mov_value (hf : IsNative f) (hd : LegalPlace IsGpr dst) (hs : LegalValue IsFree src)
    (hk : dst.kind = src.kind) : Legal f (mov dst src) fun _ => True :=
  legal_mov hf hd hs.isGpr fun c hc => by rw [hk, hc]; rfl

theorem legal_toRegister (hf : IsNative f) (h : LegalValue IsFree src) :
    Legal f (toRegister src) fun r => LegalPlace IsFree (.reg r) ∧ r.kind = src.kind := by
  have hgoal : Legal f (do
      let t ← Lower.scratch (if src.kind.isVoid then .ptr else src.kind) (.value src)
      mov (.reg t) src
      return t) fun r => LegalPlace IsFree (.reg r) ∧ r.kind = src.kind := by
    have hk := h.isScalar
    have hvoid : src.kind.isVoid = false := by
      cases hv : src.kind <;> simp_all [Kind.isScalar, Kind.isWord, Kind.isInteger, Kind.isSigned, Kind.isUnsigned,
        Kind.isPtr, Kind.isBool, Kind.isVoid]
    rw [if_neg (by simp [hvoid])]
    refine (legal_scratch hf hk).bind fun r hr => ?_
    exact (legal_mov_value hf hr.1.isGpr h hr.2).bind fun _ _ => .pure hr
  cases h with
  | const => exact hgoal
  | label => exact hgoal
  | place h =>
    cases h with
    | reg hk hid hh => exact .pure ⟨.reg hk hid hh, rfl⟩
    | mem => exact hgoal

theorem legal_legalSource (hf : IsNative f) (h : LegalValue IsFree src) :
    Legal f (legalSource dst src) fun v => LegalSource dst v := by
  unfold legalSource
  split
  · rename_i hleg
    refine .pure ?_
    cases h with
    | const hk => exact .const hk hleg
    | label => cases hleg
    | place h =>
      cases h with
      | reg hk hid hh => exact legalSource_reg (.reg hk hid hh.isGpr)
      | mem ro hk hm => exact .place (.mem ro hk hm) (by simpa only [isLegalSource, Bool.not_eq_true'] using hleg)
  · exact (legal_toRegister hf h).bind fun r hr => .pure (legalSource_reg hr.1.isGpr)

/-! ## Casts -/

theorem legal_widen (hf : IsNative f) (hk : k.isScalar = true) (hd : LegalPlace IsGpr dst)
    (hs : LegalPlace IsFree src) (hlt : src.kind.size < k.size) : Legal f (widen dst k src) fun _ => True := by
  unfold widen
  rw [hs.isLabel]
  refine (Legal.pure (Q := (· = src)) rfl).bind fun v hv => ?_
  subst hv
  split
  · rename_i hreg
    exact legal_emit (encodes_cast hk hd hreg hs.isGpr hlt)
  · refine (legal_scratch hf hk).bind fun r hr => ?_
    refine (legal_emit (encodes_cast hk hr.1.isGpr rfl hs.isGpr hlt)).bind fun _ _ => ?_
    exact legal_mov hf hd (.place hr.1.isGpr) (by simp)

theorem legalPlace_atKind (hk : k.isScalar = true) (h : LegalPlace IsFree src) : LegalPlace IsGpr (atKind k src) := by
  cases h with
  | reg _ hid hh => exact .reg hk hid hh.isGpr
  | mem ro _ hm => exact .mem ro hk hm

theorem legal_castInto {g : Kind} {x : Lower Expr} (hf : IsNative f) (hk : k.isWord = true)
    (hd : LegalPlace IsGpr dst) (hdk : dst.kind = k) (hx : Legal f x fun v => LegalValue IsFree v ∧ v.kind = g) :
    Legal f (castInto dst g k x) fun _ => True := by
  refine hx.bind fun v hv => ?_
  obtain ⟨hv, rfl⟩ := hv
  have hscalar := Kind.isScalar_of_isWord hk
  cases hv with
  | const hc =>
    refine (Legal.lift (Q := fun d => d.kind = k) ?_).bind fun d hd' => legal_storeConst hf hd (hd'.trans hdk.symm)
    rintro d hconv
    rw [Const.convert_of_isWord hc hk] at hconv
    cases hconv
    rfl
  | label l =>
    have hle : k.size ≤ (Expr.label l).kind.size := Kind.size_le_of_isScalar hscalar
    dsimp only
    rw [if_pos hle]
    exact legal_mov hf hd (.label l) (by simp [atKind])
  | place h =>
    have hgoal : Legal f (if k.size ≤ v.kind.size then mov dst (atKind k v) else widen dst k v) fun _ => True := by
      split
      · exact legal_mov hf hd (.place (legalPlace_atKind hscalar h)) (by rintro c hc; cases h <;> cases hc)
      · rename_i hlt
        exact legal_widen hf hscalar hd h (by omega)
    cases h with
    | reg => exact hgoal
    | mem => exact hgoal

end Operands

/-! ## Arithmetic -/

/-- The computation gives a legal operand. -/
abbrev GivesValue (f : Frame) (x : Lower Expr) (k : Kind) : Prop :=
  Legal f x fun v => LegalValue IsFree v ∧ v.kind = k

section Arithmetic

variable {f : Frame} {k g : Kind} {dst v : Expr} {x y : Lower Expr}

theorem legal_shiftInto {left : Bool} (hf : IsNative f) (hd : LegalPlace IsGpr dst) (hy : GivesValue f y g) :
    Legal f (shiftInto dst left y) fun _ => True := by
  have hk := hd.isScalar
  have hconst : ∀ n : Nat, Legal f (emit (.binary (.compound (if left then .shl else .shr)) dst.kind dst
      (.const (Const.uint8 n)))) fun _ => True := fun n => legal_emit (encodes_shift hk hd (.inl ⟨_, rfl, rfl⟩))
  refine hy.bind fun v hv => ?_
  obtain ⟨hv, -⟩ := hv
  cases hv with
  | const hc =>
    dsimp only
    split
    · exact Legal.throw.bind (P := fun _ => False) fun _ h => h.elim
    · split
      · exact hconst _
      · split
        · exact hconst _
        · exact legal_storeConst hf hd rfl
  | label l =>
    exact (legal_mov hf (legalPlace_fixed rfl (by decide)) (.label l) (by simp)).bind fun _ _ =>
      legal_emit (encodes_shift hk hd (.inr rfl))
  | place h =>
    have hgoal : Legal f (do
        mov (fixed v.kind rcx) v
        emit (.binary (.compound (if left then .shl else .shr)) dst.kind dst (fixed .uint8 rcx))) fun _ => True := by
      refine (legal_mov_value hf (legalPlace_fixed h.isScalar (by decide)) (.place h) rfl).bind fun _ _ => ?_
      exact legal_emit (encodes_shift hk hd (.inr rfl))
    cases h with
    | reg => exact hgoal
    | mem => exact hgoal

theorem legal_divideInto {op : ArithOp} (hf : IsNative f) (hop : op = .quo ∨ op = .rem) (hd : LegalPlace IsGpr dst)
    (hbyte : dst.kind.size ≠ 1) (hy : GivesValue f y g) : Legal f (divideInto dst op y) fun _ => True := by
  have hk := hd.isScalar
  have hrax : LegalPlace IsGpr (fixed dst.kind rax) := legalPlace_fixed hk (by decide)
  unfold divideInto
  rw [if_neg hbyte]
  refine hy.bind fun v hv => ?_
  have hby : ∀ w, LegalPlace IsFree w → Legal f (do
      mov (fixed dst.kind rax) dst
      emit (.binary (.compound op) dst.kind (fixed dst.kind rax) w)
      mov dst (fixed dst.kind rax)) fun _ => True := by
    intro w hw
    refine (legal_mov hf hrax (.place hd) (by rintro c rfl; cases hd)).bind fun _ _ => ?_
    refine (legal_emit (encodes_divide hop hk hbyte (hw.mono fun _ => IsFree.divisor))).bind fun _ _ => ?_
    exact legal_mov hf hd (.place hrax) (by simp [fixed])
  dsimp only
  split
  · rename_i hplace
    refine (Legal.pure ?_).bind hby
    cases hv.1 with
    | place h => exact h
    | const => cases hplace
    | label => cases hplace
  · exact (legal_toRegister hf hv.1).bind fun r hr => (Legal.pure hr.1).bind hby

theorem legal_inverted (hf : IsNative f) (hk : dst.kind.isScalar = true) (hv : LegalValue IsFree v) :
    Legal f (inverted dst v) fun w => LegalSource dst w := by
  have hgoal : v.isConst = false → Legal f (do
      let t := Expr.reg (← Lower.scratch dst.kind (.note "and-not mask"))
      mov t v
      emitAssign dst.kind t (.unary .inv dst.kind t)
      return t) fun w => LegalSource dst w := by
    intro hconst
    refine (legal_scratch hf hk).bind fun r hr => ?_
    refine (legal_mov hf hr.1.isGpr hv.isGpr (by rintro c rfl; cases hconst)).bind fun _ _ => ?_
    refine (legal_emit (encodes_inPlace (.inr rfl) hk hr.1.isGpr)).bind fun _ _ => ?_
    exact .pure (legalSource_reg hr.1.isGpr)
  cases hv with
  | const hc => exact legal_legalSource hf (.const hk)
  | label l => exact hgoal rfl
  | place h =>
    cases h with
    | reg => exact hgoal rfl
    | mem => exact hgoal rfl

/-- The operations that have no instruction on bytes. -/
def isWide : ArithOp → Bool
  | .mul | .quo | .rem => true
  | _ => false

theorem legal_opAssign {op : ArithOp} (hf : IsNative f) (hd : LegalPlace IsGpr dst)
    (hbyte : isWide op = true → dst.kind.size ≠ 1) (hy : GivesValue f y g) :
    Legal f (opAssign dst op y) fun _ => True := by
  have hk := hd.isScalar
  have halu : ∀ {op : ArithOp} {digit}, aluDigit (.compound op) = some digit →
      Legal f (do emit (.binary (.compound op) dst.kind dst (← legalSource dst (← y)))) fun _ => True := by
    intro op digit hop
    refine hy.bind fun v hv => (legal_legalSource hf hv.1).bind fun w hw => ?_
    exact legal_emit (encodes_alu hop hd hw)
  refine .releasing ?_
  cases op with
  | add | sub | and | or | xor => exact halu rfl
  | andNot =>
    refine hy.bind fun v hv => (legal_inverted hf hk hv.1).bind fun w hw => ?_
    exact legal_emit (encodes_alu rfl hd hw)
  | mul =>
    have hsize := hbyte rfl
    dsimp only
    rw [if_neg hsize]
    split
    · refine (legal_scratch hf hk).bind fun r hr => ?_
      obtain ⟨hr, hrk⟩ := hr
      refine (legal_mov hf hr.isGpr (.place hd) (by rintro c rfl; cases hd)).bind fun _ _ => ?_
      refine Legal.bind (P := fun _ => True) (.releasing ?_) fun _ _ => ?_
      · refine hy.bind fun v hv => (legal_legalSource hf hv.1).bind fun w hw => ?_
        exact legal_emit (encodes_mul hk hsize hr.isGpr rfl hw)
      · exact legal_mov hf hd (.place hr.isGpr) (by simp)
    · rename_i hmem
      refine hy.bind fun v hv => (legal_legalSource hf hv.1).bind fun w hw => ?_
      exact legal_emit (encodes_mul hk hsize hd (by simpa [hd.isMem_eq] using hmem) hw)
  | shl => exact legal_shiftInto hf hd hy
  | shr => exact legal_shiftInto hf hd hy
  | quo => exact legal_divideInto hf (.inl rfl) hd (hbyte rfl) hy
  | rem => exact legal_divideInto hf (.inr rfl) hd (hbyte rfl) hy

/-! ## Flags -/

theorem legal_testZero (hf : IsNative f) (hk : k.isScalar = true) (hv : LegalValue IsFree v) :
    Legal f (testZero k v) fun _ => True := by
  have hzero : (Const.zero k).fitsImmediate = true := by
    cases k <;> rfl
  have hcmp : ∀ w, LegalPlace IsFree w → Legal f (emit (.binary .cmp k w (.const (Const.zero k)))) fun _ => True :=
    fun w hw => legal_emit (encodes_alu rfl hw.isGpr (.const hk hzero))
  have hgoal : Legal f (do
      let w ← if v.isMem then pure v else pure (.reg (← toRegister v))
      emit (.binary .cmp k w (.const (Const.zero k)))) fun _ => True := by
    dsimp only
    split
    · rename_i hmem
      refine (Legal.pure ?_).bind hcmp
      cases hv with
      | place h => exact h
      | const => cases hmem
      | label => cases hmem
    · exact (legal_toRegister hf hv).bind fun r hr => (Legal.pure hr.1).bind hcmp
  cases hv with
  | const => exact hgoal
  | label => exact hgoal
  | place h =>
    cases h with
    | reg hkr hid hh =>
      have hr : LegalPlace IsGpr (.reg _) := .reg hkr hid hh.isGpr
      exact legal_emit (encodes_test hr (legalSource_reg hr))
    | mem => exact hgoal

theorem legal_toPlace (hf : IsNative f) (hv : LegalValue IsFree v) : Legal f (toPlace v) (LegalPlace IsFree) := by
  unfold toPlace
  split
  · exact (legal_toRegister hf hv).bind fun r hr => .pure hr.1
  · rename_i hno
    refine .pure ?_
    cases hv with
    | place h => exact h
    | const => simp [Expr.isConst] at hno
    | label => simp [Expr.isLabel] at hno

theorem legal_testOperands {p q : Expr} (hf : IsNative f) (hp : LegalValue IsFree p) (hq : LegalValue IsFree q) :
    Legal f (testOperands k p q) fun _ => True := by
  refine (legal_toPlace hf hp).bind fun a ha => ?_
  split
  · rename_i hboth
    simp only [Bool.and_eq_true] at hboth
    refine legal_emit (encodes_test ?_ ?_)
    · cases hq with
      | place h => exact h.isGpr
      | const => cases hboth.1
      | label => cases hboth.1
    · exact .place ha.isGpr (by rw [ha.isMem_eq, hboth.2]; rfl)
  · exact (legal_legalSource hf hq).bind fun w hw => legal_emit (encodes_test ha.isGpr hw)

theorem legal_testBits (hf : IsNative f) (hx : GivesValue f x g) {g' : Kind} (hy : GivesValue f y g') :
    Legal f (testBits k x y) fun _ => True := by
  refine hx.bind fun p hp => hy.bind fun q hq => ?_
  split
  · exact legal_testOperands hf hq.1 hp.1
  · exact legal_testOperands hf hp.1 hq.1

theorem legal_compareOperands {a b : Expr} (hf : IsNative f) (ha : LegalValue IsFree a) (hb : LegalValue IsFree b) :
    Legal f (compareOperands k a b) fun _ => True :=
  (legal_toPlace hf ha).bind fun _ hp => (legal_legalSource hf hb).bind fun _ hw =>
    legal_emit (encodes_alu rfl hp.isGpr hw)

theorem legal_compareFlags {c : Cond} (hf : IsNative f) (hx : GivesValue f x g) {g' : Kind} (hy : GivesValue f y g') :
    Legal f (compareFlags k c x y) fun _ => True := by
  refine hx.bind fun a ha => hy.bind fun b hb => ?_
  split
  · exact (legal_compareOperands hf hb.1 ha.1).bind fun _ _ => .pure trivial
  · exact (legal_compareOperands hf ha.1 hb.1).bind fun _ _ => .pure trivial

theorem legal_jcc {c : Cond} {l : Label} : Legal f (jcc c l) fun _ => True := legal_emit (encodes_jcc c l)

/-! ## Calls -/

theorem legal_saveScratch (hf : IsNative f) : ∀ {rs : List HardReg}, (∀ r ∈ rs, IsFree r) →
    Legal f (saveScratch rs) fun saved => ∀ s ∈ saved, IsFree s.1 ∧ LegalPlace IsFree s.2
  | [], _ => .pure (by simp)
  | r :: rs, h => by
    have hr : LegalPlace IsFree (fixed .int64 r) := .reg rfl rfl (h r List.mem_cons_self)
    unfold saveScratch
    refine (legal_stackTemp hf rfl).bind fun slot hslot => ?_
    refine (legal_emit (encodes_assign rfl hslot.1.isGpr (legalSource_reg hr.isGpr))).bind fun _ _ => ?_
    refine (legal_saveScratch hf fun r' hr' => h r' (List.mem_cons_of_mem _ hr')).bind fun rest hrest => .pure ?_
    exact List.forall_mem_cons.2 ⟨⟨h r List.mem_cons_self, hslot.1⟩, hrest⟩

theorem legal_emitCall {l : Label} {n : Option String} {sig : Signature} (hf : IsNative f) :
    Legal f (emitCall (.call l n sig [])) fun v =>
      v = if sig.value.isVoid then nothing else fixed sig.value rax := by
  refine Legal.bind (P := fun _ => True) (.releasing ?_) fun _ _ => .pure rfl
  refine legal_get.bind fun s _ => (Legal.read (Q := (· = f)) rfl).bind fun g hg => ?_
  subst hg
  have hlive : ∀ r ∈ s.liveScratch g, IsFree r := by
    intro r hr
    rw [Session.liveScratch, hf.regs] at hr
    exact List.mem_append_right _ (List.mem_of_mem_take hr)
  refine (legal_saveScratch hf hlive).bind fun saved hsaved => ?_
  refine (legal_emit (encodes_call l n sig)).bind fun _ _ => legal_forM fun x hx => ?_
  obtain ⟨hr, hslot⟩ := hsaved x (List.mem_reverse.1 hx)
  exact legal_emit (encodes_assign rfl (legalPlace_fixed rfl hr.isGpr) (.place hslot.isGpr (by simp [fixed, Expr.isMem])))

theorem legal_callValue {l : Label} {n : Option String} {sig : Signature} (hf : IsNative f)
    (hk : sig.value.isScalar = true) : GivesValue f (callValue (.call l n sig [])) sig.value := by
  have hvoid : sig.value.isVoid = false := by
    cases h : sig.value <;> rw [h] at hk <;> first | rfl | cases hk
  refine (legal_emitCall hf).bind fun v hv => ?_
  rw [hvoid, if_neg (by simp)] at hv
  subst hv
  rw [if_neg (by simp [fixed, Expr.kind, Reg.hard, hvoid])]
  refine (legal_temp hf hk).bind fun t ht => ?_
  refine (legal_mov hf ht.1.isGpr (.place (legalPlace_fixed hk (by decide))) (by simp [fixed])).bind fun _ _ => ?_
  exact .pure ⟨.place ht.1, ht.2⟩

end Arithmetic

/-! ## Addresses -/

/-- The registers of the terms are ones that values are kept in. -/
def Terms.IsFree (t : Terms) : Prop := (∀ r ∈ t.base, Amd64.IsFree r) ∧ ∀ i ∈ t.index, Amd64.IsFree i.1

/-- So are those of an address. -/
def LegalAddress (m : AddrMode) : Prop := (∀ r ∈ m.base, Amd64.IsFree r) ∧ ∀ r ∈ m.index, Amd64.IsFree r

section Addresses

variable {f : Frame} {k : Kind} {t : Terms} {v dst : Expr}

theorem LegalAddress.isAddress {m : AddrMode} (h : LegalAddress m) : IsAddress m where
  gpr r hr := by
    rcases List.mem_append.1 hr with hb | hi
    · exact (h.1 r (by simpa using hb)).isGpr
    · exact (h.2 r (by simpa using hi)).isGpr
  index := by
    cases hi : m.index with
    | none => rfl
    | some i => simpa using (h.2 i hi).not_index

theorem Terms.IsFree.mode {m : AddrMode} (ht : t.IsFree) (h : t.mode = .ok m) : LegalAddress m := by
  unfold Terms.mode at h
  split at h
  · cases h
    refine ⟨ht.1, ?_⟩
    rintro r hr
    obtain ⟨i, hi, rfl⟩ := Option.map_eq_some_iff.1 hr
    exact ht.2 i hi
  · cases h

theorem Terms.IsFree.withDisp (ht : t.IsFree) (d : Word) : Terms.IsFree { t with disp := d } := ht

theorem legal_foldTarget (hf : IsNative f) : Legal f t.foldTarget Amd64.IsFree := by
  unfold Terms.foldTarget
  refine (Legal.read (Q := (· = f)) rfl).bind fun g hg => ?_
  subst hg
  have hpool : ∀ {r : HardReg}, g.regs.scratch.contains r = true → Amd64.IsFree r := by
    intro r hr
    rw [hf.regs] at hr
    have hmem : r ∈ regFile.scratch := by simpa using hr
    exact List.mem_append_right _ hmem
  dsimp only
  split
  · rename_i r hr
    refine .pure ?_
    rw [Option.or_eq_some_iff] at hr
    rcases hr with hr | ⟨-, hr⟩
    · exact hpool (Option.filter_eq_some_iff.1 hr).2
    · exact hpool (Option.filter_eq_some_iff.1 hr).2
  · refine (legal_scratch hf rfl).bind fun r hr => ?_
    obtain ⟨hr, -⟩ := hr
    cases hr with
    | reg hk hid hh =>
      rw [hid]
      exact .pure hh

theorem legal_freeScratch {r : HardReg} : Legal f (freeScratch r) fun _ => True := by
  refine (Legal.read (Q := fun _ => True) trivial).bind fun g _ => legal_modify fun s => ?_
  unfold Session.freeScratch
  split
  · rfl
  · rfl

theorem legal_fold (hf : IsNative f) (ht : t.IsFree) : Legal f t.fold Terms.IsFree := by
  unfold Terms.fold
  have hmode : ∀ m, ({ base := t.base, index := t.index } : Terms).mode = .ok m → LegalAddress m := fun m hm =>
    Terms.IsFree.mode (t := { base := t.base, index := t.index }) ht hm
  refine (Legal.lift hmode).bind fun m hm => (legal_foldTarget hf).bind fun r hr => ?_
  refine (legal_emit (encodes_lea rfl (legalPlace_fixed rfl hr.isGpr) rfl hm.isAddress)).bind fun _ _ => ?_
  refine Legal.bind (P := fun _ => True) ?_ fun _ _ => .pure ⟨by rintro r' ⟨⟩; exact hr, by rintro i ⟨⟩⟩
  cases (t.index.map (·.1)).filter (· ≠ r) with
  | none => exact .pure trivial
  | some r' => exact legal_freeScratch

theorem legal_makeRoom (hf : IsNative f) (ht : t.IsFree) : Legal f t.makeRoom Terms.IsFree := by
  unfold Terms.makeRoom
  split
  · exact legal_fold hf ht
  · exact .pure ht

theorem legal_place {r : HardReg} {c : Scale} (hf : IsNative f) (ht : t.IsFree) (hr : Amd64.IsFree r) :
    Legal f (t.place r c) Terms.IsFree := by
  have hself : ∀ i ∈ some (r, c), Amd64.IsFree i.1 := by
    rintro i ⟨⟩
    exact hr
  unfold Terms.place
  split
  · exact .pure ⟨by rintro r' ⟨⟩; exact hr, ht.2⟩
  · split
    · exact .pure ⟨ht.1, hself⟩
    · exact (legal_fold hf ht).bind fun t' ht' => .pure ⟨ht'.1, hself⟩

theorem legal_toHard (hf : IsNative f) (hv : LegalValue Amd64.IsFree v) : Legal f (toHard v) Amd64.IsFree := by
  refine (legal_toRegister hf hv).bind fun r hr => ?_
  obtain ⟨hr, -⟩ := hr
  cases hr with
  | reg hk hid hh =>
    rw [hid]
    exact .pure hh

theorem legal_finish (hf : IsNative f) (ht : t.IsFree) : Legal f t.finish LegalAddress := by
  unfold Terms.finish
  split
  · exact .lift fun m hm => ht.mode hm
  · refine (legal_makeRoom hf (ht.withDisp 0)).bind fun t' ht' => ?_
    refine (legal_toHard hf (.const rfl)).bind fun r hr => ?_
    exact (legal_place hf ht' hr).bind fun t'' ht'' => .lift fun m hm => ht''.mode hm

theorem legal_loadAddress {m : AddrMode} (hf : IsNative f) (hk : k.isScalar = true) (hd : LegalPlace IsGpr dst)
    (hreg : dst.isReg = true) (hm : LegalAddress m) : Legal f (loadAddress dst k m) fun _ => True := by
  unfold loadAddress
  split
  · rename_i base hb _ _
    exact legal_mov hf hd (.place (legalPlace_fixed hk (hm.1 base hb).isGpr)) (by simp [fixed])
  · exact legal_emit (encodes_lea hk hd hreg hm.isAddress)

end Addresses

end Amd64

end JitBackend
