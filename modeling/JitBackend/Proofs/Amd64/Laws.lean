import JitBackend.Proofs.Amd64.Appending
import JitBackend.Proofs.Amd64.Temporaries

/-!
# Laws of selection

A law says something of the computations of selection that holds of its single steps and passes on to sequences of them.
`Law` lists what selection does in single steps: it takes temporaries and gives them back, and it emits instructions
whose targets are places that it may write (`Place`) at a kind that fits them (`Fits`), whose operands come from the
source or from such places (`Src`), and whose registers in addresses are ones that it may use up (`Hard`). What obeys a
law in these steps obeys it in all that selection makes of an expression (`Law.selects`).

Selection never fails because an address has no form: it asks for the form of terms without a displacement, or of terms
with one that fits. And it asks for the places of registers of the source only. So a law may exclude the failures of an
address without a form, and of a register without a place as far as registers of the source have places (`Law.Allowed`).
-/

namespace JitBackend

namespace Error

/-- The failures of an address that has no form. -/
def isAddressOverflow : Error → Bool
  | fieldOverflow .addressScale _ | fieldOverflow .addressDisplacement _ => true
  | _ => false

/-- The failures of a register that has no place. -/
def isUnplaced : Error → Bool
  | unallocatedRegister _ => true
  | _ => false

end Error

namespace Amd64

open Lower

/-! ## Failures -/

/-- Where the result is a failure, it is an allowed one. -/
def Clean {α : Type} (Allowed : Error → Prop) (x : Except Error α) : Prop := ∀ e, x = .error e → Allowed e

section Clean

variable {α β : Type} {f : Frame} {dst e : Expr} {Allowed : Error → Prop}

theorem Clean.ok (a : α) : Clean Allowed (.ok a) := by
  rintro _ ⟨⟩

theorem Clean.error {e : Error} (h : Allowed e) : Clean Allowed (.error e : Except Error α) := by
  rintro _ ⟨⟩
  exact h

theorem Clean.bind {x : Except Error α} {k : α → Except Error β} (h : Clean Allowed x) (hk : ∀ a, Clean Allowed (k a)) :
    Clean Allowed (x >>= k) := by
  intro e he
  cases x with
  | error e' =>
    cases he
    exact h _ rfl
  | ok a => exact hk a e he

theorem Clean.resolve {r : Reg} (h : Clean Allowed (reads f dst (.reg r))) : Clean Allowed (f.resolve r) := by
  intro err herr
  refine h err ?_
  rw [reads, herr]
  rfl

theorem Clean.hazard (h : Clean Allowed (reads f dst e)) : Clean Allowed (hazard f e dst) := by
  unfold Amd64.hazard
  refine h.bind fun b => ?_
  split <;> exact .ok _

theorem Clean.isPlace (h : Clean Allowed (reads f dst e)) (origin : Option Expr) :
    Clean Allowed (isPlace f e dst origin) := by
  unfold Amd64.isPlace
  split
  · exact .ok _
  split
  · rename_i r _
    cases hr : f.resolve r with
    | error err => exact .error (h.resolve err hr)
    | ok v => exact .ok _
  · exact .ok _
  · exact .ok _

theorem clean_mode {t : Terms} (h : t.narrow = true ∨ fitsDisp t.disp = true) : Clean Allowed t.mode := by
  unfold Terms.mode
  rw [if_pos (by simpa using h)]
  exact .ok _

variable (hother : ∀ {e : Error}, e.isAddressOverflow = false → e.isUnplaced = false → Allowed e)
include hother

theorem clean_convert (c : Const) (k : Kind) : Clean Allowed (c.convert k) := by
  unfold Const.convert
  repeat' split
  all_goals first | exact .ok _ | exact .error (hother rfl rfl)

end Clean

/-! ## Laws -/

/-- The computation takes back neither labels nor stack. -/
class Widens {α : Type} (f : Frame) (act : Lower α) : Prop where
  le : ∀ {s a s'}, Gives f act s a s' → s.labels.size ≤ s'.labels.size ∧ s.tempPeak ≤ s'.tempPeak

section Widens

variable {α β : Type} {f : Frame}

theorem Widens.of_grows {act : Lower α} (h : Grows f act) : Widens f act where
  le hg := by
    obtain ⟨code, hcode⟩ := h.grown hg
    exact ⟨hcode.fresh.le, hcode.peak⟩

instance (act : Lower α) [h : Grows f act] : Widens f act := .of_grows h

theorem Widens.bind {act : Lower α} {k : α → Lower β} (h : Widens f act) (hk : ∀ a, Widens f (k a)) :
    Widens f (act >>= k) where
  le hg := by
    obtain ⟨a, s₁, h₁, h₂⟩ := hg.bind
    exact ⟨(h.le h₁).1.trans ((hk a).le h₂).1, (h.le h₁).2.trans ((hk a).le h₂).2⟩

theorem widens_forM {k : α → Lower Unit} (hk : ∀ a, Widens f (k a)) (xs : List α) : Widens f (xs.forM k) := by
  induction xs with
  | nil => exact inferInstanceAs (Widens f (pure ()))
  | cons x xs ih =>
    rw [List.forM]
    exact (hk x).bind fun _ => ih

end Widens

/-- Instructions as selection emits them: into a place at its own kind, into a register at any kind, and on a place
itself at a kind that fits it. -/
inductive Emitted (Place : Expr → Prop) (Fits : Expr → Kind → Prop) (Src : Expr → Prop) (Lab : Label → Prop) : Expr → Prop
  | assign {d v : Expr} (hd : Place d) (hv : Src v) : Emitted Place Fits Src Lab (.binary .assign d.kind d v)
  | load {k : Kind} {r : Reg} {v : Expr} (hr : Place (.reg r)) (hv : Src v) :
      Emitted Place Fits Src Lab (.binary .assign k (.reg r) v)
  | self {op : UnaryOp} {k : Kind} {d : Expr} (hd : Place d) (hk : Fits d k) :
      Emitted Place Fits Src Lab (.binary .assign k d (.unary op k d))
  | compound {op : ArithOp} {d v : Expr} (hd : Place d) (hv : Src v) :
      Emitted Place Fits Src Lab (.binary (.compound op) d.kind d v)
  | flip {d v : Expr} (hd : Place d) (hv : Src v) : Emitted Place Fits Src Lab (.binary (.compound .xor) .bool d v)
  | cmp {k : Kind} {a b : Expr} (ha : Src a) (hb : Src b) : Emitted Place Fits Src Lab (.binary .cmp k a b)
  | test {k : Kind} {a b : Expr} (ha : Src a) (hb : Src b) : Emitted Place Fits Src Lab (.binary .test k a b)
  | setcc {c : Cond} {d : Expr} (hd : Place d) (hk : Fits d .bool) : Emitted Place Fits Src Lab (.unary (.setcc c) .bool d)
  | jump {l : Label} (hl : Lab l) : Emitted Place Fits Src Lab (.jumpTo l)
  | jcc {c : Cond} {l : Label} (hl : Lab l) : Emitted Place Fits Src Lab (.unary (.jcc c) .void (.label l))
  | jumpIf {l : Label} {c : Expr} (hl : Lab l) (hc : Src c) :
      Emitted Place Fits Src Lab (.binary .jumpIf .void (.label l) c)

/-- A temporary of kind `k`. -/
structure IsTemp (Place : Expr → Prop) (Hard : HardReg → Prop) (k : Kind) (t : Expr) : Prop where
  place : Place t
  kind : t.kind = k
  free : t.isEffectFree = true
  hard : ∀ r, t = .reg r → ∃ h, r.id = .hard h ∧ Hard h

theorem temp_operand {f : Frame} {k : Kind} {p : Purpose} {s s' : Session} {t : Expr} (h : s.temp f k p = (.ok t, s')) :
    t.kind = k ∧ t.isEffectFree = true := by
  rcases temp_eq_ok h with ⟨r, hs, rfl⟩ | hs
  · obtain ⟨_, -, rfl, -⟩ := scratch_eq_ok hs
    exact ⟨rfl, rfl⟩
  · obtain ⟨_, -, -, rfl, -⟩ := stackTemp_eq_ok hs
    exact ⟨rfl, rfl⟩

/-- What is taken as a temporary is one, if the next scratch register and the next stack slot would be. -/
theorem IsTemp.of_temp {f : Frame} {Place : Expr → Prop} {Hard : HardReg → Prop} {k : Kind} {p : Purpose} {s s' : Session}
    {t : Expr} (h : s.temp f k p = (.ok t, s'))
    (hscratch : ∀ g, f.regs.scratch[s.scratchUsed]? = some g → Place (fixed k g) ∧ Hard g)
    (hslot : s.stackTemp f k p = (.ok t, s') → Place t) : IsTemp Place Hard k t := by
  obtain ⟨hk, hfree⟩ := temp_operand h
  rcases temp_eq_ok h with ⟨r, hs, rfl⟩ | hs
  · obtain ⟨g, hg, rfl, -⟩ := scratch_eq_ok hs
    refine ⟨(hscratch g hg).1, hk, hfree, ?_⟩
    rintro _ ⟨⟩
    exact ⟨g, rfl, (hscratch g hg).2⟩
  · refine ⟨hslot hs, hk, hfree, ?_⟩
    obtain ⟨_, -, -, rfl, -⟩ := stackTemp_eq_ok hs
    rintro _ ⟨⟩

/-- A property of computations and their results that passes on to sequences, and the failures that it allows. -/
structure Rules (f : Frame) where
  Holds : {α : Type} → Lower α → (α → Prop) → Prop
  Allowed : Error → Prop
  mono : ∀ {α : Type} {act : Lower α} {P Q : α → Prop}, Holds act P → (∀ a, P a → Q a) → Holds act Q
  bind : ∀ {α β : Type} {act : Lower α} {k : α → Lower β} {P : α → Prop} {Q : β → Prop}, Holds act P →
    (∀ a, Widens f (k a)) → (∀ a, P a → Holds (k a) Q) → Holds (act >>= k) Q
  lift : ∀ {α : Type} {x : Except Error α}, Clean Allowed x → Holds (liftM x : Lower α) fun a => x = .ok a
  read : Holds (MonadReader.read : Lower Frame) (· = f)
  get : Holds (MonadState.get : Lower Session) fun _ => True
  note : ∀ e, Holds (note e : Lower Unit) fun _ => True
  releasing : ∀ {α : Type} {act : Lower α} {Q : α → Prop}, Holds act Q → Holds (releasing act) Q

section Rules

variable {f : Frame} {R : Rules f} {α β : Type} {act : Lower α} {k : α → Lower β} {P : α → Prop} {Q : β → Prop}

theorem Rules.seq [hk : ∀ a, Widens f (k a)] (h : R.Holds act P) (hq : ∀ a, P a → R.Holds (k a) Q) : R.Holds (act >>= k) Q :=
  R.bind h hk hq

theorem Rules.pure {a : α} (h : P a) : R.Holds (Pure.pure a) P :=
  R.mono (show R.Holds (Pure.pure a) fun b => Except.ok a = .ok b from R.lift (.ok a)) fun b hb => by
    cases hb
    exact h

theorem Rules.throw {e : Error} (h : R.Allowed e) : R.Holds (MonadExcept.throw e : Lower α) P :=
  R.mono (show R.Holds (MonadExcept.throw e) fun b => Except.error e = .ok b from R.lift (.error h)) nofun

theorem Rules.forget (h : R.Holds act P) : R.Holds act fun _ => True := R.mono h fun _ _ => trivial

theorem Rules.forM {k : α → Lower Unit} (hw : ∀ a, Widens f (k a)) {xs : List α}
    (h : ∀ x ∈ xs, R.Holds (k x) fun _ => True) : R.Holds (xs.forM k) fun _ => True := by
  induction xs with
  | nil => exact pure trivial
  | cons x xs ih =>
    obtain ⟨hx, hxs⟩ := List.forall_mem_cons.1 h
    rw [List.forM]
    exact R.bind hx (fun _ => widens_forM hw xs) fun _ _ => ih hxs

/-- A call, where the law allows it, and to store and load the scratch registers around it. -/
theorem Rules.emitCall {S : Expr → Prop} {l : Label} {n : Option String} {sig : Signature} {args : List Expr}
    (hslot : ∀ k p, R.Holds (Lower.stackTemp k p) S)
    (hstore : ∀ r slot, S slot → R.Holds (emitAssign .int64 slot (fixed .int64 r)) fun _ => True)
    (hload : ∀ r ∈ f.regs.scratch, ∀ slot, S slot → R.Holds (emitAssign .int64 (fixed .int64 r) slot) fun _ => True)
    (hcall : R.Holds (Lower.emit (.call l n sig args)) fun _ => True) :
    R.Holds (emitCall (.call l n sig args)) fun v => v = if sig.value.isVoid then nothing else fixed sig.value rax := by
  have hsave : ∀ rs : List HardReg, (∀ r ∈ rs, r ∈ f.regs.scratch) →
      R.Holds (saveScratch rs) fun saved => ∀ p ∈ saved, p.1 ∈ f.regs.scratch ∧ S p.2 := by
    intro rs
    induction rs with
    | nil => exact fun _ => pure (by simp)
    | cons r rs ih =>
      intro hrs
      obtain ⟨hr, hrs⟩ := List.forall_mem_cons.1 hrs
      rw [saveScratch]
      refine seq (hslot _ _) fun slot hs => seq (hstore r slot hs) fun _ _ => seq (ih hrs) fun rest hrest => pure ?_
      exact List.forall_mem_cons.2 ⟨⟨hr, hs⟩, hrest⟩
  have hrestore : ∀ saved : List (HardReg × Expr), (∀ p ∈ saved, p.1 ∈ f.regs.scratch ∧ S p.2) →
      R.Holds (saved.forM fun p => emitAssign .int64 (fixed .int64 p.1) p.2) fun _ => True := fun saved hall =>
    forM (fun _ => inferInstance) fun p hp => hload p.1 (hall p hp).1 p.2 (hall p hp).2
  have hgrows : ∀ saved : List (HardReg × Expr),
      Grows f (saved.reverse.forM fun p => emitAssign .int64 (fixed .int64 p.1) p.2) := fun saved =>
    grows_forM (fun _ => inferInstance) _
  rw [emitCall_eq]
  refine seq (P := fun _ => True) ?_ fun _ _ => seq (P := fun _ => True) (R.releasing ?_) fun _ _ => pure rfl
  · split
    · exact pure trivial
    · exact R.note _
  · refine seq R.get fun s _ => seq R.read fun g hg => ?_
    subst hg
    refine seq (hsave _ fun r hr => List.mem_of_mem_take hr) fun saved hsaved => seq hcall fun _ _ => ?_
    exact hrestore _ fun p hp => hsaved p (List.mem_reverse.1 hp)

end Rules

/-- A property with what it asks of the single steps of selection. `Good` are the expressions of the source, `Target` the
ones that it assigns to, `Marked` the marks that selection may return to. -/
structure Law (f : Frame) extends Rules f where
  Good : Expr → Prop
  Target : Expr → Prop
  Place : Expr → Prop
  Fits : Expr → Kind → Prop
  Src : Expr → Prop
  Hard : HardReg → Prop
  Lab : Label → Prop
  Marked : Mark → Prop
  -- failures
  other : ∀ {e : Error}, e.isAddressOverflow = false → e.isUnplaced = false → Allowed e
  good_reads : ∀ {e} dst, Good e → Clean Allowed (reads f dst e)
  -- temporaries
  scratch : ∀ k p, Holds (Lower.scratch k p) fun r => Place (.reg r) ∧ ∃ h, r = .hard k h ∧ Hard h
  temp : ∀ k p, Holds (Lower.temp k p) (IsTemp Place Hard k)
  refuge : ∀ {e} dst, Good e → Holds (change fun f => refuge f e dst) fun chain =>
    ∀ c ∈ chain, Marked c.1 ∧ Place c.2 ∧ c.2.kind = .bool
  release : ∀ {m}, Marked m → Holds (modify (Session.release m) : Lower Unit) fun _ => True
  freeScratch : ∀ {h}, Hard h → Holds (freeScratch h) fun _ => True
  -- instructions
  emit : ∀ {e}, Emitted Place Fits Src Lab e → Holds (emit e) fun _ => True
  labelled : ∀ {body : Label → Lower Unit}, (∀ l, Grows f (body l)) → (∀ l, Lab l → Holds (body l) fun _ => True) →
    Holds (do let l ← newLabel; body l; Lower.emit (.label l)) fun _ => True
  call : ∀ {l n sig args}, Good (.call l n sig args) → Holds (emitCall (.call l n sig args)) fun v =>
    v = if sig.value.isVoid then nothing else fixed sig.value rax
  -- places and operands
  place_src : ∀ {d}, Place d → Src d
  place_fixed : ∀ {k h}, h ∈ [rax, rcx, rdx] → Place (fixed k h)
  place_scratch : ∀ {k h}, h ∈ f.regs.scratch → Hard h → Place (fixed k h)
  src_const : ∀ c, Src (.const c)
  src_reg : ∀ r, Src (.reg r)
  src_memAt : ∀ k ro m, Src (.memAt k ro m)
  src_unary : ∀ {op k v}, Src v → Src (.unary op k v)
  -- kinds that fit a place
  fits_kind : ∀ {d}, Fits d d.kind
  fits_unary : ∀ {op k x d}, Good (.unary op k x) → op = .neg ∨ op = .inv → Fits d k → Fits d x.kind
  fits_lnot : ∀ {k x d}, Good (.unary .lnot k x) → Fits d k → Fits d x.kind
  fits_arith : ∀ {op k x y d}, Good (.binary (.arith op) k x y) → Fits d k → Fits d x.kind
  fits_compare : ∀ {op k x y d}, Good (.binary (.compare op) k x y) → Fits d k → Fits d .bool
  fits_logic : ∀ {op k x y d}, Good (.binary (.logic op) k x y) → Fits d k ∨ Fits d .bool → Fits d x.kind ∧ Fits d y.kind
  fits_assign : ∀ {k x y d}, Good (.binary .assign k x y) → Fits d x.kind → Fits d y.kind
  -- expressions of the source
  good_src : ∀ {e}, Good e → Src e
  good_mem : ∀ {k ro a}, Good (.mem k ro a) → Good a
  good_unary : ∀ {op k x}, Good (.unary op k x) → Good x
  good_left : ∀ {op k x y}, Good (.binary op k x y) → Good x
  good_right : ∀ {op k x y}, Good (.binary op k x y) → Good y
  good_reg : ∀ {r v}, Good (.reg r) → f.resolve r = .ok v → Src v ∧ ∀ q h, v = .reg q → q.id = .hard h → Hard h
  good_assign : ∀ {k x y}, Good (.binary .assign k x y) → Target x
  good_compound : ∀ {op k x y}, Good (.binary (.compound op) k x y) → Target x
  target_reg : ∀ {r v}, Target (.reg r) → f.resolve r = .ok v → Place v
  target_mem : ∀ {k ro a m}, Target (.mem k ro a) → (∀ h ∈ m.regs, Hard h) → Place (.memAt k ro m)
  target_memAt : ∀ {k ro m}, Target (.memAt k ro m) → Place (.memAt k ro m)

namespace Law

variable {f : Frame} (L : Law f)

/-- An operand that `value` may give. -/
def Val (v : Expr) : Prop := L.Src v ∧ ∀ r, v = .reg r → ∃ h, r.id = .hard h ∧ L.Hard h

/-- The registers of the terms may be used up. -/
def Sum (t : Terms) : Prop := ∀ h ∈ t.regs, L.Hard h

variable {L}

open Rules (seq pure throw forget)

/-! ## Instructions on operands -/

section Operands

variable {k g : Kind} {dst src v e : Expr} {c : Const}

theorem exists_of_isReg {e : Expr} (h : e.isReg = true) : ∃ r, e = .reg r := by
  cases e <;> first | exact ⟨_, rfl⟩ | cases h

theorem warn (e : Expr) : L.Holds (warn e) fun _ => True := L.note _

theorem emitAssign (hd : L.Place dst) (hs : L.Src src) : L.Holds (emitAssign dst.kind dst src) fun _ => True :=
  L.emit (.assign hd hs)

theorem loadReg {r : Reg} (hr : L.Place (.reg r)) (hs : L.Src src) :
    L.Holds (Amd64.emitAssign k (.reg r) src) fun _ => True :=
  L.emit (.load hr hs)

theorem jcc {cond : Cond} {l : Label} (hl : L.Lab l) : L.Holds (jcc cond l) fun _ => True := L.emit (.jcc hl)

theorem storeConst (hd : L.Place dst) : L.Holds (storeConst dst c) fun _ => True := by
  refine L.releasing ?_
  split
  · refine seq (L.scratch _ _) fun r hr => ?_
    exact seq (loadReg hr.1 (L.src_const c)) fun _ _ => emitAssign hd (L.src_reg r)
  · exact emitAssign hd (L.src_const c)

theorem mov (hd : L.Place dst) (hs : L.Src src) : L.Holds (mov dst src) fun _ => True := by
  have hby : ∀ k p, L.Holds (do
      let t := Expr.reg (← Lower.scratch k p)
      Amd64.emitAssign k t src
      Amd64.emitAssign dst.kind dst t) fun _ => True := by
    intro k p
    refine seq (L.scratch k p) fun r hr => ?_
    exact seq (loadReg hr.1 hs) fun _ _ => emitAssign hd (L.src_reg r)
  unfold Amd64.mov
  split
  · exact pure trivial
  refine L.releasing ?_
  split
  · exact storeConst hd
  · split
    · exact hby _ _
    · split
      · exact hby _ _
      · exact emitAssign hd hs

theorem passThrough (hd : L.Place dst) (he : L.Src e) : L.Holds (passThrough dst e) fun _ => True :=
  seq (warn e) fun _ _ => emitAssign hd he

theorem toRegister (hv : L.Val v) : L.Holds (toRegister v) fun r => ∃ h, r.id = .hard h ∧ L.Hard h := by
  unfold Amd64.toRegister
  split
  · exact pure (hv.2 _ rfl)
  · refine seq (L.scratch _ _) fun r hr => ?_
    refine seq (mov hr.1 hv.1) fun _ _ => pure ?_
    obtain ⟨-, h, rfl, hh⟩ := hr
    exact ⟨h, rfl, hh⟩

theorem legalSource (hv : L.Val v) : L.Holds (legalSource dst v) L.Src := by
  unfold Amd64.legalSource
  split
  · exact pure hv.1
  · exact seq (toRegister hv) fun r _ => pure (L.src_reg r)

theorem src_atKind (hs : L.Src src) : L.Src (atKind k src) := by
  unfold atKind
  split
  · exact L.src_reg _
  · exact L.src_memAt _ _ _
  · exact hs

theorem widen (hd : L.Place dst) (hv : L.Val v) : L.Holds (widen dst k v) fun _ => True := by
  have hwide : ∀ src, L.Src src → L.Holds (do
      if dst.isReg then Amd64.emitAssign k dst (.unary .cast k src)
      else
        let t := Expr.reg (← Lower.scratch k (.note "widening cast"))
        Amd64.emitAssign k t (.unary .cast k src)
        Amd64.mov dst t) fun _ => True := by
    intro src hs
    split
    · rename_i hreg
      obtain ⟨r, rfl⟩ := exists_of_isReg hreg
      exact loadReg hd (L.src_unary hs)
    · refine seq (L.scratch _ _) fun r hr => ?_
      exact seq (loadReg hr.1 (L.src_unary hs)) fun _ _ => mov hd (L.src_reg r)
  unfold Amd64.widen
  dsimp only
  split
  · exact seq (toRegister hv) fun r _ => seq (pure (L.src_reg r)) hwide
  · exact seq (pure hv.1) hwide

theorem castInto {x : Lower Expr} (hd : L.Place dst) (hx : L.Holds x L.Val) :
    L.Holds (castInto dst g k x) fun _ => True := by
  refine L.bind hx (fun _ => by split <;> infer_instance) fun v hv => ?_
  split
  · exact seq (L.lift (clean_convert L.other _ k)) fun _ _ => storeConst hd
  · split
    · exact mov hd (src_atKind hv.1)
    · exact widen hd hv

theorem shiftInto {left : Bool} {y : Lower Expr} (hd : L.Place dst) (hy : L.Holds y L.Val) :
    L.Holds (shiftInto dst left y) fun _ => True := by
  have hby : ∀ n : Nat, L.Holds (Lower.emit (.binary (.compound (if left then .shl else .shr)) dst.kind dst
      (.const (Const.uint8 n)))) fun _ => True := fun n => L.emit (.compound hd (L.src_const _))
  refine L.bind hy (fun _ => by split <;> infer_instance) fun v hv => ?_
  split
  · dsimp only
    split
    · exact seq (P := fun _ => True) (throw (L.other rfl rfl)) fun _ _ => by
        split
        · exact hby _
        · split
          · exact hby _
          · exact storeConst hd
    · split
      · exact hby _
      · split
        · exact hby _
        · exact storeConst hd
  · exact seq (mov (L.place_fixed (by simp)) hv.1) fun _ _ => L.emit (.compound hd (L.src_reg _))

theorem divideInto {op : ArithOp} {y : Lower Expr} (hd : L.Place dst) (hy : L.Holds y L.Val) :
    L.Holds (divideInto dst op y) fun _ => True := by
  have hrax : ∀ k, L.Place (fixed k rax) := fun k => L.place_fixed (by simp)
  have hby : ∀ w, L.Src w → L.Holds (do
      Amd64.mov (fixed dst.kind rax) dst
      Lower.emit (.binary (.compound op) dst.kind (fixed dst.kind rax) w)
      Amd64.mov dst (fixed dst.kind rax)) fun _ => True := by
    intro w hw
    refine seq (mov (hrax _) (L.place_src hd)) fun _ _ => ?_
    exact seq (L.emit (.compound (hrax _) hw)) fun _ _ => mov hd (L.src_reg _)
  unfold Amd64.divideInto
  dsimp only
  split
  · exact seq hy fun v hv => seq (warn _) fun _ _ => L.emit (.compound hd hv.1)
  · refine seq hy fun v hv => ?_
    split
    · exact seq (pure hv.1) hby
    · exact seq (toRegister hv) fun r _ => seq (pure (L.src_reg r)) hby

theorem inverted (hv : L.Val v) : L.Holds (inverted dst v) L.Src := by
  unfold Amd64.inverted
  dsimp only
  split
  · exact legalSource ⟨L.src_const _, by rintro _ ⟨⟩⟩
  · refine seq (L.scratch _ _) fun r hr => seq (mov hr.1 hv.1) fun _ _ => ?_
    exact seq (loadReg hr.1 (L.src_unary (L.src_reg r))) fun _ _ => pure (L.src_reg r)

theorem opAssign {op : ArithOp} {y : Lower Expr} [Grows f y] (hd : L.Place dst) (hy : L.Holds y L.Val) :
    L.Holds (opAssign dst op y) fun _ => True := by
  have halu : ∀ {op : ArithOp} {d : Expr}, L.Place d →
      L.Holds (do Lower.emit (.binary (.compound op) d.kind d (← Amd64.legalSource d (← y)))) fun _ => True := fun hd =>
    seq hy fun v hv => seq (legalSource hv) fun w hw => L.emit (.compound hd hw)
  refine L.releasing ?_
  dsimp only
  cases op with
  | add | sub | and | or | xor => exact halu hd
  | andNot => exact seq hy fun v hv => seq (inverted hv) fun w hw => L.emit (.compound hd hw)
  | mul =>
    dsimp only
    split
    · exact seq hy fun v hv => seq (warn _) fun _ _ => L.emit (.compound hd hv.1)
    · split
      · refine seq (L.scratch _ _) fun r hr => seq (mov hr.1 (L.place_src hd)) fun _ _ => ?_
        obtain ⟨hp, h, rfl, -⟩ := hr
        exact seq (L.releasing (halu hp)) fun _ _ => mov hd (L.src_reg _)
      · exact halu hd
  | shl | shr => exact shiftInto hd hy
  | quo | rem => exact divideInto hd hy

theorem testZero (hv : L.Val v) : L.Holds (testZero k v) fun _ => True := by
  unfold Amd64.testZero
  split
  · exact L.emit (.test hv.1 hv.1)
  · dsimp only
    split
    · exact seq (pure hv.1) fun w hw => L.emit (.cmp hw (L.src_const _))
    · exact seq (toRegister hv) fun r _ => seq (pure (L.src_reg r)) fun w hw => L.emit (.cmp hw (L.src_const _))

theorem toPlace (hv : L.Val v) : L.Holds (toPlace v) L.Src := by
  unfold Amd64.toPlace
  split
  · exact seq (toRegister hv) fun r _ => pure (L.src_reg r)
  · exact pure hv.1

theorem testOperands {p q : Expr} (hp : L.Val p) (hq : L.Val q) : L.Holds (testOperands k p q) fun _ => True := by
  refine seq (toPlace hp) fun a ha => ?_
  split
  · exact L.emit (.test hq.1 ha)
  · exact seq (legalSource hq) fun w hw => L.emit (.test ha hw)

theorem testBits {x y : Lower Expr} [Grows f y] (hx : L.Holds x L.Val) (hy : L.Holds y L.Val) :
    L.Holds (testBits k x y) fun _ => True := by
  refine seq hx fun p hp => seq hy fun q hq => ?_
  split
  · exact testOperands hq hp
  · exact testOperands hp hq

theorem compareOperands {a b : Expr} (ha : L.Val a) (hb : L.Val b) : L.Holds (compareOperands k a b) fun _ => True :=
  seq (toPlace ha) fun _ hp => seq (legalSource hb) fun _ hw => L.emit (.cmp hp hw)

theorem compareFlags {cond : Cond} {x y : Lower Expr} [Grows f y] (hx : L.Holds x L.Val) (hy : L.Holds y L.Val) :
    L.Holds (compareFlags k cond x y) fun _ => True := by
  refine seq hx fun a ha => seq hy fun b hb => ?_
  split
  · exact seq (compareOperands hb ha) fun _ _ => pure trivial
  · exact seq (compareOperands ha hb) fun _ _ => pure trivial

theorem callValue {l : Label} {n : Option String} {sig : Signature} {args : List Expr} (h : L.Good (.call l n sig args)) :
    L.Holds (callValue (.call l n sig args)) L.Val := by
  refine seq (L.call h) fun v hv => ?_
  subst hv
  by_cases hvoid : sig.value.isVoid = true
  · rw [if_pos hvoid]
    exact pure ⟨L.src_const _, nofun⟩
  · rw [if_neg hvoid, if_neg (show ¬(fixed sig.value rax).kind.isVoid = true from hvoid)]
    exact seq (L.temp _ _) fun t ht => seq (mov ht.place (L.src_reg _)) fun _ _ => pure ⟨L.place_src ht.place, ht.hard⟩

end Operands

/-! ## Addresses -/

section Addresses

variable {k : Kind} {t : Terms} {v dst : Expr}

theorem Sum.mode {m : AddrMode} (ht : L.Sum t) (h : t.mode = .ok m) : ∀ r ∈ m.regs, L.Hard r := by
  obtain ⟨-, rfl⟩ := Terms.mode_eq_ok h
  exact ht

theorem foldTarget (ht : L.Sum t) : L.Holds t.foldTarget fun h => L.Hard h ∧ L.Place (fixed .ptr h) := by
  refine L.bind L.read (fun _ => ?_) fun g hg => ?_
  · dsimp only
    split
    · infer_instance
    · exact .of_grows (Grows.bind inferInstance fun r => by split <;> infer_instance)
  subst hg
  dsimp only
  split
  · rename_i r hr
    have hmem : r ∈ t.regs ∧ r ∈ g.regs.scratch := by
      rcases Option.or_eq_some_iff.1 hr with hb | ⟨-, hi⟩
      · obtain ⟨hb, hp⟩ := Option.filter_eq_some_iff.1 hb
        exact ⟨by simp [Terms.regs, hb], by simpa using hp⟩
      · obtain ⟨hi, hp⟩ := Option.filter_eq_some_iff.1 hi
        exact ⟨by simp [Terms.regs, hi], by simpa using hp⟩
    exact pure ⟨ht r hmem.1, L.place_scratch hmem.2 (ht r hmem.1)⟩
  · refine L.bind (L.scratch _ _) (fun r => by split <;> infer_instance) fun r hr => ?_
    obtain ⟨hp, h, rfl, hh⟩ := hr
    exact pure ⟨hh, hp⟩

theorem fold (ht : L.Sum t) : L.Holds t.fold fun t' => L.Sum t' ∧ t'.disp = t.disp ∧ t'.narrow = t.narrow := by
  have hclean : Clean L.Allowed ({ base := t.base, index := t.index } : Terms).mode :=
    clean_mode (.inr (show fitsDisp 0 = true by decide))
  refine seq (L.lift hclean) fun m _ => seq (foldTarget ht) fun r hr => ?_
  refine seq (loadReg hr.2 (L.src_unary (L.src_memAt _ _ _))) fun _ _ => ?_
  refine seq (P := fun _ => True) ?_ fun _ _ => pure ⟨?_, rfl, rfl⟩
  · cases hx : (t.index.map (·.1)).filter (· ≠ r) with
    | none => exact pure trivial
    | some x =>
      obtain ⟨hidx, -⟩ := Option.filter_eq_some_iff.1 hx
      exact L.freeScratch (ht x (by simp [Terms.regs, hidx]))
  · intro x hx
    have hx : x = r := by simpa [Terms.regs] using hx
    rw [hx]
    exact hr.1

theorem makeRoom (ht : L.Sum t) : L.Holds t.makeRoom fun t' => L.Sum t' ∧ t'.disp = t.disp ∧ t'.narrow = t.narrow := by
  unfold Terms.makeRoom
  split
  · exact fold ht
  · exact pure ⟨ht, rfl, rfl⟩

theorem place {h : HardReg} {c : Scale} (ht : L.Sum t) (hh : L.Hard h) :
    L.Holds (t.place h c) fun t' => L.Sum t' ∧ t'.disp = t.disp ∧ t'.narrow = t.narrow := by
  have hput : ∀ t : Terms, L.Sum t → L.Sum { t with index := some (h, c) } := by
    intro t ht x hx
    simp only [Terms.regs, Option.map_some, Option.toList_some, List.mem_append, List.mem_singleton] at hx
    rcases hx with hx | rfl
    · exact ht x (by simp [Terms.regs, Option.mem_toList.1 hx])
    · exact hh
  unfold Terms.place
  split
  · refine pure ⟨?_, rfl, rfl⟩
    intro x hx
    simp only [Terms.regs, Option.toList_some, List.mem_append, List.mem_singleton] at hx
    rcases hx with rfl | hx
    · exact hh
    · exact ht x (by simp [Terms.regs, Option.mem_toList.1 hx])
  · split
    · exact pure ⟨hput t ht, rfl, rfl⟩
    · exact seq (fold ht) fun t' ht' => pure ⟨hput t' ht'.1, ht'.2⟩

theorem toHard (hv : L.Val v) : L.Holds (toHard v) L.Hard := by
  refine L.bind (toRegister hv) (fun _ => by split <;> infer_instance) fun r hr => ?_
  obtain ⟨h, hid, hh⟩ := hr
  rw [hid]
  exact pure hh

theorem finish (ht : L.Sum t) : L.Holds t.finish fun m => ∀ r ∈ m.regs, L.Hard r := by
  unfold Terms.finish
  split
  · rename_i hfits
    exact L.mono (L.lift (clean_mode (by simpa using hfits))) fun m hm => ht.mode hm
  · refine seq (makeRoom (t := { t with disp := 0 }) ht) fun t₁ h₁ => ?_
    refine seq (toHard ⟨L.src_const _, nofun⟩) fun r hr => seq (place h₁.1 hr) fun t₂ h₂ => ?_
    have hzero : t₂.disp = 0 := h₂.2.1.trans h₁.2.1
    exact L.mono (L.lift (clean_mode (.inr (by rw [hzero]; decide)))) fun m hm => h₂.1.mode hm

theorem loadAddress {m : AddrMode} (hreg : dst.isReg = true) (hd : L.Place dst) :
    L.Holds (loadAddress dst k m) fun _ => True := by
  unfold Amd64.loadAddress
  split
  · exact mov hd (L.src_reg _)
  · obtain ⟨r, rfl⟩ := exists_of_isReg hreg
    exact loadReg hd (L.src_unary (L.src_memAt _ _ _))

end Addresses

/-! ## Logical operations -/

section Logic

variable {op : LogicOp} {p y dst : Expr} {left right : Expr → Lower Unit}

theorem unwind {chain : List (Mark × Expr)} (h : ∀ c ∈ chain, L.Marked c.1 ∧ L.Place c.2 ∧ c.2.kind = .bool)
    (hd : L.Place dst) :
    L.Holds (unwind dst chain) fun _ => True := by
  induction chain generalizing dst with
  | nil => exact pure trivial
  | cons c chain ih =>
    obtain ⟨hc, hchain⟩ := List.forall_mem_cons.1 h
    refine seq (ih hchain hc.2.1) fun _ _ => seq (mov hd (L.place_src hc.2.1)) fun _ _ => ?_
    exact L.release hc.1

theorem logicAt [Grows f (left p)] [Grows f (right p)] (hp : L.Place p) (hl : L.Holds (left p) fun _ => True)
    (hr : L.Holds (right p) fun _ => True) : L.Holds (logicAt op p left right) fun _ => True := by
  have heq : Amd64.logicAt op p left right = (do
      let l ← newLabel
      (do left p; Lower.emit (logicTest p); Lower.emit (logicJump op l); right p)
      Lower.emit (.label l)) := by
    simp only [Amd64.logicAt, bind_assoc]
    rfl
  have hgrows : ∀ l, Grows f (Lower.emit (logicJump op l)) := fun l => inferInstanceAs (Grows f (Lower.emit (.unary _ _ _)))
  have hgrows' : Grows f (Lower.emit (logicTest p)) := inferInstanceAs (Grows f (Lower.emit (.binary _ _ _ _)))
  rw [heq]
  refine L.labelled (fun _ => inferInstance) fun l hlab => seq hl fun _ _ => ?_
  refine seq (L.emit (.cmp (L.place_src hp) (L.src_const _))) fun _ _ => ?_
  exact seq (L.emit (.jcc hlab)) fun _ _ => hr

theorem logicInto {k : Kind} [∀ p, Grows f (left p)] [∀ p, Grows f (right p)] (hy : L.Good y) (hd : L.Place dst)
    (hk : L.Fits dst k)
    (hl : ∀ p, L.Place p → L.Fits p k ∨ L.Fits p .bool → L.Holds (left p) fun _ => True)
    (hr : ∀ p, L.Place p → L.Fits p k ∨ L.Fits p .bool → L.Holds (right p) fun _ => True) :
    L.Holds (logicInto op y dst left right) fun _ => True := by
  have hat : ∀ p, L.Place p → L.Fits p k ∨ L.Fits p .bool → L.Holds (Amd64.logicAt op p left right) fun _ => True :=
    fun p hp hf => logicAt hp (hl p hp hf) (hr p hp hf)
  refine seq L.read fun g hg => ?_
  subst hg
  refine seq (L.lift (L.good_reads dst hy).hazard) fun b _ => ?_
  split
  · refine L.releasing (seq (L.refuge dst hy) fun chain hchain => ?_)
    have hplace : L.Place ((chain.getLast?.map (·.2)).getD dst) ∧ (L.Fits ((chain.getLast?.map (·.2)).getD dst) k ∨
        L.Fits ((chain.getLast?.map (·.2)).getD dst) .bool) := by
      cases hlast : chain.getLast? with
      | none => exact ⟨hd, .inl hk⟩
      | some c =>
        obtain ⟨-, hc, hkind⟩ := hchain c (List.mem_of_getLast? hlast)
        exact ⟨hc, .inr (hkind ▸ L.fits_kind)⟩
    exact seq (hat _ hplace.1 hplace.2) fun _ _ => unwind hchain hd
  · exact hat dst hd (.inl hk)

end Logic

/-! ## Expressions -/

/-- Whatever is made of an expression obeys the law. -/
structure Selects (L : Law f) (e : Expr) : Prop where
  value : L.Holds (value e) L.Val
  into : ∀ dst origin, L.Place dst → L.Fits dst e.kind → L.Holds (into dst e origin) fun _ => True
  target : L.Target e → L.Holds (resolveTarget e) fun d => L.Place d ∧ d.kind = e.kind ∧ d.isEffectFree = true
  term : ∀ t, L.Sum t → L.Holds (addTerm t e) L.Sum
  bits : ∀ k a m, e = .binary (.arith .and) k a m → L.Holds (Amd64.value a) L.Val ∧ L.Holds (Amd64.value m) L.Val

section Expressions

variable {x y e : Expr}

theorem addOpaque (hv : L.Holds (value e) L.Val) {t : Terms} (ht : L.Sum t) : L.Holds (addOpaque t e) L.Sum := by
  rw [Amd64.addOpaque]
  refine seq (makeRoom ht) fun t₁ h₁ => seq hv fun v hv => seq (toHard hv) fun r hr => ?_
  exact L.mono (place h₁.1 hr) fun _ h => h.1

theorem addNode (hx : L.Selects x) (hy : L.Selects y) {t : Terms} (ht : L.Sum t) (shape : Shape) :
    L.Holds (addNode t shape x y) L.Sum := by
  rw [Amd64.addNode.eq_def]
  cases shape with
  | sum => exact seq (hx.term t ht) fun t₁ h₁ => hy.term t₁ h₁
  | difference c => exact seq (hx.term t ht) fun t₁ h₁ => pure h₁
  | scaled s =>
    refine seq (makeRoom ht) fun t₁ h₁ => seq hx.value fun v hv => seq (toHard hv) fun r hr => ?_
    exact L.mono (place h₁.1 hr) fun _ h => h.1
  | doubled s =>
    refine seq hx.value fun v hv => seq (toHard hv) fun r hr => pure ?_
    intro q hq
    have hq : q = r := by simpa [Terms.regs] using hq
    exact hq ▸ hr

theorem address (he : L.Selects e) : L.Holds (address e) fun m => ∀ r ∈ m.regs, L.Hard r := by
  rw [Amd64.address]
  exact seq (he.term _ (by simp [Sum, Terms.regs])) fun t ht => finish ht

theorem leaInto {dst : Expr} {k : Kind} {op : ArithOp} (hx : L.Selects x) (hy : L.Selects y) (hreg : dst.isReg = true)
    (hd : L.Place dst) : L.Holds (leaInto dst k op x y) fun _ => True := by
  rw [Amd64.leaInto]
  split
  · exact pure trivial
  · rename_i shape _
    refine seq (addNode hx hy (by simp [Sum, Terms.regs]) shape) fun t ht => seq (finish ht) fun m _ => ?_
    exact seq (loadAddress hreg hd) fun _ _ => pure trivial

set_option synthInstance.maxSize 4096 in
theorem arith {dst : Expr} {k : Kind} {op : ArithOp} {origin : Option Expr} (gx : L.Good x) (gy : L.Good y)
    (hx : L.Selects x) (hy : L.Selects y)
    (hd : L.Place dst) (hk : L.Fits dst k) (hfits : ∀ d, L.Fits d k → L.Fits d x.kind) :
    L.Holds (arith dst k op x y origin) fun _ => True := by
  rw [Amd64.arith]
  refine seq L.read fun g hg => ?_
  subst hg
  refine seq (L.lift ((L.good_reads dst gx).isPlace origin)) fun b _ => ?_
  split
  · exact opAssign hd hy.value
  refine seq (P := fun _ => True) ?_ fun b _ => ?_
  · split
    · refine seq L.read fun g hg => ?_
      subst hg
      exact forget (L.lift ((L.good_reads dst gy).isPlace origin))
    · exact pure trivial
  split
  · exact opAssign hd hx.value
  refine seq (P := fun _ => True) ?_ fun b _ => ?_
  · split
    · rename_i hreg
      exact L.releasing (leaInto hx hy (by simp_all) hd)
    · exact pure trivial
  split
  · exact pure trivial
  refine seq L.read fun g hg => ?_
  subst hg
  refine seq (L.lift (L.good_reads dst gy).hazard) fun b _ => ?_
  split
  · refine L.releasing (seq (L.temp _ _) fun t ht => ?_)
    refine seq (hx.into t none ht.place (hfits t (ht.kind ▸ L.fits_kind))) fun _ _ => ?_
    exact seq (opAssign ht.place hy.value) fun _ _ => mov hd (L.place_src ht.place)
  · exact seq (hx.into dst none hd (hfits dst hk)) fun _ _ => opAssign hd hy.value

theorem flags {op : CompareOp} (hx : L.Selects x) (hy : L.Selects y) : L.Holds (flags op x y) fun _ => True := by
  unfold Amd64.flags
  refine L.releasing ?_
  split
  · split
    · rename_i k a m
      obtain ⟨ha, hm⟩ := hx.bits k a m rfl
      exact seq (testBits ha hm) fun _ _ => pure trivial
    · exact seq hx.value fun v hv => seq (testZero hv) fun _ _ => pure trivial
  · exact compareFlags hx.value hy.value

/-- An operation is computed into a temporary, which is then the operand. -/
theorem value_of_into (hv : value e = do let t ← Lower.temp e.kind (.value e); Amd64.into t e none; return t)
    (hinto : ∀ dst origin, L.Place dst → L.Fits dst e.kind → L.Holds (into dst e origin) fun _ => True) :
    L.Holds (value e) L.Val := by
  rw [hv]
  refine seq (L.temp _ _) fun t ht => seq (hinto t none ht.place (ht.kind ▸ L.fits_kind)) fun _ _ => ?_
  exact pure ⟨L.place_src ht.place, ht.hard⟩

theorem target_of_ne {P : Expr → Prop} (h : resolveTarget e = MonadExcept.throw (.notAssignable e)) :
    L.Holds (resolveTarget e) P := by
  rw [h]
  exact throw (L.other rfl rfl)

theorem selects_unary {op : UnaryOp} {k : Kind} (hg : L.Good (.unary op k x)) (hx : L.Selects x) :
    L.Selects (.unary op k x) := by
  have hinto : ∀ dst origin, L.Place dst → L.Fits dst k → L.Holds (into dst (.unary op k x) origin) fun _ => True := by
    intro dst origin hd hk
    have hpass := passThrough hd (L.good_src hg)
    have hself : L.Holds (Amd64.emitAssign k dst (.unary op k dst)) fun _ => True := L.emit (.self hd hk)
    rw [Amd64.into.eq_def]
    cases op with
    | neg =>
      dsimp only
      split
      · exact seq (hx.into dst none hd (L.fits_unary hg (.inl rfl) hk)) fun _ _ => hself
      · exact hpass
    | inv =>
      dsimp only
      split
      · exact seq (hx.into dst none hd (L.fits_unary hg (.inr rfl) hk)) fun _ _ => hself
      · exact hpass
    | lnot => exact seq (hx.into dst none hd (L.fits_lnot hg hk)) fun _ _ => L.emit (.flip hd (L.src_const _))
    | cast =>
      dsimp only
      split
      · exact L.releasing (castInto hd hx.value)
      · exact hpass
    | _ => exact hpass
  have hvalue : L.Holds (value (.unary op k x)) L.Val := value_of_into (by rw [Amd64.value.eq_def]) hinto
  refine ⟨hvalue, hinto, fun _ => target_of_ne (by rw [resolveTarget.eq_def]), fun t ht => ?_, nofun⟩
  have hterm := addOpaque hvalue ht
  rw [addTerm.eq_def]
  cases op with
  | cast =>
    dsimp only
    split
    · exact hx.term t ht
    · exact hterm
  | _ => exact hterm

/-- An assignment gives its target. -/
theorem assign {k : Kind} (hg : L.Good (.binary .assign k x y)) (hx : L.Selects x) (hy : L.Selects y) :
    L.Holds (assign x y) fun d => L.Place d ∧ d.isEffectFree = true := by
  rw [Amd64.assign]
  refine seq (hx.target (L.good_assign hg)) fun d hd => ?_
  have hfits : L.Fits d y.kind := L.fits_assign hg (hd.2.1 ▸ L.fits_kind)
  exact seq (hy.into d (some x) hd.1 hfits) fun _ _ => pure ⟨hd.1, hd.2.2⟩

theorem compound {op : ArithOp} {k : Kind} (hg : L.Good (.binary (.compound op) k x y)) (hx : L.Selects x)
    (hy : L.Selects y) : L.Holds (compound op x y) fun d => L.Place d ∧ d.isEffectFree = true := by
  rw [Amd64.compound]
  exact seq (hx.target (L.good_compound hg)) fun d hd => seq (opAssign hd.1 hy.value) fun _ _ => pure ⟨hd.1, hd.2.2⟩

theorem selects_binary {op : BinaryOp} {k : Kind} (hg : L.Good (.binary op k x y)) (hx : L.Selects x) (hy : L.Selects y) :
    L.Selects (.binary op k x y) := by
  have hinto : ∀ dst origin, L.Place dst → L.Fits dst k → L.Holds (into dst (.binary op k x y) origin) fun _ => True := by
    intro dst origin hd hk
    have hpass := passThrough hd (L.good_src hg)
    rw [Amd64.into.eq_def]
    cases op with
    | arith op =>
      dsimp only
      split
      · exact arith (L.good_left hg) (L.good_right hg) hx hy hd hk fun d => L.fits_arith hg
      · exact hpass
    | compare op =>
      dsimp only
      split
      · exact seq (flags hx hy) fun _ _ => L.emit (.setcc hd (L.fits_compare hg hk))
      · exact hpass
    | logic op =>
      exact logicInto (L.good_right hg) hd hk (fun p hp hf => hx.into p none hp (L.fits_logic hg hf).1)
        fun p hp hf => hy.into p none hp (L.fits_logic hg hf).2
    | assign => exact seq (assign hg hx hy) fun v hv => mov hd (L.place_src hv.1)
    | compound op => exact seq (compound hg hx hy) fun v hv => mov hd (L.place_src hv.1)
    | jumpIf | cmp | test => exact hpass
  have hvalue : L.Holds (value (.binary op k x y)) L.Val := value_of_into (by rw [Amd64.value.eq_def]) hinto
  refine ⟨hvalue, hinto, fun _ => target_of_ne (by rw [resolveTarget.eq_def]), fun t ht => ?_, ?_⟩
  · have hterm := addOpaque hvalue ht
    rw [addTerm.eq_def]
    cases op with
    | arith op =>
      dsimp only
      split
      · exact addNode hx hy ht _
      · exact hterm
    | _ => exact hterm
  · rintro k a m ⟨⟩
    exact ⟨hx.value, hy.value⟩

/-- An expression that is one term of an address. -/
theorem selects_leaf (hvalue : L.Holds (value e) L.Val)
    (hinto : ∀ dst origin, L.Place dst → L.Fits dst e.kind → L.Holds (into dst e origin) fun _ => True)
    (htarget : L.Target e → L.Holds (resolveTarget e) fun d => L.Place d ∧ d.kind = e.kind ∧ d.isEffectFree = true)
    (hterm : ∀ t, addTerm t e = Amd64.addOpaque t e)
    (hbits : ∀ k a m, e ≠ .binary (.arith .and) k a m) : L.Selects e :=
  ⟨hvalue, hinto, htarget, fun t ht => hterm t ▸ addOpaque hvalue ht, fun k a m h => absurd h (hbits k a m)⟩

/-- The place of a register has its kind. -/
theorem resolved_kind {r : Reg} {v : Expr} (h : f.resolve r = .ok v) : v.kind = r.kind ∧ v.isEffectFree = true := by
  unfold Frame.resolve at h
  repeat' split at h
  all_goals cases h <;> exact ⟨rfl, rfl⟩

/-- The place of a register is an operand: if it is a register, it is one of the machine. -/
theorem val_resolved {r : Reg} {v : Expr} (hg : L.Good (.reg r)) (h : f.resolve r = .ok v) : L.Val v := by
  obtain ⟨hsrc, hhard⟩ := L.good_reg hg h
  refine ⟨hsrc, fun q hq => ?_⟩
  obtain ⟨g, hid⟩ : ∃ g, q.id = .hard g := by
    subst hq
    unfold Frame.resolve at h
    repeat' split at h
    all_goals cases h
    · exact ⟨_, ‹_›⟩
    · exact ⟨_, rfl⟩
  exact ⟨g, hid, hhard q g hq hid⟩

theorem selects (e : Expr) (hg : L.Good e) : L.Selects e := by
  induction e with
  | unary op k x ih => exact selects_unary hg (ih (L.good_unary hg))
  | binary op k x y ihx ihy => exact selects_binary hg (ihx (L.good_left hg)) (ihy (L.good_right hg))
  | mem k ro a ih =>
    have ha := address (ih (L.good_mem hg))
    refine selects_leaf ?_ (fun dst origin hd _ => ?_) (fun ht => ?_) (fun t => by rw [addTerm.eq_def]) nofun
    · rw [Amd64.value.eq_def]
      exact seq ha fun m _ => pure ⟨L.src_memAt _ _ _, nofun⟩
    · rw [Amd64.into.eq_def]
      exact L.releasing (seq ha fun m _ => mov hd (L.src_memAt _ _ _))
    · rw [resolveTarget.eq_def]
      exact seq ha fun m hm => pure ⟨L.target_mem ht hm, rfl, rfl⟩
  | const c =>
    refine ⟨?_, fun dst origin hd _ => ?_, fun _ => target_of_ne (by rw [resolveTarget.eq_def]), fun t ht => ?_, nofun⟩
    · rw [Amd64.value.eq_def]
      exact pure ⟨L.src_const c, nofun⟩
    · rw [Amd64.into.eq_def]
      exact storeConst hd
    · rw [addTerm.eq_def]
      exact pure ht
  | reg r =>
    have hresolve : L.Holds (resolve r) fun v => f.resolve r = .ok v := by
      refine seq L.read fun g hgf => ?_
      subst hgf
      exact L.lift (L.good_reads (.reg r) hg).resolve
    refine selects_leaf ?_ (fun dst origin hd _ => ?_) (fun ht => ?_) (fun t => by rw [addTerm.eq_def]) nofun
    · rw [Amd64.value.eq_def]
      exact L.mono hresolve fun v hv => val_resolved hg hv
    · rw [Amd64.into.eq_def]
      exact L.releasing (seq hresolve fun v hv => mov hd (L.good_reg hg hv).1)
    · rw [resolveTarget.eq_def]
      exact L.mono hresolve fun v hv => ⟨L.target_reg ht hv, resolved_kind hv⟩
  | memAt k ro m =>
    refine selects_leaf ?_ (fun dst origin hd _ => ?_) (fun ht => ?_) (fun t => by rw [addTerm.eq_def]) nofun
    · rw [Amd64.value.eq_def]
      exact pure ⟨L.src_memAt k ro m, nofun⟩
    · rw [Amd64.into.eq_def]
      exact L.releasing (mov hd (L.src_memAt k ro m))
    · rw [resolveTarget.eq_def]
      exact pure ⟨L.target_memAt ht, rfl, rfl⟩
  | label l =>
    refine selects_leaf ?_ (fun dst origin hd _ => ?_) (fun _ => target_of_ne (by rw [resolveTarget.eq_def]))
      (fun t => by rw [addTerm.eq_def]) nofun
    · rw [Amd64.value.eq_def]
      exact pure ⟨L.good_src hg, nofun⟩
    · rw [Amd64.into.eq_def]
      exact L.releasing (mov hd (L.good_src hg))
  | call l n sig args =>
    refine selects_leaf ?_ (fun dst origin hd _ => ?_) (fun _ => target_of_ne (by rw [resolveTarget.eq_def]))
      (fun t => by rw [addTerm.eq_def]) nofun
    · rw [Amd64.value.eq_def]
      exact callValue hg
    · rw [Amd64.into.eq_def]
      refine seq (L.call hg) fun v hv => ?_
      subst hv
      by_cases hvoid : sig.value.isVoid = true
      · rw [if_pos hvoid]
        exact pure trivial
      · rw [if_neg hvoid, if_neg (show ¬(fixed sig.value rax).kind.isVoid = true from hvoid)]
        exact mov hd (L.src_reg _)
  | ret vs =>
    have hinto : ∀ dst origin, L.Place dst → L.Fits dst .void → L.Holds (into dst (.ret vs) origin) fun _ => True := by
      intro dst origin hd _
      rw [Amd64.into.eq_def]
      exact passThrough hd (L.good_src hg)
    exact selects_leaf (value_of_into (by rw [Amd64.value.eq_def]) hinto) hinto
      (fun _ => target_of_ne (by rw [resolveTarget.eq_def])) (fun t => by rw [addTerm.eq_def]) nofun

end Expressions

/-! ## Conditional jumps -/

theorem jumpIf (c : Expr) (hg : L.Good c) : ∀ l sense, L.Lab l → L.Holds (jumpIf l c sense) fun _ => True := by
  have htest : ∀ (c : Expr) (l : Label) (sense : Bool), L.Good c → L.Lab l → L.Holds (do
      Lower.releasing do Amd64.testZero .bool (← value c)
      Amd64.jcc (if sense then .ne else .eq) l) fun _ => True := fun c l sense hc hl =>
    seq (L.releasing (seq (selects c hc).value fun v hv => testZero hv)) fun _ _ => jcc hl
  induction c with
  | const c =>
    intro l sense hl
    rw [Amd64.jumpIf]
    split
    · exact L.emit (.jump hl)
    · exact pure trivial
  | reg r => exact fun l sense hl => htest _ l sense hg hl
  | mem k ro a => exact fun l sense hl => htest _ l sense hg hl
  | memAt k ro m => exact fun l sense hl => htest _ l sense hg hl
  | label l' => exact fun l sense hl => htest _ l sense hg hl
  | ret vs => exact fun l sense hl => htest _ l sense hg hl
  | call => exact fun l sense hl => htest _ l sense hg hl
  | unary op k x ih =>
    intro l sense hl
    by_cases hop : op = .lnot
    · subst hop
      rw [Amd64.jumpIf]
      exact ih (L.good_unary hg) l _ hl
    · rw [Amd64.jumpIf]
      · exact htest _ l sense hg hl
      all_goals simp [hop]
  | binary op k x y ihx ihy =>
    intro l sense hl
    have ihx := ihx (L.good_left hg)
    have ihy := ihy (L.good_right hg)
    cases op with
    | compare op =>
      have hx := selects x (L.good_left hg)
      have hy := selects y (L.good_right hg)
      rw [Amd64.jumpIf]
      split
      · exact seq (flags hx hy) fun _ _ => jcc hl
      · refine seq (warn _) fun _ _ => L.emit (.jumpIf hl ?_)
        split
        · exact L.good_src hg
        · exact L.src_unary (L.good_src hg)
    | logic op =>
      rw [Amd64.jumpIf]
      split
      · have heq : (do
            let skip ← newLabel
            Amd64.jumpIf skip x !sense
            Amd64.jumpIf l y sense
            Lower.emit (.label skip)) = (do
            let skip ← newLabel
            (do Amd64.jumpIf skip x !sense; Amd64.jumpIf l y sense)
            Lower.emit (.label skip)) := by simp only [bind_assoc]
        rw [heq]
        exact L.labelled (fun _ => inferInstance) fun skip hskip => seq (ihx skip _ hskip) fun _ _ => ihy l sense hl
      · exact seq (ihx l sense hl) fun _ _ => ihy l sense hl
    | arith | assign | compound | jumpIf | cmp | test =>
      rw [Amd64.jumpIf]
      · exact htest _ l sense hg hl
      all_goals simp

end Law

end Amd64

end JitBackend
