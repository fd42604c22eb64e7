import JitBackend.Proofs.Amd64.Integral
import JitBackend.Proofs.Amd64.Operations

/-!
# Assignments to registers

At a position of a function, a machine represents a store if every soft register whose interval contains the position
has its value in its place and the memory outside of the stack area is that of the store. The code of an assignment to a
soft register leads from a machine that represents a store to one that represents the store after it.
-/

namespace JitBackend

/-! ## Registers of a position -/

/-- Every soft register is mentioned at one kind. -/
def Flat.OneKind (f : Flat) : Prop :=
  ∀ t ∈ f.touches, ∀ t' ∈ f.touches, t.1.id.isSoft = true → t.1.id = t'.1.id → t.1.kind = t'.1.kind

theorem Flat.OneKind.of_all {f : Flat} (h : f.touches.all (fun t => f.touches.all fun t' =>
    t.1.id != t'.1.id || t.1.kind == t'.1.kind) = true) : f.OneKind := by
  intro t ht t' ht' _ hid
  have hkind := List.all_eq_true.1 (List.all_eq_true.1 h t ht) t' ht'
  simpa [hid] using hkind

/-- The register of an interval. -/
def Interval.reg (iv : Interval) : Reg := ⟨iv.kind, .soft iv.id, false⟩

/-- The interval is that of the register `r`, and contains the position `p`. -/
structure Interval.Spans (iv : Interval) (f : Flat) (p : Nat) (r : Reg) : Prop where
  mem : iv ∈ f.intervals
  covers : iv.covers p = true
  id : r.id = .soft iv.id
  kind : r.kind = iv.kind

/-- A register that an expression mentions has an interval that contains the position of the expression. -/
theorem Flat.OneKind.spans {f : Flat} (h : f.OneKind) {i : Nat} {e : Expr} (he : f.code[i]? = some e) {r : Reg}
    (hr : r ∈ e.regs) (hsoft : r.id.isSoft = true) : ∃ iv : Interval, iv.Spans f (i + 1) r := by
  have ht : (r, i + 1) ∈ f.touches := by
    refine List.mem_append_right _ (List.mem_flatMap.2 ⟨(e, i + 1), Flat.mem_positions.2 ⟨by omega, he⟩, ?_⟩)
    exact List.mem_map.2 ⟨r, hr, rfl⟩
  cases hid : r.id with
  | hard g =>
    rw [hid] at hsoft
    cases hsoft
  | soft id =>
    obtain ⟨iv, hiv, rfl, hp⟩ := f.noted_intervals.spans _ ht id hid
    obtain ⟨t, ht', hid', hk⟩ := f.noted_intervals.source iv hiv
    refine ⟨iv, hiv, hp, hid, ?_⟩
    rw [← hk]
    exact h _ ht _ ht' hsoft (hid.trans hid'.symm)

namespace Amd64

open Lower

section Positions

variable {flat : Flat} {log : Log} {A : Activation} {p : Nat} {r r' : Reg} {iv jv : Interval} {m m' : Machine} {q q' : Expr}

theorem nodup_regs : scan.regs.Nodup := by decide

/-- The place of a register follows from that of its interval. -/
theorem resolve_interval (hA : A.frame = frameOf flat log) (h : iv.Spans flat p r) :
    (∃ g, g ∈ allocatable ∧ A.frame.alloc.get? iv.id = some (.reg g) ∧
      A.frame.resolve r = .ok (.reg ⟨r.kind, .hard g, r.readOnly⟩)) ∨
    ∃ o : Nat, o + slotSize iv.kind ≤ A.frame.alloc.frame ∧ A.frame.alloc.get? iv.id = some (.stack rsp o) ∧
      A.frame.resolve r = .ok (.memAt r.kind r.readOnly (.ofBase rsp (.ofInt 32 o))) := by
  obtain ⟨loc, hloc, hplace⟩ := (LinearScan.allocate_spec nodup_regs flat log).placed iv h.mem
  have hget : A.frame.alloc.get? iv.id = some loc := by rw [hA]; exact hloc
  rcases hplace with ⟨g, hg, rfl⟩ | ⟨o, rfl, -, hle⟩
  · refine .inl ⟨g, hg, hget, ?_⟩
    simp only [Frame.resolve, h.id, Allocation.get, hget]
  · refine .inr ⟨o, ?_, hget, ?_⟩
    · rw [hA]
      exact hle
    · simp only [Frame.resolve, h.id, Allocation.get, hget]
      rfl

theorem placed_of_interval (hA : A.frame = frameOf flat log) (h : iv.Spans flat p r) : Placed A.frame r := by
  rcases resolve_interval hA h with ⟨g, hg, -, hres⟩ | ⟨o, hle, -, hres⟩
  · exact .reg g (List.mem_cons_of_mem _ hg) hres
  · refine .slot o ?_ hres
    rw [h.kind]
    exact (Nat.add_le_add_left (size_le_slotSize _) _).trans hle

theorem resolve_of_spans (hA : A.frame = frameOf flat log) (h : iv.Spans flat p r) : ∃ q, A.frame.resolve r = .ok q := by
  rcases resolve_interval hA h with ⟨g, -, -, hres⟩ | ⟨o, -, -, hres⟩
  · exact ⟨_, hres⟩
  · exact ⟨_, hres⟩

/-- One register has one place. -/
theorem samePlace_of_spans (hA : A.frame = frameOf flat log) (h : iv.Spans flat p r) (h' : jv.Spans flat p r')
    (hid : jv.id = iv.id) (hq : A.frame.resolve r = .ok q) (hq' : A.frame.resolve r' = .ok q') : samePlace q' q = true := by
  obtain rfl : jv = iv := List.inj_on_of_nodup_map flat.noted_intervals.nodup h'.mem h.mem hid
  have hk : r'.kind = r.kind := h'.kind.trans h.kind.symm
  rcases resolve_interval hA h with ⟨g, -, hget, hres⟩ | ⟨o, -, hget, hres⟩ <;>
    rcases resolve_interval hA h' with ⟨g', -, hget', hres'⟩ | ⟨o', -, hget', hres'⟩ <;>
    cases hget.symm.trans hget' <;> cases hres.symm.trans hq <;> cases hres'.symm.trans hq' <;> simp [samePlace, hk]

/-- The cells of the place of a register: a value can be computed there, and neither the memory of the program nor the
place of another register of the position is affected. -/
structure Site (A : Activation) (flat : Flat) (p : Nat) (iv : Interval) (q : Expr) (T : Set Cell) : Prop where
  dest : ∀ μ m, m.regs rsp = A.sp → Dest A μ m q T
  rsp : Cell.reg rsp ∉ T
  outside : ∀ b, b ∉ A.stack → Cell.byte b ∉ T
  apart : ∀ {jv : Interval} {r q'} {m : Machine}, jv.Spans flat p r → jv.id ≠ iv.id → A.frame.resolve r = .ok q' →
    m.regs Amd64.rsp = A.sp → Disjoint (m.cells q') T

/-- Two registers of a position do not disturb each other. -/
theorem separate_of_spans {loc loc' : Location} (hA : A.frame = frameOf flat log) (h : iv.Spans flat p r)
    (hj : jv.Spans flat p r') (hne : jv.id ≠ iv.id) (hloc : A.frame.alloc.get? iv.id = some loc)
    (hloc' : A.frame.alloc.get? jv.id = some loc') : LinearScan.Separate iv loc jv loc' := by
  rw [hA] at hloc hloc'
  exact (LinearScan.allocate_spec nodup_regs flat log).apart iv h.mem jv hj.mem (Ne.symm hne) loc loc' hloc hloc'

theorem site_reg {g : HardReg} {ro : Bool} (hA : A.frame = frameOf flat log) (h : iv.Spans flat p r)
    (hsc : r.kind.isScalar = true) (hg : g ∈ allocatable) (hget : A.frame.alloc.get? iv.id = some (.reg g)) :
    Site A flat p iv (.reg ⟨r.kind, .hard g, ro⟩) {.reg g} := by
  have hgpr : ∀ g ∈ allocatable, IsGpr g ∧ g ≠ rsp := by decide
  obtain ⟨hgpr, hne⟩ := hgpr g hg
  refine ⟨fun μ m _ => .reg hsc hgpr hne (Activation.not_free_of_home (List.mem_cons_of_mem _ hg)), ?_, ?_, ?_⟩
  · rintro ⟨⟩
    exact hne rfl
  · rintro b - ⟨⟩
  · intro jv r' q' m hj hid hq' hsp
    have hcov := Interval.covers_iff.1 h.covers
    have hjcov := Interval.covers_iff.1 hj.covers
    rw [Set.disjoint_singleton_right]
    rcases resolve_interval hA hj with ⟨g', hg', hget', hres'⟩ | ⟨o', hle', hget', hres'⟩
    · cases hres'.symm.trans hq'
      rintro ⟨_, ⟨⟩, ⟨⟩⟩
      rcases separate_of_spans hA h hj hid hget hget' rfl with hlt | hlt <;> omega
    · cases hres'.symm.trans hq'
      rintro (⟨g', hg', ⟨⟩⟩ | hb)
      · have hrsp : g = rsp := by simpa [AddrMode.regs, AddrMode.ofBase] using hg'
        exact hne hrsp
      · exact reg_not_mem_bytesAt hb

theorem site_slot {o : Nat} {ro : Bool} (hA : A.frame = frameOf flat log) (h : iv.Spans flat p r)
    (hsc : r.kind.isScalar = true) (hle : o + slotSize iv.kind ≤ A.frame.alloc.frame)
    (hget : A.frame.alloc.get? iv.id = some (.stack rsp o)) :
    Site A flat p iv (.memAt r.kind ro (.ofBase rsp (.ofInt 32 o))) (bytesAt (A.sp + .ofNat 64 o) r.kind.size) := by
  have hfits := A.fits
  have hsize : r.kind.size ≤ slotSize iv.kind := h.kind ▸ size_le_slotSize _
  have hcell : ∀ {c}, c ∈ bytesAt (A.sp + .ofNat 64 o) r.kind.size →
      ∃ b, c = .byte b ∧ o ≤ (b - A.sp).toNat ∧ (b - A.sp).toNat < o + r.kind.size := by
    rintro c ⟨b, rfl, hb⟩
    exact ⟨b, rfl, (mem_bytesAt_slot (by omega)).1 ⟨b, rfl, hb⟩⟩
  refine ⟨?_, reg_not_mem_bytesAt, ?_, ?_⟩
  · intro μ m hsp
    rw [slot_eq, ← address_slot hsp (by omega)]
    refine .mem hsc ?_ ?_
    · intro g hg
      have hrsp : g = rsp := by simpa [AddrMode.regs, AddrMode.ofBase] using hg
      rw [hrsp]
      exact Activation.rsp_not_free
    · rw [address_slot hsp (by omega), Set.disjoint_left]
      intro c hc hf
      obtain ⟨b, rfl, -, hlt⟩ := hcell hc
      have := hf.1
      omega
  · intro b hb hmem
    obtain ⟨_, ⟨⟩, -, hlt⟩ := hcell hmem
    exact hb (show (b - A.sp).toNat < _ by omega)
  · intro jv r' q' m hj hne hq' hsp
    rw [Set.disjoint_left]
    intro c hc hT
    obtain ⟨b, rfl, hlo, hhi⟩ := hcell hT
    rcases resolve_interval hA hj with ⟨g', hg', hget', hres'⟩ | ⟨o', hle', hget', hres'⟩
    · cases hres'.symm.trans hq'
      obtain ⟨_, -, ⟨⟩⟩ := hc
    · cases hres'.symm.trans hq'
      have hsize' : r'.kind.size ≤ slotSize jv.kind := hj.kind ▸ size_le_slotSize _
      rw [slot_eq] at hc
      rcases hc with ⟨_, -, ⟨⟩⟩ | hc
      rw [address_slot hsp (by omega)] at hc
      have hb := (mem_bytesAt_slot (by omega)).1 hc
      have hcases : (o : Int) + slotSize iv.kind ≤ o' ∨ (o' : Int) + slotSize jv.kind ≤ o :=
        separate_of_spans hA h hj hne hget hget'
      omega

theorem exists_site (hA : A.frame = frameOf flat log) (h : iv.Spans flat p r) (hsc : r.kind.isScalar = true)
    (hq : A.frame.resolve r = .ok q) : ∃ T, Site A flat p iv q T := by
  rcases resolve_interval hA h with ⟨g, hg, hget, hres⟩ | ⟨o, hle, hget, hres⟩
  · cases hres.symm.trans hq
    exact ⟨_, site_reg hA h hsc hg hget⟩
  · cases hres.symm.trans hq
    exact ⟨_, site_slot hA h hsc hle hget⟩

end Positions

/-! ## Representation of stores -/

/-- Whether a byte is outside of the stack area. -/
def Activation.isOutside (A : Activation) (b : Word) : Bool := !decide ((b - A.sp).toNat < A.frame.alloc.frame + 8 * A.limit)

theorem Activation.isOutside_iff {A : Activation} {b : Word} : A.isOutside b = true ↔ b ∉ A.stack := by
  simp [isOutside, stack]

theorem Activation.not_mem_stack_of_isOutside (A : Activation) {b : Word} (h : A.isOutside b = true) : b ∉ A.stack :=
  isOutside_iff.1 h

/-- At the position `p`, the machine has the values of the store: the soft registers whose intervals contain `p`, as far
as they hold integers, truth values and pointers, and the memory outside of the stack area. -/
structure Represents (A : Activation) (flat : Flat) (p : Nat) (σ : Store) (m : Machine) : Prop where
  sp : m.regs rsp = A.sp
  regs : ∀ iv ∈ flat.intervals, iv.covers p = true → iv.kind.isScalar = true →
    ∀ q, A.frame.resolve iv.reg = .ok q → m.Holds (σ.get (.reg iv.reg)) q
  bytes : ∀ b, A.isOutside b = true → m.mem b = σ.mem b

section Represents

variable {flat : Flat} {log : Log} {A : Activation} {p : Nat} {r : Reg} {iv : Interval} {m m' : Machine} {q : Expr}
  {T : Set Cell} {σ : Store} {c : Const} {μ : Mark}

theorem spans_reg (hiv : iv ∈ flat.intervals) (hp : iv.covers p = true) : iv.Spans flat p iv.reg := ⟨hiv, hp, rfl, rfl⟩

/-- The registers of a position, and the memory of the program. -/
def viewAt (A : Activation) (hA : A.frame = frameOf flat log) (p : Nat) : View A where
  live r := r.kind.isScalar = true ∧ ∃ iv : Interval, iv.Spans flat p r
  readable := A.isOutside
  scalar h := h.1
  placed h := by
    obtain ⟨-, iv, h⟩ := h
    exact placed_of_interval hA h
  outside := @A.not_mem_stack_of_isOutside

theorem Represents.shows (h : Represents A flat p σ m) (hA : A.frame = frameOf flat log) : (viewAt A hA p).Shows σ m where
  sp := h.sp
  regs := by
    rintro r q ⟨hsc, iv, hr⟩ hq
    have hreg := spans_reg hr.mem hr.covers
    have hget : σ.get (.reg iv.reg) = σ.get (.reg r) := by simp only [Store.get, hr.id, hr.kind, Interval.reg]
    obtain ⟨q', hq'⟩ := resolve_of_spans hA hreg
    have hh := h.regs iv hr.mem hr.covers (hr.kind ▸ hsc) q' hq'
    rw [hget] at hh
    exact holds_of_samePlace hh ((placed_of_interval hA hr).kind hq) (samePlace_of_spans hA hreg hr rfl hq' hq)
  bytes := h.bytes _

/-- The machine has what it shows of all registers of the position. -/
theorem represents_of_shows (hA : A.frame = frameOf flat log) (h : (viewAt A hA p).Shows σ m) :
    Represents A flat p σ m where
  sp := h.sp
  regs _ hiv hp hk _ hq := h.regs ⟨hk, _, spans_reg hiv hp⟩ hq
  bytes _ hb := h.bytes hb

/-- The place of a register as a sink: the store stays, and so do the other registers. -/
theorem Site.sink (h : Site A flat p iv q T) (hA : A.frame = frameOf flat log) (hr : iv.Spans flat p r)
    (hq : A.frame.resolve r = .ok q) : Sink (viewAt A hA p) σ (fun _ => σ) q T := by
  refine .of_apart h.rsp (fun b hb => h.outside b (Activation.isOutside_iff.1 hb)) ?_
  rintro r' q' m ⟨⟨hsc, jv, hj⟩, hapart⟩ hq' hsp
  refine h.apart hj (fun he => ?_) hq' hsp
  have hsame := samePlace_of_spans hA hr hj he hq hq'
  rw [hapart q' hq'] at hsame
  cases hsame

/-- With the value of an assignment in the place of its register, the machine represents the store after it. -/
theorem Represents.update (h : Represents A flat p σ m) (hA : A.frame = frameOf flat log) (hr : iv.Spans flat p r)
    (hq : A.frame.resolve r = .ok q) (hs : Site A flat p iv q T) (hk : Keeps (A.free μ ∪ T) m m') (hh : m'.Holds c q)
    (hck : c.kind = r.kind) (hc : c.Canonical) : Represents A flat p (σ.set (.reg r) c) m' := by
  refine ⟨(hk.regs rsp fun hf => hf.elim Activation.rsp_not_free hs.rsp).trans h.sp, ?_, ?_⟩
  · intro jv hjv hp hsc q' hq'
    have hj := spans_reg hjv hp
    by_cases hid : jv.id = iv.id
    · obtain rfl : jv = iv := List.inj_on_of_nodup_map flat.noted_intervals.nodup hjv hr.mem hid
      have hget : (σ.set (.reg r) c).get (.reg jv.reg) = c := by
        have hcan : Const.ofBits c.kind c.re c.im = c := hc
        simp only [Store.get, Store.set, Interval.reg, ← hr.id, ← hr.kind, Function.update_self, ← hck]
        exact hcan
      rw [hget]
      refine holds_of_samePlace hh ?_ (samePlace_of_spans hA hr hj rfl hq hq')
      rw [(placed_of_interval hA hj).kind hq', hck, hr.kind]
      rfl
    · have hget : (σ.set (.reg r) c).get (.reg jv.reg) = σ.get (.reg jv.reg) := by
        have hne : jv.reg.id ≠ r.id := by
          rw [hr.id]
          exact fun he => hid (RegId.soft.inj he)
        simp only [Store.get, Store.set, Function.update_of_ne hne]
      rw [hget]
      refine (h.regs jv hjv hp hsc q' hq').keeps hk (Set.disjoint_union_right.2 ⟨?_, hs.apart hj hid hq' h.sp⟩)
      exact (placed_of_interval hA hj).stable hq' h.sp
  · intro b hb
    have hout := Activation.isOutside_iff.1 hb
    exact (hk.bytes b fun hf => hf.elim (fun hf => hout hf.2) (hs.outside b hout)).trans (h.bytes b hb)

end Represents

/-! ## Assignments -/

/-- An assignment to a register, and the expression that gives the new value. -/
inductive Assigns : Expr → Reg → Expr → Prop
  | plain (k : Kind) (r : Reg) (e : Expr) : Assigns (.binary .assign k (.reg r) e) r e
  | compound (op : ArithOp) (k : Kind) (r : Reg) (e : Expr) :
      Assigns (.binary (.compound op) k (.reg r) e) r (.binary (.arith op) k (.reg r) e)

theorem isWide_iff {op : ArithOp} : isWide op = true ↔ op = .mul ∨ op = .quo ∨ op = .rem := by
  cases op <;> simp [isWide]

theorem isWord_of_number {k : Kind} (hk : k.isScalar = true) (h : (k.isNumber || k.isPtr) = true) : k.isWord = true := by
  revert hk h
  cases k <;> decide

/-- Nothing but a truth value is cast to one. -/
theorem isWord_of_castAdmits {k g : Kind} (hk : k.isScalar = true) (hg : g.isScalar = true)
    (h : Expr.castAdmits g k = true) (hne : g ≠ k) : k.isWord = true := by
  by_contra hw
  obtain rfl : k = .bool := by simpa [Kind.isScalar, hw, Kind.isBool] using hk
  revert hg h hne
  cases g <;> decide

/-- Built expressions of integers without an effect are plain once their registers have places. -/
theorem plain_of_isIntegral {f : Frame} (e : Expr) (hwell : e.WellKinded) (hint : e.isIntegral = true)
    (hfree : e.isEffectFree = true) (hregs : ∀ r ∈ e.regs, Placed f r) : Plain f e := by
  induction e with
  | const c => exact .const hint hwell
  | reg r =>
    simp only [Expr.isIntegral, Bool.and_eq_true] at hint
    exact .reg hint.1 hint.2 (hregs r (by simp [Expr.regs]))
  | mem k ro a ih =>
    simp only [Expr.isIntegral, Bool.and_eq_true] at hint
    exact .mem ro hint.1 hwell.1 (ih hwell.2.2 hint.2 hfree hregs)
  | memAt | ret => cases hint
  | label | call => cases hfree
  | unary op k x ih =>
    simp only [Expr.isIntegral, Bool.and_eq_true, Bool.not_eq_true'] at hint
    simp only [Expr.isEffectFree, Bool.and_eq_true, Bool.not_eq_true'] at hfree
    have hx := ih hwell.2 hint.2 hfree.2 hregs
    have hcheck : op ≠ .cast → Expr.unaryAdmits op x.kind = true ∧ Expr.unaryKind op x.kind = k := by
      intro hop
      have hfits : Expr.unaryFits op k x := hwell.1
      unfold Expr.unaryFits at hfits
      split at hfits
      · exact absurd rfl hop
      · exact ⟨(Expr.checkUnary_eq_ok.1 hfits).1, (Expr.checkUnary_eq_ok.1 hfits).2.2⟩
    cases op with
    | neg =>
      obtain ⟨hadm, rfl⟩ := hcheck (by decide)
      exact .neg (isWord_of_number hx.isScalar hadm) hx
    | inv =>
      obtain ⟨hadm, rfl⟩ := hcheck (by decide)
      exact .inv hadm hx
    | lnot =>
      obtain ⟨hadm, rfl⟩ := hcheck (by decide)
      exact .lnot (by simpa [Expr.unaryAdmits, Kind.isBool] using hadm) hx
    | cast => exact .cast (isWord_of_castAdmits hint.1.2 hx.isScalar hwell.1.1 hwell.1.2) hx
    | inc | dec | zero => cases hint.1.1
    | jump | push | pop => cases hfree.1
    | lea | jcc | setcc => cases (hcheck (by simp)).1
  | binary op k x y ihx ihy =>
    simp only [Expr.isIntegral, Bool.and_eq_true, Bool.not_eq_true'] at hint
    simp only [Expr.isEffectFree, Bool.and_eq_true, Bool.not_eq_true'] at hfree
    obtain ⟨⟨⟨hk, hbyte⟩, hix⟩, hiy⟩ := hint
    have hx := ihx hwell.2.1 hix hfree.1.2 fun r hr => hregs r (List.mem_append_left _ hr)
    have hy := ihy hwell.2.2 hiy hfree.2 fun r hr => hregs r (List.mem_append_right _ hr)
    obtain ⟨hadm, -, hkind⟩ := Expr.checkBinary_eq_ok.1 hwell.1
    cases op with
    | arith op =>
      obtain rfl : x.kind = k := hkind
      refine .arith hadm ?_ hx hy
      intro h1
      have hwide : ¬isWide op = true := by
        intro hw
        simp [Expr.isIntegral.isByteProduct, hw, h1] at hbyte
      rw [isWide_iff] at hwide
      exact ⟨fun h => hwide (.inl h), fun h => hwide (.inr (.inl h)), fun h => hwide (.inr (.inr h))⟩
    | compare op =>
      obtain rfl : Kind.bool = k := hkind
      refine .compare op ?_ hx hy
      cases op <;> simp [Expr.binaryAdmits] at hadm <;> exact hadm.1
    | logic op =>
      obtain rfl : Kind.bool = k := hkind
      simp only [Expr.binaryAdmits, Kind.isBool, Bool.and_eq_true, beq_iff_eq] at hadm
      exact .logic op hadm.2 (hadm.1 ▸ hadm.2) hx hy
    | assign | compound | jumpIf | cmp | test => cases hfree.1.1

section Assignment

variable {flat : Flat} {log : Log} {A : Activation} {i : Nat} {stmt x e : Expr} {r : Reg} {iv : Interval} {m : Machine}
  {q : Expr} {T : Set Cell} {σ : Store} {c : Const} {μ : Mark}

/-- What is known of an assignment: the register is a scalar one, the expression that gives its value is plain and has its
kind, and both are covered by the registers of the position. -/
structure IsAssignment (A : Activation) (V : View A) (stmt : Expr) (r : Reg) (x : Expr) : Prop where
  plain : Plain A.frame x
  result : stmt.kind = r.kind
  kind : x.kind = r.kind
  live : V.live r
  covers : V.Covers x

theorem scalar_of_isIntegral (e : Expr) (h : e.isIntegral = true) :
    ∀ r ∈ e.regs, r.kind.isScalar = true ∧ r.id.isSoft = true := by
  induction e with
  | const | label | memAt => simp [Expr.regs]
  | reg r =>
    intro r' hr'
    cases List.mem_singleton.1 hr'
    simpa [Expr.isIntegral] using h
  | mem k ro a ih =>
    simp only [Expr.isIntegral, Bool.and_eq_true] at h
    exact ih h.2
  | unary op k x ih =>
    simp only [Expr.isIntegral, Bool.and_eq_true] at h
    exact ih h.2
  | binary op k x y ihx ihy =>
    simp only [Expr.isIntegral, Bool.and_eq_true] at h
    intro r hr
    exact (List.mem_append.1 hr).elim (ihx h.1.2 r) (ihy h.2 r)
  | ret => cases h
  | call l n sig args =>
    simp only [Expr.isIntegral, Bool.and_eq_true, List.isEmpty_iff] at h
    obtain ⟨-, rfl⟩ := h
    simp [Expr.regs, Expr.regsL]

theorem Assigns.isAssignment (h : Assigns stmt r x) (hA : A.frame = frameOf flat log) (hone : flat.OneKind)
    (hi : flat.code[i]? = some stmt) (hb : stmt.Built) (hint : stmt.isIntegral = true) (hfree : x.isEffectFree = true) :
    IsAssignment A (viewAt A hA (i + 1)) stmt r x := by
  have hlive : ∀ r ∈ stmt.regs, (viewAt A hA (i + 1)).live r := by
    intro r hr
    obtain ⟨hsc, hsoft⟩ := scalar_of_isIntegral stmt hint r hr
    exact ⟨hsc, hone.spans hi hr hsoft⟩
  have hplaced : ∀ r ∈ stmt.regs, Placed A.frame r := fun r hr => (viewAt A hA (i + 1)).placed (hlive r hr)
  have hwell := hb.wellKinded
  cases h with
  | plain k =>
    obtain ⟨hcheck, -, hwe⟩ := hwell
    obtain ⟨hadm, -, hk⟩ := Expr.checkBinary_eq_ok.1 hcheck
    simp only [Expr.isIntegral, Bool.and_eq_true] at hint
    simp only [Expr.binaryAdmits, Bool.and_eq_true, beq_iff_eq] at hadm
    refine ⟨?_, hk.symm, hadm.1.symm, hlive r (by simp [Expr.regs]), fun r hr => hlive r (List.mem_append_right _ hr)⟩
    exact plain_of_isIntegral x hwe hint.2 hfree fun r hr => hplaced r (List.mem_append_right _ hr)
  | compound op k r e =>
    obtain ⟨hcheck, hwr, hwe⟩ := hwell
    obtain ⟨hadm, -, hk⟩ := Expr.checkBinary_eq_ok.1 hcheck
    have hcheck' : Expr.checkBinary (.arith op) (.reg r) e = .ok k :=
      Expr.checkBinary_eq_ok.2 ⟨hadm, by rintro ⟨⟩, hk⟩
    refine ⟨?_, hk.symm, hk.symm, hlive r (by simp [Expr.regs]), hlive⟩
    exact plain_of_isIntegral _ ⟨hcheck', hwr, hwe⟩ hint hfree hplaced

theorem statement_plain (k : Kind) (r : Reg) (e : Expr) : statement (.binary .assign k (.reg r) e) = (do
    let d ← resolve r
    into d e (some (.reg r))
    return d) := by
  rw [statement, if_neg (by simp [Expr.isEffectFree, BinaryOp.hasSideEffects, BinaryOp.isAssign]), assign, resolveTarget]

theorem statement_compound (op : ArithOp) (k : Kind) (r : Reg) (e : Expr) :
    statement (.binary (.compound op) k (.reg r) e) = (do
      let d ← resolve r
      opAssign d op (value e)
      return d) := by
  rw [statement, if_neg (by simp [Expr.isEffectFree, BinaryOp.hasSideEffects, BinaryOp.isAssign]), compound, resolveTarget]

theorem steady_assignment {V : View A} (h : Assigns stmt r x) (hx : IsAssignment A V stmt r x) :
    Steady A.frame (statement stmt) := by
  cases h with
  | plain k =>
    have := (hx.plain.tidy A.regs_eq).into
    rw [statement_plain]
    infer_instance
  | compound op k r e =>
    cases hx.plain with
    | arith ha hb hr he =>
      have := (he.tidy A.regs_eq).value
      rw [statement_compound]
      infer_instance

/-- The code of an assignment leaves the value in the place of the register. -/
theorem does_assignment {V : View A} {Q : Expr → Mark → Machine → Prop} (h : Assigns stmt r x)
    (hx : IsAssignment A V stmt r x) (hq : A.frame.resolve r = .ok q) (hs : Sink V σ (fun _ => σ) q T)
    (hd : Dest A μ m q T) (hm : V.Shows σ m) (hc : x.eval V.readable σ = some c)
    (hQ : ∀ ν m', Keeps (A.free μ ∪ T) m m' → m'.Holds c q → Q q ν m') : Does A (statement stmt) μ m Q := by
  have hqk : q.kind = r.kind := (V.placed hx.live).kind hq
  have hreg : m.Holds (σ.get (.reg r)) q := hm.regs hx.live hq
  cases h with
  | plain k =>
    have := (hx.plain.tidy A.regs_eq).into
    have hin : x.inPlace V.readable (fun _ => σ) (some (.reg r)) σ = some c := by
      rw [Expr.inPlace_of_eq V.readable fun _ => rfl]
      exact hc
    rw [statement_plain]
    refine .bind (.resolve fun d hd' => ?_)
    cases hq.symm.trans hd'
    refine .bind (hx.plain.selects.into hs hd hm (hqk.trans hx.kind.symm) hx.covers ?_ hin fun ν m' _ hk hh => .pure ?_)
    · rintro _ v ⟨⟩ ⟨⟩
      exact hreg
    · exact hQ ν m' hk hh
  | compound op k r e =>
    cases hx.plain with
    | arith ha hb hr he =>
      have := (he.tidy A.regs_eq).value
      simp only [Expr.eval, Option.bind_eq_some_iff] at hc
      obtain ⟨_, ⟨⟩, d, hde, har⟩ := hc
      rw [statement_compound]
      refine .bind (.resolve fun d' hd' => ?_)
      cases hq.symm.trans hd'
      refine .bind (does_operate ha hb hr.isScalar he he.selects (fun r hr => hx.covers r (List.mem_append_right _ hr)) hd
        hreg rfl (Const.canonical_ofBits _ _ _) hde har hm fun m' hk hh => .pure ?_)
      exact hQ μ m' hk hh

/-- An assignment runs without a fault and stores its value. -/
theorem run_assignment {V : View A} (w : World) (h : Assigns stmt r x) (hx : IsAssignment A V stmt r x)
    {readable : Word → Bool} (hc : x.eval readable σ = some c) :
    stmt.run w σ = some (c, σ.set (.reg r) c) := by
  obtain ⟨hck, hcc⟩ := hx.plain.eval_kind hc
  have hat : c.at r.kind = c := Const.at_eq (hck.trans hx.kind) hcc
  cases h with
  | plain k =>
    obtain rfl : k = r.kind := hx.result
    simp only [Expr.run, Expr.place, hx.plain.run_eq w hc, Option.bind_eq_bind, Option.bind_some, hat]
  | compound op k r e =>
    cases hx.plain with
    | arith ha hb hr he =>
      simp only [Expr.eval, Option.bind_eq_some_iff] at hc
      obtain ⟨_, ⟨⟩, d, hd, har⟩ := hc
      simp only [Expr.run, Expr.place, he.run_eq w hd, Option.bind_eq_bind, Option.bind_some, World.binary, Const.binary,
        arith_of_arith? har, World.settle]
      exact congrArg (fun v => some (v, σ.set (.reg r) v)) hat

/-- The code of an assignment to a soft register takes a machine that represents a store to one that represents the store
after the assignment, and keeps the places of all other registers of the position. -/
theorem exec_assignment (w : World) {s s' : Session} {v : Expr} (hA : A.frame = frameOf flat log) (hone : flat.OneKind)
    (hi : flat.code[i]? = some stmt) (h : Assigns stmt r x) (hb : stmt.Built) (hint : stmt.isIntegral = true)
    (hfree : x.isEffectFree = true) (hc : x.eval A.isOutside σ = some c) (hs : Gives A.frame (select stmt true) s v s')
    (hpeak : s'.tempPeak ≤ A.limit) (hm : Represents A flat (i + 1) σ m) :
    stmt.run w σ = some (c, σ.set (.reg r) c) ∧ ∃ code, s'.items.toList = s.items.toList ++ code.map .instr ∧
      ∃ m', exec code (.at m) = .at m' ∧ Represents A flat (i + 1) (σ.set (.reg r) c) m' ∧
        ∀ iv ∈ flat.intervals, iv.covers (i + 1) = true → .soft iv.id ≠ r.id →
          ∀ q, A.frame.resolve iv.reg = .ok q → Keeps (m.cells q)ᶜ m m' := by
  have hx := h.isAssignment hA hone hi hb hint hfree
  have hgrows := steady_assignment h hx
  obtain ⟨code, hgrown⟩ := hgrows.grown hs
  obtain ⟨hck, hcc⟩ := hx.plain.eval_kind hc
  refine ⟨run_assignment w h hx hc, code, hgrown.items, ?_⟩
  obtain ⟨hsc, iv, hr⟩ := hx.live
  obtain ⟨q, hq⟩ := resolve_of_spans hA hr
  obtain ⟨T, hsite⟩ := exists_site hA hr hsc hq
  obtain ⟨m', hexec, hk, hh⟩ := (does_assignment (Q := fun _ _ m' => Keeps (A.free s.mark ∪ T) m m' ∧ m'.Holds c q) h hx hq
    (hsite.sink hA hr hq) (hsite.dest s.mark m hm.sp) (hm.shows hA) hc fun _ _ hk hh => ⟨hk, hh⟩).run hs rfl hpeak hgrown
  refine ⟨m', hexec, hm.update hA hr hq hsite hk hh (hck.trans hx.kind) hcc, ?_⟩
  intro jv hjv hp hne q' hq'
  have hj := spans_reg hjv hp
  have hid : jv.id ≠ iv.id := fun he => hne (by rw [hr.id, he])
  refine hk.mono ?_
  rw [Set.subset_compl_iff_disjoint_left, Set.disjoint_union_right]
  exact ⟨(placed_of_interval hA hj).stable hq' hm.sp, hsite.apart hj hid hq' hm.sp⟩

/-- A difference that replaces its right operand, which has to be read before. -/
def reversedDifference : Flat where
  func := Func.empty "difference" ⟨[.int64, .int64], []⟩
  code :=
    let s := fun i => Expr.reg (Func.softReg i .int64)
    #[.binary .assign .int64 (s 1) (.binary (.arith .sub) .int64 (s 0) (s 1))]

theorem allocate_reversedDifference :
    (scan.allocate reversedDifference #[]).1 = ⟨[(256, .reg (gpr 6)), (257, .reg (gpr 7))], 0⟩ := by cbv

theorem intervals_reversedDifference :
    reversedDifference.intervals = [⟨256, .int64, 0, 1⟩, ⟨257, .int64, 0, 1⟩] := by cbv

theorem oneKind_reversedDifference : reversedDifference.OneKind := .of_all (by cbv)

/-- The code of the statement: the difference is built in a scratch register. -/
def reversedDifferenceCode : List Expr :=
  let r := fun i => Expr.reg ⟨.int64, .hard (gpr i), false⟩
  [.binary .assign .int64 (r 10) (r 6), .binary (.compound .sub) .int64 (r 10) (r 7), .binary .assign .int64 (r 7) (r 10)]

theorem exec_assignment_reversedDifference :
    let A : Activation := ⟨frameOf reversedDifference #[], 0x1000, 0, rfl, by
      simp [frameOf, allocate_reversedDifference]⟩
    let s₁ : Reg := Func.softReg 1 .int64
    let x : Expr := .binary (.arith .sub) .int64 (.reg (Func.softReg 0 .int64)) (.reg s₁)
    let σ : Store := ⟨fun id => if id = .soft 256 then (10, 0) else if id = .soft 257 then (3, 0) else 0, fun _ => 0⟩
    let m : Machine := ⟨fun g => if g = gpr 6 then 10 else if g = gpr 7 then 3 else if g = rsp then 0x1000 else 0,
      fun _ => 0, none⟩
    let w : World := ⟨fun _ => 0, fun _ _ _ => none, fun _ _ => .zero .void⟩
    let s' : Session := { labels := {}, items := (reversedDifferenceCode.map .instr).toArray }
    reversedDifference.OneKind ∧ x.eval A.isOutside σ = some (.int64 7) ∧ Represents A reversedDifference 1 σ m ∧
      (∃ v, Gives A.frame (select (.binary .assign .int64 (.reg s₁) x) true) { labels := {} } v s') ∧
      s'.tempPeak ≤ A.limit ∧
      (Expr.binary .assign .int64 (.reg s₁) x).run w σ = some (.int64 7, σ.set (.reg s₁) (.int64 7)) ∧
      ∃ code, s'.items.toList = [] ++ code.map .instr ∧ ∃ m', exec code (.at m) = .at m' ∧
        Represents A reversedDifference 1 (σ.set (.reg s₁) (.int64 7)) m' ∧
        ∀ iv ∈ reversedDifference.intervals, iv.covers 1 = true → .soft iv.id ≠ s₁.id →
          ∀ q, A.frame.resolve iv.reg = .ok q → Keeps (m.cells q)ᶜ m m' := by
  intro A s₁ x σ m w s'
  have hval : x.eval A.isOutside σ = some (.int64 7) := by cbv
  have hrep : Represents A reversedDifference 1 σ m := by
    refine ⟨rfl, ?_, fun _ _ => rfl⟩
    rw [intervals_reversedDifference]
    intro iv hiv _ _ q hq
    have hres : A.frame.resolve iv.reg = .ok (.reg ⟨.int64, .hard (gpr (if iv.id = 256 then 6 else 7)), false⟩) := by
      rcases List.mem_pair.1 hiv with rfl | rfl <;> cbv
    cases hres.symm.trans hq
    rcases List.mem_pair.1 hiv with rfl | rfl <;> exact .reg rfl (by decide) rfl
  have hx : x.Built := .binary (x := .reg (Func.softReg 0 .int64)) (y := .reg s₁) (.arith .sub) (.reg _) (.reg _) rfl
  have hbuilt : (Expr.binary .assign .int64 (.reg s₁) x).Built := .binary (x := .reg s₁) .assign (.reg _) hx rfl
  have hgives : Gives A.frame (select (.binary .assign .int64 (.reg s₁) x) true) { labels := {} }
      (.reg ⟨.int64, .hard (gpr 7), false⟩) s' :=
    ⟨#[], (reversedDifferenceCode.map fun e => .selected (.instr e)).toArray, by cbv⟩
  have hframe : A.frame = frameOf reversedDifference #[] := rfl
  exact ⟨oneKind_reversedDifference, hval, hrep, ⟨_, hgives⟩, le_rfl, exec_assignment w (i := 0) hframe
    oneKind_reversedDifference rfl (.plain _ _ _) hbuilt rfl rfl hval hgives le_rfl hrep⟩

end Assignment

end Amd64

end JitBackend
