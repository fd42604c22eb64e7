import JitBackend.Proofs.Amd64.Bodies
import JitBackend.Proofs.Amd64.Disciplines
import JitBackend.Proofs.Amd64.Paths
import JitBackend.Proofs.Compilation
import JitBackend.Proofs.Survival

/-!
# What the body of a function writes

The body of a function over soft registers writes registers that calls may change, registers that the function saves,
slots of its stack area, and memory through pointers; its returns restore what was saved. For selection this is a law,
`tame`.
-/

namespace JitBackend

namespace Expr

mutual
/-- Whether the expression names no hard register, as an operand or in an address. -/
@[grind =] def isSoft : Expr → Bool
  | const _ | label _ => true
  | reg r => r.id.isSoft
  | memAt _ _ a => a.regs.isEmpty
  | mem _ _ a => isSoft a
  | unary _ _ x => isSoft x
  | binary _ _ x y => isSoft x && isSoft y
  | ret vs => isSoftL vs
  | call _ _ _ args => isSoftL args
@[grind =] def isSoftL : List Expr → Bool
  | [] => true
  | e :: es => isSoft e && isSoftL es
end

theorem isSoftL_iff {es : List Expr} : isSoftL es = true ↔ ∀ e ∈ es, isSoft e = true := by
  induction es with
  | nil => simp [isSoftL]
  | cons e es ih => simp [isSoftL, ih]

end Expr

/-- The code of an item once the size of the frame is known. A frame of size zero takes none. -/
def Item.finished (size : Nat) : Item → List Expr
  | instr e => [e]
  | frame (.binary op) sp => if size = 0 then [] else [adjust op sp size]
  | frame _ _ => []

namespace Amd64

open Lower

/-! ## Places -/

/-- The function may change the register: it does not have to hand it back, or it saves it. -/
def Spends (f : Frame) (h : HardReg) : Prop := h ∈ preserved → h ∈ f.saved

/-- A register that may be changed, a slot of a stack area with `n` temporaries, or memory that is not addressed from the
stack pointer. -/
def Writable (f : Frame) (n : Nat) : Expr → Prop
  | .reg r => ∀ h, r.id = .hard h → Spends f h
  | .memAt _ _ a =>
    rsp ∉ a.regs ∨ ∃ o : Nat, a = .ofBase rsp (.ofNat 32 o) ∧ o < 2 ^ 31 ∧ o + 8 ≤ f.alloc.frame + 8 * n
  | _ => True

/-- A frame on this machine with a spill area that displacements reach. -/
structure Housed (f : Frame) : Prop where
  regs : f.regs = regFile
  sites : ∀ {id loc}, f.alloc.get? id = some loc → scan.IsSite f.alloc.frame loc
  spill : f.alloc.frame ≤ 2 ^ 31

/-- The stack area has outgrown the displacements by the last temporary at most. -/
structure Roomy (f : Frame) (s : Session) : Prop where
  temps : s.temps ≤ s.tempPeak
  area : f.alloc.frame + 8 * s.tempPeak < 2 ^ 31 + 16

section Places

variable {f : Frame} {n : Nat}

/-- A soft register is in an allocatable register or in a slot of the spill area. -/
theorem Housed.resolve_cases (hf : Housed f) {r : Reg} {v : Expr} (hs : r.id.isSoft = true) (h : f.resolve r = .ok v) :
    (∃ g ∈ allocatable, (∃ id, f.alloc.get? id = some (.reg g)) ∧ v = .reg ⟨r.kind, .hard g, r.readOnly⟩) ∨
      ∃ o : Nat, o + 8 ≤ f.alloc.frame ∧ v = .memAt r.kind r.readOnly (.ofBase rsp (.ofInt 32 o)) := by
  obtain ⟨k, id, ro⟩ := r
  cases id with
  | hard h => cases hs
  | soft id =>
    unfold Frame.resolve Allocation.get at h
    dsimp only at h
    cases hget : f.alloc.get? id with
    | none =>
      rw [hget] at h
      cases h
    | some loc =>
      rw [hget] at h
      rcases hf.sites hget with ⟨g, hg, rfl⟩ | ⟨o, rfl, ho⟩
      · cases h
        exact .inl ⟨g, hg, ⟨id, hget⟩, rfl⟩
      · cases h
        exact .inr ⟨o, ho, rfl⟩

/-- The place of a soft register is writable, and it is not the stack pointer. -/
theorem Housed.resolve (hf : Housed f) (n : Nat) {r : Reg} {v : Expr} (hs : r.id.isSoft = true) (h : f.resolve r = .ok v) :
    Writable f n v ∧ ∀ q h, v = .reg q → q.id = .hard h → h ≠ rsp := by
  rcases hf.resolve_cases hs h with ⟨g, hg, ⟨id, hget⟩, rfl⟩ | ⟨o, ho, rfl⟩
  · have hnot : ∀ r ∈ allocatable, (r ∈ preserved → r ∈ calleeSaved) ∧ r ≠ rsp := by decide
    refine ⟨?_, ?_⟩
    · rintro _ ⟨⟩ hp
      exact Frame.mem_saved.2 ⟨by rw [hf.regs]; exact (hnot g hg).1 hp, id, Allocation.mem_of_get? hget⟩
    · rintro _ _ ⟨⟩ ⟨⟩
      exact (hnot g hg).2
  · have := hf.spill
    exact ⟨.inr ⟨o, by rw [BitVec.ofInt_natCast], by omega, by omega⟩, by rintro _ _ ⟨⟩⟩

theorem spends_of_not_preserved {h : HardReg} (hp : h ∉ preserved) : Spends f h := fun hmem => absurd hmem hp

end Places

/-! ## Bodies -/

/-- An instruction that a body may hold. -/
structure Tame (f : Frame) (n : Nat) (e : Expr) : Prop where
  ret : e ≠ .ret []
  call : ∀ {l s sig args}, e = .call l s sig args → f.makesCalls = true
  stack : movesStack e = true → denote e = none
  place : ∀ x, movesStack e = false → placeOf e = some x → Writable f n x

/-- The move of the stack pointer by the size of the frame, if there is a frame. -/
def frameMove (op : ArithOp) (size : Nat) : List Expr := if size = 0 then [] else [Item.adjust (.compound op) rsp size]

/-- Registers from the stack, the first one first. -/
def pops (rs : List HardReg) : List Expr := rs.map fun r => .unary .pop .int64 (fixed .int64 r)

def pushes (rs : List HardReg) : List Expr := rs.map fun r => .unary .push .int64 (fixed .int64 r)

/-- The start and the end of a function with a frame of `size` bytes. -/
def prologue (f : Frame) (size : Nat) : List Expr := pushes f.saved ++ frameMove .sub size

def epilogue (f : Frame) (size : Nat) : List Expr := frameMove .add size ++ (pops f.saved.reverse ++ [.ret []])

/-- A body is made of instructions that it may hold and of ends of the function. -/
inductive Body (f : Frame) (n size : Nat) : List Expr → Prop
  | nil : Body f n size []
  | cons {e : Expr} {rest : List Expr} (he : Tame f n e) (h : Body f n size rest) : Body f n size (e :: rest)
  | leave {rest : List Expr} (h : Body f n size rest) : Body f n size (epilogue f size ++ rest)

theorem Body.append {f : Frame} {n size : Nat} {a b : List Expr} (ha : Body f n size a) (hb : Body f n size b) :
    Body f n size (a ++ b) := by
  induction ha with
  | nil => exact hb
  | cons he _ ih => exact .cons he ih
  | leave _ ih =>
    rw [List.append_assoc]
    exact .leave ih

theorem Roomy.release {f : Frame} {s : Session} (h : Roomy f s) (m : Mark) : Roomy f (s.release m) :=
  ⟨(min_le_right _ _).trans h.temps, h.area⟩

/-- There is room, and the code is that of a body. -/
def bodily (f : Frame) (n size : Nat) : Discipline where
  Inv := Roomy f
  Code items := Body f n size (items.flatMap (Item.finished size))
  nil := .nil
  append ha hb := by
    rw [List.flatMap_append]
    exact ha.append hb
  release _ h := h.release _

/-- The computation appends code of a body, if it stays within `n` temporaries, and its result satisfies `Q`. -/
def Tames {α : Type} (f : Frame) (n size : Nat) (act : Lower α) (Q : α → Prop) : Prop :=
  ∀ ⦃s a s'⦄, Gives f act s a s' → Roomy f s → s'.tempPeak ≤ n → Roomy f s' ∧
    (∃ items, s'.items.toList = s.items.toList ++ items ∧ Body f n size (items.flatMap (Item.finished size))) ∧ Q a

section Tames

variable {α β : Type} {f : Frame} {n size : Nat} {act : Lower α} {k : α → Lower β} {P : α → Prop} {Q : β → Prop}

theorem Tames.bind (h : Tames f n size act P) [hw : ∀ a, Widens f (k a)] (hk : ∀ a, P a → Tames f n size (k a) Q) :
    Tames f n size (act >>= k) Q := Discipline.Obeys.bind (D := bodily f n size) h hk

/-- A computation that appends nothing. -/
theorem Tames.of_eq
    (h : ∀ {s a s'}, Gives f act s a s' → Roomy f s → s'.tempPeak ≤ n → Roomy f s' ∧ s'.items = s.items ∧ P a) :
    Tames f n size act P := Discipline.Obeys.of_eq (D := bodily f n size) h

theorem tames_emit {e : Expr} (he : Tame f n e) : Tames f n size (emit e) fun _ => True := by
  intro s a s' hg hr _
  obtain rfl := hg.emit
  exact ⟨⟨hr.temps, hr.area⟩, ⟨[.instr e], by simp, .cons he .nil⟩, trivial⟩

/-! ## Instructions of a body -/

theorem tame_of_place {e : Expr} (hret : e ≠ .ret []) (hcall : ∀ l s sig args, e ≠ .call l s sig args)
    (hstack : movesStack e = false) (h : ∀ x, placeOf e = some x → Writable f n x) : Tame f n e :=
  ⟨hret, fun he => absurd he (hcall _ _ _ _), fun hs => absurd (hstack.symm.trans hs) Bool.false_ne_true, fun x _ => h x⟩

theorem tame_emitted {e : Expr} (h : Emitted (Writable f n) (fun _ _ => True) (fun _ => True) (fun _ => True) e) :
    Tame f n e := by
  cases h with
  | assign hd | load hd | self hd | compound hd | flip hd | setcc hd =>
    refine tame_of_place (by simp) (by simp) rfl ?_
    rintro _ ⟨⟩
    exact hd
  | cmp | test | jumpIf => exact tame_of_place (by simp) (by simp) rfl (by rintro _ ⟨⟩)
  | jump | jcc =>
    refine tame_of_place (by simp [Expr.jumpTo]) (by simp [Expr.jumpTo]) rfl ?_
    rintro _ ⟨⟩
    trivial

/-- The expressions of the source: over soft registers, and with calls only if the frame is made for them. -/
def Source (f : Frame) (e : Expr) : Prop := e.isSoft = true ∧ (e.Has Expr.IsCall → f.makesCalls = true)

section Source

variable {x y : Expr} {op : UnaryOp} {b : BinaryOp} {k : Kind}

theorem Source.child {c e : Expr} (h : Source f e) (hc : c ∈ e.children) (hs : c.isSoft = true) : Source f c :=
  ⟨hs, fun hcall => h.2 (Expr.has_iff.2 (.inr ⟨c, hc, hcall⟩))⟩

theorem Source.unary (h : Source f (.unary op k x)) : Source f x :=
  h.child (by simp [Expr.children]) (by simpa [Expr.isSoft] using h.1)

theorem Source.left (h : Source f (.binary b k x y)) : Source f x := by
  have hs : x.isSoft = true ∧ y.isSoft = true := by simpa [Expr.isSoft] using h.1
  exact h.child (by simp [Expr.children]) hs.1

theorem Source.right (h : Source f (.binary b k x y)) : Source f y := by
  have hs : x.isSoft = true ∧ y.isSoft = true := by simpa [Expr.isSoft] using h.1
  exact h.child (by simp [Expr.children]) hs.2

theorem Source.address {ro : Bool} (h : Source f (.mem k ro x)) : Source f x :=
  h.child (by simp [Expr.children]) (by simpa [Expr.isSoft] using h.1)

theorem Source.values {vs : List Expr} (h : Source f (.ret vs)) : ∀ v ∈ vs, Source f v := by
  have hs : Expr.isSoftL vs = true := by simpa [Expr.isSoft] using h.1
  exact fun v hv => h.child (by simpa [Expr.children] using hv) (Expr.isSoftL_iff.1 hs v hv)

/-- What is over soft registers names no place that a body must not write. -/
theorem Source.writable (h : Source f x) : Writable f n x := by
  cases x with
  | reg r =>
    intro g hg
    have hs : r.id.isSoft = true := by simpa [Expr.isSoft] using h.1
    rw [hg] at hs
    cases hs
  | memAt k ro a =>
    have hs : a.regs = [] := by simpa [Expr.isSoft] using h.1
    exact .inl (by simp [hs])
  | _ => trivial

/-- A statement of the source is never executed as it stands, unless it is a jump or writes to an address. -/
theorem tame_source {e : Expr} (h : Source f e) (hret : e ≠ .ret []) : Tame f n e := by
  refine ⟨hret, ?_, fun hstack => ?_, fun x _ hx => ?_⟩
  · rintro l s sig args rfl
    exact h.2 (Expr.has_iff.2 (.inl ⟨_, _, _, _, rfl⟩))
  · -- only hard registers can be pushed and popped
    have hnone : ∀ {op : UnaryOp} {k : Kind} {x : Expr}, (op = .push ∨ op = .pop) → Source f (.unary op k x) →
        denote (.unary op k x) = none := by
      intro op k x hop hx
      have hreg : ∀ r, operand? x ≠ some (.reg r) := by
        intro r ho
        obtain ⟨q, rfl, hq⟩ := operand?_eq_reg ho
        have hs : q.id.isSoft = true := by simpa [Expr.isSoft] using hx.1
        rw [hq] at hs
        cases hs
      rcases ho : operand? x with _ | o
      · simp [denote, ho]
      · cases o with
        | reg r => exact absurd ho (hreg r)
        | _ => rcases hop with rfl | rfl <;> simp [denote, ho]
    unfold movesStack at hstack
    split at hstack
    · exact hnone (.inl rfl) h
    · exact hnone (.inr rfl) h
    · cases hstack
  · unfold placeOf at hx
    split at hx
    · cases hx
      exact h.left.writable
    · cases hx
      exact h.left.writable
    · cases hx
      exact h.unary.writable
    · cases hx

end Source

/-! ## The law -/

theorem spends_fixed {h : HardReg} (hh : h ∈ [rax, rcx, rdx]) : Spends f h :=
  spends_of_not_preserved ((by decide : ∀ h ∈ [rax, rcx, rdx], h ∉ preserved) h hh)

theorem spends_scratch (hf : Housed f) {h : HardReg} (hh : h ∈ f.regs.scratch) : Spends f h ∧ h ≠ rsp := by
  rw [hf.regs] at hh
  have hall : ∀ h ∈ Amd64.scratch, h ∉ preserved ∧ h ≠ rsp := by decide
  exact ⟨spends_of_not_preserved (hall h hh).1, (hall h hh).2⟩

theorem writable_fixed {k : Kind} {h : HardReg} (hh : Spends f h) : Writable f n (fixed k h) := by
  rintro _ ⟨⟩
  exact hh

theorem words_le (k : Kind) : 1 ≤ roundUp (max k.size 1) 8 / 8 ∧ roundUp (max k.size 1) 8 / 8 ≤ 2 := by
  cases k <;> decide

section Temporaries

variable {k : Kind} {p : Purpose} {s s' : Session} {t : Expr}

theorem Roomy.slotOffset (h : Roomy f s) : s.slotOffset f = f.alloc.frame + 8 * s.temps := by
  have := h.temps
  have := h.area
  rw [Session.slotOffset, BitVec.toNat_ofNat, Nat.mod_eq_of_lt (by omega)]

theorem Roomy.stackTemp (hr : Roomy f s) (h : s.stackTemp f k p = (.ok t, s')) : Roomy f s' := by
  obtain ⟨sp, -, hlt, -, rfl⟩ := stackTemp_eq_ok h
  rw [hr.slotOffset, Session.slotLimit] at hlt
  have := (words_le k).2
  refine ⟨le_max_right _ _, ?_⟩
  have hpeak := hr.area
  dsimp only
  omega

theorem Roomy.temp (hr : Roomy f s) (h : s.temp f k p = (.ok t, s')) : Roomy f s' := by
  rcases temp_eq_ok h with ⟨r, hs, -⟩ | hs
  · obtain ⟨_, -, -, rfl⟩ := scratch_eq_ok hs
    exact ⟨hr.temps, hr.area⟩
  · exact hr.stackTemp hs

theorem writable_stackTemp (hf : Housed f) (hr : Roomy f s) (h : s.stackTemp f k p = (.ok t, s')) (hpeak : s'.tempPeak ≤ n) :
    Writable f n t := by
  obtain ⟨sp, hsp, hlt, rfl, rfl⟩ := stackTemp_eq_ok h
  rw [hf.regs] at hsp
  cases hsp
  have hwords := (words_le k).1
  have hlast := (le_max_right _ _).trans hpeak
  have hoffset := hr.slotOffset
  exact .inr ⟨s.slotOffset f, rfl, hlt, by omega⟩

theorem isTemp_temp (hf : Housed f) (hr : Roomy f s) (h : s.temp f k p = (.ok t, s')) (hpeak : s'.tempPeak ≤ n) :
    IsTemp (Writable f n) (· ≠ rsp) k t := by
  refine .of_temp h (fun g hg => ?_) fun hs => writable_stackTemp hf hr hs hpeak
  obtain ⟨hspend, hne⟩ := spends_scratch hf (List.mem_of_getElem? hg)
  exact ⟨writable_fixed hspend, hne⟩

/-- Every place for a logical operand was taken while there was room. -/
theorem Roomy.refuge {e dst : Expr} {chain : List (Mark × Expr)} (hr : Roomy f s)
    (h : refuge f e dst s = (.ok chain, s')) : Roomy f s' ∧
    ∀ c ∈ chain, ∃ s₁ s₂ p, Roomy f s₁ ∧ s₁.temp f .bool p = (.ok c.2, s₂) ∧ s₂.tempPeak ≤ s'.tempPeak := by
  induction chain generalizing dst s with
  | nil =>
    obtain rfl := refuge_eq_nil h
    exact ⟨hr, by simp⟩
  | cons c rest ih =>
    obtain ⟨p, s₁, -, ht, hrest⟩ := refuge_eq_cons h
    obtain ⟨hr', hall⟩ := ih (hr.temp ht) hrest
    exact ⟨hr', List.forall_mem_cons.2 ⟨⟨s, s₁, p, hr, ht, (refuge_below hrest).1.2.2.1⟩, hall⟩⟩

end Temporaries

theorem tames_change {step : Frame → Session → Except Error α × Session}
    (h : ∀ {s a s'}, step f s = (.ok a, s') → Roomy f s → s'.tempPeak ≤ n → Roomy f s' ∧ s'.items = s.items ∧ P a) :
    Tames f n size (change step) P := .of_eq fun hg hr hpeak => h hg.change hr hpeak

theorem tame_label (l : Label) : Tame f n (.label l) := tame_of_place (by simp) (by simp) rfl (by rintro _ ⟨⟩)

theorem tame_assign {k : Kind} {d v : Expr} (hd : Writable f n d) : Tame f n (.binary .assign k d v) := by
  refine tame_of_place (by simp) (by simp) rfl ?_
  rintro _ ⟨⟩
  exact hd

theorem tame_step {op : UnaryOp} {k : Kind} {d : Expr} (hop : IsStep op) (hd : Writable f n d) :
    Tame f n (.unary op k d) := by
  refine tame_of_place (by simp) (by simp) ?_ ?_
  · rcases hop with rfl | rfl | rfl <;> rfl
  · rintro _ ⟨⟩
    exact hd

theorem finished_map (code : List Expr) : (code.map Item.instr).flatMap (Item.finished size) = code := by
  induction code with
  | nil => rfl
  | cons e code ih => exact congrArg (e :: ·) ih

theorem finished_frame (op : ArithOp) :
    [Item.frame (BinaryOp.compound op) rsp].flatMap (Item.finished size) = frameMove op size := by
  simp [Item.finished, frameMove]

theorem items_leave (size : Nat) (hregs : f.regs = regFile) {s s' : Session} {u : Unit} (h : Gives f leave s u s') :
    ∃ items, (s'.temps = s.temps ∧ s'.tempPeak = s.tempPeak ∧ s'.items.toList = s.items.toList ++ items) ∧
      items.flatMap (Item.finished size) = epilogue f size := by
  obtain ⟨_, s₁, h₁, h⟩ := h.bind
  obtain ⟨g, s₂, h₂, h⟩ := h.bind
  obtain ⟨_, s₃, h₃, h₄⟩ := h.bind
  obtain ⟨sp, hsp, hs₁⟩ := h₁.emitFrame
  obtain ⟨rfl, rfl⟩ := h₂.read
  have hs₃ := h₃.emits
  have hs' := h₄.emit
  rw [hregs] at hsp
  cases hsp
  refine ⟨[.frame (BinaryOp.compound .add) rsp] ++ ((pops g.saved.reverse).map .instr ++ [.ret []].map .instr), ?_, ?_⟩
  · rw [hs', hs₃, hs₁]
    exact ⟨rfl, rfl, by simp [pops]⟩
  · rw [List.flatMap_append, List.flatMap_append, finished_frame, finished_map, finished_map, epilogue]

theorem items_enter (size : Nat) (hregs : f.regs = regFile) {s s' : Session} {u : Unit} (h : Gives f enter s u s') :
    ∃ items, (s'.temps = s.temps ∧ s'.tempPeak = s.tempPeak ∧ s'.items.toList = s.items.toList ++ items) ∧
      items.flatMap (Item.finished size) = prologue f size := by
  obtain ⟨g, s₁, h₁, h⟩ := h.bind
  obtain ⟨_, s₂, h₂, h₃⟩ := h.bind
  obtain ⟨rfl, rfl⟩ := h₁.read
  have hs₂ := h₂.emits
  obtain ⟨sp, hsp, hs'⟩ := h₃.emitFrame
  rw [hregs] at hsp
  cases hsp
  refine ⟨(pushes g.saved).map .instr ++ [.frame (BinaryOp.compound .sub) rsp], ?_, ?_⟩
  · rw [hs', hs₂]
    exact ⟨rfl, rfl, by simp [pushes]⟩
  · rw [List.flatMap_append, finished_frame, finished_map, prologue]

theorem tames_leave (hf : Housed f) : Tames f n size leave fun _ => True := by
  intro s u s' hg hr _
  obtain ⟨items, ⟨htemps, hpeak, hitems⟩, hcode⟩ := items_leave size hf.regs hg
  refine ⟨⟨by rw [htemps, hpeak]; exact hr.temps, by rw [hpeak]; exact hr.area⟩, ⟨items, hitems, ?_⟩, trivial⟩
  rw [hcode, ← List.append_nil (epilogue f size)]
  exact .leave .nil

/-- Selection appends code of a body. -/
def tame (hf : Housed f) (n size : Nat) : BodyLaw f where
  toRules := (bodily f n size).rules f n
  Good := Source f
  Target := Source f
  Place := Writable f n
  Fits _ _ := True
  Src _ := True
  Hard h := h ≠ rsp
  Lab _ := True
  Marked _ := True
  other _ _ := trivial
  good_reads _ _ _ _ := trivial
  scratch k p := tames_change fun h hr _ => by
    obtain ⟨g, hg, rfl, rfl⟩ := scratch_eq_ok h
    obtain ⟨hspend, hne⟩ := spends_scratch hf (List.mem_of_getElem? hg)
    exact ⟨⟨hr.temps, hr.area⟩, rfl, writable_fixed hspend, g, rfl, hne⟩
  temp k p := tames_change fun h hr hpeak => ⟨hr.temp h, (temp_below h).1, isTemp_temp hf hr h hpeak⟩
  refuge _ _ := tames_change fun h hr hpeak => by
    obtain ⟨hr', hall⟩ := hr.refuge h
    refine ⟨hr', (refuge_below h).1.1, fun c hc => ?_⟩
    obtain ⟨_, _, _, hr₁, ht, hle⟩ := hall c hc
    have htemp := isTemp_temp hf hr₁ ht (hle.trans hpeak)
    exact ⟨trivial, htemp.place, htemp.kind⟩
  release {m} _ := .of_eq fun hg hr _ => by
    obtain rfl := hg.modify
    exact ⟨hr.release m, rfl, trivial⟩
  freeScratch _ := .of_eq fun hg hr _ => by
    obtain ⟨g, s₁, hread, hm⟩ := hg.bind
    obtain ⟨rfl, rfl⟩ := hread.read
    obtain rfl := hm.modify
    unfold Session.freeScratch
    split <;> exact ⟨⟨hr.temps, hr.area⟩, rfl, trivial⟩
  emit h := tames_emit (tame_emitted h)
  labelled hg hb := by
    have hnew : Tames f n size newLabel fun _ => True := .of_eq fun h hr _ => by
      obtain ⟨-, rfl⟩ := h.newLabel
      exact ⟨⟨hr.temps, hr.area⟩, rfl, trivial⟩
    have := fun l => hg l
    exact hnew.bind fun l _ => (hb l trivial).bind fun _ _ => tames_emit (tame_label l)
  call hg := Rules.emitCall (S := Writable f n)
    (fun k p => tames_change fun h hr hpeak =>
      ⟨hr.stackTemp h, (stackTemp_below h).1, writable_stackTemp hf hr h hpeak⟩)
    (fun r slot hs => tames_emit (tame_assign hs))
    (fun r hr slot _ => tames_emit (tame_assign (writable_fixed (spends_scratch hf hr).1)))
    (tames_emit (tame_source hg (by simp)))
  place_src _ := trivial
  place_fixed h := writable_fixed (spends_fixed h)
  place_scratch h _ := writable_fixed (spends_scratch hf h).1
  src_const _ := trivial
  src_reg _ := trivial
  src_memAt _ _ _ := trivial
  src_unary _ := trivial
  fits_kind := trivial
  fits_unary _ _ _ := trivial
  fits_lnot _ _ := trivial
  fits_arith _ _ := trivial
  fits_compare _ _ := trivial
  fits_logic _ _ := ⟨trivial, trivial⟩
  fits_assign _ _ := trivial
  good_src _ := trivial
  good_mem h := h.address
  good_unary h := h.unary
  good_left h := h.left
  good_right h := h.right
  good_reg h hv := ⟨trivial, (hf.resolve n (by simpa [Expr.isSoft] using h.1) hv).2⟩
  good_assign h := h.left
  good_compound h := h.left
  target_reg h hv := (hf.resolve n (by simpa [Expr.isSoft] using h.1) hv).1
  target_mem _ hm := .inl fun hmem => hm rsp hmem rfl
  target_memAt h := h.writable
  step hop hd _ := tames_emit (tame_step hop hd)
  source hg hne := tames_emit (tame_source hg hne)
  leave := tames_leave hf
  marked _ := trivial
  good_ret h := h.values
  good_jump _ := trivial
  good_step _ h := ⟨h.unary, fun _ => trivial⟩

end Tames

end Amd64

end JitBackend
