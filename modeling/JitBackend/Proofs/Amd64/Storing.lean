import JitBackend.Proofs.Amd64.Assignment

/-!
# Assignments to memory

The place of an assignment to memory holds the left operand of the assigned expression while the right one is computed.
So a right operand that reads the place finds the left operand there, and the value that is left is that of
`Expr.inPlace`. It is the value of the expression if no right operand reads the place, apart from an operation on the
place itself (`Expr.inOrder`).
-/

namespace JitBackend

namespace Expr

/-- The value of an expression whose right operands read the `others` only, where the expression as a whole may read more:
its leftmost operand, and an operation that has `origin` as an operand. -/
def inOrder (readable others : Word → Bool) (σ : Store) (origin : Option Expr) : Expr → Option Const
  | unary .neg _ x => (x.inOrder readable others σ none).map Const.neg
  | unary .inv _ x => (x.inOrder readable others σ none).map Const.inv
  | unary .lnot _ x => (x.inOrder readable others σ none).map Const.lnot
  | binary (.arith op) k x y =>
    if origin = some x ∨ op.isCommutative = true ∧ origin = some y then (binary (.arith op) k x y).eval readable σ
    else (x.inOrder readable others σ none).bind fun c =>
      (y.eval others σ).bind fun d => Const.arith? y.isConst op c d
  | binary (.logic op) _ x y => (x.inOrder readable others σ none).bind fun c =>
    if op.settledBy c then some c else y.eval others σ
  | e => e.eval readable σ

end Expr

section Reads

variable {readable others : Word → Bool} {σ τ : Store} {k : Kind} {a : Word} {c : Const} {e : Expr}

/-- A load depends on readable bytes only. -/
theorem Store.load?_congr (hmem : ∀ b, readable b = true → τ.mem b = σ.mem b) :
    τ.load? readable k a = σ.load? readable k a := by
  unfold Store.load?
  by_cases hall : (List.range k.size).all (fun i => readable (a + .ofNat 64 i)) = true
  · have hbyte : ∀ i < k.size, τ.mem (a + .ofNat 64 i) = σ.mem (a + .ofNat 64 i) := fun i hi =>
      hmem _ (List.all_eq_true.1 hall i (List.mem_range.2 hi))
    have hbool : k = .bool → τ.mem.read a 1 = σ.mem.read a 1 := by
      rintro rfl
      exact Memory.read_congr hbyte
    have hget : τ.get (.mem k a) = σ.get (.mem k a) := by
      have hpart : k.partSize ≤ k.size := by
        unfold Kind.partSize
        split <;> omega
      simp only [Store.get, Memory.read_congr fun i hi => hbyte i (hi.trans_le hpart)]
      by_cases hc : k.isComplex = true
      · -- the second part of a complex number lies behind the first one
        have hhalf : 2 * k.partSize ≤ k.size := by
          unfold Kind.partSize
          rw [if_pos hc]
          omega
        have hshift : ∀ i, a + .ofNat 64 k.partSize + .ofNat 64 i = a + .ofNat 64 (k.partSize + i) := by
          intro i
          rw [BitVec.add_assoc, ← BitVec.ofNat_add]
        have hread : τ.mem.read (a + .ofNat 64 k.partSize) k.partSize = σ.mem.read (a + .ofNat 64 k.partSize) k.partSize :=
          Memory.read_congr fun i hi => by rw [hshift]; exact hbyte _ (by omega)
        rw [hread]
      · simp only [Const.ofBits, hc, Bool.false_eq_true, if_false]
    by_cases hb : k = .bool
    · rw [hget, hbool hb]
    · rw [hget]
      simp only [bne_iff_ne.2 hb, Bool.true_or]
  · simp only [hall, Bool.false_and, Bool.false_eq_true, if_false]

/-- So does the value of an expression. -/
theorem Expr.eval_congr (hregs : τ.regs = σ.regs) (hmem : ∀ b, readable b = true → τ.mem b = σ.mem b) (e : Expr) :
    e.eval readable τ = e.eval readable σ := by
  induction e with
  | const | memAt | label | ret | call => simp only [eval]
  | reg r => simp only [eval, Store.get, hregs]
  | mem k ro a ih => simp only [eval, ih, Store.load?_congr hmem]
  | unary op k x ih => simp only [eval, ih]
  | binary op k x y ihx ihy => cases op <;> simp only [eval, ihx, ihy]

theorem Store.load?_mono (h : ∀ b, others b = true → readable b = true) (hc : σ.load? others k a = some c) :
    σ.load? readable k a = some c := by
  unfold Store.load? at hc ⊢
  split at hc
  · rename_i hall
    simp only [Bool.and_eq_true, List.all_eq_true] at hall
    rw [if_pos]
    · exact hc
    · simp only [Bool.and_eq_true, List.all_eq_true]
      exact ⟨fun i hi => h _ (hall.1 i hi), hall.2⟩
  · cases hc

/-- With more readable bytes a value stays what it is. -/
theorem Expr.eval_mono (h : ∀ b, others b = true → readable b = true) (e : Expr) :
    ∀ {c}, e.eval others σ = some c → e.eval readable σ = some c := by
  induction e with
  | const | memAt | label | reg | ret | call => simp [eval]
  | mem k ro a ih =>
    intro c hc
    simp only [eval, Option.bind_eq_some_iff] at hc ⊢
    obtain ⟨p, hp, hload⟩ := hc
    exact ⟨p, ih hp, Store.load?_mono h hload⟩
  | unary op k x ih =>
    intro c hc
    simp only [eval, Option.bind_eq_some_iff] at hc ⊢
    obtain ⟨d, hd, hop⟩ := hc
    exact ⟨d, ih hd, hop⟩
  | binary op k x y ihx ihy =>
    intro c hc
    cases op with
    | arith op | compare op =>
      simp only [eval, Option.bind_eq_some_iff] at hc ⊢
      obtain ⟨d, hd, d', hd', hop⟩ := hc
      exact ⟨d, ihx hd, d', ihy hd', hop⟩
    | logic op =>
      simp only [eval, Option.bind_eq_some_iff] at hc ⊢
      obtain ⟨d, hd, hop⟩ := hc
      refine ⟨d, ihx hd, ?_⟩
      split at hop
      · rw [if_pos ‹_›]
        exact hop
      · rw [if_neg ‹_›]
        exact ihy hop
    | _ => cases hc

/-- The stores have the same registers and the same readable bytes. -/
def Store.Agrees (readable : Word → Bool) (σ τ : Store) : Prop :=
  τ.regs = σ.regs ∧ ∀ b, readable b = true → τ.mem b = σ.mem b

theorem Store.Agrees.eval (h : σ.Agrees others τ) (hsub : ∀ b, others b = true → readable b = true)
    (hc : e.eval others σ = some c) : e.eval readable τ = some c := by
  refine Expr.eval_mono hsub e ?_
  rw [Expr.eval_congr h.1 h.2]
  exact hc

/-- An expression that does not read the place leaves its value there. -/
theorem Expr.inPlace_of_eval {after : Const → Store} (hsub : ∀ b, others b = true → readable b = true)
    (hafter : ∀ d, σ.Agrees others (after d)) (e : Expr) : ∀ {origin τ c}, σ.Agrees others τ →
      e.eval others σ = some c → e.inPlace readable after origin τ = some c := by
  induction e with
  | const | reg | mem | memAt | label | ret | call =>
    intro origin τ c hτ hc
    rw [inPlace] <;> try simp
    exact hτ.eval hsub hc
  | unary op k x ih =>
    intro origin τ c hτ hc
    cases op with
    | neg | inv | lnot =>
      rw [Expr.eval, Option.bind_eq_some_iff] at hc
      obtain ⟨d, hd, ⟨⟩⟩ := hc
      rw [inPlace, ih hτ hd]
      rfl
    | _ =>
      rw [inPlace] <;> try simp
      exact hτ.eval hsub hc
  | binary op k x y ihx ihy =>
    intro origin τ c hτ hc
    cases op with
    | arith op =>
      rw [inPlace]
      split
      · exact hτ.eval hsub hc
      · simp only [eval, Option.bind_eq_some_iff] at hc ⊢
        obtain ⟨d, hd, d', hd', hop⟩ := hc
        exact ⟨d, ihx hτ hd, d', (hafter d).eval hsub hd', hop⟩
    | logic op =>
      simp only [eval, inPlace, Option.bind_eq_some_iff] at hc ⊢
      obtain ⟨d, hd, hop⟩ := hc
      refine ⟨d, ihx hτ hd, ?_⟩
      split at hop
      · rw [if_pos ‹_›]
        exact hop
      · rw [if_neg ‹_›]
        exact ihy (hafter d) hop
    | _ =>
      rw [inPlace] <;> try simp
      exact hτ.eval hsub hc

/-- An expression whose right operands do not read the place has its own value, and leaves it in the place. -/
theorem Expr.eval_of_inOrder {after : Const → Store} (hsub : ∀ b, others b = true → readable b = true)
    (hafter : ∀ d, σ.Agrees others (after d)) (e : Expr) : ∀ {origin c}, e.inOrder readable others σ origin = some c →
      e.eval readable σ = some c ∧ e.inPlace readable after origin σ = some c := by
  induction e with
  | const | reg | mem | memAt | label | ret | call =>
    intro origin c hc
    rw [inOrder] at hc <;> try simp
    rw [inPlace] <;> try simp
    exact hc
  | unary op k x ih =>
    intro origin c hc
    cases op with
    | neg | inv | lnot =>
      rw [inOrder, Option.map_eq_some_iff] at hc
      obtain ⟨d, hd, rfl⟩ := hc
      obtain ⟨he, hp⟩ := ih hd
      rw [inPlace, hp, eval, he]
      exact ⟨rfl, rfl⟩
    | _ =>
      rw [inOrder] at hc <;> try simp
      rw [inPlace] <;> try simp
      exact hc
  | binary op k x y ihx ihy =>
    intro origin c hc
    cases op with
    | arith op =>
      rw [inOrder] at hc
      rw [inPlace]
      split at hc
      · rw [if_pos ‹_›]
        exact ⟨hc, hc⟩
      · rw [if_neg ‹_›]
        simp only [eval, Option.bind_eq_some_iff] at hc ⊢
        obtain ⟨d, hd, d', hd', hop⟩ := hc
        obtain ⟨he, hp⟩ := ihx hd
        exact ⟨⟨d, he, d', Expr.eval_mono hsub y hd', hop⟩, d, hp, d', (hafter d).eval hsub hd', hop⟩
    | logic op =>
      rw [inOrder] at hc
      rw [inPlace]
      simp only [eval, Option.bind_eq_some_iff] at hc ⊢
      obtain ⟨d, hd, hop⟩ := hc
      obtain ⟨he, hp⟩ := ihx hd
      refine ⟨⟨d, he, ?_⟩, d, hp, ?_⟩ <;> split at hop
      · rw [if_pos ‹_›]
        exact hop
      · rw [if_neg ‹_›]
        exact Expr.eval_mono hsub y hop
      · rw [if_pos ‹_›]
        exact hop
      · rw [if_neg ‹_›]
        exact Expr.inPlace_of_eval hsub hafter y (hafter d) hop
    | _ =>
      rw [inOrder] at hc <;> try simp
      rw [inPlace] <;> try simp
      exact hc

end Reads

namespace Amd64

open Lower

section Storing

variable {flat : Flat} {log : Log} {A : Activation} {i : Nat} {a x : Expr} {k : Kind} {ro : Bool} {m m' : Machine}
  {σ : Store} {c p : Const} {μ : Mark}

theorem statement_store (g k : Kind) (ro : Bool) (a x : Expr) : statement (.binary .assign g (.mem k ro a) x) = (do
    let mode ← address a
    into (.memAt k ro mode) x (some (.mem k ro a))
    return .memAt k ro mode) := by
  rw [statement, if_neg (by simp [Expr.isEffectFree, BinaryOp.hasSideEffects, BinaryOp.isAssign]), assign, resolveTarget]
  simp only [bind_assoc, pure_bind]

/-- Bytes outside of the stack area. -/
theorem not_mem_stack {w : Word} {n : Nat} (h : ∀ j < n, A.isOutside (w + .ofNat 64 j) = true) {b : Word}
    (hb : Cell.byte b ∈ bytesAt w n) : b ∉ A.stack := by
  obtain ⟨_, ⟨⟩, hlt⟩ := hb
  have hsum : w + .ofNat 64 (b - w).toNat = b := by
    rw [BitVec.ofNat_toNat, BitVec.setWidth_eq, BitVec.add_comm, BitVec.sub_add_cancel]
  rw [← Activation.isOutside_iff, ← hsum]
  exact h _ hlt

/-- No register lives in memory outside of the stack area. -/
theorem samePlace_of_outside {V : View A} {mode : AddrMode} (hk : k.isScalar = true) (hsp : m.regs rsp = A.sp)
    (hout : ∀ b, Cell.byte b ∈ bytesAt (m.address mode) k.size → b ∉ A.stack) {r : Reg} {q : Expr} (hr : V.live r)
    (hq : A.frame.resolve r = .ok q) : samePlace q (.memAt k ro mode) = false := by
  by_contra h
  have hplace : Occupies m (.memAt k ro mode) (bytesAt (m.address mode) k.size) := .mem hk
  obtain ⟨c, hcT, hc⟩ := hplace.exists_cell (by simpa using h)
  rcases (V.placed hr).cells hq hsp hc with ⟨g, rfl, -⟩ | ⟨b, rfl, hb⟩
  · exact reg_not_mem_bytesAt hcT
  · exact hout b hcT (show (b - A.sp).toNat < _ by omega)

/-- The code of an assignment to memory leaves there the value that is computed in that place. -/
theorem does_store {V : View A} {g : Kind} {Q : Expr → Mark → Machine → Prop} (hk : k.isScalar = true) (ha : Plain A.frame a)
    (hp : a.kind = .ptr) (hx : Plain A.frame x) (hxk : x.kind = k) (hca : V.Covers a) (hcx : V.Covers x) (hm : V.Shows σ m)
    (hpe : a.eval V.readable σ = some p) (hout : ∀ b, Cell.byte b ∈ bytesAt p.re k.size → b ∉ A.stack)
    (hc : x.inPlace V.readable (fun d => σ.set (.mem k p.re) d) (some (.mem k ro a)) σ = some c)
    (hQ : ∀ q ν m', V.Shows (σ.set (.mem k p.re) c) m' → Keeps (A.free μ ∪ bytesAt p.re k.size) m m' → Q q ν m') :
    Does A (statement (.binary .assign g (.mem k ro a) x)) μ m Q := by
  have hta := ha.tidy A.regs_eq
  have := steady_address A.regs_eq hta
  have := (hx.tidy A.regs_eq).into
  have h8 : p.kind.size = 8 := by
    rw [(ha.eval_kind hpe).1, hp]
    rfl
  have hadds : ∀ t : Terms, t.narrow = false → Adds A (V.Shows σ) 8 p.re t (addTerm t a) := by
    intro t ht
    rw [← h8]
    exact ha.selects.term hca hpe (.inr h8) t (by rw [h8, ht]; rfl)
  rw [statement_store]
  refine .bind (does_address hta hp hadds hm fun mode ν m₁ hle hregs hk₁ haddr => .bind ?_)
  have hm₁ := V.stable σ hm hk₁
  have hfree : ∀ {b}, Cell.byte b ∈ bytesAt (m₁.address mode) k.size → b ∉ A.stack := by
    rw [haddr]
    exact fun hb => hout _ hb
  have hplace : ∀ r q, V.live r → A.frame.resolve r = .ok q → samePlace q (.memAt k ro mode) = false := fun r q hr hq =>
    samePlace_of_outside hk hm₁.sp (fun b hb => hfree hb) hr hq
  have hd : Dest A ν m₁ (.memAt k ro mode) (bytesAt p.re k.size) := by
    rw [← haddr]
    refine .mem hk (fun r hr => Activation.not_free_of_owned (hregs r hr)) (Set.disjoint_left.2 ?_)
    rintro _ ⟨b, rfl, hb⟩ hf
    exact hfree ⟨b, rfl, hb⟩ hf.2
  have hsink : Sink V σ (fun d => σ.set (.mem k p.re) d) (.memAt k ro mode) (bytesAt p.re k.size) :=
    Sink.memory hk hout hplace
  refine hx.selects.into hsink hd hm₁ hxk.symm hcx ?_ hc fun ν' m' hle' hk' hh => .pure ?_
  · rintro _ v ⟨⟩ hv
    simp only [Expr.eval, Option.bind_eq_some_iff] at hv
    obtain ⟨p', hp', hload⟩ := hv
    cases hpe.symm.trans hp'
    obtain ⟨hvk, hread, -⟩ := hm₁.load (μ := ν) hk hload
    exact .mem hvk.symm (by rw [haddr]; exact hread)
  · have hshow := hsink.store (.inl hm₁) hd hk' hh
    refine hQ _ ν' m' ⟨hshow.sp, fun hr hq => hshow.regs ⟨hr, fun q' hq' => hplace _ q' hr hq'⟩ hq,
      fun hb => hshow.bytes hb⟩ ?_
    exact (hk₁.mono Set.subset_union_left).trans (hk'.mono (Set.union_subset_union_left _ (Activation.free_anti hle)))

/-- The readable bytes apart from those of a place. -/
def Activation.isApart (A : Activation) (w : Word) (n : Nat) (b : Word) : Bool :=
  A.isOutside b && !decide ((b - w).toNat < n)

/-- A store to a place agrees with the one before on all other bytes. -/
theorem agrees_set (hk : k.isScalar = true) (w : Word) (d : Const) :
    σ.Agrees (A.isApart w k.size) (σ.set (.mem k w) d) := by
  refine ⟨rfl, fun b hb => ?_⟩
  have hpart : k.partSize = k.size := by
    unfold Kind.partSize
    rw [Kind.not_isComplex_of_isScalar hk, if_neg (by simp)]
  have hge : k.size ≤ (b - w).toNat := by
    simp only [Activation.isApart, Bool.and_eq_true, Bool.not_eq_true', decide_eq_false_iff_not] at hb
    omega
  simp only [Store.set, hpart, Kind.not_isComplex_of_isScalar hk, Bool.false_eq_true, if_false]
  exact Memory.write_of_ge hge

/-- What is known of an assignment to memory. -/
structure IsStore (A : Activation) (V : View A) (g k : Kind) (a x : Expr) : Prop where
  scalar : k.isScalar = true
  address : Plain A.frame a
  pointer : a.kind = .ptr
  plain : Plain A.frame x
  kind : x.kind = k
  result : g = k
  covers : V.Covers a ∧ V.Covers x

theorem isStore_of_built {g : Kind} (hA : A.frame = frameOf flat log) (hone : flat.OneKind)
    (hi : flat.code[i]? = some (.binary .assign g (.mem k ro a) x)) (hb : (Expr.binary .assign g (.mem k ro a) x).Built)
    (hint : (Expr.binary .assign g (.mem k ro a) x).isIntegral = true) (hfa : a.isEffectFree = true)
    (hfx : x.isEffectFree = true) : IsStore A (viewAt A hA (i + 1)) g k a x := by
  have hlive : ∀ r ∈ a.regs ++ x.regs, (viewAt A hA (i + 1)).live r := by
    intro r hr
    obtain ⟨hsc, hsoft⟩ := scalar_of_isIntegral _ hint r hr
    exact ⟨hsc, hone.spans hi hr hsoft⟩
  have hca : (viewAt A hA (i + 1)).Covers a := fun r hr => hlive r (List.mem_append_left _ hr)
  have hcx : (viewAt A hA (i + 1)).Covers x := fun r hr => hlive r (List.mem_append_right _ hr)
  obtain ⟨hcheck, ⟨hp, -, hwa⟩, hwx⟩ := hb.wellKinded
  obtain ⟨hadm, -, rfl⟩ := Expr.checkBinary_eq_ok.1 hcheck
  simp only [Expr.isIntegral, Bool.and_eq_true] at hint
  simp only [Expr.binaryAdmits, Bool.and_eq_true, beq_iff_eq] at hadm
  refine ⟨hint.1.2.1, ?_, hp, ?_, hadm.1.symm, rfl, hca, hcx⟩
  · exact plain_of_isIntegral a hwa hint.1.2.2 hfa fun r hr => (viewAt A hA (i + 1)).placed (hca r hr)
  · exact plain_of_isIntegral x hwx hint.2 hfx fun r hr => (viewAt A hA (i + 1)).placed (hcx r hr)

/-- The code of an assignment to memory takes a machine that represents a store to one that represents the store with the
value that is computed in the place; nothing else outside of the stack area changes. If no right operand reads the place,
that value is the one of the expression, and the store is the one after the assignment. -/
theorem exec_store (w : World) {s s' : Session} {v : Expr} {g : Kind} (hA : A.frame = frameOf flat log) (hone : flat.OneKind)
    (hi : flat.code[i]? = some (.binary .assign g (.mem k ro a) x)) (hb : (Expr.binary .assign g (.mem k ro a) x).Built)
    (hint : (Expr.binary .assign g (.mem k ro a) x).isIntegral = true) (hfa : a.isEffectFree = true)
    (hfx : x.isEffectFree = true) (hp : a.eval A.isOutside σ = some p)
    (hout : ∀ j < k.size, A.isOutside (p.re + .ofNat 64 j) = true)
    (hc : x.inPlace A.isOutside (fun d => σ.set (.mem k p.re) d) (some (.mem k ro a)) σ = some c)
    (hs : Gives A.frame (select (.binary .assign g (.mem k ro a) x) true) s v s') (hpeak : s'.tempPeak ≤ A.limit)
    (hm : Represents A flat (i + 1) σ m) :
    (∃ code, s'.items.toList = s.items.toList ++ code.map .instr ∧
      ∃ m', exec code (.at m) = .at m' ∧ Represents A flat (i + 1) (σ.set (.mem k p.re) c) m') ∧
    ∀ d, x.inOrder A.isOutside (A.isApart p.re k.size) σ (some (.mem k ro a)) = some d →
      d = c ∧ x.eval A.isOutside σ = some d ∧
        (Expr.binary .assign g (.mem k ro a) x).run w σ = some (d, σ.set (.mem k p.re) d) := by
  have hst := isStore_of_built hA hone hi hb hint hfa hfx
  constructor
  · have hsteady : Steady A.frame (statement (.binary .assign g (.mem k ro a) x)) := by
      have := steady_address A.regs_eq (hst.address.tidy A.regs_eq)
      have := (hst.plain.tidy A.regs_eq).into
      rw [statement_store]
      infer_instance
    obtain ⟨code, hgrown⟩ := hsteady.grown hs
    obtain ⟨m', hexec, hm'⟩ := (does_store (g := g) (Q := fun _ _ m' =>
      (viewAt A hA (i + 1)).Shows (σ.set (.mem k p.re) c) m')
      hst.scalar hst.address hst.pointer hst.plain hst.kind hst.covers.1 hst.covers.2 (hm.shows hA) hp
      (fun b hb => not_mem_stack hout hb) hc fun _ _ _ h _ => h).run hs rfl hpeak hgrown
    exact ⟨code, hgrown.items, m', hexec, represents_of_shows hA hm'⟩
  · intro d hd
    have hsub : ∀ b, A.isApart p.re k.size b = true → A.isOutside b = true := by
      intro b hb
      simp only [Activation.isApart, Bool.and_eq_true] at hb
      exact hb.1
    obtain ⟨hev, hin⟩ := Expr.eval_of_inOrder hsub (agrees_set hst.scalar p.re) x hd
    obtain rfl : d = c := Option.some.inj (hin.symm.trans hc)
    obtain ⟨hdk, hdc⟩ := hst.plain.eval_kind hev
    have hat : d.at g = d := Const.at_eq (hdk.trans (hst.kind.trans hst.result.symm)) hdc
    refine ⟨rfl, hev, ?_⟩
    simp only [Expr.run, Expr.place, hst.address.run_eq w hp, hst.plain.run_eq w hev, Option.bind_eq_bind, Option.bind_some,
      hat]

/-- A function of a pointer and a number that stores an expression at the pointer. -/
def storing (x : Expr) : Flat where
  func := Func.empty "store" ⟨[.ptr, .int64], []⟩
  code := #[.binary .assign .int64 (.mem .int64 false (.reg (Func.softReg 0 .ptr))) x]

/-- What is at the pointer, less the number twice. -/
def lessTwice : Expr :=
  let n := Expr.reg (Func.softReg 1 .int64)
  .binary (.arith .sub) .int64 (.binary (.arith .sub) .int64 (.mem .int64 false (.reg (Func.softReg 0 .ptr))) n) n

/-- The number less what is at the pointer. -/
def difference : Expr :=
  .binary (.arith .sub) .int64 (.reg (Func.softReg 1 .int64)) (.mem .int64 false (.reg (Func.softReg 0 .ptr)))

/-- Ten, and a pointer to three. -/
def tenAndThree : Store where
  regs id := if id = .soft 256 then (0x2000, 0) else if id = .soft 257 then (10, 0) else 0
  mem b := if b = 0x2000 then 3 else 0

/-- The same in registers. -/
def tenAndThreeIn : Machine where
  regs g := if g = gpr 6 then 0x2000 else if g = gpr 7 then 10 else if g = rsp then 0x1000 else 0
  mem b := if b = 0x2000 then 3 else 0
  flags := none

theorem represents_storing (hA : A.frame = frameOf (storing x) #[]) (hsp : A.sp = 0x1000)
    (halloc : (scan.allocate (storing x) #[]).1 = ⟨[(256, .reg (gpr 6)), (257, .reg (gpr 7))], 0⟩)
    (hivs : (storing x).intervals = [⟨256, .ptr, 0, 1⟩, ⟨257, .int64, 0, 1⟩]) :
    Represents A (storing x) 1 tenAndThree tenAndThreeIn := by
  refine ⟨hsp.symm, ?_, fun _ _ => rfl⟩
  rw [hivs, hA]
  intro iv hiv _ _ q hq
  have hres : (frameOf (storing x) #[]).resolve iv.reg =
      .ok (.reg ⟨iv.kind, .hard (gpr (if iv.id = 256 then 6 else 7)), false⟩) := by
    rcases List.mem_pair.1 hiv with rfl | rfl <;> simp only [Frame.resolve, Allocation.get, frameOf, halloc] <;> rfl
  cases hres.symm.trans hq
  rcases List.mem_pair.1 hiv with rfl | rfl <;> exact .reg rfl (by decide) rfl

theorem allocate_lessTwice :
    (scan.allocate (storing lessTwice) #[]).1 = ⟨[(256, .reg (gpr 6)), (257, .reg (gpr 7))], 0⟩ := by cbv

theorem intervals_lessTwice : (storing lessTwice).intervals = [⟨256, .ptr, 0, 1⟩, ⟨257, .int64, 0, 1⟩] := by cbv

theorem oneKind_lessTwice : (storing lessTwice).OneKind := .of_all (by cbv)

theorem exec_store_lessTwice :
    let A : Activation := ⟨frameOf (storing lessTwice) #[], 0x1000, 0, rfl, by simp [frameOf, allocate_lessTwice]⟩
    let target : Expr := .mem .int64 false (.reg (Func.softReg 0 .ptr))
    let place : Expr := .memAt .int64 false (.ofBase (gpr 6) 0)
    let less : Item := .instr (.binary (.compound .sub) .int64 place (.reg ⟨.int64, .hard (gpr 7), false⟩))
    let w : World := ⟨fun _ => 0, fun _ _ _ => none, fun _ _ => .zero .void⟩
    (storing lessTwice).OneKind ∧
      lessTwice.inOrder A.isOutside (A.isApart 0x2000 8) tenAndThree (some target) = some (.int64 (-17)) ∧
      Represents A (storing lessTwice) 1 tenAndThree tenAndThreeIn ∧
      Gives A.frame (select (.binary .assign .int64 target lessTwice) true) { labels := {} } place
        { labels := {}, items := #[less, less] } ∧
      (∃ code, [less, less] = [] ++ code.map .instr ∧ ∃ m', exec code (.at tenAndThreeIn) = .at m' ∧
        Represents A (storing lessTwice) 1 (tenAndThree.set (.mem .int64 0x2000) (.int64 (-17))) m') ∧
      (Expr.binary .assign .int64 target lessTwice).run w tenAndThree =
        some (.int64 (-17), tenAndThree.set (.mem .int64 0x2000) (.int64 (-17))) := by
  intro A target place less w
  have hp : (Expr.reg (Func.softReg 0 .ptr)).eval A.isOutside tenAndThree = some (.ptr 0x2000) := by cbv
  have hin : lessTwice.inPlace A.isOutside (fun d => tenAndThree.set (.mem .int64 (Const.ptr 0x2000).re) d) (some target)
      tenAndThree = some (.int64 (-17)) := by cbv
  have hord : lessTwice.inOrder A.isOutside (A.isApart 0x2000 8) tenAndThree (some target) = some (.int64 (-17)) := by cbv
  have hout : ∀ j < Kind.int64.size, A.isOutside ((Const.ptr 0x2000).re + .ofNat 64 j) = true := by
    have hall : (List.range 8).all (fun j => A.isOutside ((Const.ptr 0x2000).re + .ofNat 64 j)) = true := by cbv
    exact fun j hj => List.all_eq_true.1 hall j (List.mem_range.2 hj)
  have hrep : Represents A (storing lessTwice) 1 tenAndThree tenAndThreeIn :=
    represents_storing rfl rfl allocate_lessTwice intervals_lessTwice
  have hgives : Gives A.frame (select (.binary .assign .int64 target lessTwice) true) { labels := {} } place
      { labels := {}, items := #[less, less] } := ⟨#[], #[.selected less, .selected less], by cbv⟩
  have hmemory : Expr.memory .int64 false (.reg (Func.softReg 0 .ptr)) = .ok target := rfl
  have htarget : target.Built := .memory (.reg _) hmemory
  have hn : (Expr.reg (Func.softReg 1 .int64)).Built := .reg _
  have honce : (Expr.binary (.arith .sub) .int64 target (.reg (Func.softReg 1 .int64))).Built :=
    .binary (x := target) (y := .reg (Func.softReg 1 .int64)) (.arith .sub) htarget hn rfl
  have hx : lessTwice.Built := .binary (y := .reg (Func.softReg 1 .int64)) (.arith .sub) honce hn rfl
  have hbuilt : (Expr.binary .assign .int64 target lessTwice).Built := .binary (x := target) .assign htarget hx rfl
  have hframe : A.frame = frameOf (storing lessTwice) #[] := rfl
  obtain ⟨hcode, hrun⟩ := exec_store w (i := 0) hframe oneKind_lessTwice rfl hbuilt rfl rfl rfl hp hout hin hgives
    le_rfl hrep
  exact ⟨oneKind_lessTwice, hord, hrep, hgives, hcode, (hrun _ hord).2.2⟩

theorem allocate_difference :
    (scan.allocate (storing difference) #[]).1 = ⟨[(256, .reg (gpr 6)), (257, .reg (gpr 7))], 0⟩ := by cbv

theorem intervals_difference : (storing difference).intervals = [⟨256, .ptr, 0, 1⟩, ⟨257, .int64, 0, 1⟩] := by cbv

/-- The code of a difference that is stored over its right operand. -/
def differenceCode : List Expr :=
  let place : Expr := .memAt .int64 false (.ofBase (gpr 6) 0)
  let r := fun i => Expr.reg ⟨.int64, .hard (gpr i), false⟩
  [.binary .assign .int64 place (r 7), .binary .assign .int64 (r 10) place, .binary (.compound .sub) .int64 place (r 10)]

/-- A right operand in the place is overwritten before it is read: ten less three becomes zero. -/
theorem exec_store_difference :
    let A : Activation := ⟨frameOf (storing difference) #[], 0x1000, 0, rfl, by simp [frameOf, allocate_difference]⟩
    let target : Expr := .mem .int64 false (.reg (Func.softReg 0 .ptr))
    Represents A (storing difference) 1 tenAndThree tenAndThreeIn ∧
      difference.eval A.isOutside tenAndThree = some (.int64 7) ∧
      (∃ v s', Gives A.frame (select (.binary .assign .int64 target difference) true) { labels := {} } v s' ∧
        s'.items.toList = differenceCode.map .instr) ∧
      ∃ m', exec differenceCode (.at tenAndThreeIn) = .at m' ∧ m'.mem.read 0x2000 8 = 0 ∧
        ¬Represents A (storing difference) 1 (tenAndThree.set (.mem .int64 0x2000) (.int64 7)) m' := by
  intro A target
  refine ⟨represents_storing rfl rfl allocate_difference intervals_difference, by cbv, ?_, ?_⟩
  · exact ⟨.memAt .int64 false (.ofBase (gpr 6) 0), { labels := {}, items := (differenceCode.map .instr).toArray },
      ⟨#[], (differenceCode.map fun e => .selected (.instr e)).toArray, by cbv⟩, rfl⟩
  · refine ⟨_, rfl, by decide, fun hrep => ?_⟩
    have hb := hrep.bytes 0x2000 (by cbv)
    revert hb
    decide

end Storing

end Amd64

end JitBackend
