import Mathlib
import JitBackend.Proofs.Amd64.Growth
import JitBackend.Proofs.Amd64.Legality
import JitBackend.Proofs.Amd64.Plain
import JitBackend.Proofs.Compilation

/-!
# Functions over integers, truth values and pointers

The code of such a function can be encoded, whatever the shapes of its expressions and the places of its registers: if
selection succeeds, assembling fails at most because of a label. The proof goes over the expressions, with one lemma for
each node, and then over the statements of a function.
-/

namespace JitBackend

namespace Expr

/-- Values of integers, truth values and pointers over soft registers, where calls take no arguments, increments and
the like are left to statements, and bytes are not multiplied or divided. -/
def isIntegral : Expr → Bool
  | const c => c.kind.isScalar
  | reg r => r.kind.isScalar && r.id.isSoft
  | mem k _ a => k.isScalar && a.isIntegral
  | memAt .. => false
  | label _ => true
  | unary op k x => !op.isAssign && k.isScalar && x.isIntegral
  | binary op k x y => k.isScalar && !(isByteProduct op k) && x.isIntegral && y.isIntegral
  | ret _ => false
  | call _ _ sig args => sig.value.isScalar && args.isEmpty
where
  isByteProduct (op : BinaryOp) (k : Kind) : Bool :=
    match op with
    | .arith a | .compound a => Amd64.isWide a && k.size == 1
    | _ => false

/-- Statements over such values: labels, jumps and conditional jumps to labels, assignments, calls, and returns of at
most two values. -/
def isIntegralStatement : Expr → Bool
  | label _ | unary .jump _ (label _) => true
  | unary .inc _ x | unary .dec _ x | unary .zero _ x => x.isIntegral
  | binary .jumpIf _ (label _) c => c.isIntegral
  | binary .assign k x y => isIntegral (binary .assign k x y)
  | binary (.compound a) k x y => isIntegral (binary (.compound a) k x y)
  | ret vs => vs.length ≤ 2 && vs.all isIntegral
  | call _ _ sig args => (sig.value.isScalar || sig.value.isVoid) && args.isEmpty
  | _ => false

end Expr

namespace Stmt

mutual
/-- Statements whose expressions, but for those that are dropped, are of this sort. -/
def isIntegral : Stmt → Bool
  | block list => isIntegralL list
  | expr e => e.isEffectFree || e.isIntegralStatement
  | ite c t e => c.isIntegral && isIntegral t && isIntegralO e
  | loop i c p b => (loopCond c).isIntegral && isIntegralO i && isIntegralO p && isIntegral b
  | exit _ => true
def isIntegralL : List Stmt → Bool
  | [] => true
  | s :: ss => isIntegral s && isIntegralL ss
def isIntegralO : Option Stmt → Bool
  | none => true
  | some s => isIntegral s
end

theorem isIntegral_mkNot {c : Expr} (h : c.isIntegral = true) : (Expr.mkNot c).isIntegral = true := by
  unfold Expr.mkNot
  split
  · simp only [Expr.isIntegral, Bool.and_eq_true] at h
    exact h.2
  · split
    · simp only [Expr.isIntegral, Bool.and_eq_true] at h ⊢
      exact ⟨⟨⟨rfl, rfl⟩, h.1.2⟩, h.2⟩
    · simp only [Expr.isIntegral, Bool.and_eq_true]
      exact ⟨⟨rfl, rfl⟩, by simpa [Expr.isIntegral] using h⟩
  · simp only [Expr.isIntegral, Bool.and_eq_true]
    exact ⟨⟨rfl, rfl⟩, h⟩

theorem isIntegral_lnot {c d : Expr} (h : c.isIntegral = true) (hd : Expr.mkUnary .lnot c = .ok d) :
    d.isIntegral = true := by
  obtain ⟨k, hk, ⟨hop, -⟩ | ⟨hop, -⟩ | ⟨-, c, -, rfl⟩ | ⟨-, rfl⟩ | rfl⟩ := Expr.mkUnary_eq_ok hd
  · cases hop
  · cases hop
  · rfl
  · exact isIntegral_mkNot h
  · obtain ⟨-, -, rfl⟩ := Expr.checkUnary_eq_ok.1 hk
    simp only [Expr.isIntegral, Bool.and_eq_true]
    exact ⟨⟨rfl, rfl⟩, h⟩

theorem isIntegralStatement_jumpIf {l : Label} {c j : Expr} (h : c.isIntegral = true) (hj : Expr.mkJumpIf l c = .ok j) :
    j.isIntegralStatement = true := by
  obtain rfl := mkJumpIf_eq_ok hj
  exact h

mutual
theorem isIntegral_yields : ∀ s : Stmt, s.isIntegral = true → s.Yields (·.isIntegralStatement = true)
  | .block ss, h => by
    rw [Yields]
    rw [isIntegral] at h
    exact isIntegral_yieldsL ss h
  | .expr e, h => by
    rw [Yields]
    rw [isIntegral, Bool.or_eq_true] at h
    intro hfree
    rcases h with h | h
    · rw [hfree] at h
      cases h
    · exact h
  | .exit _, _ => by
    rw [Yields]
    trivial
  | .ite c t e, h => by
    rw [Yields]
    simp only [isIntegral, Bool.and_eq_true] at h
    refine ⟨?_, isIntegral_yields t h.1.2, isIntegral_yieldsO e h.2⟩
    exact fun l d j hd hj => isIntegralStatement_jumpIf (isIntegral_lnot h.1.1 hd) hj
  | .loop i c p b, h => by
    rw [Yields]
    simp only [isIntegral, Bool.and_eq_true] at h
    obtain ⟨⟨⟨hc, hi⟩, hp⟩, hb⟩ := h
    refine ⟨?_, isIntegral_yieldsO i hi, isIntegral_yieldsO p hp, isIntegral_yields b hb⟩
    exact fun l j hj => isIntegralStatement_jumpIf hc hj
theorem isIntegral_yieldsL : ∀ ss : List Stmt, isIntegralL ss = true → YieldsL (·.isIntegralStatement = true) ss
  | [], _ => by
    rw [YieldsL]
    trivial
  | s :: ss, h => by
    rw [YieldsL]
    simp only [isIntegralL, Bool.and_eq_true] at h
    exact ⟨isIntegral_yields s h.1, isIntegral_yieldsL ss h.2⟩
theorem isIntegral_yieldsO : ∀ o : Option Stmt, isIntegralO o = true → YieldsO (·.isIntegralStatement = true) o
  | none, _ => by
    rw [YieldsO]
    trivial
  | some s, h => by
    rw [YieldsO]
    rw [isIntegralO] at h
    exact isIntegral_yields s h
end

end Stmt

namespace Amd64

open Lower

/-! ## Logical operations -/

section Logic

variable {f : Frame} {dst : Expr} {left right : Expr → Lower Unit}

theorem refuge_legal (hf : IsNative f) {e : Expr} {s s' : Session} {chain : List (Mark × Expr)}
    (h : refuge f e dst s = (.ok chain, s')) : ∀ c ∈ chain, LegalPlace IsFree c.2 ∧ c.2.kind = .bool := by
  intro c hc
  obtain ⟨_, _, _, -, -, ht, -⟩ := (refuge_below h).2 c hc
  exact (temp_legal hf rfl ht).2

theorem legal_logicAt {op : LogicOp} {p : Expr} (hp : LegalPlace IsGpr p) (hl : Legal f (left p) fun _ => True)
    (hr : Legal f (right p) fun _ => True) : Legal f (logicAt op p left right) fun _ => True := by
  refine legal_newLabel.bind fun l _ => hl.bind fun _ _ => ?_
  refine (legal_emit (encodes_alu rfl hp (.const rfl rfl))).bind fun _ _ => legal_jcc.bind fun _ _ => ?_
  exact hr.bind fun _ _ => legal_emit (encodes_label _)

theorem legal_unwind (hf : IsNative f) : ∀ {chain : List (Mark × Expr)} {dst : Expr}, LegalPlace IsGpr dst →
    (∀ c ∈ chain, LegalPlace IsFree c.2) → Legal f (unwind dst chain) fun _ => True
  | [], _, _, _ => .pure trivial
  | (m, t) :: chain, dst, hd, h => by
    obtain ⟨ht, hrest⟩ := List.forall_mem_cons.1 h
    rw [unwind]
    refine (legal_unwind hf ht.isGpr hrest).bind fun _ _ => ?_
    refine (legal_mov hf hd (.place ht.isGpr) (by rintro c hc; cases ht <;> cases hc)).bind fun _ _ => ?_
    exact legal_modify fun _ => rfl

theorem legal_logicInto {op : LogicOp} {y : Expr} (hf : IsNative f) (hd : LegalPlace IsGpr dst) (hk : dst.kind = .bool)
    (hl : ∀ p, LegalPlace IsGpr p → p.kind = .bool → Legal f (left p) fun _ => True)
    (hr : ∀ p, LegalPlace IsGpr p → p.kind = .bool → Legal f (right p) fun _ => True) :
    Legal f (logicInto op y dst left right) fun _ => True := by
  unfold logicInto
  refine (Legal.read (Q := fun _ => True) trivial).bind fun g _ => ?_
  refine (Legal.lift (Q := fun _ => True) fun _ _ => trivial).bind fun b _ => ?_
  split
  · have hrefuge : Legal f (change fun f => refuge f y dst) fun chain =>
        ∀ c ∈ chain, LegalPlace IsFree c.2 ∧ c.2.kind = .bool :=
      .change fun h => ⟨(refuge_below h).1.1, refuge_legal hf h⟩
    refine .releasing (hrefuge.bind fun chain hchain => ?_)
    have hlast : LegalPlace IsGpr ((chain.getLast?.map (·.2)).getD dst) ∧
        ((chain.getLast?.map (·.2)).getD dst).kind = .bool := by
      cases hc : chain.getLast? with
      | none => exact ⟨hd, hk⟩
      | some c =>
        obtain ⟨ht, htk⟩ := hchain c (List.mem_of_getLast? hc)
        exact ⟨ht.isGpr, htk⟩
    refine (legal_logicAt hlast.1 (hl _ hlast.1 hlast.2) (hr _ hlast.1 hlast.2)).bind fun _ _ => ?_
    exact legal_unwind hf hd fun c hc => (hchain c hc).1
  · exact legal_logicAt hd (hl dst hd hk) (hr dst hd hk)

end Logic

/-! ## Expressions -/

/-- What selection makes of an expression is legal. -/
structure Lowers (f : Frame) (e : Expr) : Prop where
  value : GivesValue f (value e) e.kind
  into : ∀ {dst} origin, LegalPlace IsGpr dst → dst.kind = e.kind → Legal f (into dst e origin) fun _ => True
  term : ∀ {t : Terms}, t.IsFree → Legal f (addTerm t e) Terms.IsFree
  flags : ∀ op {y}, GivesValue f (Amd64.value y) y.kind → Legal f (flags op e y) fun _ => True
  target : e.isAssignable = true → Legal f (resolveTarget e) fun d => LegalPlace IsFree d ∧ d.kind = e.kind

section Nodes

variable {f : Frame} {e x y : Expr}

theorem legal_addOpaque {t : Terms} (hf : IsNative f) (ht : t.IsFree) (hv : GivesValue f (value e) e.kind) :
    Legal f (addOpaque t e) Terms.IsFree := by
  rw [addOpaque]
  refine (legal_makeRoom hf ht).bind fun t' ht' => hv.bind fun v hv => ?_
  exact (legal_toHard hf hv.1).bind fun r hr => legal_place hf ht' hr

theorem legal_address (hf : IsNative f) (he : Lowers f e) : Legal f (address e) LegalAddress := by
  rw [address]
  exact (he.term ⟨by rintro r ⟨⟩, by rintro i ⟨⟩⟩).bind fun t ht => legal_finish hf ht

theorem legal_flags {op : CompareOp} (hf : IsNative f) (hx : GivesValue f (value x) x.kind)
    (hy : GivesValue f (value y) y.kind) (hand : ∀ k a b, x = .binary (.arith .and) k a b →
      GivesValue f (value a) a.kind ∧ GivesValue f (value b) b.kind) (hk : x.kind.isScalar = true) :
    Legal f (flags op x y) fun _ => True := by
  unfold flags
  refine .releasing ?_
  split
  · split
    · rename_i k a b
      obtain ⟨ha, hb⟩ := hand k a b rfl
      exact (legal_testBits hf ha hb).bind fun _ _ => .pure trivial
    · exact hx.bind fun v hv => (legal_testZero hf hk hv.1).bind fun _ _ => .pure trivial
  · exact legal_compareFlags hf hx hy

/-- An operation is computed into a temporary. -/
theorem givesValue_of_into (hf : IsNative f) (hk : e.kind.isScalar = true)
    (hv : value e = do let t ← temp e.kind (.value e); into t e none; return t)
    (hi : ∀ {dst} origin, LegalPlace IsGpr dst → dst.kind = e.kind → Legal f (into dst e origin) fun _ => True) :
    GivesValue f (value e) e.kind := by
  rw [hv]
  refine (legal_temp hf hk).bind fun t ht => (hi none ht.1.isGpr ht.2).bind fun _ _ => ?_
  exact .pure ⟨.place ht.1, ht.2⟩

/-- An operation that is a single term of an address. -/
theorem lowers_of_into (hf : IsNative f) (hk : e.kind.isScalar = true) (hassign : e.isAssignable = false)
    (hv : value e = do let t ← temp e.kind (.value e); into t e none; return t)
    (hterm : ∀ t, addTerm t e = addOpaque t e) (hand : ∀ k a b, e ≠ .binary (.arith .and) k a b)
    (hi : ∀ {dst} origin, LegalPlace IsGpr dst → dst.kind = e.kind → Legal f (into dst e origin) fun _ => True) :
    Lowers f e where
  value := givesValue_of_into hf hk hv hi
  into := hi
  term ht := by
    rw [hterm]
    exact legal_addOpaque hf ht (givesValue_of_into hf hk hv hi)
  flags op y hy := legal_flags hf (givesValue_of_into hf hk hv hi) hy (fun k a b h => absurd h (hand k a b)) hk
  target h := by rw [hassign] at h; cases h

/-- An operand that has a place of its own. -/
theorem lowers_of_place (hf : IsNative f) (hk : e.kind.isScalar = true)
    (hv : Legal f (value e) fun v => LegalPlace IsFree v ∧ v.kind = e.kind)
    (hi : ∀ dst origin, into dst e origin = releasing (do let v ← value e; mov dst v))
    (hterm : ∀ t, addTerm t e = addOpaque t e) (hand : ∀ k a b, e ≠ .binary (.arith .and) k a b)
    (htarget : resolveTarget e = value e) : Lowers f e where
  value := hv.mono fun _ h => ⟨.place h.1, h.2⟩
  into origin hd hdk := by
    rw [hi]
    exact .releasing (hv.bind fun v hv => legal_mov_value hf hd (.place hv.1) (hdk.trans hv.2.symm))
  term ht := by
    rw [hterm]
    exact legal_addOpaque hf ht (hv.mono fun _ h => ⟨.place h.1, h.2⟩)
  flags op y hy := legal_flags hf (hv.mono fun _ h => ⟨.place h.1, h.2⟩) hy (fun k a b h => absurd h (hand k a b)) hk
  target _ := by
    rw [htarget]
    exact hv

theorem lowers_const (hf : IsNative f) {c : Const} (hk : c.kind.isScalar = true) : Lowers f (.const c) where
  value := by
    rw [value]
    exact .pure ⟨.const hk, rfl⟩
  into origin hd hdk := by
    rw [into]
    exact legal_storeConst hf hd hdk.symm
  term ht := by
    rw [addTerm]
    exact .pure ht
  flags op y hy := by
    refine legal_flags hf ?_ hy (by simp) hk
    rw [value]
    exact .pure ⟨.const hk, rfl⟩
  target h := by cases h

theorem lowers_label (hf : IsNative f) (l : Label) : Lowers f (.label l) where
  value := by
    rw [value]
    exact .pure ⟨.label l, rfl⟩
  into origin hd hdk := by
    rw [into]
    exact .releasing (legal_mov hf hd (.label l) (by simp))
  term ht := by
    rw [addTerm]
    · refine legal_addOpaque hf ht ?_
      rw [value]
      exact .pure ⟨.label l, rfl⟩
    all_goals simp
  flags op y hy := by
    refine legal_flags hf ?_ hy (by simp) rfl
    rw [value]
    exact .pure ⟨.label l, rfl⟩
  target h := by cases h

theorem lowers_reg (hf : IsNative f) {r : Reg} (hk : r.kind.isScalar = true) (hs : r.id.isSoft = true) :
    Lowers f (.reg r) := by
  refine lowers_of_place hf hk ?_ ?_ (fun t => by rw [addTerm]; all_goals simp) (by simp) (by rw [resolveTarget, value])
  · rw [value]
    refine (Legal.read (Q := (· = f)) rfl).bind fun g hg => ?_
    subst hg
    exact .lift fun v hv => hf.resolve hk hs hv
  · intro dst origin
    rw [into, value]

theorem lowers_mem (hf : IsNative f) {k : Kind} {ro : Bool} (hk : k.isScalar = true) (hx : Lowers f x) :
    Lowers f (.mem k ro x) := by
  refine lowers_of_place hf hk ?_ ?_ (fun t => by rw [addTerm]; all_goals simp) (by simp) (by rw [resolveTarget, value])
  · rw [value]
    exact (legal_address hf hx).bind fun m hm => .pure ⟨.mem ro hk hm.isAddress, rfl⟩
  · intro dst origin
    rw [into, value]
    simp

theorem lowers_unary (hf : IsNative f) {op : UnaryOp} {k : Kind} (hfits : Expr.unaryFits op k x)
    (hop : op.isAssign = false) (hk : k.isScalar = true) (hx : Lowers f x) (hxk : x.kind.isScalar = true) :
    Lowers f (.unary op k x) := by
  have hvalue : value (.unary op k x) = (do
      let t ← temp (Expr.unary op k x).kind (.value (.unary op k x))
      into t (.unary op k x) none
      return t) := by
    rw [value]
    all_goals simp
  cases op with
  | neg | inv =>
    obtain ⟨hadmits, -, rfl⟩ := Expr.checkUnary_eq_ok.1 hfits
    have hword : x.kind.isWord = true := by
      revert hadmits hxk
      cases x.kind <;> decide
    refine lowers_of_into hf hk rfl hvalue (fun t => by rw [addTerm]; all_goals simp) (by simp) fun origin hd hdk => ?_
    rw [into, if_pos (by exact hword)]
    exact (hx.into none hd hdk).bind fun _ _ => legal_emit (encodes_inPlace (by simp) hk hd)
  | lnot =>
    obtain ⟨hadmits, -, rfl⟩ := Expr.checkUnary_eq_ok.1 hfits
    have hbool : x.kind = .bool := by simpa [Expr.unaryAdmits, Kind.isBool] using hadmits
    refine lowers_of_into hf hk rfl hvalue (fun t => by rw [addTerm]; all_goals simp) (by simp) fun origin hd hdk => ?_
    rw [into]
    refine (hx.into none hd (hdk.trans hbool.symm)).bind fun _ _ => ?_
    exact legal_emit (encodes_alu rfl hd (.const rfl rfl))
  | cast =>
    obtain ⟨hadmits, hne⟩ := hfits
    have hword : k.isWord = true := by
      revert hadmits hne hk hxk
      cases x.kind <;> cases k <;> decide
    have hinto : ∀ {dst} origin, LegalPlace IsGpr dst → dst.kind = k →
        Legal f (into dst (.unary .cast k x) origin) fun _ => True := by
      intro dst origin hd hdk
      rw [into, if_pos (by simp [hxk, hk])]
      exact .releasing (legal_castInto hf hword hd hdk hx.value)
    have hv := givesValue_of_into (e := .unary .cast k x) hf hk hvalue hinto
    refine ⟨hv, hinto, ?_, fun op y hy => legal_flags hf hv hy (by simp) hk, by rintro ⟨⟩⟩
    intro t ht
    rw [addTerm]
    split
    · exact hx.term ht
    · exact legal_addOpaque hf ht hv
  | inc | dec | zero | setcc => cases hop
  | jump =>
    obtain ⟨-, -, rfl⟩ := Expr.checkUnary_eq_ok.1 hfits
    cases hk
  | lea | jcc | push | pop =>
    obtain ⟨hadmits, -, -⟩ := Expr.checkUnary_eq_ok.1 hfits
    cases hadmits

/-! ### Sums -/

theorem legal_addNode {t : Terms} {shape : Shape} (hf : IsNative f) (ht : t.IsFree) (hx : Lowers f x) (hy : Lowers f y) :
    Legal f (addNode t shape x y) Terms.IsFree := by
  unfold addNode
  cases shape with
  | sum => exact (hx.term ht).bind fun t' ht' => hy.term ht'
  | difference c => exact (hx.term ht).bind fun t' ht' => .pure ht'
  | scaled s =>
    refine (legal_makeRoom hf ht).bind fun t' ht' => hx.value.bind fun v hv => ?_
    exact (legal_toHard hf hv.1).bind fun r hr => legal_place hf ht' hr
  | doubled s =>
    refine hx.value.bind fun v hv => (legal_toHard hf hv.1).bind fun r hr => .pure ?_
    exact ⟨by rintro r' ⟨⟩; exact hr, by rintro i ⟨⟩; exact hr⟩

theorem legal_leaInto {dst : Expr} {k : Kind} {op : ArithOp} (hf : IsNative f) (hk : k.isScalar = true)
    (hd : LegalPlace IsGpr dst) (hreg : dst.isReg = true) (hx : Lowers f x) (hy : Lowers f y) :
    Legal f (leaInto dst k op x y) fun _ => True := by
  rw [leaInto]
  split
  · exact .pure trivial
  · refine (legal_addNode hf ⟨by rintro r ⟨⟩, by rintro i ⟨⟩⟩ hx hy).bind fun t ht => ?_
    refine (legal_finish hf ht).bind fun m hm => ?_
    exact (legal_loadAddress hf hk hd hreg hm).bind fun _ _ => .pure trivial

theorem legal_arith {dst : Expr} {k : Kind} {op : ArithOp} {origin : Option Expr} (hf : IsNative f)
    (hd : LegalPlace IsGpr dst) (hdk : dst.kind = k) (hxk : x.kind = k) (hbyte : isWide op = true → k.size ≠ 1)
    (hx : Lowers f x) (hy : Lowers f y) : Legal f (arith dst k op x y origin) fun _ => True := by
  have hk : k.isScalar = true := hdk ▸ hd.isScalar
  have hop : ∀ {p : Expr}, LegalPlace IsGpr p → p.kind = k → ∀ {z : Expr}, Lowers f z →
      Legal f (opAssign p op (value z)) fun _ => True := fun hp hpk _ hz =>
    legal_opAssign hf hp (by rw [hpk]; exact hbyte) hz.value
  rw [arith]
  refine (Legal.read (Q := fun _ => True) trivial).bind fun g _ => ?_
  refine (Legal.lift (Q := fun _ => True) fun _ _ => trivial).bind fun b _ => ?_
  split
  · exact hop hd hdk hy
  refine Legal.bind (P := fun _ => True) ?_ fun b _ => ?_
  · split
    · refine (Legal.read (Q := fun _ => True) trivial).bind fun g _ => ?_
      exact Legal.lift fun _ _ => trivial
    · exact .pure trivial
  split
  · exact hop hd hdk hx
  refine Legal.bind (P := fun _ => True) ?_ fun b _ => ?_
  · split
    · rename_i hlike
      simp only [Bool.and_eq_true] at hlike
      exact .releasing (legal_leaInto hf hk hd hlike.1 hx hy)
    · exact .pure trivial
  split
  · exact .pure trivial
  refine (Legal.read (Q := fun _ => True) trivial).bind fun g _ => ?_
  refine (Legal.lift (Q := fun _ => True) fun _ _ => trivial).bind fun b _ => ?_
  split
  · refine .releasing ((legal_temp hf hk).bind fun t ht => ?_)
    refine (hx.into none ht.1.isGpr (ht.2.trans hxk.symm)).bind fun _ _ => ?_
    refine (hop ht.1.isGpr ht.2 hy).bind fun _ _ => ?_
    exact legal_mov_value hf hd (.place ht.1) (hdk.trans ht.2.symm)
  · exact (hx.into none hd (hdk.trans hxk.symm)).bind fun _ _ => hop hd hdk hy

/-! ### Operations of two operands -/

theorem legal_assign (hx : Lowers f x) (hy : Lowers f y) (ha : x.isAssignable = true) (hk : x.kind = y.kind) :
    Legal f (assign x y) fun d => LegalPlace IsFree d ∧ d.kind = x.kind := by
  rw [assign]
  refine (hx.target ha).bind fun d hd => ?_
  exact (hy.into (some x) hd.1.isGpr (hd.2.trans hk)).bind fun _ _ => .pure hd

theorem legal_compound {a : ArithOp} (hf : IsNative f) (hx : Lowers f x) (hy : Lowers f y) (ha : x.isAssignable = true)
    (hwide : isWide a = true → x.kind.size ≠ 1) :
    Legal f (compound a x y) fun d => LegalPlace IsFree d ∧ d.kind = x.kind := by
  rw [compound]
  refine (hx.target ha).bind fun d hd => ?_
  exact (legal_opAssign hf hd.1.isGpr (by rw [hd.2]; exact hwide) hy.value).bind fun _ _ => .pure hd

theorem lowers_binary (hf : IsNative f) {op : BinaryOp} {k : Kind} (hcheck : Expr.checkBinary op x y = .ok k)
    (hk : k.isScalar = true) (hbyte : Expr.isIntegral.isByteProduct op k = false) (hx : Lowers f x) (hy : Lowers f y)
    (hxk : x.kind.isScalar = true) : Lowers f (.binary op k x y) := by
  obtain ⟨hadmits, hassign, hkind⟩ := Expr.checkBinary_eq_ok.1 hcheck
  have hvalue : value (.binary op k x y) = (do
      let t ← temp (Expr.binary op k x y).kind (.value (.binary op k x y))
      into t (.binary op k x y) none
      return t) := by
    rw [value]
    all_goals simp
  cases op with
  | arith a =>
    obtain rfl : x.kind = k := hkind
    have hword : x.kind.isWord = true := isWord_of_admits hxk hadmits
    have hwide : isWide a = true → x.kind.size ≠ 1 := by
      simpa [Expr.isIntegral.isByteProduct] using hbyte
    have hinto : ∀ {dst} origin, LegalPlace IsGpr dst → dst.kind = x.kind →
        Legal f (into dst (.binary (.arith a) x.kind x y) origin) fun _ => True := by
      intro dst origin hd hdk
      rw [into, if_pos hword]
      exact legal_arith hf hd hdk rfl hwide hx hy
    have hv := givesValue_of_into (e := .binary (.arith a) x.kind x y) hf hk hvalue hinto
    refine ⟨hv, hinto, ?_, fun o z hz => legal_flags hf hv hz ?_ hk, by rintro ⟨⟩⟩
    · intro t ht
      rw [addTerm]
      split
      · exact legal_addNode hf ht hx hy
      · exact legal_addOpaque hf ht hv
    · rintro k a b ⟨⟩
      exact ⟨hx.value, hy.value⟩
  | compare c =>
    obtain rfl : Kind.bool = k := hkind
    refine lowers_of_into hf rfl rfl hvalue (fun t => by rw [addTerm]; all_goals simp) (by simp) fun origin hd _ => ?_
    rw [into, if_pos hxk]
    exact (hx.flags c hy.value).bind fun cc _ => legal_emit (encodes_setcc hd)
  | logic o =>
    obtain rfl : Kind.bool = k := hkind
    have hbool : x.kind = .bool ∧ y.kind = .bool := by
      simp only [Expr.binaryAdmits, Kind.isBool, Bool.and_eq_true, beq_iff_eq] at hadmits
      exact ⟨hadmits.2, hadmits.1 ▸ hadmits.2⟩
    refine lowers_of_into hf rfl rfl hvalue (fun t => by rw [addTerm]; all_goals simp) (by simp) fun origin hd hdk => ?_
    rw [into]
    exact legal_logicInto hf hd hdk (fun p hp hpk => hx.into none hp (hpk.trans hbool.1.symm))
      fun p hp hpk => hy.into none hp (hpk.trans hbool.2.symm)
  | assign =>
    obtain rfl : x.kind = k := hkind
    refine lowers_of_into hf hk rfl hvalue (fun t => by rw [addTerm]; all_goals simp) (by simp) fun origin hd hdk => ?_
    have hkinds : x.kind = y.kind := by
      simp only [Expr.binaryAdmits, Bool.and_eq_true, beq_iff_eq] at hadmits
      exact hadmits.1
    rw [into]
    refine (legal_assign hx hy (hassign rfl) hkinds).bind fun d hx' => ?_
    exact legal_mov_value hf hd (.place hx'.1) (hdk.trans hx'.2.symm)
  | compound a =>
    obtain rfl : x.kind = k := hkind
    have hwide : isWide a = true → x.kind.size ≠ 1 := by
      simpa [Expr.isIntegral.isByteProduct] using hbyte
    refine lowers_of_into hf hk rfl hvalue (fun t => by rw [addTerm]; all_goals simp) (by simp) fun origin hd hdk => ?_
    rw [into]
    refine (legal_compound hf hx hy (hassign rfl) hwide).bind fun d hx' => ?_
    exact legal_mov_value hf hd (.place hx'.1) (hdk.trans hx'.2.symm)
  | jumpIf =>
    obtain rfl : Kind.void = k := hkind
    cases hk
  | cmp | test => cases hadmits

theorem lowers_call (hf : IsNative f) {l : Label} {n : Option String} {sig : Signature}
    (hk : sig.value.isScalar = true) : Lowers f (.call l n sig []) := by
  have hv : GivesValue f (value (.call l n sig [])) sig.value := by
    rw [value]
    exact legal_callValue hf hk
  have hvoid : sig.value.isVoid = false := by
    cases h : sig.value <;> rw [h] at hk <;> first | rfl | cases hk
  refine ⟨hv, ?_, ?_, fun op y hy => legal_flags hf hv hy (by simp) hk, by rintro ⟨⟩⟩
  · intro dst origin hd hdk
    rw [into]
    refine (legal_emitCall hf).bind fun v hv => ?_
    rw [hvoid, if_neg (by simp)] at hv
    subst hv
    rw [if_neg (by simp [fixed, Expr.kind, Reg.hard, hvoid])]
    exact legal_mov hf hd (.place (legalPlace_fixed hk (by decide))) (by simp [fixed])
  · intro t ht
    rw [addTerm]
    · exact legal_addOpaque hf ht hv
    all_goals simp

end Nodes

theorem isScalar_of_isIntegral {e : Expr} (h : e.isIntegral = true) : e.kind.isScalar = true := by
  cases e <;> simp_all [Expr.isIntegral, Expr.kind]
  rfl

/-- Selection of an integral expression is legal. -/
theorem lowers {f : Frame} (hf : IsNative f) (e : Expr) (hwell : e.WellKinded) (h : e.isIntegral = true) :
    Lowers f e := by
  induction e with
  | const c => exact lowers_const hf h
  | reg r =>
    simp only [Expr.isIntegral, Bool.and_eq_true] at h
    exact lowers_reg hf h.1 h.2
  | mem k ro a ih =>
    simp only [Expr.isIntegral, Bool.and_eq_true] at h
    exact lowers_mem hf h.1 (ih hwell.2.2 h.2)
  | memAt => cases h
  | label l => exact lowers_label hf l
  | unary op k x ih =>
    simp only [Expr.isIntegral, Bool.and_eq_true, Bool.not_eq_true'] at h
    exact lowers_unary hf hwell.1 h.1.1 h.1.2 (ih hwell.2 h.2) (isScalar_of_isIntegral h.2)
  | binary op k x y ihx ihy =>
    simp only [Expr.isIntegral, Bool.and_eq_true, Bool.not_eq_true'] at h
    obtain ⟨⟨⟨hk, hbyte⟩, hx⟩, hy⟩ := h
    exact lowers_binary hf hwell.1 hk hbyte (ihx hwell.2.1 hx) (ihy hwell.2.2 hy) (isScalar_of_isIntegral hx)
  | ret => cases h
  | call l n sig args =>
    simp only [Expr.isIntegral, Bool.and_eq_true, List.isEmpty_iff] at h
    obtain ⟨hk, rfl⟩ := h
    exact lowers_call hf hk

/-! ## Statements -/

section Statements

variable {f : Frame}

theorem legal_jumpIf (hf : IsNative f) (c : Expr) (hwell : c.WellKinded) (h : c.isIntegral = true) :
    ∀ l sense, Legal f (jumpIf l c sense) fun _ => True := by
  have htest : ∀ {c : Expr} (l : Label) (sense : Bool), c.WellKinded → c.isIntegral = true → Legal f (do
      releasing do testZero .bool (← value c)
      jcc (if sense then .ne else .eq) l) fun _ => True := by
    intro c l sense hwell h
    have hc := lowers hf c hwell h
    refine Legal.bind (P := fun _ => True) (.releasing ?_) fun _ _ => legal_jcc
    exact hc.value.bind fun v hv => legal_testZero hf rfl hv.1
  induction c with
  | const c =>
    intro l sense
    rw [jumpIf]
    split
    · exact legal_emit (encodes_jump l)
    · exact .pure trivial
  | reg r => exact fun l sense => htest l sense hwell h
  | mem k ro a => exact fun l sense => htest l sense hwell h
  | memAt => cases h
  | label l' => exact fun l sense => htest l sense hwell h
  | unary op k x ih =>
    intro l sense
    by_cases hop : op = .lnot
    · subst hop
      rw [jumpIf]
      simp only [Expr.isIntegral, Bool.and_eq_true] at h
      exact ih hwell.2 h.2 l _
    · rw [jumpIf]
      · exact htest l sense hwell h
      all_goals simp [hop]
  | binary op k x y ihx ihy =>
    intro l sense
    have hparts := h
    simp only [Expr.isIntegral, Bool.and_eq_true] at hparts
    obtain ⟨⟨-, hx⟩, hy⟩ := hparts
    cases op with
    | compare op =>
      rw [jumpIf, if_pos (isScalar_of_isIntegral hx)]
      exact ((lowers hf x hwell.2.1 hx).flags op (lowers hf y hwell.2.2 hy).value).bind fun _ _ => legal_jcc
    | logic op =>
      rw [jumpIf]
      split
      · refine legal_newLabel.bind fun skip _ => (ihx hwell.2.1 hx skip _).bind fun _ _ => ?_
        exact (ihy hwell.2.2 hy l sense).bind fun _ _ => legal_emit (encodes_label _)
      · exact (ihx hwell.2.1 hx l sense).bind fun _ _ => ihy hwell.2.2 hy l sense
    | _ =>
      rw [jumpIf]
      · exact htest l sense hwell h
      all_goals simp
  | ret => cases h
  | call l' n sig args => exact fun l sense => htest l sense hwell h

theorem legal_emitFrame {op : BinaryOp} (hf : IsNative f) (hop : op = .compound .add ∨ op = .compound .sub) :
    Legal f (emitFrame op) fun _ => True := by
  refine (Legal.read (Q := (· = f)) rfl).bind fun g hg => ?_
  subst hg
  rw [show g.regs.stackPointer = some rsp by rw [hf.regs]; rfl]
  refine legal_note.bind fun _ _ => ?_
  intro s u s' hgives
  obtain rfl := hgives.modify
  exact ⟨.push rfl ⟨by rcases hop with rfl | rfl <;> simp, rfl⟩, trivial⟩

theorem isGpr_of_mem_saved (hf : IsNative f) {r : HardReg} (h : r ∈ f.saved) : IsGpr r := by
  have hmem := (Frame.mem_saved.1 h).1
  rw [hf.regs] at hmem
  exact (by decide : ∀ r ∈ calleeSaved, IsGpr r) r hmem

theorem legal_leave (hf : IsNative f) : Legal f leave fun _ => True := by
  refine (legal_emitFrame hf (.inl rfl)).bind fun _ _ => (Legal.read (Q := (· = f)) rfl).bind fun g hg => ?_
  subst hg
  refine (legal_forM fun r hr => ?_).bind fun _ _ => legal_emit encodes_ret
  exact legal_emit (encodes_stack (.inr rfl) (isGpr_of_mem_saved hf (List.mem_reverse.1 hr)))

theorem legal_enter (hf : IsNative f) : Legal f enter fun _ => True := by
  refine (Legal.read (Q := (· = f)) rfl).bind fun g hg => ?_
  subst hg
  refine (legal_forM fun r hr => ?_).bind fun _ _ => legal_emitFrame hf (.inr rfl)
  exact legal_emit (encodes_stack (.inl rfl) (isGpr_of_mem_saved hf hr))

theorem legal_selectReturn (hf : IsNative f) {vs : List Expr} (hlen : vs.length ≤ 2) (hvs : ∀ v ∈ vs, Lowers f v)
    (hks : ∀ v ∈ vs, v.kind.isScalar = true) : Legal f (selectReturn vs) (· = nothing) := by
  match vs, hlen with
  | [], _ => exact (legal_leave hf).bind fun _ _ => .pure rfl
  | [v], _ =>
    have hk := hks v (by simp)
    refine ((hvs v (by simp)).into none (legalPlace_fixed hk (by decide)) rfl).bind fun _ _ => ?_
    exact (legal_leave hf).bind fun _ _ => .pure rfl
  | [v, w], _ =>
    have hv := hvs v (by simp)
    have hw := hvs w (by simp)
    refine (legal_temp hf (hks v (by simp))).bind fun a ha => (hv.into none ha.1.isGpr ha.2).bind fun _ _ => ?_
    refine (legal_temp hf (hks w (by simp))).bind fun b hb => (hw.into none hb.1.isGpr hb.2).bind fun _ _ => ?_
    refine (legal_mov_value hf (legalPlace_fixed ha.1.isScalar (by decide)) (.place ha.1) rfl).bind fun _ _ => ?_
    refine (legal_mov_value hf (legalPlace_fixed hb.1.isScalar (by decide)) (.place hb.1) rfl).bind fun _ _ => ?_
    exact (legal_leave hf).bind fun _ _ => .pure rfl

/-- What a statement leaves to be emitted can be encoded. -/
theorem legal_statement (hf : IsNative f) {e : Expr} (hwell : e.WellKinded) (h : e.isIntegralStatement = true) :
    Legal f (statement e) fun r => r.isEffectFree = false → Encodes r := by
  have hplace : ∀ {d : Expr}, LegalPlace IsFree d → d.isEffectFree = false → Encodes d := by
    intro d hd hno
    cases hd <;> cases hno
  have hnothing : nothing.isEffectFree = false → Encodes nothing := by rintro ⟨⟩
  unfold statement
  split
  · rename_i hfree
    exact .pure fun hno => by rw [hfree] at hno; cases hno
  cases e with
  | label l => exact .pure fun _ => encodes_label l
  | unary op k x =>
    have hstep : op = .inc ∨ op = .dec ∨ op = .zero → x.isIntegral = true → Legal f (do
        let d ← resolveTarget x
        emit (.unary op k d)
        return d) fun r => r.isEffectFree = false → Encodes r := by
      intro hop hx
      have hcheck : Expr.checkUnary op x = .ok k := by
        rcases hop with rfl | rfl | rfl <;> exact hwell.1
      obtain ⟨-, hassign, hkind⟩ := Expr.checkUnary_eq_ok.1 hcheck
      have hk : k = x.kind := by rcases hop with rfl | rfl | rfl <;> exact hkind.symm
      have hassign : x.isAssignable = true := hassign (by rcases hop with rfl | rfl | rfl <;> rfl)
      refine ((lowers hf x hwell.2 hx).target hassign).bind fun d hd => ?_
      refine (legal_emit (encodes_step hop ?_ hd.1.isGpr)).bind fun _ _ => .pure (hplace hd.1)
      rw [hk]
      exact isScalar_of_isIntegral hx
    cases op with
    | inc => exact hstep (.inl rfl) h
    | dec => exact hstep (.inr (.inl rfl)) h
    | zero => exact hstep (.inr (.inr rfl)) h
    | jump =>
      cases x with
      | label l => exact .pure fun _ => encodes_jump l
      | _ => cases h
    | _ => cases h
  | binary op k x y =>
    cases op with
    | jumpIf =>
      cases x with
      | label l => exact (legal_jumpIf hf y hwell.2.2 h l true).bind fun _ _ => .pure hnothing
      | _ => cases h
    | assign =>
      replace h : (Expr.binary .assign k x y).isIntegral = true := h
      simp only [Expr.isIntegral, Bool.and_eq_true] at h
      obtain ⟨hadmits, hassign, -⟩ := Expr.checkBinary_eq_ok.1 hwell.1
      simp only [Expr.binaryAdmits, Bool.and_eq_true, beq_iff_eq] at hadmits
      refine (legal_assign (lowers hf x hwell.2.1 h.1.2) (lowers hf y hwell.2.2 h.2) (hassign rfl) hadmits.1).mono ?_
      exact fun d hd => hplace hd.1
    | compound a =>
      replace h : (Expr.binary (.compound a) k x y).isIntegral = true := h
      simp only [Expr.isIntegral, Bool.and_eq_true, Bool.not_eq_true'] at h
      obtain ⟨-, hassign, hkind⟩ := Expr.checkBinary_eq_ok.1 hwell.1
      obtain rfl : x.kind = k := hkind
      have hwide : isWide a = true → x.kind.size ≠ 1 := by
        simpa [Expr.isIntegral.isByteProduct] using h.1.1.2
      refine (legal_compound hf (lowers hf x hwell.2.1 h.1.2) (lowers hf y hwell.2.2 h.2) (hassign rfl) hwide).mono ?_
      exact fun d hd => hplace hd.1
    | _ => cases h
  | ret vs =>
    replace h : (decide (vs.length ≤ 2) && vs.all Expr.isIntegral) = true := h
    simp only [Bool.and_eq_true, decide_eq_true_eq, List.all_eq_true] at h
    have hwells := (Expr.wellKindedL_iff vs).1 hwell
    refine (legal_selectReturn hf h.1 (fun v hv => lowers hf v (hwells v hv) (h.2 v hv)) fun v hv =>
      isScalar_of_isIntegral (h.2 v hv)).mono ?_
    rintro r rfl
    exact hnothing
  | call l n sig args =>
    replace h : ((sig.value.isScalar || sig.value.isVoid) && args.isEmpty) = true := h
    simp only [Bool.and_eq_true, List.isEmpty_iff] at h
    obtain ⟨-, rfl⟩ := h
    refine Legal.bind (P := fun _ => True) ?_ fun _ _ => .pure hnothing
    exact (legal_emitCall hf).bind fun _ _ => .pure trivial
  | _ => cases h

theorem legal_selectBody {flat : Flat} (hf : IsNative f)
    (hcode : ∀ e ∈ flat.code.toList, e.WellKinded ∧ e.isIntegralStatement = true) :
    Legal f (flat.selectBody select) fun _ => True := by
  refine legal_forM fun e he => legal_get.bind fun s _ => ?_
  refine (legal_statement hf (hcode e he).1 (hcode e he).2).bind fun r hr => ?_
  have hrelease : Legal f (modify (Session.release s.mark) : Lower Unit) fun _ => True := legal_modify fun _ => rfl
  dsimp only
  split
  · rename_i hno
    exact (legal_emit (hr (by simpa using hno))).bind fun _ _ => hrelease
  · exact hrelease

end Statements

/-! ## Functions -/

theorem isNative_frameOf (flat : Flat) (log : Log) : IsNative (frameOf flat log) :=
  ⟨rfl, fun h => (LinearScan.allocate_places flat log h).imp_right fun ⟨o, ho, _⟩ => ⟨o, ho⟩⟩

/-- The lowered code of an integral function is assembled, or a label is at fault: it is placed twice, nowhere, or too far
away. -/
theorem assemble_lowered {f : Func} {registry : Registry} (hreg : registry.get .amd64 = .ok target)
    (hb : ∀ s ∈ f.source, s.Built) (hint : Stmt.isIntegralL f.source = true) {l : Lowered} {log log' : Log}
    (h : f.lower registry .w64 .amd64 log = (.ok l, log')) (hframe : l.frame < 2 ^ 31) (log₁ : Log) :
    (∃ code, (l.assemble registry log₁).1 = .ok code) ∨
      ∃ err, (l.assemble registry log₁).1 = .error err ∧ LinkError err := by
  obtain ⟨flat, logf, s₁, s₂, hflat, henter, hbody, rfl⟩ := Func.lower_eq_ok hreg h
  have hnative := isNative_frameOf flat logf
  have hcode : ∀ e ∈ flat.code.toList, e.WellKinded ∧ e.isIntegralStatement = true := fun e he =>
    ⟨(Func.flatten_built hb hflat e he).2.wellKinded,
      (Func.flatten_yields (fun _ => ⟨rfl, rfl⟩) (Stmt.isIntegral_yieldsL f.source hint) hflat e he).2⟩
  obtain ⟨new, hnew, hs₂⟩ := (legal_enter hnative henter).1.trans (legal_selectBody hnative hcode hbody).1
  replace hnew : s₂.items.toList = new := hnew
  rw [← hnew] at hs₂
  have hitems : ∀ i ∈ (frameOf flat logf).code s₂, EncodesItem i := by
    intro i hi
    unfold Frame.code at hi
    split at hi
    · exact hs₂ i (List.mem_filter.1 hi).1
    · exact hs₂ i hi
  rw [Lowered.assemble_fst hreg rfl]
  rcases hrun : assemble _ log₁ with ⟨err | code, log₂⟩
  · exact .inr ⟨err, rfl, assemble_links hframe hitems hrun⟩
  · exact .inl ⟨_, rfl⟩

theorem assemble_lowered_squareRoot : Stmt.isIntegralL squareRoot.source = true ∧
    ∃ l log', squareRoot.lower ⟨[target]⟩ .w64 .amd64 #[] = (.ok l, log') ∧ l.frame < 2 ^ 31 ∧
      ((∃ code, (l.assemble ⟨[target]⟩ #[]).1 = .ok code) ∨
        ∃ err, (l.assemble ⟨[target]⟩ #[]).1 = .error err ∧ LinkError err) := by
  have hint : Stmt.isIntegralL squareRoot.source = true := by decide
  have hframe : (squareRoot.lower ⟨[target]⟩ .w64 .amd64 #[]).1.toOption.map Lowered.frame = some 0 := by cbv
  rcases hlower : squareRoot.lower ⟨[target]⟩ .w64 .amd64 #[] with ⟨_ | l, log'⟩
  · rw [hlower] at hframe
    cases hframe
  · rw [hlower] at hframe
    have hzero : l.frame = 0 := Option.some.inj hframe
    have hlt : l.frame < 2 ^ 31 := by omega
    exact ⟨hint, l, log', rfl, hlt, assemble_lowered rfl squareRoot_built hint hlower hlt #[]⟩

end Amd64

end JitBackend
