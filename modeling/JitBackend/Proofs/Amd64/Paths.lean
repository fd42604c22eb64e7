import JitBackend.Proofs.Amd64.Activation
import JitBackend.Proofs.Labels

/-!
# Paths through selected code

A position in code is the code from there on. A path goes from position to position: on to the next instruction, or behind
a label that a jump names. A conditional jump may go either way, a call may change whatever the calling convention lets it
change, and the address of a label may be any word, so that what is true of every path is true of every execution.

An instruction changes the place that it writes, and `rax` and `rdx` if it divides (`keeps_of_denote`).
-/

namespace JitBackend.Amd64

/-! ## Steps -/

/-- The registers that a function hands back as it found them. -/
def preserved : List HardReg := [3, 4, 5, 12, 13, 14, 15].map gpr

/-- The bytes from the stack pointer up to `top`. -/
def Machine.frame (m : Machine) (top : Word) : Set Word := {a | (a - m.regs rsp).toNat < (top - m.regs rsp).toNat}

/-- One step along the code, from a position with a machine to another. The callee of a call keeps the frame of its
caller, which ends at `top`. -/
inductive Step (code : List Expr) (top : Word) : List Expr × Machine → List Expr × Machine → Prop
  | label {l : Label} {rest : List Expr} {m : Machine} : Step code top (.label l :: rest, m) (rest, m)
  | jump {l : Label} {k : Kind} {rest rest' : List Expr} {m : Machine} (h : (.label l :: rest') <:+ code) :
      Step code top (.unary .jump k (.label l) :: rest, m) (rest', m)
  | stay {c : Cond} {l : Label} {k : Kind} {rest : List Expr} {m : Machine} :
      Step code top (.unary (.jcc c) k (.label l) :: rest, m) (rest, m)
  | branch {c : Cond} {l : Label} {k : Kind} {rest rest' : List Expr} {m : Machine} (h : (.label l :: rest') <:+ code) :
      Step code top (.unary (.jcc c) k (.label l) :: rest, m) (rest', m)
  | call {l : Label} {n : Option String} {sig : Signature} {args rest : List Expr} {m m' : Machine}
      (hregs : ∀ r ∈ preserved, m'.regs r = m.regs r) (hframe : ∀ a ∈ m.frame top, m'.mem a = m.mem a) :
      Step code top (.call l n sig args :: rest, m) (rest, m')
  | locate {k : Kind} {x y : Expr} {r : HardReg} {w : Word} {rest : List Expr} {m : Machine}
      (hd : denote (.binary .assign k x y) = none) (hx : operand? x = some (.reg r)) :
      Step code top (.binary .assign k x y :: rest, m) (rest, m.setReg 8 r w)
  | run {e : Expr} {is : List Instr} {rest : List Expr} {m m' : Machine} (hd : denote e = some is)
      (hrun : is.foldlM (fun m i => i.exec m) m = some m') : Step code top (e :: rest, m) (rest, m')

/-- A label behind code without labels. -/
theorem suffix_of_placed_nil {a b rest : List Expr} {l : Label} (ha : placed a = []) (h : (.label l :: rest) <:+ a ++ b) :
    (.label l :: rest) <:+ b := by
  have hnone := List.filterMap_eq_nil_iff.1 ha
  clear ha
  induction a with
  | nil => exact h
  | cons e a ih =>
    obtain ⟨he, ha⟩ := List.forall_mem_cons.1 hnone
    rcases List.suffix_cons_iff.1 h with heq | h
    · cases heq
      cases he
    · exact ih h ha

theorem regs_setReg (m : Machine) (r : HardReg) (w : Word) : (m.setReg 8 r w).regs = Function.update m.regs r w := by
  simp [Machine.setReg, Machine.splice]

/-! ## What instructions change -/

/-- The size and the place of what an instruction writes, the stack and a division apart. -/
def Instr.dest : Instr → Option (Nat × Operand)
  | mov n dst _ | alu _ n dst _ | inc n dst | dec n dst | neg n dst | inv n dst | shift _ n dst _ => some (n, dst)
  | lea n r _ | extend n r _ _ _ | mul n r _ => some (n, .reg r)
  | setcc _ dst => some (1, dst)
  | extendRax n => some (n, .reg rdx)
  | div .. | cmp .. | test .. | push _ | pop _ => none

def Instr.isStack : Instr → Bool
  | push _ | pop _ => true
  | _ => false

/-- The cells of an operand of `n` bytes. -/
def Machine.target (m : Machine) (n : Nat) : Operand → Set Cell
  | .reg r => {.reg r}
  | .mem a => bytesAt (m.address a) n
  | _ => ∅

/-- The registers of a division. -/
def divided : Set Cell := {.reg rax, .reg rdx}

section Changes

variable {m m' : Machine} {n : Nat} {o : Operand} {i : Instr}

theorem Machine.target_mono {n' : Nat} (h : n ≤ n') : m.target n o ⊆ m.target n' o := by
  cases o with
  | mem a =>
    rintro c ⟨b, rfl, hb⟩
    exact ⟨b, rfl, hb.trans_le h⟩
  | _ => exact subset_rfl

theorem keeps_write {w : Word} (h : m.write n o w = some m') : Keeps (m.target n o) m m' := by
  cases o with
  | reg r =>
    cases h
    exact .setReg m n r w
  | mem a =>
    cases h
    refine ⟨fun _ _ => rfl, fun b hb => Memory.write_of_ge ?_⟩
    by_contra hlt
    exact hb ⟨b, rfl, by omega⟩
  | imm v | label l => cases h

/-- An instruction that is not about the stack changes the place that it writes, or the registers of a division. -/
theorem keeps_exec (hi : i.isStack = false) (h : i.exec m = some m') :
    Keeps (i.dest.elim divided fun d => m.target d.1 d.2) m m' := by
  cases i with
  | push | pop => cases hi
  | mov n dst src | inv n dst =>
    simp only [Instr.exec, Option.bind_eq_bind, Option.bind_eq_some_iff] at h
    obtain ⟨v, -, h⟩ := h
    exact keeps_write h
  | alu op n dst src | shift op n dst src =>
    simp only [Instr.exec, Option.bind_eq_bind, Option.bind_eq_some_iff] at h
    obtain ⟨a, -, b, -, m₁, hw, ⟨⟩⟩ := h
    exact (keeps_write hw).trans (.flags _ _ _)
  | inc n dst | dec n dst | neg n dst =>
    simp only [Instr.exec, Option.bind_eq_bind, Option.bind_eq_some_iff] at h
    obtain ⟨a, -, m₁, hw, ⟨⟩⟩ := h
    exact (keeps_write hw).trans (.flags _ _ _)
  | lea n r a | extendRax n =>
    cases h
    exact .setReg _ _ _ _
  | extend n r g signed src =>
    simp only [Instr.exec, Option.bind_eq_bind, Option.bind_eq_some_iff] at h
    obtain ⟨w, -, ⟨⟩⟩ := h
    exact .setReg _ _ _ _
  | mul n r src =>
    simp only [Instr.exec, Option.bind_eq_bind, Option.bind_eq_some_iff] at h
    obtain ⟨w, -, ⟨⟩⟩ := h
    exact (Keeps.setReg _ _ _ _).trans (.flags _ _ _)
  | setcc c dst =>
    simp only [Instr.exec, Option.bind_eq_bind, Option.bind_eq_some_iff] at h
    obtain ⟨f, -, hw⟩ := h
    exact keeps_write hw
  | cmp n a b | test n a b =>
    simp only [Instr.exec, Option.bind_eq_bind, Option.bind_eq_some_iff] at h
    obtain ⟨v, -, w, -, ⟨⟩⟩ := h
    exact .flags _ _ _
  | div n signed src =>
    simp only [Instr.exec, Option.bind_eq_bind, Option.bind_eq_some_iff] at h
    obtain ⟨v, -, h⟩ := h
    unfold Machine.divide at h
    dsimp only at h
    obtain ⟨-, ⟨⟩⟩ := Option.ite_none_right_eq_some.1 h
    refine ((Keeps.setReg _ _ _ _).mono ?_).trans (((Keeps.setReg _ _ _ _).mono ?_).trans (.flags _ _ _))
    · exact Set.singleton_subset_iff.2 (.inl rfl)
    · exact Set.singleton_subset_iff.2 (.inr rfl)

/-! ## What expressions change -/

theorem operand?_const_cases (c : Const) : operand? (.const c) = none ∨ ∃ v, operand? (.const c) = some (.imm v) := by
  rcases h : immediate c with err | v
  · exact .inl (by simp [operand?, operand, h, Except.map, Except.toOption])
  · exact .inr ⟨v, by simp [operand?, operand, h, Except.map, Except.toOption]⟩

theorem operand?_of_reg {q : Reg} (h : operand? (.reg q) = some o) : ∃ r, o = .reg r ∧ q.id = .hard r := by
  obtain ⟨k, id, ro⟩ := q
  cases id with
  | soft i => cases h
  | hard r =>
    unfold operand? operand at h
    dsimp only at h
    split at h
    · cases h
      exact ⟨r, rfl, rfl⟩
    · cases h

theorem operand?_eq_reg {x : Expr} {r : HardReg} (h : operand? x = some (.reg r)) : ∃ q, x = .reg q ∧ q.id = .hard r := by
  cases x with
  | reg q =>
    obtain ⟨_, ⟨⟩, hq⟩ := operand?_of_reg h
    exact ⟨q, rfl, hq⟩
  | const c =>
    rcases operand?_const_cases c with hc | ⟨v, hc⟩
    · cases hc.symm.trans h
    · cases hc.symm.trans h
  | _ => cases h

theorem operand?_eq_mem {x : Expr} {a : AddrMode} (h : operand? x = some (.mem a)) : ∃ k ro, x = .memAt k ro a := by
  cases x with
  | memAt k ro a' =>
    cases h
    exact ⟨k, ro, rfl⟩
  | reg q =>
    obtain ⟨_, ⟨⟩, -⟩ := operand?_of_reg h
  | const c =>
    rcases operand?_const_cases c with hc | ⟨v, hc⟩
    · cases hc.symm.trans h
    · cases hc.symm.trans h
  | _ => cases h

/-- The place that an instruction of selected code works on. -/
def placeOf : Expr → Option Expr
  | .binary .assign _ x _ | .binary (.compound _) _ x _ | .unary _ _ x => some x
  | _ => none

/-- Whether the expression is about the stack. -/
def movesStack : Expr → Bool
  | .unary .push _ _ | .unary .pop _ _ => true
  | _ => false

/-- How many bytes an instruction of selected code writes at most. -/
def extent : Expr → Nat
  | .binary _ k x _ | .unary _ k x => min 8 (max 1 (max k.size x.kind.size))
  | _ => 0

theorem extent_le (e : Expr) : extent e ≤ 8 := by
  unfold extent
  split <;> omega

/-- The cells that an expression of selected code may change. -/
def Machine.changed (m : Machine) (e : Expr) : Set Cell :=
  divided ∪ {c | ∃ x o, placeOf e = some x ∧ operand? x = some o ∧ c ∈ m.target (extent e) o}

theorem Machine.reg_mem_changed {m : Machine} {e : Expr} {r : HardReg} (h : Cell.reg r ∈ m.changed e) :
    r = rax ∨ r = rdx ∨ ∃ q, placeOf e = some (.reg q) ∧ q.id = .hard r := by
  rcases h with h | ⟨x, o, hx, ho, hc⟩
  · rcases h with h | h
    · exact .inl (Cell.reg.inj h)
    · exact .inr (.inl (Cell.reg.inj h))
  · cases o with
    | reg r' =>
      obtain rfl := Cell.reg.inj hc
      obtain ⟨q, rfl, hq⟩ := operand?_eq_reg ho
      exact .inr (.inr ⟨q, hx, hq⟩)
    | mem a =>
      obtain ⟨b, hb, -⟩ := hc
      cases hb
    | imm v | label l => cases hc

theorem Machine.byte_mem_changed {m : Machine} {e : Expr} {b : Word} (h : Cell.byte b ∈ m.changed e) :
    ∃ k ro a, placeOf e = some (.memAt k ro a) ∧ Cell.byte b ∈ bytesAt (m.address a) (extent e) := by
  rcases h with h | ⟨x, o, hx, ho, hc⟩
  · rcases h with h | h <;> cases h
  · cases o with
    | mem a =>
      obtain ⟨k, ro, rfl⟩ := operand?_eq_mem ho
      exact ⟨k, ro, a, hx, hc⟩
    | reg r => cases hc
    | imm v | label l => cases hc

/-- Every instruction writes the place of the expression or registers of a division; if the place is in memory, there is
one instruction at most. -/
structure Aimed (e : Expr) (is : List Instr) : Prop where
  stack : ∀ i ∈ is, i.isStack = false
  dest : ∀ i ∈ is, ∀ n o, i.dest = some (n, o) → o = .reg rax ∨ o = .reg rdx ∨
    ∃ x, placeOf e = some x ∧ operand? x = some o ∧ ((∃ r, o = .reg r) ∨ n ≤ extent e)
  single : ∀ x a, placeOf e = some x → operand? x = some (.mem a) → is.length ≤ 1

theorem le_extent_of_kind {op : BinaryOp} {k : Kind} {x y : Expr} (h : size? k = some n) :
    n ≤ extent (.binary op k x y) := by
  obtain ⟨rfl, hn⟩ := size_of_size? h
  simp only [extent]
  omega

theorem le_extent_of_place {op : BinaryOp} {k : Kind} {x y : Expr} (h : size? x.kind = some n) :
    n ≤ extent (.binary op k x y) := by
  obtain ⟨rfl, hn⟩ := size_of_size? h
  simp only [extent]
  omega

theorem le_extent_unary {op : UnaryOp} {k : Kind} {x : Expr} (h : size? k = some n) : n ≤ extent (.unary op k x) := by
  obtain ⟨rfl, hn⟩ := size_of_size? h
  simp only [extent]
  omega

theorem aimed_nil (e : Expr) : Aimed e [] := ⟨by simp, by simp, by simp⟩

theorem aimed_single {e x : Expr} (hx : placeOf e = some x) (ho : operand? x = some o) (hi : i.isStack = false)
    (hd : ∀ n' o', i.dest = some (n', o') → o' = o ∧ ((∃ r, o = .reg r) ∨ n' ≤ extent e)) : Aimed e [i] where
  stack := by simpa using hi
  dest := by
    intro j hj n' o' hdest
    obtain rfl := List.mem_singleton.1 hj
    obtain ⟨rfl, hn⟩ := hd n' o' hdest
    exact .inr (.inr ⟨x, hx, ho, hn⟩)
  single := by simp

theorem aimed_assign {k : Kind} {x y : Expr} {is : List Instr} (h : denoteAssign k x y = some is) :
    Aimed (.binary .assign k x y) is := by
  unfold denoteAssign at h
  simp only [Option.bind_eq_bind, Option.bind_eq_some_iff] at h
  obtain ⟨dst, hdst, h⟩ := h
  have hone : ∀ {n : Nat} {i : Instr}, ((∃ r, dst = .reg r) ∨ size? k = some n) → i.isStack = false →
      i.dest = some (n, dst) → Aimed (.binary .assign k x y) [i] := fun hn hi hd =>
    aimed_single rfl hdst hi fun n' o' h' => by
      cases hd.symm.trans h'
      exact ⟨rfl, hn.imp_right le_extent_of_kind⟩
  split at h
  · simp only [Option.bind_eq_some_iff] at h
    obtain ⟨o, -, h⟩ := h
    split at h
    · obtain ⟨n, -, ⟨⟩⟩ := Option.bind_eq_some_iff.1 h
      exact hone (.inl ⟨_, rfl⟩) rfl rfl
    · cases h
  · obtain ⟨-, h⟩ := Option.ite_none_right_eq_some.1 h
    obtain ⟨n, hn, ⟨⟩⟩ := Option.bind_eq_some_iff.1 h
    exact hone (.inr hn) rfl rfl
  · obtain ⟨-, h⟩ := Option.ite_none_right_eq_some.1 h
    obtain ⟨n, hn, ⟨⟩⟩ := Option.bind_eq_some_iff.1 h
    exact hone (.inr hn) rfl rfl
  · simp only [Option.bind_eq_some_iff] at h
    obtain ⟨n, -, g, -, src, -, h⟩ := h
    split at h
    · split at h
      · cases h
        exact hone (.inl ⟨_, rfl⟩) rfl rfl
      · split at h <;> cases h
        · exact aimed_nil _
        · exact hone (.inl ⟨_, rfl⟩) rfl rfl
    · cases h
  · simp only [Option.bind_eq_some_iff] at h
    obtain ⟨src, -, h⟩ := h
    split at h
    · cases h
      exact aimed_nil _
    · split at h
      · cases h
      · cases h
      · cases h
      · obtain ⟨n, hn, h⟩ := Option.bind_eq_some_iff.1 h
        split at h
        · cases h
        · obtain ⟨n', hn', ⟨⟩⟩ := Option.bind_eq_some_iff.1 h
          exact hone (.inr hn') rfl rfl
      · obtain ⟨n, hn, ⟨⟩⟩ := Option.bind_eq_some_iff.1 h
        exact hone (.inr hn) rfl rfl

theorem aimed_compound {op : ArithOp} {k : Kind} {x y : Expr} {is : List Instr} (h : denoteCompound op k x y = some is) :
    Aimed (.binary (.compound op) k x y) is := by
  unfold denoteCompound at h
  simp only [Option.bind_eq_bind, Option.bind_eq_some_iff] at h
  obtain ⟨dst, hdst, src, -, h⟩ := h
  have hone : ∀ {n : Nat} {i : Instr}, ((∃ r, dst = .reg r) ∨ n ≤ extent (.binary (.compound op) k x y)) →
      i.isStack = false → i.dest = some (n, dst) → Aimed (.binary (.compound op) k x y) [i] := fun hn hi hd =>
    aimed_single rfl hdst hi fun n' o' h' => by
      cases hd.symm.trans h'
      exact ⟨rfl, hn⟩
  have halu : ∀ {a : AluOp},
      (size? x.kind).bind (fun n => if fitsPair n dst src then some [.alu a n dst src] else none) = some is →
      Aimed (.binary (.compound op) k x y) is := fun h => by
    obtain ⟨n, hn, h⟩ := Option.bind_eq_some_iff.1 h
    obtain ⟨-, ⟨⟩⟩ := Option.ite_none_right_eq_some.1 h
    exact hone (.inr (le_extent_of_place hn)) rfl rfl
  have hsized : ∀ {i : Nat → Instr}, (∀ n, (i n).isStack = false ∧ (i n).dest = some (n, dst)) →
      (size? k).bind (fun n => some [i n]) = some is → Aimed (.binary (.compound op) k x y) is := fun hi h => by
    obtain ⟨n, hn, ⟨⟩⟩ := Option.bind_eq_some_iff.1 h
    exact hone (.inr (le_extent_of_kind hn)) (hi n).1 (hi n).2
  -- a division works on its registers, whatever its divisor
  have hdivide : ∀ {n : Nat} {first : Instr} {rest : List Instr}, dst = .reg rax →
      first.isStack = false → (first.dest = some (n, .reg rdx) ∨ first.dest = some (4, .reg rdx)) →
      (rest = [] ∨ rest = [.mov n (.reg rax) (.reg rdx)]) →
      Aimed (.binary (.compound op) k x y) ([first, .div n k.isSigned src] ++ rest) := fun hrax hf hfirst hrest => by
    refine ⟨?_, ?_, ?_⟩
    · intro i hi
      simp only [List.mem_append, List.mem_cons, List.not_mem_nil, or_false] at hi
      rcases hi with (rfl | rfl) | hi
      · exact hf
      · rfl
      · rcases hrest with rfl | rfl
        · cases hi
        · obtain rfl := List.mem_singleton.1 hi
          rfl
    · intro i hi n' o' hd
      simp only [List.mem_append, List.mem_cons, List.not_mem_nil, or_false] at hi
      rcases hi with (rfl | rfl) | hi
      · rcases hfirst with hfirst | hfirst <;> cases hfirst.symm.trans hd <;> exact .inr (.inl rfl)
      · cases hd
      · rcases hrest with rfl | rfl
        · cases hi
        · obtain rfl := List.mem_singleton.1 hi
          cases hd
          exact .inl rfl
    · rintro x' a ⟨⟩ ha
      cases (hdst.symm.trans ha).symm.trans (congrArg some hrax)
  cases op with
  | add | sub | and | or | xor => exact halu h
  | andNot => cases h
  | mul =>
    obtain ⟨n, hn, h⟩ := Option.bind_eq_some_iff.1 h
    split at h
    · obtain ⟨-, ⟨⟩⟩ := Option.ite_none_right_eq_some.1 h
      exact hone (.inl ⟨_, rfl⟩) rfl rfl
    · cases h
  | shl | shr =>
    dsimp only at h
    split at h
    · exact hsized (fun _ => ⟨rfl, rfl⟩) h
    · obtain ⟨-, h⟩ := Option.ite_none_right_eq_some.1 h
      exact hsized (fun _ => ⟨rfl, rfl⟩) h
    · cases h
  | quo | rem =>
    obtain ⟨n, hn, h⟩ := Option.bind_eq_some_iff.1 h
    obtain ⟨hcond, h⟩ := Option.ite_none_left_eq_some.1 h
    have hrax : dst = .reg rax := by
      by_contra hne
      exact hcond (.inr (.inl hne))
    split at h
    · cases h
      refine hdivide hrax ?_ ?_ (by simp)
      · split <;> rfl
      · split <;> simp [Instr.dest]
    · cases h
      refine hdivide hrax ?_ ?_ (by simp)
      · split <;> rfl
      · split <;> simp [Instr.dest]
    · cases h

theorem aimed_of_denote {e : Expr} {is : List Instr} (h : denote e = some is) (he : movesStack e = false) : Aimed e is := by
  unfold denote at h
  split at h
  · exact aimed_assign h
  · exact aimed_compound h
  · simp only [Option.bind_eq_bind, Option.bind_eq_some_iff] at h
    obtain ⟨n, -, a, -, b, -, h⟩ := h
    obtain ⟨-, ⟨⟩⟩ := Option.ite_none_right_eq_some.1 h
    exact ⟨by simp [Instr.isStack], by simp [Instr.dest], by simp⟩
  · simp only [Option.bind_eq_bind, Option.bind_eq_some_iff] at h
    obtain ⟨n, -, a, -, b, -, h⟩ := h
    split at h
    · cases h
      exact ⟨by simp [Instr.isStack], by simp [Instr.dest], by simp⟩
    · obtain ⟨-, ⟨⟩⟩ := Option.ite_none_right_eq_some.1 h
      exact ⟨by simp [Instr.isStack], by simp [Instr.dest], by simp⟩
  · rename_i op k x
    simp only [Option.bind_eq_bind, Option.bind_eq_some_iff] at h
    obtain ⟨dst, hdst, h⟩ := h
    have hone : ∀ {n : Nat} {i : Instr}, ((∃ r, dst = .reg r) ∨ n ≤ extent (.unary op k x)) → i.isStack = false →
        i.dest = some (n, dst) → Aimed (.unary op k x) [i] := fun hn hi hd =>
      aimed_single rfl hdst hi fun n' o' h' => by
        cases hd.symm.trans h'
        exact ⟨rfl, hn⟩
    have hsized : ∀ {i : Nat → Instr}, (∀ n, (i n).isStack = false ∧ (i n).dest = some (n, dst)) →
        (size? k).bind (fun n => some [i n]) = some is → Aimed (.unary op k x) is := fun hi h => by
      obtain ⟨n, hn, ⟨⟩⟩ := Option.bind_eq_some_iff.1 h
      exact hone (.inr (le_extent_unary hn)) (hi n).1 (hi n).2
    split at h
    · exact hsized (fun _ => ⟨rfl, rfl⟩) h
    · exact hsized (fun _ => ⟨rfl, rfl⟩) h
    · exact hsized (fun _ => ⟨rfl, rfl⟩) h
    · exact hsized (fun _ => ⟨rfl, rfl⟩) h
    · cases h
      exact hone (.inl ⟨_, rfl⟩) rfl rfl
    · exact hsized (fun _ => ⟨rfl, rfl⟩) h
    · cases h
      exact hone (.inl ⟨_, rfl⟩) rfl rfl
    · cases h
      exact hone (.inr (by simp only [extent]; omega)) rfl rfl
    · cases he
    · cases he
    · cases h
  · cases h

theorem Aimed.keeps {e : Expr} {is : List Instr} (h : Aimed e is) (hi : i ∈ is) (hx : i.exec m = some m') :
    Keeps (m.changed e) m m' := by
  refine (keeps_exec (h.stack i hi) hx).mono ?_
  rcases hd : i.dest with _ | ⟨n, o⟩
  · exact Set.subset_union_left
  · rcases h.dest i hi n o hd with rfl | rfl | ⟨x, htarget, ho, hn⟩
    · exact Set.singleton_subset_iff.2 (.inl (.inl rfl))
    · exact Set.singleton_subset_iff.2 (.inl (.inr rfl))
    · rcases hn with ⟨r, rfl⟩ | hn
      · exact fun c hc => .inr ⟨x, .reg r, htarget, ho, hc⟩
      · exact fun c hc => .inr ⟨x, o, htarget, ho, Machine.target_mono hn hc⟩

/-- The cells do not depend on the machine unless the place is in memory. -/
theorem Machine.changed_eq {e : Expr} (h : ∀ x a, placeOf e = some x → operand? x ≠ some (.mem a)) (m m' : Machine) :
    m.changed e = m'.changed e := by
  have htarget : ∀ x o, placeOf e = some x → operand? x = some o → m.target (extent e) o = m'.target (extent e) o := by
    intro x o hx ho
    cases o with
    | mem a => exact absurd ho (h x a hx)
    | reg r | imm v | label l => rfl
  refine congrArg (divided ∪ ·) (Set.ext fun c => exists_congr fun x => exists_congr fun o => ?_)
  exact and_congr_right fun hx => and_congr_right fun ho => by rw [htarget x o hx ho]

/-- An expression of selected code changes its own cells. -/
theorem keeps_of_denote {e : Expr} {is : List Instr} (h : denote e = some is) (he : movesStack e = false)
    (hrun : is.foldlM (fun m i => i.exec m) m = some m') : Keeps (m.changed e) m m' := by
  have haimed := aimed_of_denote h he
  by_cases hmem : ∃ x a, placeOf e = some x ∧ operand? x = some (.mem a)
  · obtain ⟨x, a, hx, ha⟩ := hmem
    have hone := haimed.single x a hx ha
    clear h
    cases is with
    | nil =>
      obtain rfl := Option.some.inj hrun
      exact .refl _ _
    | cons i js =>
      obtain rfl : js = [] := List.length_eq_zero_iff.1 (by simpa using hone)
      rw [List.foldlM_cons] at hrun
      obtain ⟨m₁, h₁, h₂⟩ := Option.bind_eq_some_iff.1 hrun
      obtain rfl := Option.some.inj h₂
      exact haimed.keeps List.mem_cons_self h₁
  · have hsame := Machine.changed_eq (e := e) fun x a hx ha => hmem ⟨x, a, hx, ha⟩
    have hall : ∀ js : List Instr, (∀ i ∈ js, i ∈ is) → ∀ {m₁ m₂ : Machine}, js.foldlM (fun m i => i.exec m) m₁ = some m₂ →
        Keeps (m.changed e) m₁ m₂ := by
      intro js
      induction js with
      | nil =>
        intro _ m₁ m₂ hrun
        obtain rfl := Option.some.inj hrun
        exact .refl _ _
      | cons i js ih =>
        intro hjs m₁ m₂ hrun
        rw [List.foldlM_cons] at hrun
        obtain ⟨m', h₁, h₂⟩ := Option.bind_eq_some_iff.1 hrun
        have hi := haimed.keeps (hjs i List.mem_cons_self) h₁
        rw [hsame m₁ m] at hi
        exact hi.trans (ih (fun j hj => hjs j (List.mem_cons_of_mem _ hj)) h₂)
    exact hall is (fun _ h => h) hrun

end Changes

end JitBackend.Amd64
