import JitBackend.Proofs.Amd64.Roundtrip

/-!
# Register numbers in instructions

An instruction has four bits for the number of a register. A register that is an operand of its own is checked to be one
of the sixteen, but the registers of an address are not: what is written for them are the bits of another register
(`numbered`). An accepted expression is written like the one in which the registers of addresses are replaced in this
way, and all registers of that expression exist (`encode_numbered`).
-/

namespace JitBackend

namespace Amd64

/-- The general register with the bits of a number. -/
def numbered (r : HardReg) : HardReg := gpr (8 * (high r.index).toNat + low3 r.index)

theorem isGpr_numbered (r : HardReg) : IsGpr (numbered r) := by
  refine ⟨rfl, ?_⟩
  have hlow := low3_lt r.index
  have hhigh : (high r.index).toNat ≤ 1 := Bool.toNat_le _
  show 8 * (high r.index).toNat + low3 r.index ≤ 15
  omega

theorem numbered_of_isGpr {r : HardReg} (h : IsGpr r) : numbered r = r := gpr_high_low3 h

theorem index_numbered (r : HardReg) : (numbered r).index = if 8 ≤ r.index then 8 + r.index % 8 else r.index := by
  show 8 * (high r.index).toNat + low3 r.index = _
  by_cases h8 : 8 ≤ r.index
  · rw [if_pos h8, high, decide_eq_true h8]
    rfl
  · rw [if_neg h8, high, decide_eq_false h8, low3, Nat.mod_eq_of_lt (by omega)]
    simp

/-- The bits in the instruction are those of the number. -/
theorem bits_numbered (r : HardReg) : low3 (numbered r).index = low3 r.index ∧ high (numbered r).index = high r.index ∧
    ((numbered r).index = 4 ↔ r.index = 4) := by
  refine ⟨?_, decide_eq_decide.2 ?_, ?_⟩
  · rw [low3, low3, index_numbered]
    split <;> omega
  · rw [index_numbered]
    split <;> omega
  · rw [index_numbered]
    split <;> omega

end Amd64

/-- The address with the registers that are written for it. -/
def AddrMode.numbered (m : AddrMode) : AddrMode :=
  { m with base := m.base.map Amd64.numbered, index := m.index.map Amd64.numbered }

theorem AddrMode.isGpr_numbered (m : AddrMode) : m.numbered.IsGpr := by
  intro r hr
  simp only [AddrMode.regs, AddrMode.numbered, List.mem_append, Option.mem_toList, Option.map_eq_some_iff] at hr
  rcases hr with ⟨q, -, rfl⟩ | ⟨q, -, rfl⟩
  · exact Amd64.isGpr_numbered q
  · exact Amd64.isGpr_numbered q

theorem AddrMode.numbered_of_isGpr {m : AddrMode} (h : m.IsGpr) : m.numbered = m := by
  have hmap : ∀ o : Option HardReg, (∀ r, o = some r → Amd64.IsGpr r) → o.map Amd64.numbered = o := by
    intro o ho
    cases o with
    | none => rfl
    | some r => exact congrArg some (Amd64.numbered_of_isGpr (ho r rfl))
  rw [AddrMode.numbered, hmap _ fun r hr => h.base hr, hmap _ fun r hr => h.index hr]

def Operand.numbered : Operand → Operand
  | mem m => mem m.numbered
  | o => o

namespace Expr

/-- The expression with the registers that are written for those of its addresses. -/
def numbered : Expr → Expr
  | memAt k ro m => memAt k ro m.numbered
  | unary op k x => unary op k x.numbered
  | binary op k x y => binary op k x.numbered y.numbered
  | e => e

/-- The registers that are operands of their own are general ones. -/
def DirectGpr (e : Expr) : Prop := ∀ r ∈ e.regs, ∃ h, r.id = .hard h ∧ Amd64.IsGpr h

@[simp] theorem kind_numbered (e : Expr) : e.numbered.kind = e.kind := by cases e <;> rfl

theorem DirectGpr.of_nil {e : Expr} (h : e.regs = []) : e.DirectGpr := by
  intro r hr
  rw [h] at hr
  cases hr

theorem DirectGpr.unary {op : UnaryOp} {k : Kind} {x : Expr} (hx : x.DirectGpr) : (unary op k x).DirectGpr :=
  fun r hr => hx r (by rwa [regs] at hr)

theorem DirectGpr.binary {op : BinaryOp} {k : Kind} {x y : Expr} (hx : x.DirectGpr) (hy : y.DirectGpr) :
    (binary op k x y).DirectGpr := by
  intro r hr
  rw [regs, List.mem_append] at hr
  exact hr.elim (hx r) (hy r)

theorem DirectGpr.usesGpr {e : Expr} (h : e.DirectGpr) : e.numbered.UsesGpr := by
  induction e with
  | reg r =>
    intro g hg
    obtain ⟨g', hg', hgpr⟩ := h r (by simp [regs])
    cases hg.symm.trans hg'
    exact hgpr
  | memAt k ro m => exact m.isGpr_numbered
  | unary op k x ih => exact ih fun r hr => h r (by rwa [regs])
  | binary op k x y ihx ihy =>
    exact ⟨ihx fun r hr => h r (by simp [regs, hr]), ihy fun r hr => h r (by simp [regs, hr])⟩
  | const | mem | label | ret | call => trivial

/-- Where the registers of addresses exist, they are the ones that are written. -/
theorem numbered_of_usesGpr {e : Expr} (h : e.UsesGpr) : e.numbered = e := by
  induction e with
  | memAt k ro m => exact congrArg (memAt k ro) (AddrMode.numbered_of_isGpr h)
  | unary op k x ih => exact congrArg (unary op k) (ih h)
  | binary op k x y ihx ihy => exact congrArg₂ (binary op k) (ihx h.1) (ihy h.2)
  | const | reg | mem | label | ret | call => rfl

end Expr

namespace Amd64

/-! ## Writing the same -/

def Rm.numbered : Rm → Rm
  | mem m => mem m.numbered
  | rm => rm

/-- What the first computation writes, if it succeeds, the second one writes too; the results are related. -/
def Mirrors {α β : Type} (R : α → β → Prop) (act : Emit α) (act' : Emit β) : Prop :=
  ∀ ⦃pre a post⦄, act.run pre = (.ok a, post) → ∃ b, act'.run pre = (.ok b, post) ∧ R a b

section Mirrors

variable {α β γ δ : Type} {R : α → β → Prop} {S : γ → δ → Prop} {act : Emit α} {act' : Emit β}

theorem Mirrors.bind {k : α → Emit γ} {k' : β → Emit δ} (h : Mirrors R act act')
    (hk : ∀ a b, R a b → Mirrors S (k a) (k' b)) : Mirrors S (act >>= k) (act' >>= k') := by
  intro pre c post hrun
  obtain ⟨a, mid, ha, hc⟩ := run_bind_eq_ok.1 hrun
  obtain ⟨b, hb, hab⟩ := h ha
  obtain ⟨d, hd, hcd⟩ := hk a b hab hc
  exact ⟨d, run_bind_eq_ok.2 ⟨b, mid, hb, hd⟩, hcd⟩

theorem Mirrors.mono {R' : α → β → Prop} (h : Mirrors R act act') (hR : ∀ a b, R a b → R' a b) : Mirrors R' act act' := by
  intro pre a post hrun
  obtain ⟨b, hb, hab⟩ := h hrun
  exact ⟨b, hb, hR a b hab⟩

theorem Mirrors.refl (act : Emit α) : Mirrors Eq act act := fun _ a _ hrun => ⟨a, hrun, rfl⟩

theorem Mirrors.same (act : Emit α) : Mirrors (fun _ _ => True) act act := (Mirrors.refl act).mono fun _ _ _ => trivial

theorem Mirrors.of_throw {e : Error} {act' : Emit β} : Mirrors R (MonadExcept.throw e : Emit α) act' :=
  fun _ _ _ hrun => absurd hrun run_throw_ne_ok

theorem Mirrors.lift {x : Except Error α} {x' : Except Error β} (h : ∀ a, x = .ok a → ∃ b, x' = .ok b ∧ R a b) :
    Mirrors R (liftM x : Emit α) (liftM x' : Emit β) := by
  intro pre a post hrun
  obtain ⟨hx, rfl⟩ := run_lift_eq_ok.1 hrun
  obtain ⟨b, hb, hab⟩ := h a hx
  exact ⟨b, run_lift_eq_ok.2 ⟨hb, rfl⟩, hab⟩

/-- A check that stays passed. -/
theorem Mirrors.unless {p q : Prop} [Decidable p] [Decidable q] {e e' : Error} {f : Unit → Emit α} {f' : Unit → Emit β}
    (hpq : q → p) (h : Mirrors R act act') :
    Mirrors R (if p then throw e >>= f else act) (if q then throw e' >>= f' else act') := by
  by_cases hp : p
  · rw [if_pos hp]
    intro pre a post hrun
    obtain ⟨_, _, hthrow, -⟩ := run_bind_eq_ok.1 hrun
    exact absurd hthrow run_throw_ne_ok
  · rwa [if_neg hp, if_neg fun hq => hp (hpq hq)]

end Mirrors

/-! ## Writers -/

section Writers

variable {size n d : Nat} {dst src o : Operand} {x y z : Expr} {k : Kind}

theorem any_map_numbered (o : Option HardReg) : (o.map numbered).any (high ·.index) = o.any (high ·.index) := by
  cases o with
  | none => rfl
  | some r => exact (bits_numbered r).2.1

theorem addressBytes_numbered (d : Nat) (m : AddrMode) : addressBytes d m.numbered = addressBytes d m := by
  cases hbase : m.base with
  | none =>
    obtain ⟨base, index, scale, disp⟩ := m
    cases hbase
    cases index with
    | none => rfl
    | some r => simp only [addressBytes, AddrMode.numbered, Option.map_none, Option.map_some, (bits_numbered r).1]
  | some b =>
    have hnumbered : m.numbered.base = some (numbered b) := by rw [AddrMode.numbered, hbase]; rfl
    rw [addressBytes_of_base hnumbered, addressBytes_of_base hbase, (bits_numbered b).1]
    obtain ⟨base, index, scale, disp⟩ := m
    cases index with
    | none => rfl
    | some r => simp only [AddrMode.numbered, Option.map_some, (bits_numbered r).1]

theorem mirrors_outModRM (d : Nat) (rm : Rm) : Mirrors (fun _ _ => True) (outModRM d rm) (outModRM d rm.numbered) := by
  cases rm with
  | reg | rip => exact .same _
  | mem m =>
    have hindex : m.numbered.index.any (·.index == 4) = m.index.any (·.index == 4) := by
      obtain ⟨base, index, scale, disp⟩ := m
      cases index with
      | none => rfl
      | some r => simpa [AddrMode.numbered, Bool.beq_eq_decide_eq] using (bits_numbered r).2.2
    rw [Rm.numbered, outModRM, outModRM, hindex, addressBytes_numbered]
    split
    · exact .of_throw
    · exact .same _

theorem mirrors_inst (size : Nat) (opcode : List Byte) (field : RegField) (rm : Rm) :
    Mirrors (fun _ _ => True) (inst size opcode field rm) (inst size opcode field rm.numbered) := by
  have hbits : rm.numbered.indexBit = rm.indexBit ∧ rm.numbered.baseBit = rm.baseBit ∧ rm.numbered.forced = rm.forced := by
    cases rm with
    | reg | rip => exact ⟨rfl, rfl, rfl⟩
    | mem m => exact ⟨any_map_numbered m.index, any_map_numbered m.base, rfl⟩
  rw [inst_eq, inst_eq, hbits.1, hbits.2.1, hbits.2.2]
  exact .bind (.refl _) fun _ _ _ => .bind (.refl _) fun _ _ _ => mirrors_outModRM _ rm

/-- The operand of an expression, and what it is written as. -/
theorem mirrors_operand (x : Expr) : Mirrors (fun a b => b = a.numbered ∧ x.DirectGpr) (liftM (operand x) : Emit Operand)
    (liftM (operand x.numbered) : Emit Operand) := by
  refine .lift fun a ha => ?_
  have hgpr := ha
  obtain ⟨k, r, ro, rfl, rfl⟩ | ⟨k, ro, m, rfl, rfl⟩ | ⟨c, v, rfl, rfl⟩ | ⟨l, rfl, rfl⟩ := operand_cases ha
  · refine ⟨_, ha, rfl, ?_⟩
    simp only [operand] at hgpr
    split at hgpr
    · rename_i hr
      rintro _ hmem
      obtain rfl : _ = _ := by simpa [Expr.regs] using hmem
      exact ⟨r, rfl, hr⟩
    · cases hgpr
  · exact ⟨_, rfl, rfl, .of_nil (by rw [Expr.regs])⟩
  · exact ⟨_, ha, rfl, .of_nil (by rw [Expr.regs])⟩
  · exact ⟨_, rfl, rfl, .of_nil (by rw [Expr.regs])⟩

theorem rmOf?_numbered (o : Operand) (n : Nat) : rmOf? o.numbered n = (rmOf? o n).map Rm.numbered := by
  cases o <;> rfl

theorem mirrors_rmOr (o : Operand) (n : Nat) (what what' : Refusal) : Mirrors (fun a b => b = a.numbered)
    (liftM (rmOr o n what) : Emit Rm) (liftM (rmOr o.numbered n what') : Emit Rm) := by
  refine .lift fun rm hrm => ⟨rm.numbered, ?_, rfl⟩
  rw [rmOr, rmOf?_numbered, rmOr_eq_ok hrm]
  rfl

theorem mirrors_outAlu (d n : Nat) (dst src : Operand) :
    Mirrors (fun _ _ => True) (outAlu d n dst src) (outAlu d n dst.numbered src.numbered) := by
  unfold outAlu
  refine .bind (mirrors_rmOr dst n _ _) ?_
  rintro rm _ rfl
  cases src with
  | reg r => exact mirrors_inst _ _ _ rm
  | mem m =>
    cases dst with
    | reg r => exact mirrors_inst _ _ _ (.mem m)
    | mem | imm | label => exact .of_throw
  | imm v =>
    dsimp only [Operand.numbered]
    split
    · exact .bind (mirrors_inst _ _ _ rm) fun _ _ _ => .same _
    · split
      · exact .bind (mirrors_inst _ _ _ rm) fun _ _ _ => .same _
      · exact .bind (mirrors_inst _ _ _ rm) fun _ _ _ => .same _
  | label l => cases dst <;> exact .of_throw

/-- A test of operands that stand in order. -/
def orderedTest (n : Nat) (a b : Operand) : Emit Unit := do
  let rm ← rmOr a n (.testTarget a)
  match b with
  | .reg r => inst n [if n = 1 then 0x84 else 0x85] (.reg r n) rm
  | .imm v =>
    inst n [if n = 1 then 0xF6 else 0xF7] (.digit 0) rm
    outImm n v
  | b => throw (.unsupported (.testOperands a b))

theorem mirrors_orderedTest (n : Nat) (a b : Operand) :
    Mirrors (fun _ _ => True) (orderedTest n a b) (orderedTest n a.numbered b.numbered) := by
  refine .bind (mirrors_rmOr a n _ _) ?_
  rintro rm _ rfl
  cases b with
  | reg r => exact mirrors_inst _ _ _ rm
  | imm v => exact .bind (mirrors_inst _ _ _ rm) fun _ _ _ => .same _
  | mem | label => exact .of_throw

theorem mirrors_outTest (n : Nat) (a b : Operand) :
    Mirrors (fun _ _ => True) (outTest n a b) (outTest n a.numbered b.numbered) := by
  -- a register against memory trades places with it
  cases a with
  | reg r =>
    cases b with
    | mem m => exact mirrors_orderedTest n (.mem m) (.reg r)
    | reg s => exact mirrors_orderedTest n (.reg r) (.reg s)
    | imm v => exact mirrors_orderedTest n (.reg r) (.imm v)
    | label l => exact mirrors_orderedTest n (.reg r) (.label l)
  | mem | imm | label => exact mirrors_orderedTest n _ b

theorem mirrors_outMov (n : Nat) (dst src : Operand) :
    Mirrors (fun _ _ => True) (outMov n dst src) (outMov n dst.numbered src.numbered) := by
  cases dst with
  | reg d =>
    cases src with
    | mem m =>
      simp only [Operand.numbered, outMov]
      exact mirrors_inst _ _ _ (.mem m)
    | reg | imm | label => exact .same _
  | mem m =>
    cases src with
    | reg s =>
      simp only [Operand.numbered, outMov]
      exact mirrors_inst _ _ _ (.mem m)
    | imm v =>
      simp only [Operand.numbered, outMov]
      exact .bind (mirrors_inst _ _ _ (.mem m)) fun _ _ _ => .same _
    | mem | label => exact .of_throw
  | imm | label => cases src <;> exact .of_throw

theorem mirrors_outCast (dst : Operand) (k : Kind) (z : Expr) :
    Mirrors (fun _ _ => z.DirectGpr) (outCast dst k z) (outCast dst.numbered k z.numbered) := by
  unfold outCast
  rw [Expr.kind_numbered]
  refine .bind (.refl _) ?_
  rintro wide _ rfl
  refine .bind (.refl _) ?_
  rintro size _ rfl
  cases dst with
  | mem | imm | label => exact .of_throw
  | reg d =>
    refine .bind (mirrors_operand z) ?_
    rintro src _ ⟨rfl, hz⟩
    split
    · exact (mirrors_outMov wide (.reg d) src).mono fun _ _ _ => hz
    · refine .bind (mirrors_rmOr src size _ _) ?_
      rintro rm _ rfl
      split
      all_goals first | exact (mirrors_inst _ _ _ rm).mono fun _ _ _ => hz | exact .of_throw

theorem mirrors_outMul (n : Nat) (dst src : Operand) :
    Mirrors (fun _ _ => True) (outMul n dst src) (outMul n dst.numbered src.numbered) := by
  cases dst with
  | mem | imm | label => exact .of_throw
  | reg d =>
    simp only [outMul, Operand.numbered]
    split
    · exact .of_throw
    · cases src with
      | imm v => exact .same _
      | reg | mem | label =>
        refine .bind (mirrors_rmOr _ n _ _) ?_
        rintro rm _ rfl
        exact mirrors_inst _ _ _ rm

theorem mirrors_outShift (n d : Nat) (dst count : Operand) :
    Mirrors (fun _ _ => True) (outShift n d dst count) (outShift n d dst.numbered count.numbered) := by
  unfold outShift
  refine .bind (mirrors_rmOr dst n _ _) ?_
  rintro rm _ rfl
  cases count with
  | imm v => exact .bind (mirrors_inst _ _ _ rm) fun _ _ _ => .same _
  | reg r =>
    dsimp only [Operand.numbered]
    split
    · exact mirrors_inst _ _ _ rm
    · exact .of_throw
  | mem | label => exact .of_throw

theorem numbered_eq_reg {o : Operand} {r : HardReg} (h : o.numbered = .reg r) : o = .reg r := by
  cases o <;> cases h
  rfl

theorem mirrors_outDivide (isRem : Bool) (k : Kind) (dst src : Operand) :
    Mirrors (fun _ _ => True) (outDivide isRem k dst src) (outDivide isRem k dst.numbered src.numbered) := by
  unfold outDivide
  refine .bind (.refl _) ?_
  rintro size _ rfl
  refine .unless (fun hdst heq => hdst (by rw [heq]; rfl)) (.unless id (.unless ?_ ?_))
  · exact fun hfixed => hfixed.imp numbered_eq_reg numbered_eq_reg
  refine .bind (mirrors_rmOr src size _ _) ?_
  rintro rm _ rfl
  cases k.isSigned
  all_goals
    refine .bind (.refl _) fun _ _ _ => .bind (mirrors_inst _ _ _ rm) fun _ _ _ => .same _

end Writers

/-! ## Nodes -/

theorem mirrors_destination (x : Expr) (n : Nat) : Mirrors (fun a b => b = a.numbered ∧ x.DirectGpr)
    (liftM (destination x n) : Emit Rm) (liftM (destination x.numbered n) : Emit Rm) := by
  refine .lift fun rm hrm => ?_
  obtain ⟨o, ho, hrm⟩ := destination_eq_ok hrm
  have hrun : (liftM (operand x) : Emit Operand).run [] = (.ok o, []) := run_lift_eq_ok.2 ⟨ho, rfl⟩
  obtain ⟨b, hb, rfl, hx⟩ := mirrors_operand x hrun
  refine ⟨rm.numbered, ?_, rfl, hx⟩
  have hrm' : rmOf? o.numbered n = some rm.numbered := by
    rw [rmOf?_numbered, hrm]
    rfl
  simp only [destination, (run_lift_eq_ok.1 hb).1, Bind.bind, Except.bind, hrm']
  rfl

theorem mirrors_outAssign (k : Kind) (x y : Expr) :
    Mirrors (fun _ _ => x.DirectGpr ∧ y.DirectGpr) (outAssign k x y) (outAssign k x.numbered y.numbered) := by
  unfold outAssign
  refine .bind (.refl _) ?_
  rintro size _ rfl
  refine .bind (mirrors_operand x) ?_
  rintro dst _ ⟨rfl, hx⟩
  cases y with
  | unary op ky z =>
    cases op with
    | lea =>
      refine .bind (mirrors_operand z) ?_
      rintro src _ ⟨rfl, hz⟩
      cases dst with
      | reg d =>
        cases src with
        | mem m => exact (mirrors_inst _ _ _ (.mem m)).mono fun _ _ _ => ⟨hx, hz.unary⟩
        | reg | imm | label => exact .of_throw
      | mem | imm | label => exact .of_throw
    | neg | inv =>
      refine .bind (mirrors_operand z) ?_
      rintro src _ ⟨rfl, hz⟩
      refine .unless (fun hne heq => hne (by rw [heq])) (.bind (mirrors_destination x size) ?_)
      rintro rm _ ⟨rfl, -⟩
      exact (mirrors_inst _ _ _ rm).mono fun _ _ _ => ⟨hx, hz.unary⟩
    | cast => exact (mirrors_outCast dst ky z).mono fun _ _ hz => ⟨hx, hz.unary⟩
    | _ => exact .of_throw
  | _ =>
    refine .bind (mirrors_operand _) ?_
    rintro src _ ⟨rfl, hy⟩
    exact (mirrors_outMov size dst src).mono fun _ _ _ => ⟨hx, hy⟩

theorem mirrors_jumpTarget (x : Expr) : Mirrors (fun l l' => l' = l ∧ x.DirectGpr) (liftM (jumpTarget x) : Emit Label)
    (liftM (jumpTarget x.numbered) : Emit Label) := by
  refine .lift fun l hl => ?_
  obtain rfl := jumpTarget_eq_ok hl
  exact ⟨l, rfl, rfl, .of_nil (by rw [Expr.regs])⟩

theorem mirrors_outUnary (op : UnaryOp) (k : Kind) (x : Expr) :
    Mirrors (fun _ _ => x.DirectGpr) (outUnary op k x) (outUnary op k x.numbered) := by
  cases op with
  | jump | jcc =>
    refine .bind (.refl _) fun _ _ _ => .bind (mirrors_jumpTarget x) ?_
    rintro l _ ⟨rfl, hx⟩
    exact (Mirrors.same _).mono fun _ _ _ => hx
  | setcc c =>
    refine .bind (mirrors_destination x 1) ?_
    rintro rm _ ⟨rfl, hx⟩
    exact (mirrors_inst _ _ _ rm).mono fun _ _ _ => hx
  | inc | dec =>
    refine .bind (.refl _) ?_
    rintro size _ rfl
    refine .bind (mirrors_destination x size) ?_
    rintro rm _ ⟨rfl, hx⟩
    exact (mirrors_inst _ _ _ rm).mono fun _ _ _ => hx
  | push | pop =>
    refine .bind (mirrors_operand x) ?_
    rintro o _ ⟨rfl, hx⟩
    cases o with
    | reg r => exact (Mirrors.same _).mono fun _ _ _ => hx
    | mem | imm | label => exact .of_throw
  | zero =>
    refine .bind (.refl _) ?_
    rintro size _ rfl
    refine .bind (mirrors_operand x) ?_
    rintro o _ ⟨rfl, hx⟩
    cases o with
    | reg r => exact (Mirrors.same _).mono fun _ _ _ => hx
    | mem m => exact (mirrors_outMov size (.mem m) (.imm 0)).mono fun _ _ _ => hx
    | imm | label => exact .of_throw
  | _ => exact .of_throw

/-- Two operands, and what is written from them. -/
theorem mirrors_operands (x y : Expr) {write write' : Operand → Operand → Emit Unit}
    (h : ∀ a b, Mirrors (fun _ _ => True) (write a b) (write' a.numbered b.numbered)) :
    Mirrors (fun _ _ => x.DirectGpr ∧ y.DirectGpr) (do write (← operand x) (← operand y))
      (do write' (← operand x.numbered) (← operand y.numbered)) := by
  refine .bind (mirrors_operand x) ?_
  rintro a _ ⟨rfl, hx⟩
  refine .bind (mirrors_operand y) ?_
  rintro b _ ⟨rfl, hy⟩
  exact (h a b).mono fun _ _ _ => ⟨hx, hy⟩

theorem mirrors_outBinary (op : BinaryOp) (k : Kind) (x y : Expr) :
    Mirrors (fun _ _ => x.DirectGpr ∧ y.DirectGpr) (outBinary op k x y) (outBinary op k x.numbered y.numbered) := by
  unfold outBinary
  rw [Expr.kind_numbered]
  cases aluDigit op with
  | some d =>
    refine .bind (.refl _) ?_
    rintro size _ rfl
    exact mirrors_operands x y (mirrors_outAlu d size)
  | none =>
    cases op with
    | assign => exact mirrors_outAssign k x y
    | test =>
      refine .bind (.refl _) ?_
      rintro size _ rfl
      exact mirrors_operands x y (mirrors_outTest size)
    | compound op =>
      cases op with
      | mul =>
        refine .bind (.refl _) ?_
        rintro size _ rfl
        exact mirrors_operands x y (mirrors_outMul size)
      | shl | shr =>
        refine .bind (.refl _) ?_
        rintro size _ rfl
        exact mirrors_operands x y (mirrors_outShift size _)
      | quo | rem => exact mirrors_operands x y (mirrors_outDivide _ k)
      | add | sub | and | or | xor | andNot => exact .of_throw
    | _ => exact .of_throw

/-- The bytes of an instruction are those with the registers that are written in its addresses. -/
theorem mirrors_instruction (e : Expr) : Mirrors (fun _ _ => e.DirectGpr) (instruction e) (instruction e.numbered) := by
  cases e with
  | unary op k x => exact (mirrors_outUnary op k x).mono fun _ _ hx => hx.unary
  | binary op k x y => exact (mirrors_outBinary op k x y).mono fun _ _ h => h.1.binary h.2
  | ret vs =>
    cases vs with
    | nil => exact (Mirrors.same _).mono fun _ _ _ => .of_nil (by rw [Expr.regs, Expr.regsL])
    | cons => exact .of_throw
  | call l k sig args =>
    cases args with
    | nil => exact (Mirrors.same _).mono fun _ _ _ => .of_nil (by rw [Expr.regs, Expr.regsL])
    | cons => exact .of_throw
  | _ => exact .of_throw

section Buffers

variable {e : Expr} {b b' : Buffer} {log log' : Log}

theorem encode_eq (he : ∀ l, e ≠ .label l) {pieces : List Piece} (hrun : (instruction e).run [] = (.ok (), pieces)) :
    encode e = (do
      let start := (← get).code.size
      pieces.forM Piece.emit
      note (.encoded start e ((← get).code.toList.drop start))) := by
  unfold encode
  cases e with
  | label l => exact absurd rfl (he l)
  | _ => simp only [hrun]

theorem instruction_of_encode (he : ∀ l, e ≠ .label l) (h : encode e b log = ((.ok (), b'), log')) :
    ∃ pieces, (instruction e).run [] = (.ok (), pieces) := by
  rcases hinst : ExceptT.run (instruction e) [] with ⟨_ | _, pieces⟩
  case ok => exact ⟨pieces, rfl⟩
  case error err =>
    unfold encode at h
    obtain ⟨_, _, _, -, h⟩ := Assemble.of_run_bind h
    split at h
    case h_1 => exact absurd rfl (he _)
    case h_2 =>
      simp only [hinst] at h
      obtain ⟨_, _, _, -, h⟩ := Assemble.of_run_bind h
      cases h

/-- What an accepted expression appends is what the expression with the written registers appends. -/
theorem mirrors_encode (h : encode e b log = ((.ok (), b'), log')) :
    e.DirectGpr ∧ ∃ log'', encode e.numbered b log = ((.ok (), b'), log'') := by
  by_cases hlabel : ∃ l, e = .label l
  · obtain ⟨l, rfl⟩ := hlabel
    exact ⟨.of_nil (by rw [Expr.regs]), log', h⟩
  have hno : ∀ l, e ≠ .label l := fun l hl => hlabel ⟨l, hl⟩
  have hno' : ∀ l, e.numbered ≠ .label l := by
    intro l hl
    cases e <;> cases hl
    exact hno l rfl
  obtain ⟨pieces, hrun⟩ := instruction_of_encode hno h
  obtain ⟨_, hrun', hdirect⟩ := mirrors_instruction e hrun
  rw [encode_eq hno hrun] at h
  rw [encode_eq hno' hrun']
  obtain ⟨_, _, _, hget, h⟩ := Assemble.of_run_bind h
  obtain ⟨_, c, _, hemit, h⟩ := Assemble.of_run_bind h
  obtain rfl := code_of_note h
  exact ⟨hdirect, _, (Assemble.run_bind hget).trans ((Assemble.run_bind hemit).trans rfl)⟩

/-- The registers that an accepted expression has as operands of their own exist. What is appended is what the expression
with the written registers in its addresses appends, and those exist as well. -/
theorem encode_numbered (h : encode e b log = ((.ok (), b'), log')) :
    e.DirectGpr ∧ e.numbered.UsesGpr ∧ (e.UsesGpr ↔ e.numbered = e) ∧
      ∃ log'', encode e.numbered b log = ((.ok (), b'), log'') := by
  obtain ⟨hdirect, hwritten⟩ := mirrors_encode h
  refine ⟨hdirect, hdirect.usesGpr, ⟨Expr.numbered_of_usesGpr, fun heq => ?_⟩, hwritten⟩
  rw [← heq]
  exact hdirect.usesGpr

/-- A load from the address in a register past the sixteen. -/
def missingBase : Expr :=
  .binary .assign .int64 (.reg (.hard .int64 rax)) (.memAt .int64 false ⟨some (gpr 16), none, .one, 0⟩)

/-- What is appended for it loads from `r8`. -/
theorem encode_numbered_missingBase : ∃ b log, encode missingBase {} #[] = ((.ok (), b), log) ∧ missingBase.DirectGpr ∧
    ∃ log'', encode (.binary .assign .int64 (.reg (.hard .int64 rax))
      (.memAt .int64 false ⟨some (gpr 8), none, .one, 0⟩)) {} #[] = ((.ok (), b), log'') := by
  obtain ⟨b, log, hrun⟩ : ∃ b log, encode missingBase {} #[] = ((.ok (), b), log) := ⟨_, _, rfl⟩
  obtain ⟨hdirect, -, -, hwritten⟩ := encode_numbered hrun
  exact ⟨b, log, hrun, hdirect, hwritten⟩

/-- An expression with a register that does not exist is accepted. -/
theorem encode_missingBase : ¬IsGpr (gpr 16) ∧ ¬missingBase.UsesGpr ∧
    ∃ b log, encode missingBase {} #[] = ((.ok (), b), log) ∧ b.code = #[0x49, 0x8B, 0x00] := by
  have hmissing : ¬IsGpr (gpr 16) := by decide
  exact ⟨hmissing, fun h => hmissing (h.2 (gpr 16) (by decide)), _, _, rfl, rfl⟩

end Buffers

end Amd64

end JitBackend
