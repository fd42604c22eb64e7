import JitBackend.Proofs.Amd64.Assignment
import JitBackend.Proofs.Amd64.Fetching
import JitBackend.Proofs.Amd64.Integral

/-!
# Shifts

Folding shifts by any count: nothing is left of a value that is shifted by its width or more, except its sign. So does the
code of a constant count. A count that is computed goes to `cl`, and the machine takes it modulo the width of a register:
the code shifts by `takenCount`. It agrees with folding as long as the count is below that width (`exec_shift`), which is
beyond the width of values of one or two bytes, and not above it (`exec_shift_wraps`).
-/

namespace JitBackend.Amd64

open Lower

/-- The operation of a shift. -/
def shiftArith (left : Bool) : ArithOp := if left then .shl else .shr

section Shifts

variable {A : Activation} {V : View A} {σ : Store} {after : Const → Store} {dst x y : Expr} {T : Set Cell} {μ : Mark}
  {m : Machine} {c d : Const} {left : Bool}

theorem isInteger_of_arithAdmits {kx ky : Kind} (h : Expr.arithAdmits (shiftArith left) kx ky = true) :
    kx.isInteger = true ∧ ky.isInteger = true := by
  cases left <;> simpa [shiftArith, Expr.arithAdmits] using h

/-- What folding makes of a shift. -/
theorem binary_shift (hneg : (d.kind.isSigned && decide (d.asInt < 0)) = false) :
    Const.binary (.arith (shiftArith left)) c d = .ok (.ofBits c.kind (shiftWord c.kind.isSigned left c.re d.asNat) 0) := by
  have hshift : Const.binary (.arith (shiftArith left)) c d = Const.shift left c d := by cases left <;> rfl
  rw [hshift, Const.shift, if_neg (by simp [hneg])]
  rfl

/-- A shift in a place shifts by the count, or by what is taken of it. -/
theorem operates_shift (ha : Expr.arithAdmits (shiftArith left) x.kind y.kind = true) (hy : Plain A.frame y)
    (hck : c.kind = x.kind) (hcc : c.Canonical) (hneg : (d.kind.isSigned && decide (d.asInt < 0)) = false) :
    Operates A (shiftArith left) y c d (shifted left c d y.isConst) := by
  intro V σ dst T μ m Q hcov hd hc hdv hm hq
  have := (hy.tidy A.regs_eq).value
  have hw : c.kind.isWord = true := by
    rw [hck, Kind.isWord, (isInteger_of_arithAdmits ha).1, Bool.true_or]
  have hassign : opAssign dst (shiftArith left) (value y) = releasing (shiftInto dst left (value y)) := by
    cases left <;> rfl
  rw [hassign]
  exact .releasing (does_shiftInto hd hc hw hcc ((hy.eval_kind hdv).1 ▸ hy.isScalar) hneg (hy.selects.value hcov hdv) hm
    fun _ => hq)

/-- A computed count leaves two ways to shift: in the place, if it holds the left operand already, or next to it. -/
theorem arith_shift (hconst : y.isConst = false) (dst : Expr) (k : Kind) (origin : Option Expr) :
    arith dst k (shiftArith left) x y origin = (do
      if ← isPlace (← read) x dst origin then opAssign dst (shiftArith left) (value y)
      else accumulate dst k (shiftArith left) x y) := by
  have hcomm : (shiftArith left).isCommutative = false := by cases left <;> rfl
  have hsum : isAddressLike k (shiftArith left) x y = false := by
    cases left <;> cases y <;> simp_all [isAddressLike, shiftArith, Expr.isConst]
  rw [arith_eq]
  simp only [hcomm, hsum, Bool.and_false, Bool.false_eq_true, if_false, pure_bind]

theorem does_shiftNode {Q : Unit → Mark → Machine → Prop} {origin : Option Expr}
    (ha : Expr.arithAdmits (shiftArith left) x.kind y.kind = true) (hx : Plain A.frame x) (hy : Plain A.frame y)
    (hs : Sink V σ (fun _ => σ) dst T) (hd : Dest A μ m dst T) (hm : V.Shows σ m) (hdk : dst.kind = x.kind)
    (hcx : V.Covers x) (hcy : V.Covers y)
    (ho : ∀ z v, origin = some z → z.eval V.readable σ = some v → m.Holds v dst)
    (hc : x.eval V.readable σ = some c) (hdv : y.eval V.readable σ = some d)
    (hneg : (d.kind.isSigned && decide (d.asInt < 0)) = false)
    (hq : ∀ ν m', Keeps (A.free μ ∪ T) m m' → m'.Holds (shifted left c d y.isConst) dst → Q () ν m') :
    Does A (into dst (.binary (.arith (shiftArith left)) x.kind x y) origin) μ m Q := by
  obtain ⟨hck, hcc⟩ := hx.eval_kind hc
  have hword := isWord_of_admits hx.isScalar ha
  cases hconst : y.isConst with
  | true =>
    -- a constant count is taken whole, so the node has a value
    have hplain : Plain A.frame (.binary (.arith (shiftArith left)) x.kind x y) :=
      .arith ha (fun _ => by cases left <;> decide) hx hy
    refine hplain.selects.into hs hd hm hdk ?_ ho ?_ fun ν m' _ => hq ν m'
    · exact fun r hr => (List.mem_append.1 hr).elim (hcx r) (hcy r)
    · rw [Expr.inPlace_of_eq V.readable (fun _ => rfl), Expr.eval, hc, Option.bind_some, hdv, Option.bind_some, hconst]
      have hfaults : Const.faults true (shiftArith left) c d = false := by cases left <;> rfl
      have hfold : Const.arith (shiftArith left) c d = .ok (shifted left c d true) := binary_shift hneg
      rw [Const.arith?, hfaults, hfold]
      rfl
  | false =>
    have := (hx.tidy A.regs_eq).into
    have := (hy.tidy A.regs_eq).value
    have := steady_accumulate (hx.tidy A.regs_eq) (hy.tidy A.regs_eq)
    have hop : Operates A (shiftArith left) y c d (shifted left c d y.isConst) := operates_shift ha hy hck hcc hneg
    rw [into, if_pos hword, arith_shift hconst]
    refine .bind (.read (.bind (.lift fun b hfirst => ?_)))
    cases b with
    | true =>
      obtain ⟨-, hhold⟩ := hs.holds_of_isPlace hm hx hcx hdk ho hfirst
      exact hop hcy hd (hhold hc) hdv hm (hq μ)
    | false =>
      exact does_accumulate hx hy hx.selects hop hs hd hm hdk hck hcx hcy
        ((Expr.inPlace_of_eq V.readable (fun _ => rfl) x none).trans hc) hdv fun ν m' _ => hq ν m'

theorem asNat_uint8 {n : Nat} (h : n < 256) : (Const.uint8 n).asNat = n := by
  have hre : (Const.uint8 n).re = ((BitVec.ofNat 64 n).setWidth 8).setWidth 64 := rfl
  rw [Const.asNat, show (Const.uint8 n).kind = .uint8 from rfl, if_neg (by decide), hre]
  simp only [BitVec.toNat_setWidth, BitVec.toNat_ofNat]
  omega

theorem takenCount_lt (k : Kind) (n : Nat) : takenCount k n < 256 := by
  unfold takenCount
  split <;> omega

/-- The value of a shift is folded from the count, or from what is taken of it. -/
theorem binary_shifted (hneg : (d.kind.isSigned && decide (d.asInt < 0)) = false) (lit : Bool) :
    Const.binary (.arith (shiftArith left)) c (if lit then d else .uint8 (takenCount c.kind d.asNat)) =
      .ok (shifted left c d lit) := by
  cases lit with
  | true => exact binary_shift hneg
  | false =>
    have hcount := asNat_uint8 (takenCount_lt c.kind d.asNat)
    rw [if_neg (by simp), binary_shift (by simp [Const.uint8, Const.ofBits, Kind.isSigned]), hcount]
    rfl

theorem plain_arith_iff {f : Frame} {op : ArithOp} {k : Kind} (h : Plain f (.binary (.arith op) k x y)) :
    k = x.kind ∧ Expr.arithAdmits op x.kind y.kind = true ∧ Plain f x ∧ Plain f y := by
  cases h with
  | arith ha _ hx hy => exact ⟨rfl, ha, hx, hy⟩

/-- The assignment of a shift to a register. -/
def shiftStmt (left : Bool) (r : Reg) (x y : Expr) : Expr :=
  .binary .assign r.kind (.reg r) (.binary (.arith (shiftArith left)) r.kind x y)

end Shifts

section Statements

variable {flat : Flat} {log : Log} {A : Activation} {i : Nat} {x y : Expr} {r : Reg} {m : Machine} {σ : Store} {c d : Const}
  {left : Bool}

/-- The code of a shift leaves what folding makes of the value and the count, if the count is a constant or below the width
of the register that it is shifted in. Beyond that, a count in a register is taken modulo this width. The bytes of the code
do the same in every function that it is assembled in. -/
theorem exec_shift {s s' : Session} {v : Expr} (hA : A.frame = frameOf flat log) (hone : flat.OneKind)
    (hi : flat.code[i]? = some (shiftStmt left r x y)) (hb : (shiftStmt left r x y).Built)
    (hint : (shiftStmt left r x y).isIntegral = true) (hfx : x.isEffectFree = true) (hfy : y.isEffectFree = true)
    (hc : x.eval A.isOutside σ = some c) (hd : y.eval A.isOutside σ = some d) (hneg : d.kind.isSigned = true → 0 ≤ d.asInt)
    (hs : Gives A.frame (select (shiftStmt left r x y) true) s v s') (hpeak : s'.tempPeak ≤ A.limit)
    (hm : Represents A flat (i + 1) σ m) :
    ∃ u, Const.binary (.arith (shiftArith left)) c (if y.isConst then d else .uint8 (takenCount c.kind d.asNat)) = .ok u ∧
      (y.isConst = true ∨ d.asNat < (if c.kind.size = 8 then 64 else 32) →
        Const.binary (.arith (shiftArith left)) c d = .ok u) ∧
      ∃ code, s'.items.toList = s.items.toList ++ code.map .instr ∧
        ∃ m', exec code (.at m) = .at m' ∧ RunsAssembled code m m' ∧ Represents A flat (i + 1) (σ.set (.reg r) u) m' ∧
          ∀ iv ∈ flat.intervals, iv.covers (i + 1) = true → .soft iv.id ≠ r.id →
            ∀ q, A.frame.resolve iv.reg = .ok q → Keeps (m.cells q)ᶜ m m' := by
  have hneg : (d.kind.isSigned && decide (d.asInt < 0)) = false := by
    simpa using hneg
  have hfree : (Expr.binary (.arith (shiftArith left)) r.kind x y).isEffectFree = true := by
    simp [Expr.isEffectFree, hfx, hfy, BinaryOp.hasSideEffects, BinaryOp.isAssign, BinaryOp.isJump]
  have hassign : Assigns (shiftStmt left r x y) r (.binary (.arith (shiftArith left)) r.kind x y) := .plain _ _ _
  have hx := hassign.isAssignment hA hone hi hb hint hfree
  obtain ⟨code, hgrown⟩ := (steady_assignment hassign hx).grown hs
  refine ⟨_, binary_shifted hneg y.isConst, ?_, code, hgrown.items, ?_⟩
  · rintro (hlit | hlt)
    · rw [hlit]
      exact binary_shifted hneg true
    · rw [binary_shift hneg, shifted]
      split
      · rfl
      · rw [takenCount, Nat.mod_eq_of_lt hlt]
  obtain ⟨hrk, ha, hpx, hpy⟩ := plain_arith_iff hx.plain
  have hck : c.kind = r.kind := (hpx.eval_kind hc).1.trans hrk.symm
  obtain ⟨hsc, iv, hr⟩ := hx.live
  obtain ⟨q, hq⟩ := resolve_of_spans hA hr
  obtain ⟨T, hsite⟩ := exists_site hA hr hsc hq
  have hdoes : Does A (statement (shiftStmt left r x y)) s.mark m fun _ _ m' =>
      Keeps (A.free s.mark ∪ T) m m' ∧ m'.Holds (shifted left c d y.isConst) q := by
    have hshow := hm.shows hA
    have hplain : Plain A.frame (.binary (.arith (shiftArith left)) x.kind x y) := hrk ▸ hx.plain
    have := (hplain.tidy A.regs_eq).into
    have hqk : q.kind = x.kind := ((placed_of_interval hA hr).kind hq).trans hrk
    rw [shiftStmt, statement_plain, hrk]
    refine .bind (.resolve fun q' hq' => ?_)
    cases hq.symm.trans hq'
    refine .bind (does_shiftNode ha hpx hpy (hsite.sink hA hr hq) (hsite.dest s.mark m hm.sp) hshow hqk
      (fun r hr => hx.covers r (List.mem_append_left _ hr)) (fun r hr => hx.covers r (List.mem_append_right _ hr)) ?_ hc hd
      hneg fun _ m' hk hh => .pure ⟨hk, hh⟩)
    rintro _ v ⟨⟩ ⟨⟩
    exact hshow.regs hx.live hq
  obtain ⟨m', hexec, hk, hh⟩ := hdoes.run hs rfl hpeak hgrown
  have hencodes : ∀ e ∈ code, Encodes e :=
    (legal_statement (hA ▸ isNative_frameOf flat log) hb.wellKinded hint hs).1.encodes hgrown.items
  refine ⟨m', hexec, runsAssembled_of_exec hencodes hexec, ?_, ?_⟩
  · exact hm.update hA hr hq hsite hk hh hck (Const.canonical_ofBits _ _ _)
  intro jv hjv hp hne q' hq'
  have hj := spans_reg hjv hp
  have hid : jv.id ≠ iv.id := fun he => hne (by rw [hr.id, he])
  refine hk.mono ?_
  rw [Set.subset_compl_iff_disjoint_left, Set.disjoint_union_right]
  exact ⟨(placed_of_interval hA hj).stable hq' hm.sp, hsite.apart hj hid hq' hm.sp⟩

/-- A shift of a register by another one. -/
def shifting (left : Bool) (k : Kind) : Flat where
  func := Func.empty "shift" ⟨[k, .uint8], []⟩
  code := #[shiftStmt left (Func.softReg 0 k) (.reg (Func.softReg 0 k)) (.reg (Func.softReg 1 .uint8))]

/-- Its code: the count goes to `cl`. -/
def shiftingCode (left : Bool) (k : Kind) : List Expr :=
  [.binary .assign .uint8 (fixed .uint8 rcx) (fixed .uint8 (gpr 7)),
    .binary (.compound (shiftArith left)) k (fixed k (gpr 6)) (fixed .uint8 rcx)]

/-- The value and the count of a shift in their registers. -/
def shiftingMachine (a n : Word) : Machine :=
  ⟨fun g => if g = gpr 6 then a else if g = gpr 7 then n else if g = rsp then 0x1000 else 0, fun _ => 0, none⟩

theorem allocate_shifting : (scan.allocate (shifting false .int16) #[]).1 =
    ⟨[(256, .reg (gpr 6)), (257, .reg (gpr 7))], 0⟩ := by
  cbv

theorem intervals_shifting : (shifting false .int16).intervals = [⟨256, .int16, 0, 1⟩, ⟨257, .uint8, 0, 1⟩] := by cbv

theorem oneKind_shifting : (shifting false .int16).OneKind := .of_all (by cbv)

/-- Twenty places are more than a number of two bytes has, and still a count that is taken whole: only the sign is left. -/
theorem exec_shift_int16 :
    let A : Activation := ⟨frameOf (shifting false .int16) #[], 0x1000, 0, rfl, by simp [frameOf, allocate_shifting]⟩
    let r : Reg := Func.softReg 0 .int16
    let n : Reg := Func.softReg 1 .uint8
    let σ : Store := ⟨fun id => if id = .soft 256 then (-5, 0) else if id = .soft 257 then (20, 0) else 0, fun _ => 0⟩
    let m := shiftingMachine (-5) 20
    let s' : Session := { labels := {}, items := ((shiftingCode false .int16).map .instr).toArray }
    Represents A (shifting false .int16) 1 σ m ∧
      (∃ v, Gives A.frame (select (shiftStmt false r (.reg r) (.reg n)) true) { labels := {} } v s') ∧
      ∃ u, Const.binary (.arith .shr) ⟨.int16, -5, 0⟩ ⟨.uint8, 20, 0⟩ = .ok u ∧ u = ⟨.int16, -1, 0⟩ ∧
        ∃ code, s'.items.toList = [] ++ code.map .instr ∧
          ∃ m', exec code (.at m) = .at m' ∧ Represents A (shifting false .int16) 1 (σ.set (.reg r) u) m' ∧
            ∃ bytes, (∃ log, assemble ⟨.amd64, "shift", {}, 0, code.map .instr⟩ #[] = (.ok (bytes, []), log)) ∧
              bytes = [0x40, 0x88, 0xF9, 0x66, 0xD3, 0xFE] ∧ Reaches bytes (0, m) (6, m') := by
  intro A r n σ m s'
  have hrep : Represents A (shifting false .int16) 1 σ m := by
    refine ⟨rfl, ?_, fun _ _ => rfl⟩
    rw [intervals_shifting]
    intro iv hiv _ _ q hq
    rcases List.mem_pair.1 hiv with rfl | rfl
    · have hres : A.frame.resolve r = .ok (fixed .int16 (gpr 6)) := by cbv
      cases hres.symm.trans hq
      exact .reg rfl (by decide) (by cbv)
    · have hres : A.frame.resolve n = .ok (fixed .uint8 (gpr 7)) := by cbv
      cases hres.symm.trans hq
      exact .reg rfl (by decide) rfl
  have hx : (Expr.binary (.arith .shr) .int16 (.reg r) (.reg n)).Built := .binary (.arith .shr) (.reg r) (.reg n) rfl
  have hbuilt : (shiftStmt false r (.reg r) (.reg n)).Built := .binary .assign (.reg r) hx rfl
  have hgives : Gives A.frame (select (shiftStmt false r (.reg r) (.reg n)) true) { labels := {} }
      (fixed .int16 (gpr 6)) s' :=
    ⟨#[], ((shiftingCode false .int16).map fun e => .selected (.instr e)).toArray, by cbv⟩
  obtain ⟨u, -, hfold, code, hitems, m', hexec, hruns, hafter, -⟩ :=
    exec_shift (c := ⟨.int16, -5, 0⟩) (d := ⟨.uint8, 20, 0⟩) (i := 0)
    (rfl : A.frame = frameOf (shifting false .int16) #[]) oneKind_shifting rfl hbuilt rfl rfl rfl (by cbv) (by cbv)
      (by decide)
    hgives le_rfl hrep
  have hu := hfold (.inr (by decide))
  obtain rfl : shiftingCode false .int16 = code := List.map_injective_iff.2 (fun _ _ => Item.instr.inj) hitems
  have hbytes : ∃ log, assemble ⟨.amd64, "shift", {}, 0, (shiftingCode false .int16).map .instr⟩ #[] =
      (.ok ([0x40, 0x88, 0xF9, 0x66, 0xD3, 0xFE], []), log) := ⟨_, by cbv⟩
  obtain ⟨log, hlog⟩ := hbytes
  have hreach := @hruns _ [] [] _ _ _ _ (by simp) hlog (by decide)
  exact ⟨hrep, ⟨_, hgives⟩, u, hu, Except.ok.inj (hu.symm.trans rfl), _, hitems, m', hexec, hafter, _, ⟨log, hlog⟩, rfl,
    hreach⟩

/-- One, shifted by the width of a register, stays one if the count is computed, though folding and the code of the same
constant count leave zero. -/
theorem exec_shift_wraps :
    let r : Reg := Func.softReg 0 .int64
    let f := frameOf (shifting true .int64) #[]
    let m := shiftingMachine 1 64
    let zeroed : List Expr := [.binary .assign .int64 (fixed .int64 (gpr 6)) (.const ⟨.int64, 0, 0⟩)]
    Const.binary (.arith .shl) ⟨.int64, 1, 0⟩ ⟨.uint8, 64, 0⟩ = .ok ⟨.int64, 0, 0⟩ ∧
      (∃ v, Gives f (select (shiftStmt true r (.reg r) (.const ⟨.uint8, 64, 0⟩)) true) { labels := {} } v
        { labels := {}, items := (zeroed.map .instr).toArray }) ∧
      (∃ m', exec zeroed (.at m) = .at m' ∧ m'.regs (gpr 6) = 0) ∧
      (∃ v, Gives f (select (shiftStmt true r (.reg r) (.reg (Func.softReg 1 .uint8))) true) { labels := {} } v
        { labels := {}, items := ((shiftingCode true .int64).map .instr).toArray }) ∧
      ((shiftingCode true .int64).forM instruction).run [] =
        (.ok (), ([0x40, 0x88, 0xF9, 0x48, 0xD3, 0xE6] : List Byte).map .byte) ∧
      ∃ m', exec (shiftingCode true .int64) (.at m) = .at m' ∧ m'.regs (gpr 6) = 1 := by
  intro r f m zeroed
  refine ⟨rfl, ?_, ⟨_, rfl, by decide⟩, ?_, by cbv, ⟨_, rfl, by decide⟩⟩
  · exact ⟨_, #[], (zeroed.map fun e => .selected (.instr e)).toArray, by cbv⟩
  · exact ⟨_, #[], ((shiftingCode true .int64).map fun e => .selected (.instr e)).toArray, by cbv⟩

end Statements

end JitBackend.Amd64
