import JitBackend.Proofs.Amd64.Assignment
import JitBackend.Proofs.Amd64.Failures

/-!
# Synthesis of addresses

The address that selection makes of an expression of four or eight bytes has the value of the expression, once the code
before it has run (`exec_address`): a sum of terms is never rearranged into another one, whatever was folded on the way.
Selection does not fail because the address has no form (`address_fits`).
-/

namespace JitBackend.Amd64

open Lower

/-- The registers of a list, and the memory of the program. -/
def viewOver (A : Activation) (rs : List Reg) (h : ∀ r ∈ rs, r.kind.isScalar = true ∧ Placed A.frame r) : View A where
  live r := r ∈ rs
  readable := A.isOutside
  scalar hr := (h _ hr).1
  placed hr := (h _ hr).2
  outside := @A.not_mem_stack_of_isOutside

/-- Synthesis fails for no expression because an address has no form. And the code of an address takes a machine that
shows a store to one where the address is the value of the expression, in its eight or its four low bytes. -/
theorem exec_address (e : Expr) : (∀ f s log err, (address e f s log).1.1 = .error err → err.isAddressOverflow = false) ∧
    ∀ {A : Activation} {σ : Store} {c : Const} {m : Machine} (w : World) {s s' : Session} {mode : AddrMode}, e.Built →
      e.isIntegral = true → e.isEffectFree = true → (e.kind.size = 4 ∨ e.kind.size = 8) →
      ∀ hregs : ∀ r ∈ e.regs, r.kind.isScalar = true ∧ Placed A.frame r, (viewOver A e.regs hregs).Shows σ m →
      e.eval A.isOutside σ = some c → Gives A.frame (address e) s mode s' → s'.tempPeak ≤ A.limit →
      e.run w σ = some (c, σ) ∧ ∃ code, s'.items.toList = s.items.toList ++ code.map .instr ∧
        ∃ m', exec code (.at m) = .at m' ∧ low e.kind.size (m'.address mode) = low e.kind.size c.re := by
  refine ⟨fun f s log err h => address_fits f e s log h, ?_⟩
  intro A σ c m w s s' mode hb hint hfree hn hregs hm hc hs hpeak
  have hplain : Plain A.frame e := plain_of_isIntegral e hb.wellKinded hint hfree fun r hr => (hregs r hr).2
  obtain ⟨hck, -⟩ := hplain.eval_kind hc
  refine ⟨hplain.run_eq w hc, ?_⟩
  obtain ⟨code, hcode⟩ := (steady_address A.regs_eq (hplain.tidy A.regs_eq)).grown hs
  refine ⟨code, hcode.items, ?_⟩
  have hterm := hplain.selects.term (V := viewOver A e.regs hregs) (fun _ hr => hr) hc (by rwa [hck])
  rw [hck] at hterm
  exact (does_synthesis (Q := fun a _ m' => low e.kind.size (m'.address a) = low e.kind.size c.re)
    (hplain.tidy A.regs_eq) hn rfl hterm hm fun _ _ _ _ _ _ haddr => haddr).run hs rfl hpeak hcode

/-- A sum of two multiples, the first one by a factor that takes both slots of an address, and of a constant that does
not fit a displacement. -/
def wideSum : Expr :=
  let s := fun i => Expr.reg (Func.softReg i .int64)
  .binary (.arith .add) .int64 (.binary (.arith .add) .int64 (.binary (.arith .mul) .int64 (s 0) (.const (.int64 9)))
    (.binary (.arith .mul) .int64 (s 1) (.const (.int64 4)))) (.const (.int64 0x100000000))

/-- The code of the address: each multiple, their sum, and the constant in a register. -/
def wideSumCode : List Expr :=
  let load := fun (i : Nat) (m : AddrMode) =>
    Expr.binary .assign .ptr (fixed .ptr (gpr i)) (.unary .lea .ptr (.memAt .ptr false m))
  [load 10 ⟨some (gpr 6), some (gpr 6), .eight, 0⟩,
    .binary .assign .int64 (fixed .int64 (gpr 11)) (.unary .lea .int64 (.memAt .int64 false ⟨none, some (gpr 5), .four, 0⟩)),
    load 10 ⟨some (gpr 10), some (gpr 11), .one, 0⟩,
    .binary .assign .int64 (fixed .int64 (gpr 11)) (.const (.int64 0x100000000))]

theorem built_wideSum : wideSum.Built := by
  have hmul : ∀ i c, Const.Canonical (.int64 c) → (Expr.binary (.arith .mul) .int64 (.reg (Func.softReg i .int64))
      (.const (.int64 c))).Built := fun i c hc =>
    .binary (x := .reg (Func.softReg i .int64)) (y := .const (.int64 c)) (.arith .mul) (.reg _) (.const hc) rfl
  have hsum : (Expr.binary (.arith .add) .int64
      (.binary (.arith .mul) .int64 (.reg (Func.softReg 0 .int64)) (.const (.int64 9)))
      (.binary (.arith .mul) .int64 (.reg (Func.softReg 1 .int64)) (.const (.int64 4)))).Built :=
    .binary (.arith .add) (hmul 0 9 (by decide)) (hmul 1 4 (by decide)) rfl
  exact .binary (y := .const (.int64 0x100000000)) (.arith .add) hsum (.const (by decide)) rfl

theorem exec_address_wideSum :
    let A : Activation := ⟨⟨regFile, ⟨[(256, .reg (gpr 6)), (257, .reg (gpr 5))], 0⟩, false⟩, 0x1000, 0, rfl, by decide⟩
    let σ : Store := ⟨fun id => if id = .soft 256 then (7, 0) else if id = .soft 257 then (3, 0) else 0, fun _ => 0⟩
    let m : Machine := ⟨fun g => if g = gpr 6 then 7 else if g = gpr 5 then 3 else if g = rsp then 0x1000 else 0,
      fun _ => 0, none⟩
    let w : World := ⟨fun _ => 0, fun _ _ _ => none, fun _ _ => .zero .void⟩
    let s' : Session := { labels := {}, items := (wideSumCode.map .instr).toArray, scratchUsed := 2 }
    let mode : AddrMode := ⟨some (gpr 10), some (gpr 11), .one, 0⟩
    wideSum.eval A.isOutside σ = some (.int64 4294967371) ∧ Gives A.frame (address wideSum) { labels := {} } mode s' ∧
      (∃ hregs, (viewOver A wideSum.regs hregs).Shows σ m) ∧ s'.tempPeak ≤ A.limit ∧
      wideSum.run w σ = some (.int64 4294967371, σ) ∧ ∃ code, s'.items.toList = [] ++ code.map .instr ∧
        ∃ m', exec code (.at m) = .at m' ∧ low 8 (m'.address mode) = low 8 4294967371 := by
  intro A σ m w s' mode
  have hval : wideSum.eval A.isOutside σ = some (.int64 4294967371) := by cbv
  have hgives : Gives A.frame (address wideSum) { labels := {} } mode s' :=
    ⟨#[], (wideSumCode.map fun e => .selected (.instr e)).toArray, by cbv⟩
  have hregs : ∀ r ∈ wideSum.regs, r = Func.softReg 0 .int64 ∨ r = Func.softReg 1 .int64 := by
    intro r hr
    simpa [wideSum, Expr.regs] using hr
  have hplaced : ∀ r ∈ wideSum.regs, r.kind.isScalar = true ∧ Placed A.frame r := by
    intro r hr
    rcases hregs r hr with rfl | rfl
    · exact ⟨rfl, .reg (gpr 6) (by decide) (by cbv)⟩
    · exact ⟨rfl, .reg (gpr 5) (by decide) (by cbv)⟩
  have hshows : (viewOver A wideSum.regs hplaced).Shows σ m := by
    refine ⟨rfl, fun {r q} hr hq => ?_, fun _ => rfl⟩
    rcases hregs r hr with rfl | rfl
    · have hres : A.frame.resolve (Func.softReg 0 .int64) = .ok (fixed .int64 (gpr 6)) := by cbv
      cases hres.symm.trans hq
      exact .reg rfl (by decide) rfl
    · have hres : A.frame.resolve (Func.softReg 1 .int64) = .ok (fixed .int64 (gpr 5)) := by cbv
      cases hres.symm.trans hq
      exact .reg rfl (by decide) rfl
  exact ⟨hval, hgives, ⟨hplaced, hshows⟩, le_rfl,
    (exec_address wideSum).2 w built_wideSum rfl rfl (.inr rfl) hplaced hshows hval hgives le_rfl⟩

end JitBackend.Amd64
