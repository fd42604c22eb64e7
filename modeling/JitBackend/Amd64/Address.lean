import JitBackend.Amd64.Move

/-!
# Addresses as sums of terms

An address is collected term by term into `base + index * scale + disp`. A term goes into a free slot; when both slots
are taken, one instruction adds them up in a scratch register first, which leaves the index slot free. A displacement
that does not fit four bytes becomes one more term in a register.
-/

namespace JitBackend.Amd64

open Lower

/-- The terms collected so far. For a four-byte result the displacement counts modulo its width. -/
structure Terms where
  base : Option HardReg := none
  index : Option (HardReg × Scale) := none
  disp : BitVec 64 := 0
  narrow : Bool := false

/-- Whether a displacement fits four bytes. -/
def fitsDisp (d : BitVec 64) : Bool := (d.setWidth 32).signExtend 64 == d

/-- The address of the terms. -/
def Terms.mode (t : Terms) : Except Error AddrMode :=
  if t.narrow || fitsDisp t.disp then
    .ok ⟨t.base, t.index.map (·.1), (t.index.map (·.2)).getD .one, t.disp.setWidth 32⟩
  else .error (.fieldOverflow .addressDisplacement t.disp.toInt)

/-! ## Constants in address arithmetic -/

/-- The factor of an index register. -/
def directScale (c : Const) : Option Scale := Scale.ofInt? c.asInt

/-- The factor `s` for which `c = 1 + s`: the register stands in both slots. -/
def doubledScale (c : Const) : Option Scale :=
  match c.asInt with
  | 3 => some .two
  | 5 => some .four
  | 9 => some .eight
  | _ => none

/-- The factor of a left shift. -/
def shiftScale (c : Const) : Option Scale :=
  match c.asInt with
  | 0 => some .one
  | 1 => some .two
  | 2 => some .four
  | 3 => some .eight
  | _ => none

/-- A constant as a displacement; narrow kinds are sign-extended from four bytes. -/
def displacement (c : Const) : BitVec 64 :=
  if c.kind.size ≤ 4 then (BitVec.ofNat 32 c.asNat).signExtend 64 else .ofInt 64 c.asInt

/-- Whether every constant summed into an address fits a displacement. -/
def displacementsFit : Expr → Bool
  | .const c => c.fitsInt32
  | .binary (.arith .add) _ x y | .binary (.arith .sub) _ x y => displacementsFit x && displacementsFit y
  | _ => true

/-! ## Slots -/

/-- The scratch register that takes the sum of base and index, one of their own if possible. -/
def Terms.foldTarget (t : Terms) : Lower HardReg := do
  let pool := (← read).regs.scratch
  match (t.base.filter pool.contains).or ((t.index.map (·.1)).filter pool.contains) with
  | some r => return r
  | none =>
    match (← Lower.scratch .ptr (.note "address")).id with
    | .hard r => return r
    | .soft id => throw (.unallocatedRegister id)

/-- Adds up base and index in a scratch register and leaves the index slot free. -/
def Terms.fold (t : Terms) : Lower Terms := do
  let mode ← ({ base := t.base, index := t.index } : Terms).mode
  let r ← t.foldTarget
  emitAssign .ptr (fixed .ptr r) (.unary .lea .ptr (.memAt .ptr false mode))
  ((t.index.map (·.1)).filter (· ≠ r)).forM freeScratch
  return { t with base := some r, index := none }

/-- Frees a slot if both are taken. -/
def Terms.makeRoom (t : Terms) : Lower Terms := if t.base.isSome && t.index.isSome then t.fold else pure t

/-- Puts a scaled register into a free slot. -/
def Terms.place (t : Terms) (r : HardReg) (s : Scale) : Lower Terms :=
  if s = .one ∧ t.base = none then pure { t with base := some r }
  else if t.index = none then pure { t with index := some (r, s) }
  else return { ← t.fold with index := some (r, s) }

/-- The hard register that holds an operand. -/
def toHard (v : Expr) : Lower HardReg := do
  match (← toRegister v).id with
  | .hard r => return r
  | .soft id => throw (.unallocatedRegister id)

/-- The address of the terms, a wide displacement put into a register first. -/
def Terms.finish (t : Terms) : Lower AddrMode := do
  if t.narrow || fitsDisp t.disp then t.mode
  else
    let wide := Expr.const (Const.ofBits .int64 t.disp 0)
    let t ← ({ t with disp := 0 } : Terms).makeRoom
    let t ← t.place (← toHard wide) .one
    t.mode

/-- Computes an address into a register. -/
def loadAddress (dst : Expr) (k : Kind) (a : AddrMode) : Lower Unit :=
  match a.base, a.index, a.disp == 0 with
  | some base, none, true => mov dst (fixed k base)
  | _, _, _ => emitAssign k dst (.unary .lea k (.memAt k false a))

/-! ## Shapes -/

/-- How a binary node takes part in a sum: with both operands, with a constant taken off, or with its left operand
scaled, for `doubled s` by `1 + s`. -/
inductive Shape
  | sum | difference (c : Const) | scaled (s : Scale) | doubled (s : Scale)

/-- The shape of a node when `t` is collected already. A node without one is a term in a register. -/
def Shape.of? (t : Terms) (op : ArithOp) (y : Expr) : Option Shape :=
  match op, y with
  | .add, _ => some sum
  | .sub, .const c => some (difference c)
  | .mul, .const c =>
    if t.index.isSome then none
    else
      match directScale c with
      | some s => some (scaled s)
      | none => if t.base.isSome then none else (doubledScale c).map doubled
  | .shl, .const c => if t.index.isSome then none else (shiftScale c).map scaled
  | _, _ => none

/-- Whether one address computation can give the value of a node. -/
def isAddressLike (k : Kind) (op : ArithOp) (x y : Expr) : Bool :=
  (k.size == 4 || k.size == 8) &&
  (match op, y with
    | .add, y => !x.isMem && !y.isMem
    | .sub, .const _ => true
    | .mul, .const c => ((directScale c).or (doubledScale c)).isSome
    | .shl, .const c => (shiftScale c).isSome
    | _, _ => false) &&
  displacementsFit (.binary (.arith op) k x y)

/-- Casts between eight-byte integers and pointers keep the bits. -/
def keepsWord (k g : Kind) : Bool := k.isWord && k.size == 8 && g.isWord && g.size == 8

end JitBackend.Amd64
