import JitBackend.Amd64.Hazard

/-!
# Instructions on operands

The instructions for moves, casts, arithmetic and comparisons between operands that are legal already: registers,
resolved memory operands, constants and labels. An instruction takes at most one memory operand and an immediate of at
most four bytes, so others go through a scratch register first.

Where an operand is still to be computed, it is given as the computation, which runs where its value is needed.
-/

namespace JitBackend.Amd64

open Lower

/-- No value. -/
def nothing : Expr := .const (Const.zero .void)

def warn (e : Expr) : Lower Unit := note (.passedThrough e)

def emitAssign (k : Kind) (dst src : Expr) : Lower Unit := emit (.binary .assign k dst src)

/-! ## Moves -/

def storeConst (dst : Expr) (c : Const) : Lower Unit := releasing do
  if dst.isMem && !c.fitsImmediate then
    let t := Expr.reg (← Lower.scratch dst.kind (.value (.const c)))
    emitAssign dst.kind t (.const c)
    emitAssign dst.kind dst t
  else emitAssign dst.kind dst (.const c)

/-- Moves an operand; nothing is to be done if it is there already. -/
def mov (dst src : Expr) : Lower Unit :=
  if samePlace dst src then pure ()
  else releasing do
    match src with
    | .const c => storeConst dst c
    | src =>
      if dst.isMem && src.isMem then
        let t := Expr.reg (← Lower.scratch dst.kind (.note "memory move"))
        emitAssign dst.kind t src
        emitAssign dst.kind dst t
      else if dst.isMem && src.isLabel then
        let t := Expr.reg (← Lower.scratch .ptr (.note "label address"))
        emitAssign .ptr t src
        emitAssign dst.kind dst t
      else emitAssign dst.kind dst src

/-- Stores an expression that has no selection as it is. -/
def passThrough (dst e : Expr) : Lower Unit := do
  warn e
  emitAssign dst.kind dst e

/-- A register that holds an operand. -/
def toRegister (v : Expr) : Lower Reg :=
  match v with
  | .reg r => pure r
  | v => do
    let t ← Lower.scratch (if v.kind.isVoid then .ptr else v.kind) (.value v)
    mov (.reg t) v
    return t

/-- Whether `src` can stand against `dst` in an instruction of two operands. -/
def isLegalSource (dst src : Expr) : Bool :=
  match src with
  | .const c => c.fitsImmediate
  | .label _ => false
  | src => !(src.isMem && dst.isMem)

/-- An operand that can stand against `dst`. -/
def legalSource (dst src : Expr) : Lower Expr :=
  if isLegalSource dst src then pure src else return .reg (← toRegister src)

/-! ## Casts -/

/-- An operand viewed at a kind that is not wider. -/
def atKind (k : Kind) : Expr → Expr
  | .reg r => .reg { r with kind := k }
  | .memAt _ ro m => .memAt k ro m
  | e => e

/-- Extends an operand to a wider kind. -/
def widen (dst : Expr) (k : Kind) (src : Expr) : Lower Unit := do
  let src ← if src.isLabel then pure (.reg (← toRegister src)) else pure src
  if dst.isReg then emitAssign k dst (.unary .cast k src)
  else
    let t := Expr.reg (← Lower.scratch k (.note "widening cast"))
    emitAssign k t (.unary .cast k src)
    mov dst t

/-- Converts the value of `x`, which is of kind `g`, to kind `k`. -/
def castInto (dst : Expr) (g k : Kind) (x : Lower Expr) : Lower Unit := do
  match ← x with
  | .const c => storeConst dst (← c.convert k)
  | src => if k.size ≤ g.size then mov dst (atKind k src) else widen dst k src

/-! ## Arithmetic -/

def shiftInto (dst : Expr) (left : Bool) (y : Lower Expr) : Lower Unit := do
  let k := dst.kind
  let op : BinaryOp := .compound (if left then .shl else .shr)
  match ← y with
  | .const c =>
    if c.kind.isSigned && c.asInt < 0 then throw (.negativeShift c.asInt)
    if c.asNat < k.bits then emit (.binary op k dst (.const (Const.uint8 c.asNat)))
    else if !left && k.isSigned then emit (.binary op k dst (.const (Const.uint8 (k.bits - 1))))
    else storeConst dst (Const.zero k)
  | count =>
    mov (fixed count.kind rcx) count
    emit (.binary op k dst (fixed .uint8 rcx))

def divideInto (dst : Expr) (op : ArithOp) (y : Lower Expr) : Lower Unit := do
  let k := dst.kind
  if k.size = 1 then
    let e := Expr.binary (.compound op) k dst (← y)
    warn e
    emit e
  else
    let v ← y
    let divisor ← if v.isReg || v.isMem then pure v else pure (.reg (← toRegister v))
    mov (fixed k rax) dst
    emit (.binary (.compound op) k (fixed k rax) divisor)
    mov dst (fixed k rax)

/-- An operand with the bits of `v` inverted that can stand against `dst`. -/
def inverted (dst v : Expr) : Lower Expr := do
  let k := dst.kind
  match v with
  | .const c => legalSource dst (.const (Const.ofBits k (~~~c.re) 0))
  | v =>
    let t := Expr.reg (← Lower.scratch k (.note "and-not mask"))
    mov t v
    emitAssign k t (.unary .inv k t)
    return t

/-- `dst op= y`. -/
def opAssign (dst : Expr) (op : ArithOp) (y : Lower Expr) : Lower Unit := releasing do
  let k := dst.kind
  match op with
  | .add | .sub | .and | .or | .xor => emit (.binary (.compound op) k dst (← legalSource dst (← y)))
  | .andNot => emit (.binary (.compound .and) k dst (← inverted dst (← y)))
  | .mul =>
    if k.size = 1 then
      let e := Expr.binary (.compound .mul) k dst (← y)
      warn e
      emit e
    else if dst.isMem then
      let t := Expr.reg (← Lower.scratch k (.note "multiply"))
      mov t dst
      releasing do emit (.binary (.compound .mul) k t (← legalSource t (← y)))
      mov dst t
    else emit (.binary (.compound .mul) k dst (← legalSource dst (← y)))
  | .shl => shiftInto dst true y
  | .shr => shiftInto dst false y
  | .quo | .rem => divideInto dst op y

/-! ## Flags -/

def isZeroConst : Expr → Bool
  | .const c => c.isZero
  | _ => false

/-- Compares an operand with zero. -/
def testZero (k : Kind) (v : Expr) : Lower Unit := do
  match v with
  | .reg r => emit (.binary .test k (.reg r) (.reg r))
  | v =>
    let v ← if v.isMem then pure v else pure (.reg (← toRegister v))
    emit (.binary .cmp k v (.const (Const.zero k)))

/-- An operand that can stand on the left in an instruction. -/
def toPlace (v : Expr) : Lower Expr :=
  if v.isConst || v.isLabel then return .reg (← toRegister v) else pure v

def testOperands (k : Kind) (p q : Expr) : Lower Unit := do
  let p ← toPlace p
  if q.isMem && p.isReg then emit (.binary .test k q p)
  else emit (.binary .test k p (← legalSource p q))

/-- Sets the flags by the bits that two operands have in common. -/
def testBits (k : Kind) (x y : Lower Expr) : Lower Unit := do
  let p ← x
  let q ← y
  if p.isConst then testOperands k q p else testOperands k p q

def compareOperands (k : Kind) (a b : Expr) : Lower Unit := do
  let a ← toPlace a
  emit (.binary .cmp k a (← legalSource a b))

/-- Compares two operands; the condition is the one that holds when `cond` holds of them. -/
def compareFlags (k : Kind) (cond : Cond) (x y : Lower Expr) : Lower Cond := do
  let a ← x
  let b ← y
  if a.isConst && !b.isConst then
    compareOperands k b a
    return cond.swapped
  else
    compareOperands k a b
    return cond

def jcc (c : Cond) (l : Label) : Lower Unit := emit (.unary (.jcc c) .void (.label l))

/-! ## Calls -/

/-- Stores the scratch registers in use. -/
def saveScratch : List HardReg → Lower (List (HardReg × Expr))
  | [] => pure []
  | r :: rs => do
    let slot ← Lower.stackTemp .int64 (.note "scratch across call")
    emitAssign .int64 slot (fixed .int64 r)
    return (r, slot) :: (← saveScratch rs)

/-- Emits a call, keeping the scratch registers in use on the stack meanwhile. The result is where it leaves one. -/
def emitCall (e : Expr) : Lower Expr := do
  if !e.children.isEmpty then warn e
  releasing do
    let saved ← saveScratch ((← get).liveScratch (← read))
    emit e
    saved.reverse.forM fun (r, slot) => emitAssign .int64 (fixed .int64 r) slot
  return if e.kind.isVoid then nothing else fixed e.kind rax

/-- A call as an operand. The result is copied, since the next call or division overwrites it. -/
def callValue (e : Expr) : Lower Expr := do
  let v ← emitCall e
  if v.kind.isVoid then return v
  let t ← Lower.temp v.kind (.note "call result")
  mov t v
  return t

end JitBackend.Amd64
