import JitBackend.Amd64.Address

/-!
# Instruction selection for values

`value` makes a legal operand of an expression, `into` computes an expression into a place, and `address` makes an
address of it. They call each other on the same expression only in the order `address`, `value`, `into`, and otherwise
on smaller ones.

`x = x op y` becomes one instruction, sums of registers and constants become one address computation, and everything
else is computed into the destination, or into a temporary if the right operand still reads the destination or
overwrites it as a register with a fixed job. What has no selection (arithmetic on floats, for instance) is passed
through with a warning; the encoder refuses it.
-/

namespace JitBackend.Amd64

open Lower

/-- Moves a result back along the temporaries that were taken to compute it, the last one first. -/
def unwind (dst : Expr) : List (Mark × Expr) → Lower Unit
  | [] => pure ()
  | (m, t) :: rest => do
    unwind t rest
    mov dst t
    modify (Session.release m)

/-- Computes a logical operation into a place: the left operand, then the right one unless the left one decides. -/
def logicAt (op : LogicOp) (p : Expr) (left right : Expr → Lower Unit) : Lower Unit := do
  let done ← newLabel
  left p
  emit (.binary .cmp .bool p (.const (Const.bool false)))
  jcc (match op with | .and => .eq | .or => .ne) done
  right p
  emit (.label done)

/-- Computes a logical operation with right operand `y` into `dst`, by way of a temporary that holds the left operand
if `dst` cannot while `y` is evaluated. -/
def logicInto (op : LogicOp) (y dst : Expr) (left right : Expr → Lower Unit) : Lower Unit := do
  if ← hazard (← read) y dst then releasing do
    let chain ← change fun f => refuge f y dst
    logicAt op ((chain.getLast?.map (·.2)).getD dst) left right
    unwind dst chain
  else logicAt op dst left right

mutual
/-- A legal operand that holds the value of `e`. -/
def value (e : Expr) : Lower Expr :=
  match e with
  | .const _ | .label _ | .memAt .. => pure e
  | .reg r => resolve r
  | .mem k ro a => return .memAt k ro (← address a)
  | .call .. => callValue e
  | e => do
    let t ← temp e.kind (.value e)
    into t e none
    return t
termination_by (sizeOf e, 1)

/-- Computes `e` into the place `dst`; `origin` is the unresolved form of `dst`. -/
def into (dst : Expr) (e : Expr) (origin : Option Expr) : Lower Unit :=
  match e with
  | .const c => storeConst dst c
  | .label _ | .memAt .. => releasing (mov dst e)
  | .reg r => releasing do mov dst (← resolve r)
  | .mem k ro a => releasing do mov dst (.memAt k ro (← address a))
  | .call .. => do
    let v ← emitCall e
    if v.kind.isVoid then pure () else mov dst v
  | .ret _ => passThrough dst e
  | .unary op k x =>
    match op with
    | .neg | .inv =>
      if k.isWord then do
        into dst x none
        emitAssign k dst (.unary op k dst)
      else passThrough dst e
    | .lnot => do
      into dst x none
      emit (.binary (.compound .xor) .bool dst (.const (Const.bool true)))
    | .cast => if x.kind.isScalar && k.isScalar then releasing (castInto dst x.kind k (value x)) else passThrough dst e
    | _ => passThrough dst e
  | .binary (.compare op) _ x y =>
    if x.kind.isScalar then do
      let c ← flags op x y
      emit (.unary (.setcc c) .bool dst)
    else passThrough dst e
  | .binary (.logic op) _ x y => logicInto op y dst (fun p => into p x none) (fun p => into p y none)
  | .binary .assign _ x y => do mov dst (← assign x y)
  | .binary (.compound op) _ x y => do mov dst (← compound op x y)
  | .binary (.arith op) k x y => if k.isWord then arith dst k op x y origin else passThrough dst e
  | .binary .jumpIf .. | .binary .cmp .. | .binary .test .. => passThrough dst e
termination_by (sizeOf e, 0)

/-- Computes `x op y`, of a word kind `k`, into the place `dst`. -/
def arith (dst : Expr) (k : Kind) (op : ArithOp) (x y : Expr) (origin : Option Expr) : Lower Unit := do
  if ← isPlace (← read) x dst origin then opAssign dst op (value y)
  else if ← (if op.isCommutative then do isPlace (← read) y dst origin else pure false : Lower Bool) then
    opAssign dst op (value x)
  else if ← (if dst.isReg && isAddressLike k op x y then releasing (leaInto dst k op x y) else pure false) then pure ()
  else if ← hazard (← read) y dst then releasing do
    let t ← temp k (.note "operand")
    into t x none
    opAssign t op (value y)
    mov dst t
  else
    into dst x none
    opAssign dst op (value y)
termination_by (sizeOf x + sizeOf y + 1, 3)

/-- Computes a sum into a register by one address computation; false if the node is no sum. -/
def leaInto (dst : Expr) (k : Kind) (op : ArithOp) (x y : Expr) : Lower Bool := do
  match Shape.of? {} op y with
  | none => return false
  | some shape =>
    let t ← addNode { narrow := k.size == 4 } shape x y
    loadAddress dst k (← t.finish)
    return true
termination_by (sizeOf x + sizeOf y + 1, 2)

/-- Emits a comparison and gives the condition that holds when it is true. -/
def flags (op : CompareOp) (x y : Expr) : Lower Cond :=
  let cond := Cond.ofCompare op x.kind
  releasing <|
    if op.isEquality && isZeroConst y then
      match x with
      | .binary (.arith .and) k a m => do
        testBits k (value a) (value m)
        return cond
      | x => do
        testZero x.kind (← value x)
        return cond
    else compareFlags x.kind cond (value x) (value y)
termination_by (sizeOf x + sizeOf y + 1, 2)

/-- The resolved form of an assignment's target. -/
def resolveTarget (x : Expr) : Lower Expr :=
  match x with
  | .reg r => resolve r
  | .mem k ro a => return .memAt k ro (← address a)
  | .memAt .. => pure x
  | x => throw (.notAssignable x)
termination_by (sizeOf x, 0)

/-- `x = y`; gives the resolved target. -/
def assign (x y : Expr) : Lower Expr := do
  let d ← resolveTarget x
  into d y (some x)
  return d
termination_by (sizeOf x + sizeOf y + 1, 2)

/-- `x op= y`; gives the resolved target. -/
def compound (op : ArithOp) (x y : Expr) : Lower Expr := do
  let d ← resolveTarget x
  opAssign d op (value y)
  return d
termination_by (sizeOf x + sizeOf y + 1, 2)

/-- Adds an expression to the terms of an address. -/
def addTerm (t : Terms) (e : Expr) : Lower Terms :=
  match e with
  | .const c => pure { t with disp := t.disp + displacement c }
  | .unary .cast k x => if keepsWord k x.kind then addTerm t x else addOpaque t (.unary .cast k x)
  | .binary (.arith op) k x y =>
    match Shape.of? t op y with
    | some shape => addNode t shape x y
    | none => addOpaque t (.binary (.arith op) k x y)
  | e => addOpaque t e
termination_by (sizeOf e, 3)

/-- Adds an expression as one term in a register. -/
def addOpaque (t : Terms) (e : Expr) : Lower Terms := do
  let t ← t.makeRoom
  t.place (← toHard (← value e)) .one
termination_by (sizeOf e, 2)

/-- Adds a node of a known shape to the terms of an address. -/
def addNode (t : Terms) (shape : Shape) (x y : Expr) : Lower Terms := do
  match shape with
  | .sum => addTerm (← addTerm t x) y
  | .difference c =>
    let t ← addTerm t x
    return { t with disp := t.disp - displacement c }
  | .scaled s =>
    let t ← t.makeRoom
    t.place (← toHard (← value x)) s
  | .doubled s =>
    let r ← toHard (← value x)
    return { t with base := some r, index := some (r, s) }
termination_by (sizeOf x + sizeOf y + 1, 1)

/-- The address that an expression computes. -/
def address (e : Expr) : Lower AddrMode := do
  let t ← addTerm { narrow := e.kind.size == 4 } e
  t.finish
termination_by (sizeOf e, 4)
end

end JitBackend.Amd64
