import JitBackend.Amd64.Statement

/-!
# The equations of selection

The functions of selection call each other, several times on the expression that they were given: a value is computed into
a temporary, a term that does not fit an address becomes a value again, a product in memory is one in a register, a logical
operation goes to another temporary as long as the right operand is in its way. `unroll` says once what each function does
when `S` answers the calls that it makes, without an order in which these calls get smaller. `selection` are the functions
that run.
-/

namespace JitBackend.Amd64

open Lower

/-- A call of a function of selection, by what it returns. -/
inductive Call : Type → Type
  | compile (e : Expr) (toplevel : Bool) : Call Expr
  | value (e : Expr) : Call Expr
  | registerOf (e : Expr) : Call Reg
  | into (dst e : Expr) (origin : Option Expr) : Call Unit
  | unaryInto (dst : Expr) (op : UnaryOp) (k : Kind) (x : Expr) : Call Unit
  | castInto (dst : Expr) (k : Kind) (x : Expr) : Call Unit
  | binaryInto (dst : Expr) (op : BinaryOp) (k : Kind) (x y : Expr) (origin : Option Expr) : Call Unit
  | opAssign (dst : Expr) (op : ArithOp) (y : Expr) : Call Unit
  | logicalInto (dst : Expr) (op : LogicOp) (x y : Expr) : Call Unit
  | jumpIf (l : Label) (cond : Expr) (sense : Bool) : Call Unit
  | synthesize (e : Expr) : Call AddrMode
  | addTerm (t : Terms) (e : Expr) : Call Terms

/-- Answers to all calls. -/
abbrev Solver := ∀ α, Call α → Lower α

/-! ## Parts that several functions share -/

namespace Solver

variable (S : Solver)

/-- The hard register that holds an expression. -/
def hard (e : Expr) : Lower HardReg := do
  match (← S _ (.registerOf e)).id with
  | .hard r => return r
  | .soft id => throw (.unallocatedRegister id)

/-- The resolved form of an assignment's target. -/
def target (x : Expr) : Lower Expr :=
  match x with
  | .reg r => resolve r
  | .mem k ro a => return .memAt k ro (← S _ (.synthesize a))
  | .memAt .. => pure x
  | x => throw (.notAssignable x)

/-- An operand that can stand against `dst`. -/
def legal (dst src : Expr) : Lower Expr :=
  if isLegalSource dst src then pure src else return .reg (← S _ (.registerOf src))

/-- An operand that can stand on the left in an instruction. -/
def left (v : Expr) : Lower Expr := if v.isConst || v.isLabel then return .reg (← S _ (.registerOf v)) else pure v

/-- Extends an operand to a wider kind. -/
def widen (dst : Expr) (k : Kind) (src : Expr) : Lower Unit := do
  let src ← if src.isLabel then pure (.reg (← S _ (.registerOf src))) else pure src
  if dst.isReg then emitAssign k dst (.unary .cast k src)
  else
    let t := Expr.reg (← Lower.scratch k (.note "widening cast"))
    emitAssign k t (.unary .cast k src)
    mov dst t

def divide (dst : Expr) (op : ArithOp) (y : Expr) : Lower Unit := do
  let k := dst.kind
  if k.size = 1 then
    let e := Expr.binary (.compound op) k dst (← S _ (.value y))
    warn e
    emit e
  else
    let v ← S _ (.value y)
    let divisor ← if v.isReg || v.isMem then pure v else pure (.reg (← S _ (.registerOf v)))
    mov (fixed k rax) dst
    emit (.binary (.compound op) k (fixed k rax) divisor)
    mov dst (fixed k rax)

/-- An operand with the bits of `v` inverted that can stand against `dst`. -/
def mask (dst v : Expr) : Lower Expr := do
  let k := dst.kind
  match v with
  | .const c => S.legal dst (← S _ (.value (.const (Const.ofBits k (~~~c.re) 0))))
  | v =>
    let t := Expr.reg (← Lower.scratch k (.note "and-not mask"))
    mov t v
    emitAssign k t (.unary .inv k t)
    return t

def testZero (k : Kind) (v : Expr) : Lower Unit := do
  match v with
  | .reg r => emit (.binary .test k (.reg r) (.reg r))
  | v =>
    let v ← if v.isMem then pure v else pure (.reg (← S _ (.registerOf v)))
    emit (.binary .cmp k v (.const (Const.zero k)))

def testOperands (k : Kind) (p q : Expr) : Lower Unit := do
  let p ← S.left p
  if q.isMem && p.isReg then emit (.binary .test k q p)
  else emit (.binary .test k p (← S.legal p q))

def testBits (k : Kind) (x y : Expr) : Lower Unit := do
  let p ← S _ (.value x)
  let q ← S _ (.value y)
  if p.isConst then S.testOperands k q p else S.testOperands k p q

def compareOperands (k : Kind) (a b : Expr) : Lower Unit := do
  let a ← S.left a
  emit (.binary .cmp k a (← S.legal a b))

def compareFlags (k : Kind) (cond : Cond) (x y : Expr) : Lower Cond := do
  let a ← S _ (.value x)
  let b ← S _ (.value y)
  if a.isConst && !b.isConst then
    S.compareOperands k b a
    return cond.swapped
  else
    S.compareOperands k a b
    return cond

/-- Emits a comparison and gives the condition that holds when it is true. -/
def flags (op : CompareOp) (x y : Expr) : Lower Cond :=
  let cond := Cond.ofCompare op x.kind
  releasing <|
    if op.isEquality && isZeroConst y then
      match x with
      | .binary (.arith .and) k a m => do
        S.testBits k a m
        return cond
      | x => do
        S.testZero x.kind (← S _ (.value x))
        return cond
    else S.compareFlags x.kind cond x y

/-- Computes a sum into a register by one address computation; false if there is none. -/
def tryLea (dst : Expr) (k : Kind) (op : ArithOp) (x y : Expr) : Lower Bool := do
  if isAddressLike k op x y then
    loadAddress dst k (← S _ (.synthesize (.binary (.arith op) k x y)))
    return true
  else return false

/-- Computes `x op y`, of a word kind `k`, into the place `dst`. -/
def arith (dst : Expr) (k : Kind) (op : ArithOp) (x y : Expr) (origin : Option Expr) : Lower Unit := do
  if ← isPlace (← read) x dst origin then S _ (.opAssign dst op y)
  else if ← (if op.isCommutative then do isPlace (← read) y dst origin else pure false : Lower Bool) then
    S _ (.opAssign dst op x)
  else if ← (if dst.isReg then releasing (S.tryLea dst k op x y) else pure false) then pure ()
  else if ← hazard (← read) y dst then releasing do
    let t ← temp k (.note "operand")
    S _ (.into t x none)
    S _ (.opAssign t op y)
    mov dst t
  else
    S _ (.into dst x none)
    S _ (.opAssign dst op y)

/-- Adds an expression as one term in a register. -/
def asTerm (t : Terms) (e : Expr) : Lower Terms := do
  let t ← t.makeRoom
  t.place (← S.hard e) .one

/-- Adds a node of a known shape to the terms of an address. -/
def addNode (t : Terms) (shape : Shape) (x y : Expr) : Lower Terms := do
  match shape with
  | .sum => S _ (.addTerm (← S _ (.addTerm t x)) y)
  | .difference c =>
    let t ← S _ (.addTerm t x)
    return { t with disp := t.disp - displacement c }
  | .scaled s =>
    let t ← t.makeRoom
    t.place (← S.hard x) s
  | .doubled s =>
    let r ← S.hard x
    return { t with base := some r, index := some (r, s) }

/-- The address of the terms, a wide displacement put into a register first. -/
def finish (t : Terms) : Lower AddrMode := do
  if t.narrow || fitsDisp t.disp then t.mode
  else
    let wide := Expr.const (Const.ofBits .int64 t.disp 0)
    let t ← ({ t with disp := 0 } : Terms).makeRoom
    let t ← t.place (← S.hard wide) .one
    t.mode

/-- A return: one value in `rax`, a second one in `rdx`. -/
def returns (values : List Expr) : Lower Expr :=
  match values with
  | [] => do leave; return nothing
  | [v] => do
    S _ (.into (fixed v.kind rax) v none)
    leave
    return nothing
  | [v, w] => do
    let a ← temp v.kind (.note "return value")
    S _ (.into a v none)
    let b ← temp w.kind (.note "return value")
    S _ (.into b w none)
    mov (fixed a.kind rax) a
    mov (fixed b.kind rdx) b
    leave
    return nothing
  | _ => do
    warn (.ret values)
    return .ret values

/-- An expression at statement level. -/
def statement (e : Expr) : Lower Expr :=
  if e.isEffectFree then pure e
  else
    match e with
    | .label _ | .unary .jump _ (.label _) => pure e
    | .unary op k x =>
      match op with
      | .inc | .dec | .zero => do
        let d ← S.target x
        emit (.unary op k d)
        return d
      | _ => do warn e; return e
    | .binary .jumpIf _ (.label l) y => do S _ (.jumpIf l y true); return nothing
    | .binary .jumpIf .. => do warn e; return e
    | .binary .assign _ x y => do
      let d ← S.target x
      S _ (.into d y (some x))
      return d
    | .binary (.compound op) _ x y => do
      let d ← S.target x
      S _ (.opAssign d op y)
      return d
    | .binary .. => S _ (.value e)
    | .ret vs => S.returns vs
    | .call .. => do discard (emitCall e); return nothing
    | e => do warn e; return e

end Solver

/-! ## One call -/

/-- What a call does when `S` answers the calls that it makes. -/
def unroll (S : Solver) : Solver
  | _, .compile e toplevel => if toplevel then S.statement e else S _ (.value e)
  | _, .value e =>
    match e with
    | .const _ | .label _ | .memAt .. => pure e
    | .reg r => resolve r
    | .mem k ro a => return .memAt k ro (← S _ (.synthesize a))
    | .call .. => callValue e
    | e => do
      let t ← temp e.kind (.value e)
      S _ (.into t e none)
      return t
  | _, .registerOf e => do toRegister (← S _ (.value e))
  | _, .into dst e origin =>
    match e with
    | .const c => storeConst dst c
    | .label _ | .memAt .. | .reg _ | .mem .. => releasing do mov dst (← S _ (.value e))
    | .call .. => do
      let v ← emitCall e
      if v.kind.isVoid then pure () else mov dst v
    | .ret _ => passThrough dst e
    | .unary op k x => S _ (.unaryInto dst op k x)
    | .binary op k x y => S _ (.binaryInto dst op k x y origin)
  | _, .unaryInto dst op k x =>
    match op with
    | .neg | .inv =>
      if k.isWord then do
        S _ (.into dst x none)
        emitAssign k dst (.unary op k dst)
      else passThrough dst (.unary op k x)
    | .lnot => do
      S _ (.into dst x none)
      emit (.binary (.compound .xor) .bool dst (.const (Const.bool true)))
    | .cast => releasing (S _ (.castInto dst k x))
    | _ => passThrough dst (.unary op k x)
  | _, .castInto dst k x =>
    if x.kind.isScalar && k.isScalar then do
      match ← S _ (.value x) with
      | .const c => storeConst dst (← c.convert k)
      | src => if k.size ≤ x.kind.size then mov dst (atKind k src) else S.widen dst k src
    else passThrough dst (.unary .cast k x)
  | _, .binaryInto dst op k x y origin =>
    match op with
    | .compare op =>
      if x.kind.isScalar then do
        let c ← S.flags op x y
        emit (.unary (.setcc c) .bool dst)
      else passThrough dst (.binary (.compare op) k x y)
    | .logic op => S _ (.logicalInto dst op x y)
    | .assign | .compound _ => do mov dst (← S _ (.compile (.binary op k x y) true))
    | .arith op => if k.isWord then S.arith dst k op x y origin else passThrough dst (.binary (.arith op) k x y)
    | .jumpIf | .cmp | .test => passThrough dst (.binary op k x y)
  | _, .opAssign dst op y => releasing do
    let k := dst.kind
    match op with
    | .add | .sub | .and | .or | .xor => emit (.binary (.compound op) k dst (← S.legal dst (← S _ (.value y))))
    | .andNot => emit (.binary (.compound .and) k dst (← S.mask dst (← S _ (.value y))))
    | .mul =>
      if k.size = 1 then
        let e := Expr.binary (.compound .mul) k dst (← S _ (.value y))
        warn e
        emit e
      else if dst.isMem then
        let t := Expr.reg (← Lower.scratch k (.note "multiply"))
        mov t dst
        S _ (.opAssign t .mul y)
        mov dst t
      else emit (.binary (.compound .mul) k dst (← S.legal dst (← S _ (.value y))))
    | .shl => shiftInto dst true (S _ (.value y))
    | .shr => shiftInto dst false (S _ (.value y))
    | .quo | .rem => S.divide dst op y
  | _, .logicalInto dst op x y => do
    if ← hazard (← read) y dst then releasing do
      let t ← temp .bool (.note "logical operand")
      S _ (.logicalInto t op x y)
      mov dst t
    else logicAt op dst (fun p => S _ (.into p x none)) (fun p => S _ (.into p y none))
  | _, .jumpIf l cond sense =>
    match cond with
    | .const c => if c.asBool == sense then emit (.jumpTo l) else pure ()
    | .unary .lnot _ x => S _ (.jumpIf l x !sense)
    | .binary (.compare op) k x y =>
      if x.kind.isScalar then do
        let c ← S.flags op x y
        jcc (if sense then c else c.negated) l
      else do
        let test := Expr.binary (.compare op) k x y
        let e := Expr.binary .jumpIf .void (.label l) (if sense then test else .unary .lnot .bool test)
        warn e
        emit e
    | .binary (.logic op) _ x y =>
      if (op == .and) == sense then do
        let skip ← newLabel
        S _ (.jumpIf skip x !sense)
        S _ (.jumpIf l y sense)
        emit (.label skip)
      else do
        S _ (.jumpIf l x sense)
        S _ (.jumpIf l y sense)
    | cond => do
      releasing do S.testZero .bool (← S _ (.value cond))
      jcc (if sense then .ne else .eq) l
  | _, .synthesize e => do
    let t ← S _ (.addTerm { narrow := e.kind.size == 4 } e)
    S.finish t
  | _, .addTerm t e =>
    match e with
    | .const c => pure { t with disp := t.disp + displacement c }
    | .unary .cast k x => if keepsWord k x.kind then S _ (.addTerm t x) else S.asTerm t (.unary .cast k x)
    | .binary (.arith op) k x y =>
      match Shape.of? t op y with
      | some shape => S.addNode t shape x y
      | none => S.asTerm t (.binary (.arith op) k x y)
    | e => S.asTerm t e

/-- The functions of selection. -/
def selection : Solver
  | _, .compile e toplevel => select e toplevel
  | _, .value e => value e
  | _, .registerOf e => do toRegister (← value e)
  | _, .into dst e origin => into dst e origin
  | _, .unaryInto dst op k x => into dst (.unary op k x) none
  | _, .castInto dst k x =>
    if x.kind.isScalar && k.isScalar then castInto dst x.kind k (value x) else passThrough dst (.unary .cast k x)
  | _, .binaryInto dst op k x y origin => into dst (.binary op k x y) origin
  | _, .opAssign dst op y => opAssign dst op (value y)
  | _, .logicalInto dst op x y => logicInto op y dst (fun p => into p x none) (fun p => into p y none)
  | _, .jumpIf l cond sense => jumpIf l cond sense
  | _, .synthesize e => address e
  | _, .addTerm t e => addTerm t e

end JitBackend.Amd64
