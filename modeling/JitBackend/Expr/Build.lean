import JitBackend.Const.Fold

/-!
# Checked construction

Constructors that check the kinds of their operands, fold constant operands into one constant and put an expression
into canonical order: where operands may trade places, the one of the lower category stands on the left. Logical not
of a comparison becomes the opposite comparison, except for the order of floats, where a non-number spoils it.
-/

namespace JitBackend

/-- An address, if the scale is one that an instruction can hold. -/
def AddrMode.of (base index : Option HardReg) (scale : Int) (disp : BitVec 32) : Except Error AddrMode :=
  match Scale.ofInt? scale with
  | some s => .ok ⟨base, index, s, disp⟩
  | none => .error (.fieldOverflow .addressScale scale)

namespace Expr

/-- The sub-expression with a given index. -/
def child (e : Expr) (i : Nat) : Except Error Expr :=
  match e.children[i]? with
  | some x => .ok x
  | none => .error (.indexOutOfRange .expression i e.children.length)

/-- The memory operand at an address expression. -/
def memory (k : Kind) (readOnly : Bool) (addr : Expr) : Except Error Expr :=
  if addr.kind.isPtr && !k.isVoid then .ok (.mem k readOnly addr) else .error (.invalidAddress k addr.kind)

/-! ## One operand -/

def unaryAdmits (op : UnaryOp) (k : Kind) : Bool :=
  match op with
  | .neg | .inc | .dec => k.isNumber || k.isPtr
  | .inv => k.isWord
  | .lnot => k.isBool
  | .zero => !k.isVoid
  | .jump => k.isPtr
  | _ => false

def unaryKind (op : UnaryOp) (k : Kind) : Kind :=
  match op with
  | .lnot => .bool
  | .jump => .void
  | _ => k

/-- The kind of an operation on `x`, if it is admitted. -/
def checkUnary (op : UnaryOp) (x : Expr) : Except Error Kind :=
  if !unaryAdmits op x.kind then .error (.invalidOp op [x.kind])
  else if op.isAssign && !x.isAssignable then .error (.notAssignable x)
  else .ok (unaryKind op x.kind)

/-- Logical not, simplified. -/
def mkNot : Expr → Expr
  | unary .lnot _ x => x
  | binary (.compare c) k x y =>
    if !x.kind.isFloat || c.isEquality then binary (.compare c.negated) .bool x y
    else unary .lnot .bool (binary (.compare c) k x y)
  | x => unary .lnot .bool x

def mkUnary (op : UnaryOp) (x : Expr) : Except Error Expr := do
  let k ← checkUnary op x
  match op, x with
  | .neg, const c => .ok (const c.neg)
  | .inv, const c => .ok (const c.inv)
  | .lnot, const c => .ok (const c.lnot)
  | .lnot, x => .ok (mkNot x)
  | op, x => .ok (unary op k x)

def castAdmits (g k : Kind) : Bool :=
  (g.isNumber && k.isNumber && (!g.isComplex || k.isComplex)) || (g.isInteger && k.isPtr) ||
    (g.isPtr && k.isWord) || (g.isBool && (k.isInteger || k.isBool))

/-- Conversion of `x` to kind `k`. -/
def mkCast (k : Kind) (x : Expr) : Except Error Expr :=
  if !castAdmits x.kind k then .error (.invalidOp (UnaryOp.cast : Op) [x.kind, k])
  else if x.kind = k then .ok x
  else
    match x with
    | const c => (c.convert k).map const
    | x => .ok (unary .cast k x)

/-! ## Two operands -/

/-- Whether arithmetic takes operands of these kinds. -/
def arithAdmits (op : ArithOp) (kx ky : Kind) : Bool :=
  match op with
  | .shl | .shr => kx.isInteger && ky.isInteger
  | .add | .sub => kx == ky && (kx.isNumber || kx.isPtr)
  | .mul | .quo => kx == ky && kx.isNumber
  | .rem | .and | .or | .xor | .andNot => kx == ky && kx.isInteger

def binaryAdmits (op : BinaryOp) (kx ky : Kind) : Bool :=
  match op with
  | .arith a | .compound a => arithAdmits a kx ky
  | .compare .eql | .compare .neq | .assign => kx == ky && !kx.isVoid
  | .compare _ => kx == ky && kx.isOrdered
  | .logic _ => kx == ky && kx.isBool
  | .jumpIf => kx.isPtr && ky.isBool
  | .cmp | .test => false

def binaryKind (op : BinaryOp) (kx : Kind) : Kind :=
  match op with
  | .compare _ | .logic _ => .bool
  | .jumpIf => .void
  | _ => kx

/-- The kind of an operation on `x` and `y`, if it is admitted. -/
def checkBinary (op : BinaryOp) (x y : Expr) : Except Error Kind :=
  if !binaryAdmits op x.kind y.kind then .error (.invalidOp op [x.kind, y.kind])
  else if op.isAssign && !x.isAssignable then .error (.notAssignable x)
  else .ok (binaryKind op x.kind)

/-- The node with its operands in canonical order. -/
def ordered (op : BinaryOp) (k : Kind) (x y : Expr) : Expr :=
  match op.swapped with
  | some op' => if y.category.rank < x.category.rank then binary op' k y x else binary op k x y
  | none => binary op k x y

/-- A logical operation with a constant on the left is that constant or the right operand. -/
def shortCircuit (op : LogicOp) (c : Const) (y : Expr) : Expr :=
  match op, c.asBool with
  | .and, true | .or, false => y
  | .and, false | .or, true => const c

def mkBinary (op : BinaryOp) (x y : Expr) : Except Error Expr := do
  let k ← checkBinary op x y
  match op, x, y with
  | .logic op, const c, y =>
    match y with
    | const d => (Const.binary (.logic op) c d).map const
    | y => .ok (shortCircuit op c y)
  | op, const c, const d => if op.hasSideEffects then .ok (binary op k x y) else (Const.binary op c d).map const
  | op, x, y => .ok (ordered op k x y)

/-! ## Any operation -/

/-- A node of one operand with any operation; those of other nodes are refused. -/
def mkUnaryOf (op : Op) (x : Expr) : Except Error Expr :=
  match op with
  | .unary u => mkUnary u x
  | op => .error (.invalidOp op [x.kind])

/-- A node of two operands with any operation; those of other nodes are refused. -/
def mkBinaryOf (op : Op) (x y : Expr) : Except Error Expr :=
  match op with
  | .binary b => mkBinary b x y
  | op => .error (.invalidOp op [x.kind, y.kind])

/-- A return of values, none of which may be void. -/
def mkReturn (values : List Expr) : Except Error Expr :=
  if values.any (·.kind.isVoid) then .error (.invalidOp .ret [.void]) else .ok (ret values)

/-- A node of any number of operands; return is the only one. -/
def mkTuple (op : Op) (values : List Expr) : Except Error Expr :=
  if op = .ret then mkReturn values else .error (.invalidOp op (values.map kind))

/-- The first place where a list of values has another kind than asked for. -/
def kindMismatch (given want : List Kind) : Option (Nat × Kind × Kind) :=
  ((given.zip want).zipIdx.find? fun ((g, w), _) => g != w).map fun ((g, w), i) => (i, g, w)

/-- A call of the function that starts at `callee`. -/
def mkCall (callee : Label) (name : Option String) (sig : Signature) (args : List Expr) : Except Error Expr :=
  if args.length ≠ sig.params.length then
    .error (.signatureMismatch (.argumentCount args.length sig.params.length))
  else
    match kindMismatch (args.map kind) sig.params with
    | some (i, g, w) => .error (.signatureMismatch (.argumentKind i g w))
    | none =>
      if 1 < sig.results.length then .error (.signatureMismatch (.manyResults sig.results.length))
      else .ok (call callee name sig args)

/-! ## Shorthands -/

def mkAssign (x y : Expr) : Except Error Expr := mkBinary .assign x y

def jumpTo (l : Label) : Expr := unary .jump .void (label l)

def mkJumpIf (l : Label) (cond : Expr) : Except Error Expr := mkBinary .jumpIf (label l) cond

/-- The value of kind `k` at a distance from a pointer. -/
def mkField (k : Kind) (base : Expr) (offset : BitVec 32) : Except Error Expr := do
  let addr ← if offset = 0 then pure base
    else mkBinary (.arith .add) base (const (Const.ptr (offset.signExtend 64)))
  memory k false addr

/-- The element of an array of values of kind `k`. -/
def mkIndex (k : Kind) (base index : Expr) : Except Error Expr := do
  if !index.kind.isInteger || k.isVoid then throw (.invalidOp (BinaryOp.arith .mul : Op) [index.kind, k])
  let i ← mkCast .int64 index
  let offset ← mkBinary (.arith .mul) i (const (Const.int64 k.size))
  let addr ← mkBinary (.arith .add) base (← mkCast .ptr offset)
  memory k false addr

end Expr

end JitBackend
