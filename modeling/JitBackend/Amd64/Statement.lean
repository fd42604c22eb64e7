import JitBackend.Amd64.Select

/-!
# Instruction selection for statements

Expressions at statement level are selected for their effect: jumps on conditions, assignments, calls and returns. A
function saves the registers that it has to hand back and reserves its frame on entry, and undoes both at each return.
-/

namespace JitBackend.Amd64

open Lower

/-- Jumps to `l` if `cond` evaluates to `sense`. -/
def jumpIf (l : Label) (cond : Expr) (sense : Bool) : Lower Unit :=
  match cond with
  | .const c => if c.asBool == sense then emit (.jumpTo l) else pure ()
  | .unary .lnot _ x => jumpIf l x !sense
  | .binary (.compare op) k x y =>
    if x.kind.isScalar then do
      let c ← flags op x y
      jcc (if sense then c else c.negated) l
    else do
      let test := Expr.binary (.compare op) k x y
      let e := Expr.binary .jumpIf .void (.label l) (if sense then test else .unary .lnot .bool test)
      warn e
      emit e
  | .binary (.logic op) _ x y =>
    -- a conjunction is true only if both operands are, a disjunction false only if both are
    if (op == .and) == sense then do
      let skip ← newLabel
      jumpIf skip x !sense
      jumpIf l y sense
      emit (.label skip)
    else do
      jumpIf l x sense
      jumpIf l y sense
  | cond => do
    releasing do testZero .bool (← value cond)
    jcc (if sense then .ne else .eq) l

/-- Emits the end of a function. -/
def leave : Lower Unit := do
  emitFrame (BinaryOp.compound .add)
  (← read).saved.reverse.forM fun r => emit (.unary .pop .int64 (fixed .int64 r))
  emit (.ret [])

/-- A return: one value in `rax`, a second one in `rdx`. -/
def selectReturn (values : List Expr) : Lower Expr :=
  match values with
  | [] => do leave; return nothing
  | [v] => do
    into (fixed v.kind rax) v none
    leave
    return nothing
  | [v, w] => do
    let a ← temp v.kind (.note "return value")
    into a v none
    let b ← temp w.kind (.note "return value")
    into b w none
    mov (fixed a.kind rax) a
    mov (fixed b.kind rdx) b
    leave
    return nothing
  | _ => do
    warn (.ret values)
    return .ret values

/-- Emits the instructions of an expression at statement level. What it returns still has to be emitted unless it is
free of effects. -/
def statement (e : Expr) : Lower Expr :=
  if e.isEffectFree then pure e
  else
    match e with
    | .label _ | .unary .jump _ (.label _) => pure e
    | .unary op k x =>
      match op with
      | .inc | .dec | .zero => do
        let d ← resolveTarget x
        emit (.unary op k d)
        return d
      | _ => do warn e; return e
    | .binary .jumpIf _ (.label l) y => do jumpIf l y true; return nothing
    | .binary .jumpIf .. => do warn e; return e
    | .binary .assign _ x y => assign x y
    | .binary (.compound op) _ x y => compound op x y
    | .binary .. => value e
    | .ret vs => selectReturn vs
    | .call .. => do discard (emitCall e); return nothing
    | e => do warn e; return e

/-- Selection of an expression, at statement level or for its value. -/
def select (e : Expr) (toplevel : Bool) : Lower Expr := if toplevel then statement e else value e

/-- Saves the registers that the function has to hand back and reserves its frame. -/
def enter : Lower Unit := do
  (← read).saved.forM fun r => emit (.unary .push .int64 (fixed .int64 r))
  emitFrame (BinaryOp.compound .sub)

end JitBackend.Amd64
