import JitBackend.Expr.Build

/-!
# Statements

Structured statements over expressions. A missing condition of a loop is true. The condition of a branch or a loop
must be a truth value, which the constructors check.
-/

namespace JitBackend

inductive Stmt
  | block (list : List Stmt)
  | ite (cond : Expr) (then_ : Stmt) (else_ : Option Stmt)
  | loop (init : Option Stmt) (cond : Option Expr) (post : Option Stmt) (body : Stmt)
  | exit (e : LoopExit)
  | expr (e : Expr)

namespace Stmt

def checkCond (cond : Expr) : Except Error Unit :=
  if cond.kind = .bool then .ok () else .error (.invalidOp (BinaryOp.jumpIf : Op) [cond.kind])

def mkIf (cond : Expr) (then_ : Stmt) (else_ : Option Stmt) : Except Error Stmt := do
  checkCond cond
  return ite cond then_ else_

def mkFor (init : Option Stmt) (cond : Option Expr) (post : Option Stmt) (body : Stmt) : Except Error Stmt := do
  cond.forM checkCond
  return loop init cond post body

def mkWhile (cond : Expr) (body : Stmt) : Except Error Stmt := mkFor none (some cond) none body

mutual
/-- The expressions of a statement: a loop gives those of its start, its condition, its step and its body. -/
def exprs : Stmt → List Expr
  | block list => exprsL list
  | ite c t e => c :: (exprs t ++ exprsO e)
  | loop i c p b => exprsO i ++ c.toList ++ exprsO p ++ exprs b
  | exit _ => []
  | expr e => [e]
def exprsL : List Stmt → List Expr
  | [] => []
  | s :: ss => exprs s ++ exprsL ss
def exprsO : Option Stmt → List Expr
  | none => []
  | some s => exprs s
end

mutual
def text : Stmt → String
  | block list => "(BLOCK" ++ textL list ++ ")"
  | ite c t e => "(if " ++ c.text ++ " " ++ text t ++ " " ++ textO e ++ ")"
  | loop i c p b =>
    "(for " ++ textO i ++ " " ++ (c.map Expr.text).getD "nil" ++ " " ++ textO p ++ " " ++ text b ++ ")"
  | exit e => "(" ++ e.text ++ ")"
  | expr e => e.text
def textL : List Stmt → String
  | [] => ""
  | s :: ss => " " ++ text s ++ textL ss
def textO : Option Stmt → String
  | none => "nil"
  | some s => text s
end

end Stmt

end JitBackend
