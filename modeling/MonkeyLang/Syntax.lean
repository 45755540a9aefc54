import MonkeyLang.Operator
/-!
# Programs

A program is a sequence of statements, and a statement binds a name, returns a value or evaluates an expression.
Parentheses are kept as nodes of their own; `Expr.unparen` looks through them.
-/

namespace MonkeyLang

/-- A name where it stands in the source. -/
structure Ident where
  name : String
  span : Span
deriving DecidableEq, Repr

mutual

inductive Expr where
  | int (value : Int64) (span : Span)
  | string (value : String) (span : Span)
  | bool (value : Bool) (span : Span)
  | ident (ident : Ident)
  /-- Operators of one level in a row, read from the left. There is a first operand and then one for each operator, so code
  generation has no errors for a chain without operands and for one whose operands and operators differ in number: chains of
  these kinds cannot be written down. -/
  | chain (level : ChainLevel) (first : Expr) (rest : List (BinaryOp × Expr)) (span : Span)
  | unary (op : UnaryOp) (operand : Expr) (span : Span)
  | call (callee : Expr) (args : List Expr) (span : Span)
  | index (object index : Expr) (span : Span)
  | array (elements : List Expr) (span : Span)
  /-- The span of the opening brace is kept, because messages about the keys point at it. -/
  | hash (pairs : List (Expr × Expr)) (brace span : Span)
  | function (params : List Ident) (body : Block) (span : Span)
  | ifElse (condition : Expr) (thenBlock : Block) (elseBlock : Option Block) (span : Span)
  | paren (inner : Expr) (span : Span)

inductive Stmt where
  | letStmt (name : Ident) (value : Expr) (span : Span)
  | returnStmt (value : Expr) (span : Span)
  | exprStmt (expr : Expr) (span : Span)

/-- Statements between braces. -/
inductive Block where
  | mk (stmts : List Stmt) (span : Span)

end

structure Program where
  stmts : List Stmt
  span : Span

namespace Expr

def span : Expr → Span
  | int _ span | string _ span | bool _ span => span
  | ident name => name.span
  | chain _ _ _ span | unary _ _ span | call _ _ span | index _ _ span | array _ span | hash _ _ span
  | function _ _ span | ifElse _ _ _ span | paren _ span => span

/-- An expression without the parentheses around it. -/
def unparen : Expr → Expr
  | paren inner _ => inner.unparen
  | expr => expr

/-- The name, if the expression is nothing but a name, in parentheses or not. -/
def ident? (expr : Expr) : Option Ident :=
  match expr.unparen with
  | ident name => some name
  | _ => none

/-- Parameters and body, if the expression is a function literal, in parentheses or not. -/
def function? (expr : Expr) : Option (List Ident × Block × Span) :=
  match expr.unparen with
  | function params body span => some (params, body, span)
  | _ => none

end Expr

namespace Stmt

def span : Stmt → Span
  | letStmt _ _ span | returnStmt _ span | exprStmt _ span => span

end Stmt

namespace Block

def stmts : Block → List Stmt
  | mk stmts _ => stmts

def span : Block → Span
  | mk _ span => span

/-- The span of the last statement, if that is an expression: its value is then the value of the block. -/
def tailSpan? (block : Block) : Option Span :=
  match block.stmts.getLast? with
  | some (.exprStmt _ span) => some span
  | _ => none

end Block

end MonkeyLang
