import MonkeyLang.Syntax
import MonkeyLang.Text.Quoted
/-!
# Outlines

The outline of a program is a tree of labels that shows how the program was read, without positions. Written out, it
takes one line for each node, indented by two blanks for each level.
-/

namespace MonkeyLang

inductive Outline where
  | node (label : String) (children : List Outline)

namespace Outline

def label : Outline → String
  | node label _ => label

def children : Outline → List Outline
  | node _ children => children

def leaf (label : String) : Outline := node label []

mutual

def ofExpr : Expr → Outline
  | .int value _ => leaf ("Int " ++ toString value)
  | .string value _ => leaf ("String " ++ Text.Quoted.encode value)
  | .bool value _ => leaf (if value then "Bool true" else "Bool false")
  | .ident name => leaf ("Ident " ++ name.name)
  | .chain _ first rest _ =>
    node ("Chain " ++ " ".intercalate (rest.map fun step => step.1.spelling)) (ofExpr first :: ofOperands rest)
  | .unary op operand _ => node ("Unary " ++ op.spelling) [ofExpr operand]
  | .call callee args _ => node "Call" (ofExpr callee :: ofExprs args)
  | .index object index _ => node "Index" [ofExpr object, ofExpr index]
  | .array elements _ => node "Array" (ofExprs elements)
  | .hash pairs _ _ => node "Hash" (ofPairs pairs)
  | .function params body _ =>
    node ("Function(" ++ ", ".intercalate (params.map Ident.name) ++ ")") [ofBlock "Body" body]
  | .ifElse condition thenBlock elseBlock _ =>
    node "If" (ofExpr condition :: ofBlock "Then" thenBlock :: ofElse elseBlock)
  | .paren inner _ => node "Paren" [ofExpr inner]

def ofOperands : List (BinaryOp × Expr) → List Outline
  | [] => []
  | (_, operand) :: rest => ofExpr operand :: ofOperands rest

def ofExprs : List Expr → List Outline
  | [] => []
  | e :: rest => ofExpr e :: ofExprs rest

def ofPairs : List (Expr × Expr) → List Outline
  | [] => []
  | (key, value) :: rest => node "Pair" [ofExpr key, ofExpr value] :: ofPairs rest

def ofElse : Option Block → List Outline
  | none => []
  | some block => [ofBlock "Else" block]

def ofStmt : Stmt → Outline
  | .letStmt name value _ => node ("Let " ++ name.name) [ofExpr value]
  | .returnStmt value _ => node "Return" [ofExpr value]
  | .exprStmt expr _ => node "ExprStmt" [ofExpr expr]

def ofStmts : List Stmt → List Outline
  | [] => []
  | stmt :: rest => ofStmt stmt :: ofStmts rest

def ofBlock (label : String) : Block → Outline
  | .mk stmts _ => node label (ofStmts stmts)

end

def ofProgram (program : Program) : Outline := node "Program" (ofStmts program.stmts)

def line (depth : Nat) (label : String) : String :=
  "".pushn ' ' (2 * depth) ++ label ++ "\n"

mutual

/-- Writes an outline at a depth, behind the text written so far. -/
def writeAt (depth : Nat) (text : String) : Outline → String
  | node label children => writeAllAt (depth + 1) (text ++ line depth label) children

def writeAllAt (depth : Nat) (text : String) : List Outline → String
  | [] => text
  | outline :: rest => writeAllAt depth (writeAt depth text outline) rest

end

def write (outline : Outline) : String := writeAt 0 "" outline

end Outline

end MonkeyLang
