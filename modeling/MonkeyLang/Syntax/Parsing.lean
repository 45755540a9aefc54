import MonkeyLang.Syntax.Grammar
/-!
# Reading whole sources

A source is read as a program, statement after statement, or as a single expression. Reading a program goes on past
errors: `Program.read` gives what could be read together with the errors, and `Program.parse` insists on there being none.
-/

namespace MonkeyLang

namespace Parser

/-- Reads statements up to the end of the source and notes the errors in them. -/
def programRest (stmts : List Stmt) (p : Parser) : List Stmt × Parser :=
  match p.next? with
  | none => (stmts.reverse, p)
  | some (_, ⟨_, h⟩) =>
    match p.statement with
    | .ok stmt p₁ _ => programRest (stmt :: stmts) p₁
    | .error cause p₁ h₁ =>
      have : ((p₁.note cause).recover false).tokens.length < p.tokens.length :=
        length_recover_lt _ _ h₁ (Nat.zero_lt_of_lt h)
      programRest stmts ((p₁.note cause).recover false)
termination_by p.tokens.length

def program (p : Parser) : Program × Parser :=
  let start := p.peek.span
  let (stmts, q) := p.programRest []
  let (span, r) := q.cover start q.peek.span
  (⟨stmts, span⟩, r)

/-- Reads an expression with nothing behind it. -/
def wholeExpr (p : Parser) : Except ParseError Expr × Parser :=
  match p.expr with
  | .error cause q _ => (.error cause, q)
  | .ok e q _ =>
    match q.expect .eof with
    | (.ok _, r) => (.ok e, r)
    | (.error cause, r) => (.error cause, r)

end Parser

structure Reading where
  program : Program
  errors : List ParseError
  /-- Whether every position formed on the way fits 32 bits. -/
  fits : Bool

/-- Reads a source as a program, past its errors. -/
def Program.read (source : String) : Reading :=
  let (program, p) := (Parser.ofSource source).program
  ⟨program, p.errors.toList, p.fits⟩

/-- Reads a source as a program, if there are no errors in it. -/
def Program.parse (source : String) : Except (List ParseError) Program :=
  let reading := Program.read source
  if reading.errors.isEmpty then .ok reading.program else .error reading.errors

def Expr.parse (source : String) : Except (List ParseError) Expr :=
  match (Parser.ofSource source).wholeExpr with
  | (.ok e, p) => if p.errors.isEmpty then .ok e else .error p.errors.toList
  | (.error cause, p) => .error (p.note cause).errors.toList

end MonkeyLang
