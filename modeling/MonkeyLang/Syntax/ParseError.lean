import MonkeyLang.Span
/-!
# Syntax errors

What the source does not say that the grammar asks for, and where. The kind decides the first words of the message.
-/

namespace MonkeyLang

inductive ParseErrorKind where
  | expectedToken
  | unexpectedEof
  | expectedExpression
  | expectedIdentifier
  | invalidLiteral
  | invalidSyntax
deriving DecidableEq, Repr

def ParseErrorKind.describe : ParseErrorKind → String
  | expectedToken => "expected token"
  | unexpectedEof => "unexpected end of file"
  | expectedExpression => "expected expression"
  | expectedIdentifier => "expected identifier"
  | invalidLiteral => "invalid literal"
  | invalidSyntax => "invalid syntax"

structure ParseError where
  kind : ParseErrorKind
  span : Span
  detail : String
deriving DecidableEq, Repr

namespace ParseError

/-- Something else stands where an expression has to. -/
def notExpression (span : Span) (found : String) : ParseError :=
  ⟨.expectedExpression, span, "expected expression, found " ++ found⟩

/-- Something else stands where a name has to. -/
def notIdentifier (span : Span) (found : String) : ParseError :=
  ⟨.expectedIdentifier, span, "expected identifier, found " ++ found⟩

def message (e : ParseError) : String :=
  e.kind.describe ++ " at " ++ e.span.text ++ ": " ++ e.detail

/-- The messages of several errors, one a line. -/
def messages (errors : List ParseError) : String :=
  "\n".intercalate (errors.map message)

end ParseError

end MonkeyLang
