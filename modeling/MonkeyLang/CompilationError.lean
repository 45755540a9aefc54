import MonkeyLang.Span
/-!
# Compilation errors

What is wrong with a program that reads well. All but internal errors point at a place in the source.
-/

namespace MonkeyLang

/-- The kinds of values that are known not to be functions. -/
inductive NonFunction where
  | hash
  | array
deriving DecidableEq, Repr

def NonFunction.describe : NonFunction → String
  | hash => "a hash"
  | array => "an array"

inductive CompilationError where
  | redeclared (name : String) (first : Span) (span : Span)
  | undeclared (name : String) (span : Span)
  | inconsistentHashKeys (span : Span)
  | unusedDeclaration (name : String) (span : Span)
  | argumentCountMismatch (name : String) (expected found : Nat) (span : Span)
  | notCallable (name : String) (kind : NonFunction) (span : Span)
  | internal (message : String)
deriving DecidableEq, Repr

namespace CompilationError

def span? : CompilationError → Option Span
  | redeclared _ _ span | undeclared _ span | inconsistentHashKeys span | unusedDeclaration _ span
  | argumentCountMismatch _ _ _ span | notCallable _ _ span => some span
  | internal _ => none

def message : CompilationError → String
  | redeclared name first span =>
    s!"at {span.text}: '{name}' is already declared (first declared at {first.text})"
  | undeclared name span => s!"at {span.text}: '{name}' is not declared"
  | inconsistentHashKeys span => s!"at {span.text}: hash literal keys must all be integers or all be strings"
  | unusedDeclaration name span => s!"at {span.text}: '{name}' is declared but never used"
  | argumentCountMismatch name expected found span =>
    s!"at {span.text}: '{name}' expects {expected} argument(s), found {found}"
  | notCallable name kind span => s!"at {span.text}: '{name}' is {kind.describe} and cannot be called"
  | internal message => s!"internal compiler error: {message}"

end CompilationError

end MonkeyLang
