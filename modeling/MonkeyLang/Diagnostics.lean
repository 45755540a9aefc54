import MonkeyLang.CompilationError
import MonkeyLang.Syntax.ParseError
/-!
# Diagnostics

Messages for whoever asked for a compilation, with the source lines of those errors that have one. An error with a line
adds to both lists, an error without one to the messages only.
-/

namespace MonkeyLang

structure Diagnostics where
  errors : Array String := #[]
  lines : Array Nat := #[]
  warnings : Array String := #[]
deriving DecidableEq, Repr

namespace Diagnostics

def empty : Diagnostics := {}

def addError (d : Diagnostics) (message : String) (line : Nat) : Diagnostics :=
  { d with errors := d.errors.push message, lines := d.lines.push line }

/-- Adds an error that has no place in the source. -/
def addUnlocated (d : Diagnostics) (message : String) : Diagnostics :=
  { d with errors := d.errors.push message }

def addWarning (d : Diagnostics) (message : String) : Diagnostics :=
  { d with warnings := d.warnings.push message }

def addCompilationError (d : Diagnostics) (e : CompilationError) : Diagnostics :=
  match e.span? with
  | some span => d.addError e.message span.line
  | none => d.addUnlocated e.message

def ofCompilationErrors (errors : List CompilationError) : Diagnostics :=
  errors.foldl addCompilationError empty

def ofParseErrors (errors : List ParseError) : Diagnostics :=
  errors.foldl (fun d e => d.addError e.message e.span.line) empty

def hasErrors (d : Diagnostics) : Bool := !d.errors.isEmpty

end Diagnostics

end MonkeyLang
