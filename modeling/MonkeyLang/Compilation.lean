import MonkeyLang.Analysis
import MonkeyLang.Bytecode.Generation
/-!
# Compilation

A program is analyzed first, and code is generated for it only if the analysis finds no errors.
-/

namespace MonkeyLang

structure Compilation where
  /-- What the program is compiled to, unless there are errors. -/
  executable : Option Executable
  errors : List CompilationError
  warnings : List CompilationError

def Compilation.isSuccess (c : Compilation) : Bool := c.errors.isEmpty

def GenerationError.toCompilationError (e : GenerationError) : CompilationError := .internal e.message

def compile (options : AnalysisOptions) (program : Program) : Except Imbalance Compilation := do
  let analysis ← analyze options program
  if analysis.isOk then
    match generate program with
    | .ok executable => return ⟨some executable, [], analysis.warnings⟩
    | .error cause => return ⟨none, [cause.toCompilationError], analysis.warnings⟩
  else
    return ⟨none, analysis.errors, analysis.warnings⟩

end MonkeyLang
