import MonkeyLang.Workspace
/-!
# Runs of programs

What a program leaves behind: how it ended, and what it wrote. A program ends by itself with a status, zero if all went
well, or is ended by a signal. How programs are launched is not for the tools to say: whoever uses them gives a `Launch`.
-/

namespace MonkeyLang

inductive ExitStatus where
  | exited (code : Nat)
  | killed (signal : Nat)
deriving DecidableEq, Repr

/-- The names of signals, from the first one on. -/
def signals : List String :=
  ["HUP", "INT", "QUIT", "ILL", "TRAP", "ABRT", "BUS", "FPE", "KILL", "USR1", "SEGV", "USR2", "PIPE", "ALRM", "TERM", "STKFLT",
    "CHLD", "CONT", "STOP", "TSTP", "TTIN", "TTOU", "URG", "XCPU", "XFSZ", "VTALRM", "PROF", "WINCH", "IO", "PWR", "SYS"]

namespace ExitStatus

def isSuccess (s : ExitStatus) : Bool := s == .exited 0

def text : ExitStatus → String
  | exited code => s!"exit status: {code}"
  | killed signal =>
    match signals[signal - 1]? with
    | some name => s!"signal: {signal} (SIG{name})"
    | none => s!"signal: {signal}"

end ExitStatus

/-- What a program leaves behind. -/
structure ProgramRun where
  status : ExitStatus
  output : List UInt8 := []
  errors : List UInt8 := []
deriving DecidableEq, Repr

/-- Launches a program with arguments in a workspace, waits for it, and gives what it leaves behind. -/
abbrev Launch := Workspace → String → List String → Except FileError (ProgramRun × Workspace)

end MonkeyLang
