import MonkeyLang.Host.Shell.Expansion
import MonkeyLang.Host.Shell.Printing
import MonkeyLang.Host.Shell.Testing
/-!
# The shell's own commands

The commands that a shell does not launch a program for, apart from those that run other commands. Each gives its status.
After a complaint, most of them leave the script running; those that are special end it.
-/

namespace MonkeyLang.Host.Shell

abbrev Builtin := List String → Act Nat

def needNumber (text : String) : Act Nat :=
  match number? text with
  | some n => return n
  | none => Act.fail s!"Illegal number: {text}"

/-! ### Output -/

def echo : Builtin := fun args => Act.output (echoBytes args) 0

/-- Prints by a format, in front of which only two dashes may look like an option. -/
def printf : Builtin := fun args => do
  let args ← match (args.headD "").toList with
    | ['-', '-'] => pure args.tail
    | '-' :: c :: _ => Act.fail s!"Illegal option -{c}"
    | _ => pure args
  match args with
  | [] => Act.fail "usage: printf format [arg ...]"
  | template :: rest =>
    let printed := Print.ofFormat template rest
    (printed.complaints ++ printed.failure.toList).forM Act.warn
    Act.output printed.bytes (if printed.failure.isSome then 2 else if printed.complaints.isEmpty then 0 else 1)

def test : Builtin := fun args => do
  match holds (← get).system.workspace args with
  | .ok value => return if value then 0 else 1
  | .error complaint => Act.fail complaint

/-! ### Flow -/

def exit : Builtin := fun args => do
  match args with
  | [] => throw .exited
  | code :: _ =>
    Act.setStatus (← needNumber code)
    throw .exited

/-- Leaves loops, or goes on with the next round of one. -/
def leaveLoop (stop : Nat → Stop) : Builtin := fun args => do
  let n ← needNumber (args.headD "1")
  if n = 0 then Act.fail s!"Illegal number: {n}"
  else
    let loops := (← get).loops
    Act.setStatus 0
    if loops = 0 then return 0 else throw (stop (min n loops))

def shift : Builtin := fun args => do
  let n ← needNumber (args.headD "1")
  let s ← get
  if s.args.length < n then Act.fail "can't shift that many"
  else
    set { s with args := s.args.drop n }
    return 0

/-! ### Options and variables -/

def setLetters (on : Bool) (cs : List Char) : Act Unit :=
  cs.forM fun c =>
    if optionLetters.contains c then modify fun s =>
      let others := s.options.filter (· ≠ c)
      { s with options := if on then c :: others else others }
    else Act.fail s!"Illegal option -{c}"

/-- Sets the options at the start of arguments, and takes the arguments behind them for those of the script, if two dashes or
an argument of another kind says that there are any. -/
def setArguments : Builtin
  | [] => return 0
  | "--" :: args => do
    modify fun s => { s with args }
    return 0
  | arg :: rest => do
    match arg.toList with
    | '-' :: c :: cs =>
      setLetters true (c :: cs)
      setArguments rest
    | '+' :: c :: cs =>
      setLetters false (c :: cs)
      setArguments rest
    | _ =>
      modify fun s => { s with args := arg :: rest }
      return 0

/-- The name and the value of an argument that assigns. -/
def assignmentOf (arg : String) : String × Option String :=
  let name := arg.toList.takeWhile (· ≠ '=')
  let value := arg.toList.drop (name.length + 1)
  (String.ofList name, if name.length < arg.length then some (String.ofList value) else none)

def export_ : Builtin := fun args => do
  args.forM fun arg => do
    let (name, value) := assignmentOf arg
    if !isName name.toList then Act.fail s!"{name}: bad variable name"
    match value.or ((← get).value? name) with
    | some value => Act.assign name value true
    | none => pure ()
  return 0

def unset : Builtin := fun args => do
  modify fun s => { s with values := s.values.filter fun entry => !args.contains entry.1 }
  return 0

/-! ### Signals -/

def signal? (text : String) : Option Nat :=
  match number? text with
  | some n => if n < 65 then some n else none
  | none => (signals.idxOf? text.toUpper).map (· + 1)

/-- Whether a signal does nothing to a program that is not prepared for it. -/
def isIgnored (signal : Nat) : Bool := signal ∈ [0, 17, 18, 23, 28]

/-- Sends a signal to targets, of which only the script itself can be reached. -/
def sendSignal (signal : Nat) (targets : List String) : Act Nat := do
  let results ← targets.mapM fun target => do
    if target = "$$" then if isIgnored signal then return 0 else throw (.killed signal)
    else
      let _ ← needNumber target
      Act.warn "No such process\n"
      return 1
  return results.foldl max 0

def kill : Builtin := fun args => do
  match args with
  | "-s" :: name :: targets =>
    match signal? name with
    | some signal => sendSignal signal targets
    | none => Act.fail s!"invalid signal number or name: {name}"
  | first :: targets =>
    match first.toList with
    | '-' :: c :: cs =>
      match signal? (String.ofList (c :: cs)) with
      | some signal => sendSignal signal targets
      | none => Act.fail s!"Illegal option -{c}"
    | _ => sendSignal 15 args
  | [] => Act.fail "Usage: kill [-s sigspec | -signum | -sigspec] [pid | job]... or\nkill -l [exitstatus]"

/-! ### All of them -/

/-- The commands of the shell itself that run no others. -/
def builtin? (name : String) : Option Builtin :=
  match name with
  | ":" | "true" => some fun _ => return 0
  | "false" => some fun _ => return 1
  | "[" => some fun args => if args.getLast? = some "]" then test args.dropLast else Act.fail "missing ]"
  | "break" => some (leaveLoop .broken)
  | "continue" => some (leaveLoop .continued)
  | "echo" => some echo
  | "exit" => some exit
  | "export" => some export_
  | "kill" => some kill
  | "printf" => some printf
  | "set" => some setArguments
  | "shift" => some shift
  | "test" => some test
  | "unset" => some unset
  | _ => none

end MonkeyLang.Host.Shell
