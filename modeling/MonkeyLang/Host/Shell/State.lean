import MonkeyLang.Host.Shell.Commands
/-!
# Shells

The state of a shell that runs a script, and what can be done with it. An action may fail to go on: it leaves a loop, it ends
the script, or a signal ends it. Running commands and expanding words come back to each other for what is nested in them; an
`Evaluator` is what they come back to. A part of a script may run on its own, in a subshell, which shares the system with
the shell around it and nothing else.
-/

namespace MonkeyLang.Host.Shell

structure Variable where
  value : String
  /-- Whether other programs are told about it. -/
  exported : Bool := false
deriving DecidableEq, Repr

structure State where
  system : System
  descriptors : Descriptors
  /-- What the script is called. -/
  name : String
  args : List String := []
  values : List (String × Variable) := []
  /-- The letters of the options that are set. -/
  options : List Char := []
  status : Nat := 0
  /-- The status of the commands whose output was last put into a word. -/
  substituted : Nat := 0
  line : Nat := 1
  /-- The command of the shell itself that is being run. -/
  caller : Option String := none
  /-- The number of loops around the current command. -/
  loops : Nat := 0

inductive Stop where
  | broken (levels : Nat)
  | continued (levels : Nat)
  | exited
  /-- After a complaint that ends the script. -/
  | failed
  | killed (signal : Nat)
deriving DecidableEq, Repr

abbrev Act := EStateM Stop State

namespace Act

/-- Acts, and then puts parts of the state back into place, however the action ends. -/
def restoring {α : Type} (restore : State → State → State) (action : Act α) : Act α := fun s =>
  match action s with
  | .ok result after => .ok result (restore s after)
  | .error stop after => .error stop (restore s after)

def setStatus (status : Nat) : Act Unit := modify fun s => { s with status }

/-- Lets a descriptor lead to a channel, or nowhere. -/
def setDescriptor (descriptor : Nat) (channel : Option Nat) : Act Unit := modify fun s =>
  let others := s.descriptors.filter (·.1 ≠ descriptor)
  { s with descriptors := channel.toList.map (descriptor, ·) ++ others }

/-- Writes bytes to a descriptor, and tells whether it leads anywhere. -/
def put (descriptor : Nat) (bytes : List UInt8) : Act Bool := do
  let s ← get
  match s.descriptors.lookup descriptor with
  | some channel =>
    set { s with system := s.system.put channel bytes }
    return true
  | none => return false

/-- Complains, with the name of the script and the line in front. -/
def warn (complaint : String) : Act Unit := do
  let s ← get
  let caller := (s.caller.map (· ++ ": ")).getD ""
  let _ ← put 2 (Text.Utf8.encode (s!"{s.name}: {s.line}: " ++ caller ++ complaint ++ "\n"))

def fail {α : Type} (complaint : String) : Act α := do
  warn complaint
  setStatus 2
  throw .failed

/-- Writes the output of a command of the shell itself, and gives its status. -/
def output (bytes : List UInt8) (status : Nat) : Act Nat := do
  if bytes.isEmpty then return status
  else if ← put 1 bytes then return status
  else
    warn (((← get).caller.getD "") ++ ": I/O error")
    return 1

def isSet (option : Char) : Act Bool := return (← get).options.contains option

def assign (name value : String) (exported : Bool) : Act Unit := modify fun s =>
  let exported := exported || (s.values.lookup name).any (·.exported)
  { s with values := (name, { value, exported }) :: s.values.filter (·.1 ≠ name) }

end Act

/-! ### Values -/

/-- A number without a sign, as far as the shell's numbers reach. -/
def number? (text : String) : Option Nat :=
  let cs := text.toList
  let value := cs.foldl (fun n c => 10 * n + (c.toNat - '0'.toNat)) 0
  if !cs.isEmpty && cs.all Char.isDigit && value < 2147483648 then some value else none

/-- The letters of options in the order in which they are shown: to complain about parameters that are not set, to show
commands, and to end the script at the first failure. -/
def optionLetters : List Char := ['u', 'x', 'e']

/-- The value of a parameter that is no list of arguments. The number of the script itself is not known, and stays as it
is written. -/
def State.value? (s : State) (name : String) : Option String :=
  match name with
  | "#" => some (toString s.args.length)
  | "?" => some (toString s.status)
  | "$" => some "$$"
  | "-" => some (String.ofList (optionLetters.filter s.options.contains))
  | _ =>
    match number? name with
    | some 0 => some s.name
    | some n => s.args[n - 1]?
    | none => (s.values.lookup name).map (·.value)

def State.environment (s : State) : List (String × String) :=
  s.values.filterMap fun (name, v) => if v.exported then some (name, v.value) else none

/-! ### Evaluators -/

/-- A character of an expanded word, or what holds for a place in it. -/
inductive Glyph where
  /-- A character, which may stand for itself only, and at which the word may be cut. -/
  | char (c : Char) (quoted splits : Bool)
  /-- A place where something was quoted, which makes a field even of nothing. -/
  | mark
  /-- The end of a field. -/
  | cut
  /-- A blank between fields. -/
  | gap
deriving DecidableEq, Repr

structure Manner where
  /-- Whether the word may become several fields. -/
  full : Bool
  quoted : Bool := false
  /-- Whether plain text may be cut, since it stands in place of a value. -/
  replaces : Bool := false
deriving DecidableEq, Repr

/-- How what is nested in commands and words is run and expanded. -/
structure Evaluator where
  /-- Runs a command, whose failure may be a test that the script can go on after. -/
  run : Bool → Command → Act Unit
  expand : Manner → Word → Act (List Glyph)

namespace Evaluator

/-- Runs the lines that a reader is in front of. `fuel` is at least their number. -/
def runLines (ev : Evaluator) (tested : Bool) : Nat → Reader → Act Unit
  | 0, _ => return
  | fuel + 1, reader =>
    match Reading.nextLine.run reader with
    | .error e _ => do
      modify fun s => { s with line := e.line }
      Act.fail e.message
    | .ok none _ => return
    | .ok (some command) reader => do
      ev.run tested command
      ev.runLines tested fuel reader

def runText (ev : Evaluator) (tested : Bool) (text : String) : Act Unit :=
  ev.runLines tested (text.length + 1) { rest := text.toList }

end Evaluator

/-- Runs an action in a subshell, and gives its status. The only shell that a signal can be sent to is the script's own, and
so a signal does not end here. -/
def inSubshell (action : Act Unit) : Act Nat :=
  Act.restoring (fun before after => { before with system := after.system }) do
    try
      action
    catch stop =>
      match stop with
      | .killed signal => throw (.killed signal)
      | _ => pure ()
    return (← get).status % 256

/-- The output of an action in a subshell, without the line ends behind it. -/
def capture (action : Act Unit) : Act (List UInt8) := do
  let s ← get
  let (channel, system) := s.system.add (.pipe .empty)
  set { s with system }
  let status ← inSubshell (do
    Act.setDescriptor 1 (some channel)
    action)
  let bytes := ((← get).system.peek channel).filter (· ≠ 0)
  modify fun s => { s with status, substituted := status, system := s.system.skip channel bytes.length }
  return (bytes.reverse.dropWhile (· = 10)).reverse

end MonkeyLang.Host.Shell
