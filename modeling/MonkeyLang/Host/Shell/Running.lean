import MonkeyLang.Host.Shell.Builtin
/-!
# Running scripts

A script runs in a system, line by line. Some commands are the shell's own; any other is a program that it launches and waits
for.
-/

namespace MonkeyLang.Host.Shell

/-! ### Redirections -/

/-- A redirection whose words have been expanded. -/
inductive Opening where
  | path (stream : Nat) (access : Access) (path : String)
  /-- To wherever another stream leads, or nowhere. -/
  | same (stream : Nat) (other : Option Nat)
  | text (stream : Nat) (bytes : List UInt8)
deriving DecidableEq, Repr

def expandRedirection (ev : Evaluator) : Redirection → Act Opening
  | .file stream access word => return .path stream access (← ev.text word)
  | .document stream word =>
    return .text stream (Text.Utf8.encode (textOf (← ev.expand { full := false, quoted := true } word)))
  | .same stream word => do
    match (← ev.text word).toList with
    | ['-'] => return .same stream none
    | [c] => if c.isDigit then return .same stream (some (c.toNat - '0'.toNat)) else Act.fail "Syntax error: Bad fd number"
    | _ => Act.fail "Syntax error: Bad fd number"

/-- Why a file cannot be opened, in the shell's words. -/
def openingComplaint (access : Access) (path : String) (cause : FileError) : String :=
  let missing := cause = .notFound ∨ cause = .notDirectory
  if access = .read then s!"cannot open {path}: " ++ if missing then "No such file" else cause.reason
  else s!"cannot create {path}: " ++ if missing then "Directory nonexistent" else cause.reason

/-- Redirects a stream, and tells whether that was possible. -/
def openOne (opening : Opening) : Act Bool := do
  let s ← get
  match opening with
  | .path stream access path =>
    match s.system.openPath s.descriptors access path with
    | .ok (channel, system) =>
      set { s with system }
      Act.setDescriptor stream (some channel)
      return true
    | .error cause =>
      Act.warn (openingComplaint access path cause)
      return false
  | .text stream bytes =>
    let (channel, system) := s.system.add (.pipe bytes.toByteArray)
    set { s with system }
    Act.setDescriptor stream (some channel)
    return true
  | .same stream none =>
    Act.setDescriptor stream none
    return true
  | .same stream (some other) =>
    match s.descriptors.lookup other with
    | some channel =>
      Act.setDescriptor stream (some channel)
      return true
    | none =>
      Act.warn s!"{other}: Bad file descriptor"
      return false

/-- Redirects streams one after the other, up to the first for which it is not possible. -/
def openAll : List Opening → Act Bool
  | [] => return true
  | opening :: rest => do if ← openOne opening then openAll rest else return false

/-- Acts with streams redirected, or complains. `special` says that the script ends then. -/
def redirecting (keep special : Bool) (openings : List Opening) (action : Act Unit) : Act Unit :=
  Act.restoring (fun before after => if keep then after else { after with descriptors := before.descriptors }) do
    if ← openAll openings then action
    else
      Act.setStatus 2
      if special then throw .failed

/-! ### Programs -/

/-- The path of a program, which is searched for in the directories that a variable lists. -/
def findProgram (s : State) (name : String) : Except FileError String :=
  if name.contains '/' then .ok name
  else search .notFound (((s.value? "PATH").getD "").splitOn ":")
where
  /-- Searches directories. `cause` says what has stood in the way so far. -/
  search (cause : FileError) : List String → Except FileError String
    | [] => .error cause
    | directory :: rest =>
      let path := if directory.isEmpty then name else directory ++ "/" ++ name
      match s.system.workspace.find path with
      | .ok (.file _ _) | .ok (.program _) => .ok path
      | .ok _ => search .permissionDenied rest
      | .error .notFound | .error .notDirectory => search cause rest
      | .error cause => search cause rest

def signalText? (signal : Nat) : Option String :=
  [(1, "Hangup"), (3, "Quit"), (6, "Aborted"), (9, "Killed"), (11, "Segmentation fault"), (15, "Terminated")].lookup signal

/-- Launches a program, waits for it, and gives its status as the shell has it. -/
def launchProgram (launch : Launcher) (name : String) (args : List String) : Act Nat := do
  let s ← get
  let complain (cause : FileError) : Act Unit :=
    let reason := if cause = .notFound ∨ cause = .notDirectory then "not found" else cause.reason
    Act.warn s!"{name}: {reason}"
  match findProgram s name with
  | .error cause =>
    complain cause
    return 127
  | .ok path =>
    match launch s.system path { name, args, environment := s.environment, descriptors := s.descriptors } with
    | .ok (system, .exited code) =>
      set { s with system }
      return code
    | .ok (system, .killed signal) =>
      set { s with system }
      let _ ← Act.put 2 (Text.Utf8.encode (((signalText? signal).map (· ++ "\n")).getD ""))
      return 128 + signal
    | .error cause =>
      complain cause
      return if cause ∈ [.notFound, .notDirectory, .nameTooLong, .tooManyLevels] then 127 else 126

/-! ### Simple commands -/

/-- The shell's own command of a name, whether or not it runs others. -/
def commandOf? (launch : Launcher) (ev : Evaluator) (tested : Bool) (name : String) : Option Builtin :=
  match name with
  | "eval" => some fun args => do
    Act.setStatus 0
    ev.runText tested (" ".intercalate args)
    return (← get).status
  | "exec" => some fun args => do
    match args with
    | [] => return 0
    | name :: args =>
      Act.setStatus (← launchProgram launch name args)
      throw .exited
  | _ => builtin? name

/-- Runs one of the shell's own commands. Unless it is special, the script survives its complaints. -/
def runBuiltin (special : Bool) (name : String) (builtin : Builtin) (args : List String) : Act Unit :=
  Act.restoring (fun before after => { after with caller := before.caller }) do
    modify fun s => { s with caller := some name }
    try
      let status ← builtin args
      Act.setStatus status
    catch stop =>
      if stop = .failed ∧ ¬special then return else throw stop

def assignAll (ev : Evaluator) (exported : Bool) (assignments : List (String × Word)) : Act (List String) :=
  assignments.mapM fun (name, word) => do
    let value ← ev.text word
    Act.assign name value exported
    return name ++ "=" ++ value

def restoreValues (names : List String) (before after : State) : State :=
  let kept := after.values.filter fun entry => !names.contains entry.1
  { after with values := before.values.filter (fun entry => names.contains entry.1) ++ kept }

/-- Runs a simple command. What it assigns stays, if there is no command or one that is special, and holds for the command
only otherwise. -/
def runSimple (launch : Launcher) (ev : Evaluator) (tested : Bool) (line : Nat) (assignments : List (String × Word))
    (words : List Word) (redirections : List Redirection) : Act Unit := do
  modify fun s => { s with line, substituted := 0 }
  let args := (← words.mapM ev.fields).flatten
  let openings ← redirections.mapM (expandRedirection ev)
  let special := args.head?.any specialNames.contains
  let stays := args.isEmpty || special
  let names := if stays then [] else assignments.map (·.1)
  redirecting (args = ["exec"]) special openings do
    Act.restoring (restoreValues names) do
      let shown ← assignAll ev (!stays || args.head? = some "exec") assignments
      if ← Act.isSet 'x' then
        let _ ← Act.put 2 (Text.Utf8.encode ("+ " ++ " ".intercalate (shown ++ args) ++ "\n"))
      match args with
      | [] => Act.setStatus (← get).substituted
      | name :: args =>
        match commandOf? launch ev tested name with
        | some builtin => runBuiltin special name builtin args
        | none => Act.setStatus (← launchProgram launch name args)

/-! ### Compound commands -/

/-- Runs one round of a loop, and tells whether there may be another, with the status of this one. -/
def round (action : Act (Bool × Nat)) : Act (Bool × Nat) := do
  try
    action
  catch stop =>
    match stop with
    | .broken levels => if levels ≤ 1 then return (false, 0) else throw (.broken (levels - 1))
    | .continued levels => if levels ≤ 1 then return (true, 0) else throw (.continued (levels - 1))
    | _ => throw stop

def looping (action : Act Nat) : Act Unit := do
  let status ← Act.restoring (fun before after => { after with loops := before.loops }) do
    modify fun s => { s with loops := s.loops + 1 }
    action
  Act.setStatus status

def runLoop (ev : Evaluator) (tested succeeds : Bool) (test body : Command) : Nat → Nat → Act Nat
  | 0, status => return status
  | rounds + 1, status => do
    let (goesOn, status) ← round do
      ev.run true test
      if ((← get).status == 0) == succeeds then
        ev.run tested body
        return (true, (← get).status)
      else return (false, status)
    if goesOn then runLoop ev tested succeeds test body rounds status else return status

def runEach (ev : Evaluator) (tested : Bool) (name : String) (body : Command) : List String → Nat → Act Nat
  | [], status => return status
  | value :: rest, _ => do
    let (goesOn, status) ← round do
      Act.assign name value false
      ev.run tested body
      return (true, (← get).status)
    if goesOn then runEach ev tested name body rest status else return status

/-- Runs the commands of the first case that a text matches. -/
def runChoice (ev : Evaluator) (tested : Bool) (text : List UInt8) : List (List Word × Command) → Act Unit
  | [] => Act.setStatus 0
  | (patterns, body) :: rest => do
    if ← patterns.anyM (fun word => return (← ev.pattern word).matches text) then
      match body with
      | .nothing => Act.setStatus 0
      | body => ev.run tested body
    else runChoice ev tested text rest

/-- Runs commands of which each reads what the one before it writes, and gives the status of the last one. -/
def runPipeline (ev : Evaluator) (tested : Bool) (input : Option Nat) : List Command → Act Nat
  | [] => return 0
  | [last] => inSubshell do
    if input.isSome then Act.setDescriptor 0 input
    ev.run tested last
  | command :: rest => do
    let (channel, system) := (← get).system.add (.pipe .empty)
    modify fun s => { s with system }
    let _ ← inSubshell do
      if input.isSome then Act.setDescriptor 0 input
      Act.setDescriptor 1 (some channel)
      ev.run tested command
    runPipeline ev tested (some channel) rest

/-! ### All commands -/

/-- The number of rounds after which a loop ends in any case. -/
def patience : Nat := 1000000

/-- Runs a command. If its failure is no test, it may end the script. -/
def runCommand (launch : Launcher) (ev : Evaluator) (tested : Bool) (command : Command) : Act Unit := do
  let mayEnd ← perform
  if mayEnd && !tested && (← Act.isSet 'e') && (← get).status ≠ 0 then throw .exited
where
  /-- Runs a command, and tells whether its failure may end the script. -/
  perform : Act Bool := do
    match command with
    | .nothing => return false
    | .simple line assignments words redirections =>
      runSimple launch ev tested line assignments words redirections
      return true
    | .pipeline commands =>
      Act.setStatus (← runPipeline ev tested none commands)
      return true
    | .negated command =>
      ev.run true command
      Act.setStatus (if (← get).status = 0 then 1 else 0)
      return false
    | .both first second =>
      ev.run true first
      if (← get).status = 0 then ev.run tested second
      return false
    | .either first second =>
      ev.run true first
      if (← get).status ≠ 0 then ev.run tested second
      return false
    | .sequence first second =>
      ev.run tested first
      ev.run tested second
      return false
    | .branch test whenTrue whenFalse =>
      ev.run true test
      if (← get).status = 0 then ev.run tested whenTrue
      else
        match whenFalse with
        | .nothing => Act.setStatus 0
        | whenFalse => ev.run tested whenFalse
      return false
    | .loop succeeds test body =>
      looping (runLoop ev tested succeeds test body patience 0)
      return false
    | .each line name words body =>
      modify fun s => { s with line }
      let values ← words.mapM ev.fields
      looping (runEach ev tested name body values.flatten 0)
      return false
    | .choice line word cases =>
      modify fun s => { s with line }
      runChoice ev tested (Text.Utf8.encode (← ev.text word)) cases
      return false
    | .subshell line body =>
      modify fun s => { s with line }
      Act.setStatus (← inSubshell (ev.run tested body))
      return true
    | .redirected line command redirections =>
      modify fun s => { s with line }
      let openings ← redirections.mapM (expandRedirection ev)
      redirecting false false openings (ev.run tested command)
      return false

mutual

/-- Runs a command, with what is nested in it up to a depth. -/
def runAt (launch : Launcher) : Nat → Bool → Command → Act Unit
  | 0, _, _ => throw .exited
  | depth + 1, tested, command => runCommand launch ⟨runAt launch depth, expandAt launch depth⟩ tested command

def expandAt (launch : Launcher) : Nat → Manner → Word → Act (List Glyph)
  | 0, _, _ => throw .exited
  | depth + 1, manner, word => expandParts ⟨runAt launch depth, expandAt launch depth⟩ manner word

end

/-- How deep commands and scripts inside scripts may be nested. -/
def depthLimit : Nat := 100000

def run (launch : Launcher) (s : State) (text : String) : System × ExitStatus :=
  let ev : Evaluator := ⟨runAt launch depthLimit, expandAt launch depthLimit⟩
  match (ev.runText false text).run s with
  | .error (.killed signal) s => (s.system, .killed signal)
  | .ok _ s | .error _ s => (s.system, .exited (s.status % 256))

end MonkeyLang.Host.Shell
