import MonkeyLang.Host.Programs
import MonkeyLang.Host.Shell.Running
/-!
# Launching programs

A host for the tools: the programs that it has run in a workspace. A name without a slash is looked up in the directories
that hold programs; any other is a path. Some programs are always there. Any other is a script, whose first line says what
interprets it.
-/

namespace MonkeyLang.Host

/-! ### Finding programs -/

/-- The directories that are searched for programs, unless something else is said. -/
def searchPath : String := "/usr/local/sbin:/usr/local/bin:/usr/sbin:/usr/bin:/sbin:/bin"

/-- Searches directories for a program. `forbidden` says whether something of that name has been found that may not be
run. -/
def search (w : Workspace) (name : String) (forbidden : Bool) : List String → Except FileError String
  | [] => .error (if forbidden then .permissionDenied else .notFound)
  | directory :: rest =>
    let path := if directory.isEmpty then name else directory ++ "/" ++ name
    match w.runnable path with
    | .ok _ => .ok path
    | .error .permissionDenied => search w name true rest
    | .error .notFound | .error .notDirectory => search w name forbidden rest
    | .error cause => .error cause

def resolve (w : Workspace) (directories program : String) : Except FileError String :=
  if program.contains '\x00' then .error .nulInProgram
  else if program.isEmpty then .error .notFound
  else if program.contains '/' then .ok program
  else search w program false (directories.splitOn ":")

/-! ### Interpreters -/

def isBlankByte (b : UInt8) : Bool := b == 0x20 || b == 0x09

/-- The name of an interpreter and its argument, from what stands between the mark and the end of the line. -/
def interpreterOf? (line : List UInt8) : Option (String × Option String) :=
  let line := line.dropWhile isBlankByte
  let name := line.takeWhile fun b => !isBlankByte b && b != 0
  let behind := line.drop name.length
  let argument := match behind with
    | b :: _ =>
      if isBlankByte b ∧ ¬behind.all isBlankByte then
        some (Text.Utf8.decodeLossy ((behind.dropWhile isBlankByte).takeWhile (· ≠ 0)))
      else none
    | [] => none
  if line.isEmpty then none else some (Text.Utf8.decodeLossy name, argument)

/-- The interpreter that the first line of a script names behind its mark, with an argument. Only the first 256 bytes are
looked at, and they have to show the end of the line or at least the end of the name. Zeros stand for what is missing in a
shorter file. -/
def interpreter? (bytes : List UInt8) : Option (String × Option String) :=
  let buffer := bytes.take 256
  match buffer with
  | 0x23 :: 0x21 :: rest =>
    let trim (line : List UInt8) : List UInt8 := (line.reverse.dropWhile isBlankByte).reverse
    if 0x0A ∈ rest then interpreterOf? (trim (rest.takeWhile (· ≠ 0x0A)))
    else
      let padded := rest ++ List.replicate (256 - buffer.length) 0
      if (padded.dropWhile isBlankByte).any fun b => isBlankByte b || b == 0 then interpreterOf? (trim (padded.take 253))
      else none
  | _ => none

/-! ### Shells -/

/-- Runs the text of a script. The first argument of the shell is what the script is called. -/
def runText (launch : Launcher) (p : Process) (options : List Char) (args : List String) (text : String) : Job ExitStatus := do
  let values := p.environment.map fun (name, value) => (name, { value, exported := true : Shell.Variable })
  let (system, status) := Shell.run launch
    { system := ← get, descriptors := p.descriptors, name := args.headD p.name, args := args.tail, values, options } text
  set system
  return status

/-- A shell, which runs the script that its first argument leads to, or the text behind `-c`. -/
def runShell (launch : Launcher) (p : Process) (options : List Char) : List String → Job ExitStatus
  | "-c" :: text :: args => runText launch p options args text
  | ["-c"] => do
    p.complain "0: -c requires an argument"
    return .exited 2
  | [] => do
    let s ← get
    let bytes := ((p.descriptors.lookup 0).map s.peek).getD []
    runText launch p options [] (Text.Utf8.decodeLossy (bytes.filter (· ≠ 0)))
  | arg :: rest => do
    match arg.toList with
    | '-' :: c :: cs =>
      match (c :: cs).find? fun c => !Shell.optionLetters.contains c with
      | some c =>
        p.complain s!"0: Illegal option -{c}"
        return .exited 2
      | none => runShell launch p (c :: cs ++ options) rest
    | _ =>
      match (← get).workspace.read arg with
      | .ok bytes => runText launch p options (arg :: rest) (Text.Utf8.decodeLossy (bytes.filter (· ≠ 0)))
      | .error cause =>
        p.complain ("0: " ++ Shell.openingComplaint .read arg cause)
        return .exited 2

/-! ### Other programs -/

/-- The program `env`: it launches another program, in an environment that arguments add to. -/
def runEnv (launch : Launcher) (p : Process) : Job ExitStatus := do
  let assigned := p.args.takeWhile (·.contains '=')
  let environment := assigned.foldl (fun environment arg =>
    let (name, value) := Shell.assignmentOf arg
    (name, value.getD "") :: environment.filter (·.1 ≠ name)) p.environment
  match p.args.drop assigned.length with
  | [] =>
    let lines := environment.map fun (name, value) => name ++ "=" ++ value ++ "\n"
    p.put 1 (Text.Utf8.encode ("".intercalate lines))
    return .exited 0
  | program :: args =>
    let s ← get
    let outcome := do
      let path ← resolve s.workspace ((environment.lookup "PATH").getD searchPath) program
      launch s path { p with name := program, args, environment }
    match outcome with
    | .ok (s, status) =>
      set s
      return status
    | .error cause =>
      p.complain s!"'{program}': {cause.reason}"
      if cause = .notFound ∧ program.toList.any Char.isWhitespace then
        p.complain "use -[v]S to pass options in shebang lines"
      return .exited (if cause = .notFound then 127 else 126)

/-- What a program that is always there does. Time does not pass, and `sleep` is over at once. -/
def runStandard (launch : Launcher) (program : String) (p : Process) : Job ExitStatus :=
  match program with
  | "cat" => Cat.run p
  | "echo" => Echo.run p
  | "env" => runEnv launch p
  | "false" => return .exited 1
  | "bash" | "dash" | "sh" => runShell launch p [] p.args
  | _ => return .exited 0

/-! ### Launching -/

inductive Form where
  | standard (program : String)
  | script (interpreter : String) (argument : Option String)
deriving DecidableEq, Repr

/-- What there is to run at a path. The empty name of an interpreter stands for the working directory. -/
def form (w : Workspace) (path : String) : Except FileError Form := do
  match ← w.runnable path with
  | .program program => return .standard program
  | .file bytes _ =>
    match interpreter? bytes with
    | some (name, argument) => return .script (if name.isEmpty then "." else name) argument
    | none => throw .wrongFormat
  | .directory | .sink => throw .permissionDenied

/-- Runs the program at a path. A script is handed to its interpreter behind the argument for it, which may be repeated a
number of times. -/
def runPath (launch : Launcher) (s : System) : Nat → String → Process → Except FileError (System × ExitStatus)
  | levels, path, p => do
    match levels, ← form s.workspace path with
    | _, .standard program =>
      let (status, s) := (runStandard launch program p).run s
      return (s, status)
    | 0, .script interpreter _ =>
      let _ ← s.workspace.runnable interpreter
      throw .tooManyLevels
    | levels + 1, .script interpreter argument =>
      runPath launch s levels interpreter { p with name := interpreter, args := argument.toList ++ path :: p.args }

/-- Launches programs, which may launch others in turn, up to a depth. A shell that is to launch a file without the mark of
a script takes it for a script of its own. -/
def launcher : Nat → Launcher
  | 0 => fun _ _ _ => .error .tooManyLevels
  | depth + 1 => fun s path p =>
    let inner : Launcher := fun s path p =>
      match launcher depth s path p with
      | .error .wrongFormat => launcher depth s "/bin/sh" { p with name := path, args := path :: p.args }
      | outcome => outcome
    runPath inner s 5 path p

def launch : Launch := fun w program args => do
  let path ← resolve w searchPath program
  let system : System := { workspace := w, channels := #[.sink, .pipe .empty, .pipe .empty] }
  let (after, status) ← launcher 64 system path
    { name := program
      args
      environment := [("PATH", searchPath), ("HOME", "/root")]
      descriptors := [(0, 0), (1, 1), (2, 2)] }
  return (⟨status, after.peek 1, after.peek 2⟩, after.workspace)

end MonkeyLang.Host
