import MonkeyLang.Toolchain
/-!
# The command line

`monkeyc compile FILE`, `monkeyc run` and `monkeyc disasm`, with options for a configuration file and for the layout of the
answer. Options may stand in front of the command or behind it; an option given in both places counts as given behind.
Answers are JSON, except for `disasm`. The exit status is 0 if all went well, 1 if not, and 2 if the arguments make no
sense.
-/

namespace MonkeyLang.CommandLine

inductive Command where
  | compile (file : String)
  | run
  | disasm
deriving DecidableEq, Repr

inductive Request where
  | version
  | help
  | invoke (config : Option String) (pretty : Bool) (command : Command)
deriving DecidableEq, Repr

/-- The options found so far at one level of the command line. -/
structure Options where
  config : Option String := none
  pretty : Bool := false
deriving DecidableEq, Repr

/-- The options of a whole command line, given those in front of the command and those behind it. -/
def Options.merge (outer inner : Options) : Options := ⟨inner.config.or outer.config, outer.pretty || inner.pretty⟩

inductive Argument where
  /-- Two dashes: what follows is no option. -/
  | separator
  | long (name : String) (value : Option String)
  | short (name : Char) (rest : List Char)
  | plain (text : String)
deriving DecidableEq, Repr

/-- A long option without its dashes, and the value behind its equals sign. -/
def splitLong (cs : List Char) : Argument :=
  let name := cs.takeWhile (· ≠ '=')
  .long (String.ofList name) (if name.length < cs.length then some (String.ofList (cs.drop (name.length + 1))) else none)

def Argument.ofString (arg : String) : Argument :=
  match arg.toList with
  | ['-', '-'] => .separator
  | '-' :: '-' :: cs => splitLong cs
  | '-' :: c :: cs => .short c cs
  | _ => .plain arg

/-- The value that a short option has right behind it. -/
def attached? (rest : List Char) : Option String :=
  match rest with
  | [] => none
  | '=' :: cs => some (String.ofList cs)
  | cs => some (String.ofList cs)

/-- Sets the configuration file, which has a name and is set once. -/
def Options.setConfig (options : Options) (value : String) : Option Options :=
  if value.isEmpty ∨ options.config.isSome then none else some { options with config := some value }

def Options.setPretty (options : Options) : Option Options :=
  if options.pretty then none else some { options with pretty := true }

inductive Meaning where
  | config (value : String)
  /-- An option whose value is the next argument. -/
  | configFollows
  | pretty
  | version
  | help
  | plain (text : String)
  | separator
  | nothing
deriving DecidableEq, Repr

def Argument.meaning : Argument → Meaning
  | .separator => .separator
  | .plain text => .plain text
  | .long "config" (some value) => .config value
  | .long "config" none => .configFollows
  | .long "pretty" none => .pretty
  | .long "version" none => .version
  | .long "help" none => .help
  | .long _ _ => .nothing
  | .short 'c' rest =>
    match attached? rest with
    | some value => .config value
    | none => .configFollows
  | .short 'V' _ => .version
  | .short 'h' _ => .help
  | .short _ _ => .nothing

def Options.set? (options : Options) : Meaning → Option Options
  | .config value => options.setConfig value
  | .configFollows => some options
  | .pretty => options.setPretty
  | _ => none

inductive CommandArguments where
  | help
  | given (options : Options) (files : List String)
deriving DecidableEq, Repr

/-- Adds a file, which has a name, if there is room for it. -/
def addFile? (capacity : Nat) (files : List String) (file : String) : Option (List String) :=
  if files.length < capacity ∧ ¬file.isEmpty then some (files ++ [file]) else none

/-- Reads the arguments behind a command that takes at most `capacity` files. With `onlyFiles` they are no options any
more, and with `awaited` the first one is the name of the configuration file, which must not look like an option. The
first argument that makes no sense ends the reading, also in front of a request for help. -/
def commandArguments? (capacity : Nat) (options : Options) (files : List String) (onlyFiles awaited : Bool) :
    List String → Option CommandArguments
  | [] => if awaited then none else some (.given options files)
  | arg :: rest =>
    let meaning := (Argument.ofString arg).meaning
    if awaited then
      match meaning with
      | .plain value =>
        match options.setConfig value with
        | some options => commandArguments? capacity options files false false rest
        | none => none
      | _ => none
    else if onlyFiles then
      match addFile? capacity files arg with
      | some files => commandArguments? capacity options files true false rest
      | none => none
    else
      match meaning with
      | .plain file =>
        match addFile? capacity files file with
        | some files => commandArguments? capacity options files false false rest
        | none => none
      | .separator => commandArguments? capacity options files true false rest
      | .help => some .help
      | _ =>
        match options.set? meaning with
        | some options => commandArguments? capacity options files false (meaning = .configFollows) rest
        | none => none

def capacity? (name : String) : Option Nat := [("compile", 1), ("run", 0), ("disasm", 0)].lookup name

def command? (name : String) (files : List String) : Option Command :=
  match name, files with
  | "compile", [file] => some (.compile file)
  | "run", [] => some .run
  | "disasm", [] => some .disasm
  | _, _ => none

/-- Whether there is help on the given topics: in general, on a command, or on help. -/
def isHelpTopic : List String → Bool
  | [] => true
  | [name] => (capacity? name).isSome || name == "help"
  | _ => false

/-- The options with a configuration file that has been named but not set. -/
def Options.settle (options : Options) : Option String → Option Options
  | none => some options
  | some value => options.setConfig value

/-- Reads the arguments behind the name of a command. Help on the command is given before a configuration file that was
named in front of it is looked at. -/
def commandRequest? (outer : Options) (named : Option String) (name : String) (rest : List String) : Option Request :=
  if name = "help" then
    if isHelpTopic rest then some .help else none
  else do
    let capacity ← capacity? name
    match ← commandArguments? capacity {} [] false false rest with
    | .help => return .help
    | .given inner files =>
      let command ← command? name files
      let options := (← outer.settle named).merge inner
      return .invoke options.config options.pretty command

/-- Reads arguments from the first one on. With `awaited` the first one is the name of the configuration file, and `named`
is such a name that has not been set yet. -/
def requestFrom? (options : Options) (named : Option String) (awaited : Bool) : List String → Option Request
  | [] => none
  | arg :: rest =>
    let meaning := (Argument.ofString arg).meaning
    match meaning with
    | .plain text => if awaited then requestFrom? options (some text) false rest else commandRequest? options named text rest
    | _ =>
      if awaited then none
      else
        match options.settle named with
        | none => none
        | some options =>
          match meaning with
          | .version => some .version
          | .help => some .help
          | _ =>
            match options.set? meaning with
            | some options => requestFrom? options none (meaning = .configFollows) rest
            | none => none

def request? (args : List String) : Option Request := requestFrom? {} none false args

/-! ### Running a command line -/

inductive Outcome where
  /-- The arguments make no sense. -/
  | usage
  | failed (cause : ToolError)
  | finished (success : Bool) (output : String)

def Outcome.exitCode : Outcome → Nat
  | usage => 2
  | failed _ => 1
  | finished success _ => if success then 0 else 1

def Outcome.output : Outcome → String
  | finished _ output => output
  | _ => ""

def usageText : String :=
  "usage: monkeyc [-c FILE] [--pretty] compile FILE\n" ++
    "       monkeyc [-c FILE] [--pretty] run\n" ++
    "       monkeyc [-c FILE] disasm\n"

def Outcome.complaint : Outcome → String
  | usage => usageText
  | failed cause => s!"monkeyc: {cause.message}\n"
  | finished _ _ => ""

def versionText : String := "monkeyc 0.1.0\n"

def runCommand (launch : Launch) (config : Config) (pretty : Bool) (w : Workspace) :
    Command → Except Imbalance (Outcome × Workspace)
  | .compile file =>
    match w.readText file with
    | .error cause => .ok (.failed cause, w)
    | .ok source => do
      let (response, w) ← Toolchain.compile config source w
      return (.finished response.isSuccess (response.toJson.write pretty ++ "\n"), w)
  | .run =>
    let (result, w) := Toolchain.run launch config w
    let answer := Json.object [("result", .string result)]
    .ok (.finished (result.endsWith "...finished") (answer.write pretty ++ "\n"), w)
  | .disasm =>
    match Toolchain.disassemble config w with
    | .ok text => .ok (.finished true text, w)
    | .error cause => .ok (.failed cause, w)

def run (launch : Launch) (args : List String) (setting : String → Option String) (w : Workspace) :
    Except Imbalance (Outcome × Workspace) :=
  match request? args with
  | none => .ok (.usage, w)
  | some .version => .ok (.finished true versionText, w)
  | some .help => .ok (.finished true usageText, w)
  | some (.invoke path pretty command) =>
    match Config.load w path setting with
    | .error cause => .ok (.failed cause, w)
    | .ok config => runCommand launch config pretty w command

end MonkeyLang.CommandLine
