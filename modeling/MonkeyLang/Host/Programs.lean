import MonkeyLang.Host.Escapes
import MonkeyLang.Host.QuotedName
import MonkeyLang.Host.System
/-!
# The programs `echo` and `cat`

`echo` writes its arguments with blanks between them. Leading arguments of a dash and some of the letters `n`, `e` and `E`
are options: `n` leaves out the end of the line, and `e` makes backslashes start escapes.

`cat` writes files one behind the other, or its input if no file is named. Options number the lines, drop repeated empty
lines, and make line ends, tabs and control characters visible. A file that cannot be read is reported and left out.
-/

namespace MonkeyLang.Host

/-! ### `echo` -/

namespace Echo

def escapes : Escapes := { zero := true, quote := false, hexadecimal := true }

def isOption (arg : String) : Bool :=
  arg.startsWith "-" && 1 < arg.length && (arg.toList.drop 1).all fun c => c == 'n' || c == 'e' || c == 'E'

/-- Whether the last of the letters `e` and `E` in some options is `e`. -/
def decodes (options : List String) : Bool :=
  ((options.flatMap String.toList).filter fun c => c == 'e' || c == 'E').getLast? == some 'e'

def run (p : Process) : Job ExitStatus := do
  let options := p.args.takeWhile isOption
  let text := " ".intercalate (p.args.drop options.length)
  let (bytes, stopped) := if decodes options then escapes.decode text else (Text.Utf8.encode text, false)
  let bytes := if stopped || options.any (·.contains 'n') then bytes else bytes ++ [0x0A]
  if bytes.isEmpty || p.has 1 then
    p.put 1 bytes
    return .exited 0
  else
    p.complain "write error: Bad file descriptor"
    return .exited 1

end Echo

/-! ### `cat` -/

namespace Cat

structure Options where
  /-- Number the lines. -/
  number : Bool := false
  /-- Number the lines that are not empty. -/
  numberFilled : Bool := false
  /-- Write only the first of several empty lines. -/
  squeeze : Bool := false
  showControls : Bool := false
  showEnds : Bool := false
  showTabs : Bool := false
deriving DecidableEq, Repr

def Options.set? (o : Options) (letter : Char) : Option Options :=
  match letter with
  | 'A' => some { o with showControls := true, showEnds := true, showTabs := true }
  | 'b' => some { o with numberFilled := true }
  | 'e' => some { o with showControls := true, showEnds := true }
  | 'E' => some { o with showEnds := true }
  | 'n' => some { o with number := true }
  | 's' => some { o with squeeze := true }
  | 't' => some { o with showControls := true, showTabs := true }
  | 'T' => some { o with showTabs := true }
  | 'u' => some o
  | 'v' => some { o with showControls := true }
  | _ => none

def longNames : List (String × Char) :=
  [("number-nonblank", 'b'), ("number", 'n'), ("squeeze-blank", 's'), ("show-nonprinting", 'v'), ("show-ends", 'E'),
    ("show-tabs", 'T'), ("show-all", 'A')]

/-- Sets the options of a cluster of letters, up to the first that is none. -/
def Options.setAll (o : Options) : List Char → Except String Options
  | [] => .ok o
  | c :: cs =>
    match o.set? c with
    | some o => o.setAll cs
    | none => .error s!"invalid option -- '{c}'"

/-- Sets the option with a long name, which may be cut short as long as it stands for one option only. -/
def Options.setLong (o : Options) (text : String) : Except String Options :=
  let name := String.ofList (text.toList.takeWhile (· ≠ '='))
  let candidates := match longNames.find? (·.1 = name) with
    | some entry => [entry]
    | none => longNames.filter (·.1.startsWith name)
  match candidates with
  | [] => .error s!"unrecognized option '--{text}'"
  | [(found, letter)] =>
    if name.length < text.length then .error s!"option '--{found}' doesn't allow an argument"
    else .ok ((o.set? letter).getD o)
  | several =>
    let possibilities := "".intercalate (several.map fun entry => s!" '--{entry.1}'")
    .error s!"option '--{text}' is ambiguous; possibilities:{possibilities}"

/-- Tells options from files, behind those already found. Options may stand anywhere in front of two dashes. -/
def arguments (o : Options) (files : List String) : List String → Except String (Options × List String)
  | [] => .ok (o, files)
  | arg :: rest =>
    match arg.toList with
    | ['-', '-'] => .ok (o, files ++ rest)
    | '-' :: '-' :: cs =>
      match o.setLong (String.ofList cs) with
      | .ok o => arguments o files rest
      | .error complaint => .error complaint
    | '-' :: c :: cs =>
      match o.setAll (c :: cs) with
      | .ok o => arguments o files rest
      | .error complaint => .error complaint
    | _ => arguments o (files ++ [arg]) rest

/-- A byte made visible by a caret and by `M-`. -/
def visible (b : UInt8) : List UInt8 :=
  let low (b : UInt8) : List UInt8 := if b < 32 then [0x5E, b + 64] else if b = 127 then [0x5E, 0x3F] else [b]
  if b < 128 then low b else [0x4D, 0x2D] ++ low (b - 128)

/-- A byte inside a line, as the options have it written. -/
def Options.written (o : Options) (b : UInt8) (next : Option UInt8) : List UInt8 :=
  if b = 9 then if o.showTabs then [0x5E, 0x49] else [b]
  else if o.showControls then visible b
  else if o.showEnds ∧ b = 13 ∧ next = some 10 then [0x5E, 0x4D]
  else [b]

def lineNumber (n : Nat) : List UInt8 :=
  let digits := toString n
  Text.Utf8.encode (String.ofList (List.replicate (6 - digits.length) ' ') ++ digits ++ "\t")

/-- Where the output is: the number of lines so far, and how many ends of lines are right in front, with one more at the
start of the text, up to three. -/
structure Position where
  lines : Nat := 0
  ends : Nat := 1

/-- Writes bytes behind those already written, which are in reverse. -/
def Options.layout (o : Options) (written : List UInt8) (place : Position) : List UInt8 → List UInt8 × Position
  | [] => (written.reverse, place)
  | b :: rest =>
    if b = 10 then
      if 1 < place.ends ∧ o.squeeze then o.layout written { place with ends := 3 } rest
      else
        let counted := 0 < place.ends ∧ o.number ∧ ¬o.numberFilled
        let lines := if counted then place.lines + 1 else place.lines
        let mark := (if counted then lineNumber lines else []) ++ if o.showEnds then [0x24] else []
        o.layout (10 :: mark.reverse ++ written) ⟨lines, min (place.ends + 1) 3⟩ rest
    else
      let counted := 0 < place.ends ∧ (o.number ∨ o.numberFilled)
      let lines := if counted then place.lines + 1 else place.lines
      let text := (if counted then lineNumber lines else []) ++ o.written b rest.head?
      o.layout (text.reverse ++ written) ⟨lines, 0⟩ rest

/-- Whether a channel reads a file that the output is being written to. -/
def readsOutput (s : System) (p : Process) (channel : Nat) : Bool :=
  match s.channels[channel]?, (p.descriptors.lookup 1).bind (s.channels[·]?) with
  | some (.file names offset _), some (.file target written appends) =>
    names = target && offset < (if appends then (s.contents target).length else written)
  | _, _ => false

/-- Writes the contents of what a channel leads to, and tells whether that was possible. -/
def copy (o : Options) (p : Process) (path : String) (channel : Except FileError Nat) (place : Position) :
    Job (Bool × Position) := do
  let complain (reason : String) : Job (Bool × Position) := do
    p.complain (QuotedName.encode (Text.Utf8.encode path) ++ ": " ++ reason)
    return (false, place)
  match channel with
  | .error cause => complain cause.reason
  | .ok channel =>
    if readsOutput (← get) p channel then complain "input file is output file"
    else
      match ← Process.readChannel channel with
      | .error cause => complain cause.reason
      | .ok bytes =>
        let (text, place) := if o = {} then (bytes, place) else o.layout [] place bytes
        p.put 1 text
        return (true, place)

def copyAll (o : Options) (p : Process) (place : Position) : List String → Job Bool
  | [] => return true
  | path :: rest => do
    let channel ← if path = "-" then pure ((p.descriptors.lookup 0).elim (.error .badDescriptor) .ok)
      else p.openFile path
    let (done, place) ← copy o p path channel place
    return (← copyAll o p place rest) && done

def run (p : Process) : Job ExitStatus := do
  match arguments {} [] p.args with
  | .error complaint =>
    p.complain s!"{complaint}\nTry '{p.name} --help' for more information."
    return .exited 1
  | .ok (o, files) =>
    if !p.has 1 then
      p.complain "standard output: Bad file descriptor"
      return .exited 1
    let files := if files.isEmpty then ["-"] else files
    let done ← copyAll o p {} files
    return .exited (if done then 0 else 1)

end Cat

end MonkeyLang.Host
