import MonkeyLang.Host.Shell.Words
/-!
# Reading commands

Reads tokens, one of which can be put back, and the commands that they make up, one line of them at a time, so that a
complaint about a line comes after the lines above it have been run. A document below a line is cut out of the text as soon
as its mark is read. Nesting is followed up to a depth that no text of its length can exceed.
-/

namespace MonkeyLang.Host.Shell.Reading

/-! ### Tokens -/

def skipBlanks : Reading Unit := do
  let _ ← takeWhile fun c => c == ' ' || c == '\t'
  if (← peek?) = some '#' then modify fun r => { r with rest := r.rest.dropWhile (· ≠ '\n') }

def arrow : Reading String := do
  match ← takeRaw? with
  | some '<' =>
    if ← accept '<' then return if ← accept '-' then "<<-" else "<<"
    else return if ← accept '&' then "<&" else "<"
  | _ =>
    if ← accept '>' then return ">>"
    else return if ← accept '&' then ">&" else ">"

/-- Reads a token that has not been read yet. A digit right in front of an arrow says which stream is redirected. -/
def freshToken (inner : Inner) : Reading Token := do
  skipBlanks
  match ← peek? with
  | none => return .endOfText
  | some '\n' =>
    let _ ← takeRaw?
    return .newline
  | some c =>
    if c = '&' ∨ c = '|' ∨ c = ';' then
      let _ ← takeRaw?
      return .operator (if ← accept c then String.ofList [c, c] else c.toString)
    else if c = '(' ∨ c = ')' then
      let _ ← takeRaw?
      return .operator c.toString
    else
      let parts ← inner.parts .word
      let next ← peek?
      match parts, next with
      | [], some '<' => return .redirection 0 (← arrow)
      | [], some '>' => return .redirection 1 (← arrow)
      | [.plain n], some d =>
        if n.isDigit && (d = '<' || d = '>') then return .redirection (n.toNat - '0'.toNat) (← arrow)
        else return .word parts
      | _, _ => return .word parts

def skipNewlines (inner : Inner) (token : Token) : Reading Token :=
  iterate (fun token => do
    match token with
    | .newline => return .inl (← freshToken inner)
    | token => return .inr token) token

/-- Reads a token, behind line ends if it may stand there, and as a keyword if it may be one. -/
def token (inner : Inner) (classify acrossLines : Bool) : Reading Token := do
  let r ← get
  let token ← match r.held with
    | some token =>
      set { r with held := none }
      pure token
    | none => freshToken inner
  let token ← if acrossLines then skipNewlines inner token else pure token
  return if classify then token.classified else token

/-- Puts a token back. -/
def hold (token : Token) : Reading Unit := modify fun r => { r with held := some token }

def keyword (inner : Inner) (name : String) : Reading Unit := do
  match ← token inner true false with
  | .keyword found => if found = name then return else unexpected (.keyword found) (some name)
  | token => unexpected token (some name)

/-! ### Redirections -/

/-- Whether a word is the mark of a document in which nothing is replaced, and the text of the mark. -/
def documentMark : Word → Bool × List Char
  | [] => (false, [])
  | part :: rest =>
    let (quoted, cs) := documentMark rest
    match part with
    | .plain c => (quoted, c :: cs)
    | .literal text => (true, text ++ cs)
    | .quotes parts => (true, (Word.plainText? parts).getD [] ++ cs)
    | _ => (quoted, cs)

/-- Cuts lines off up to one that is a mark, and tells how many that are. `n` is at least the number of lines. -/
def cutDocument (mark : List Char) (stripTabs : Bool) : Nat → List Char → List Char × List Char × Nat
  | 0, cs => ([], cs, 0)
  | _, [] => ([], [], 0)
  | n + 1, cs =>
    let line := cs.takeWhile (· ≠ '\n')
    let below := (cs.drop line.length).drop 1
    let stripped := if stripTabs then line.dropWhile (· = '\t') else line
    if stripped = mark then ([], below, 1)
    else
      let (document, rest, lines) := cutDocument mark stripTabs n below
      let lineEnd := if line.length < cs.length then ['\n'] else []
      (stripped ++ lineEnd ++ document, rest, lines + 1)

/-- Cuts the document out that stands below the current line. -/
def document (inner : Inner) (mark : Word) (stripTabs : Bool) : Reading Word := do
  let r ← get
  let (quoted, text) := documentMark mark
  let line := r.rest.takeWhile (· ≠ '\n')
  let below := (r.rest.drop line.length).drop 1
  let (document, after, lines) := cutDocument text stripTabs (below.length + 1) below
  set { r with rest := line ++ '\n' :: after, skipped := r.skipped + lines }
  if quoted then return [.literal document]
  else inside document (r.line + 1 + r.skipped) (inner.parts .document)

def redirection (inner : Inner) (stream : Nat) (operator : String) : Reading Redirection := do
  match ← token inner false false with
  | .word parts =>
    match operator with
    | ">" => return .file stream .write parts
    | ">>" => return .file stream .append parts
    | "<<" => return .document stream (← document inner parts false)
    | "<<-" => return .document stream (← document inner parts true)
    | ">&" | "<&" => return .same stream parts
    | _ => return .file stream .read parts
  | token => unexpected token none

def redirections (inner : Inner) : Reading (List Redirection) :=
  iterate (fun found => do
    match ← token inner true false with
    | .redirection stream operator => return .inl (found ++ [← redirection inner stream operator])
    | token =>
      hold token
      return .inr found) []

/-! ### Commands -/

structure Simple where
  assignments : List (String × Word) := []
  words : List Word := []
  redirections : List Redirection := []

def simple (inner : Inner) : Reading Command := do
  let line := (← get).line
  iterate (fun (s : Simple) => do
    match ← token inner false false with
    | .word parts =>
      match Word.assignment? parts, s.words with
      | some assignment, [] => return .inl { s with assignments := s.assignments ++ [assignment] }
      | _, words => return .inl { s with words := words ++ [parts] }
    | .redirection stream operator =>
      return .inl { s with redirections := s.redirections ++ [← redirection inner stream operator] }
    | token =>
      hold token
      return .inr (.simple line s.assignments s.words s.redirections)) {}

/-- Reads the branches of a condition, behind a keyword that a test follows. -/
def branches (inner : Inner) (list : Reading Command) : Reading Command := do
  let first ← branchOf
  let (found, last) ← iterate (fun (found : List (Command × Command)) => do
    match ← token inner true false with
    | .keyword "elif" => return .inl ((← branchOf) :: found)
    | .keyword "else" => return .inr (found, ← list)
    | token =>
      hold token
      return .inr (found, .nothing)) [first]
  keyword inner "fi"
  return found.foldl (fun other (test, body) => .branch test body other) last
where
  /-- A test and the commands for when it succeeds. -/
  branchOf : Reading (Command × Command) := do
    let test ← list
    keyword inner "then"
    return (test, ← list)

def loop (inner : Inner) (list : Reading Command) (succeeds : Bool) : Reading Command := do
  let test ← list
  keyword inner "do"
  let body ← list
  keyword inner "done"
  return .loop succeeds test body

def eachLoop (inner : Inner) (list : Reading Command) (line : Nat) : Reading Command := do
  let name := (Word.plainText? (← token inner false false).asWord).getD []
  if !isName name then fail "Bad for loop variable"
  let words ← match ← token inner true true with
    | .keyword "in" =>
      iterate (fun found => do
        match ← token inner false false with
        | .word parts => return .inl (found ++ [parts])
        | .newline | .operator ";" => return .inr found
        | token => unexpected token none) []
    | .operator ";" => pure [[.quotes [.parameter "@" .value]]]
    | token =>
      hold token
      pure [[.quotes [.parameter "@" .value]]]
  match ← token inner true true with
  | .keyword "do" =>
    let body ← list
    keyword inner "done"
    return .each line (String.ofList name) words body
  | token => unexpected token (some "do")

/-- Reads the patterns of a case, of which the first has been read. -/
def patterns (inner : Inner) (first : Token) : Reading (List Word) :=
  iterate (fun found => do
    match ← token inner false false with
    | .operator "|" => return .inl (found ++ [(← token inner false false).asWord])
    | .operator ")" => return .inr found
    | token => unexpected token (some ")")) [first.asWord]

def choice (inner : Inner) (body : Reading Command) (line : Nat) : Reading Command := do
  let word ← match ← token inner false false with
    | .word parts => pure parts
    | token => fail s!"{token.description} unexpected (expecting word)"
  match ← token inner true true with
  | .keyword "in" =>
    let cases ← iterate (fun (found : List (List Word × Command)) => do
      match ← token inner true true with
      | .keyword "esac" => return .inr found
      | first =>
        let first ← match first with
          | .operator "(" => token inner false false
          | token => pure token
        let found := found ++ [(← patterns inner first, ← body)]
        match ← token inner true true with
        | .keyword "esac" => return .inr found
        | .operator ";;" => return .inl found
        | token => unexpected token (some ";;")) []
    return .choice line word cases
  | token => unexpected token (some "in")

/-- Reads a command, possibly behind line ends. `list` reads one or more commands, and `body` any number of them. -/
def command (inner : Inner) (list body : Reading Command) (acrossLines : Bool) : Reading Command := do
  let line := (← get).line
  let withRedirections (command : Command) : Reading Command := do
    match command, ← redirections inner with
    | command, [] => return command
    | .subshell line body, found => return .subshell line (.redirected line body found)
    | command, found => return .redirected line command found
  match ← token inner true acrossLines with
  | .keyword "if" => withRedirections (← branches inner list)
  | .keyword "while" => withRedirections (← loop inner list true)
  | .keyword "until" => withRedirections (← loop inner list false)
  | .keyword "for" => withRedirections (← eachLoop inner list line)
  | .keyword "case" => withRedirections (← choice inner body line)
  | .keyword "\x7b" =>
    let commands ← list
    keyword inner "\x7d"
    withRedirections commands
  | .operator "(" =>
    let commands ← list
    match ← token inner true false with
    | .operator ")" => withRedirections (.subshell line commands)
    | token => unexpected token (some ")")
  | .word parts =>
    hold (.word parts)
    simple inner
  | .redirection stream operator =>
    hold (.redirection stream operator)
    simple inner
  | token => unexpected token none

def pipeline (inner : Inner) (command : Bool → Reading Command) : Reading Command := do
  let negated ← match ← token inner true true with
    | .keyword "!" => pure true
    | token =>
      hold token
      pure false
  let first ← command false
  let found ← iterate (fun found => do
    match ← token inner false false with
    | .operator "|" => return .inl (found ++ [← command true])
    | token =>
      hold token
      return .inr found) [first]
  let all := match found with
    | [command] => command
    | commands => .pipeline commands
  return if negated then .negated all else all

def conditions (inner : Inner) (command : Bool → Reading Command) : Reading Command := do
  let first ← pipeline inner command
  iterate (fun found => do
    match ← token inner false false with
    | .operator "&&" => return .inl (.both found (← pipeline inner command))
    | .operator "||" => return .inl (.either found (← pipeline inner command))
    | token =>
      hold token
      return .inr found) first

/-! ### Lists of commands -/

inductive Extent where
  /-- Up to the end of the line. -/
  | line
  /-- Over lines, with at least one command. -/
  | block
  /-- Over lines. -/
  | optional
deriving DecidableEq, Repr

def behind : Option Command → Command → Command
  | none, second => second
  | some first, second => .sequence first second

/-- Reads a list of commands. There is none at the end of the text. -/
def list (inner : Inner) (command : Bool → Reading Command) (extent : Extent) : Reading (Option Command) :=
  let acrossLines := extent != Extent.line
  iterate (fun (found : Option Command) => do
    let first ← token inner true acrossLines
    let ends := match first with
      | .newline => true
      | .endOfText => true
      | token => token.endsList && acrossLines && (found.isSome || extent == Extent.optional)
    if ends then
      match first with
      | .newline => return .inr (some (found.getD .nothing))
      | .endOfText =>
        hold first
        return .inr (if extent == Extent.line then found else some (found.getD .nothing))
      | token =>
        hold token
        return .inr (some (found.getD .nothing))
    else
      hold first
      let next ← conditions inner command
      match ← token inner false false with
      | .operator ";" => return .inl (some (behind found next))
      | .newline =>
        if acrossLines then return .inl (some (behind found next)) else return .inr (some (behind found next))
      | .endOfText =>
        hold .endOfText
        return .inr (some (behind found next))
      | token =>
        if acrossLines then
          hold token
          return .inr (some (behind found next))
        else unexpected token none) none

/-- Reads what stands inside something else. `list` reads lists of commands. -/
def innerOf (parts : Context → Reading Word) (list : Extent → Reading (Option Command)) : Inner where
  parts := parts
  commands := do
    let body ← list .optional
    match ← token ⟨parts, fail "", fun _ => fail ""⟩ true false with
    | .operator ")" => return body.getD .nothing
    | token => unexpected token (some ")")
  script text := return (← inside text 1 (list .optional)).getD .nothing

mutual

/-- Reads the parts of a word, with what is nested in it up to a depth. -/
def partsAt : Nat → Context → Reading Word
  | 0, _ => fail "end of file unexpected"
  | depth + 1, context => iterate (part (innerOf (partsAt depth) (listAt depth)) context) {}

def commandAt : Nat → Bool → Reading Command
  | 0, _ => fail "end of file unexpected"
  | depth + 1, acrossLines =>
    let list (extent : Extent) : Reading Command := return (← listAt depth extent).getD .nothing
    command (innerOf (partsAt depth) (listAt depth)) (list .block) (list .optional) acrossLines

def listAt : Nat → Extent → Reading (Option Command)
  | 0, _ => fail "end of file unexpected"
  | depth + 1, extent => list (innerOf (partsAt depth) (listAt depth)) (commandAt depth) extent

end

/-- Reads the commands of the next line. There are none at the end of the text. -/
def nextLine : Reading (Option Command) := do
  modify fun r => { r with held := none }
  listAt ((← get).rest.length + 3) .line

end MonkeyLang.Host.Shell.Reading
