import MonkeyLang.Host.Shell.Syntax
/-!
# Reading words

A script that is being read, character by character, and the parts of its words: characters, quotations, parameters, and
commands and arithmetic inside them. Backslashes in front of line ends vanish before anything else is looked at. How what is
nested inside a word is read is given from outside.
-/

namespace MonkeyLang.Host.Shell

structure ReadingError where
  line : Nat
  message : String

structure Reader where
  rest : List Char
  line : Nat := 1
  /-- The number of lines that have been cut out below the current one. -/
  skipped : Nat := 0
  /-- A token that has been read already. -/
  held : Option Token := none

abbrev Reading := EStateM ReadingError Reader

namespace Reading

def fail {α : Type} (message : String) : Reading α := do throw ⟨(← get).line, "Syntax error: " ++ message⟩

/-- Complains about a token where another one had to stand. -/
def unexpected {α : Type} (token : Token) (wanted : Option String) : Reading α :=
  match wanted with
  | some name => fail s!"{token.description} unexpected (expecting \"{name}\")"
  | none => fail s!"{token.description} unexpected"

/-- Repeats a step until it comes to a result. Every step but the last takes at least one character. -/
def repeatFrom {σ α : Type} (step : σ → Reading (σ ⊕ α)) : Nat → σ → Reading α
  | 0, _ => fail "end of file unexpected"
  | n + 1, s => do
    match ← step s with
    | .inl s => repeatFrom step n s
    | .inr result => return result

def iterate {σ α : Type} (step : σ → Reading (σ ⊕ α)) (s : σ) : Reading α := do
  repeatFrom step ((← get).rest.length + 2) s

/-! ### Characters -/

/-- Drops line ends behind backslashes, and counts them. -/
def joined : List Char → Nat → List Char × Nat
  | '\\' :: '\n' :: rest, n => joined rest (n + 1)
  | cs, n => (cs, n)

def peek? : Reading (Option Char) := do
  let r ← get
  let (rest, n) := joined r.rest 0
  set { r with rest, line := r.line + n }
  return rest.head?

/-- Takes the next character as it is. -/
def takeRaw? : Reading (Option Char) := do
  let r ← get
  match r.rest with
  | [] => return none
  | '\n' :: rest =>
    set { r with rest, line := r.line + 1 + r.skipped, skipped := 0 }
    return some '\n'
  | c :: rest =>
    set { r with rest }
    return some c

def take? : Reading (Option Char) := do
  let _ ← peek?
  takeRaw?

def accept (c : Char) : Reading Bool := do
  if (← peek?) = some c then
    let _ ← takeRaw?
    return true
  else return false

def takeWhile (accepts : Char → Bool) : Reading (List Char) :=
  iterate (fun taken => do
    match ← peek? with
    | some c =>
      if accepts c then
        let _ ← takeRaw?
        return .inl (c :: taken)
      else return .inr taken.reverse
    | none => return .inr taken.reverse) []

/-! ### Parts of words -/

inductive Context where
  | word
  | quotes
  /-- Between the braces of a parameter, in quotation marks or not. -/
  | braces (quoted : Bool)
  | arithmetic
  | document
deriving DecidableEq, Repr

/-- Whether most characters stand for themselves. -/
def Context.isQuoted : Context → Bool
  | .word => false
  | .braces quoted => quoted
  | .quotes | .arithmetic | .document => true

/-- How what stands inside something else is read. -/
structure Inner where
  parts : Context → Reading Word
  /-- Commands up to a closing parenthesis. -/
  commands : Reading Command
  /-- The commands of a text of their own. -/
  script : List Char → Reading Command

/-- Reads up to the second of two single quotes. -/
def singleQuoted : Reading (List Char) :=
  iterate (fun taken => do
    match ← takeRaw? with
    | some '\'' => return .inr taken.reverse
    | some c => return .inl (c :: taken)
    | none => fail "Unterminated quoted string") []

def escaped (context : Context) : Reading WordPart := do
  match ← takeRaw? with
  | none => return .literal ['\\']
  | some c =>
    let isSpecial := c = '\\' ∨ c = '$' ∨ c.toNat = 0x60 ∨ (c = '"' ∧ context ≠ .document) ∨
      (c = '}' ∧ context = .braces true)
    if !context.isQuoted || isSpecial then return .literal [c] else return .literal ['\\', c]

/-- Reads a script between backquotes, in which some backslashes are dropped. -/
def backquoted (quoted : Bool) : Reading (List Char) :=
  iterate (fun taken => do
    match ← take? with
    | none => fail "EOF in backquote substitution"
    | some '\\' =>
      match ← takeRaw? with
      | none => return .inl ('\\' :: taken)
      | some c =>
        let drops := c = '\\' ∨ c = '$' ∨ c.toNat = 0x60 ∨ (quoted ∧ c = '"')
        return .inl (if drops then c :: taken else c :: '\\' :: taken)
    | some c => if c.toNat = 0x60 then return .inr taken.reverse else return .inl (c :: taken)) []

def inside {α : Type} (text : List Char) (line : Nat) (reading : Reading α) : Reading α := do
  match reading.run { rest := text, line } with
  | .ok result _ => return result
  | .error e _ => throw e

/-- Reads the use of a parameter between braces, behind its name, up to the closing brace. -/
def use (inner : Inner) (quoted : Bool) : Reading Use := do
  let strict ← accept ':'
  match strict, ← take? with
  | false, some '}' => return .value
  | _, some '-' => return .otherwise strict (← inner.parts (.braces quoted))
  | _, some '+' => return .replaced strict (← inner.parts (.braces quoted))
  | _, _ =>
    let _ ← inner.parts (.braces quoted)
    return .senseless

def bracedName : Reading (Option String) := do
  match ← peek? with
  | some c =>
    if startsName c then return some (String.ofList (← takeWhile continuesName))
    else if c.isDigit then return some (String.ofList (← takeWhile Char.isDigit))
    else if isParameter c then
      let _ ← takeRaw?
      return some c.toString
    else return none
  | none => return none

/-- Reads a parameter between braces, behind the opening one. A hash sign is a parameter itself, or asks for a length. -/
def bracedParameter (inner : Inner) (quoted : Bool) : Reading WordPart := do
  let before ← get
  let length? ← if ← accept '#' then bracedName else pure none
  match length?, ← peek? with
  | some name, some '}' =>
    let _ ← takeRaw?
    return .parameter name .length
  | _, _ =>
    set before
    match ← bracedName with
    | some name => return .parameter name (← use inner quoted)
    | none =>
      let _ ← inner.parts (.braces quoted)
      return .parameter "" .senseless

def dollar (inner : Inner) (quoted : Bool) : Reading WordPart := do
  match ← peek? with
  | some '(' =>
    let _ ← takeRaw?
    if ← accept '(' then return .arithmetic (← inner.parts .arithmetic)
    else return .commands (← inner.commands)
  | some '{' =>
    let _ ← takeRaw?
    bracedParameter inner quoted
  | some c =>
    if startsName c then return .parameter (String.ofList (← takeWhile continuesName)) .value
    else if isParameter c then
      let _ ← takeRaw?
      return .parameter c.toString .value
    else return .plain '$'
  | none => return .plain '$'

def endsWord (c : Char) : Bool := [' ', '\t', '\n', ';', '&', '|', '<', '>', '(', ')'].contains c

/-- What is read so far of a word: its parts, the last one first, and the number of parentheses that are open. -/
structure Parts where
  found : Word := []
  depth : Nat := 0

def part (inner : Inner) (context : Context) (s : Parts) : Reading (Parts ⊕ Word) := do
  let done : Reading (Parts ⊕ Word) := return .inr s.found.reverse
  let more (part : WordPart) : Reading (Parts ⊕ Word) := return .inl { s with found := part :: s.found }
  match ← peek? with
  | none =>
    match context with
    | .word | .document => done
    | .quotes | .braces true => fail "Unterminated quoted string"
    | .braces false => fail "Missing '\x7d'"
    | .arithmetic => fail "Missing '))'"
  | some c =>
    if context = .word && endsWord c then done
    else
      let _ ← takeRaw?
      if c = '\\' then more (← escaped context)
      else if c = '$' then more (← dollar inner context.isQuoted)
      else if c.toNat = 0x60 then more (.commands (← inner.script (← backquoted context.isQuoted)))
      else if c = '\'' && !context.isQuoted then more (.literal (← singleQuoted))
      else if c = '"' then
        match context with
        | .quotes => done
        | .arithmetic | .document => more (.plain c)
        | .word | .braces _ => more (.quotes (← inner.parts .quotes))
      else
        match context, c with
        | .braces _, '}' => done
        | .arithmetic, '(' => return .inl { found := .plain c :: s.found, depth := s.depth + 1 }
        | .arithmetic, ')' =>
          if 0 < s.depth then return .inl { found := .plain c :: s.found, depth := s.depth - 1 }
          else if ← accept ')' then done
          else more (.plain c)
        | _, _ => more (.plain c)

end Reading

end MonkeyLang.Host.Shell
