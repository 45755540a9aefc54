import MonkeyLang.Toml.Scalar
/-!
# Reading TOML

A document is read line by line: a line is blank, a header in brackets, or a key and its value, each perhaps with a comment
behind it. Arrays may run over several lines, tables in braces may not. Values nest, and keys are dotted, up to a bound.
-/

namespace MonkeyLang.Toml

/-- Values nest less deep than this, and dotted keys have fewer parts. -/
def depthBound : Nat := 80

/-- Lines may end with a carriage return in front of the line feed, which makes no difference. -/
def unifyLineEnds : List Char → List Char
  | [] => []
  | '\r' :: '\n' :: cs => '\n' :: unifyLineEnds cs
  | c :: cs => c :: unifyLineEnds cs

def skipBlanks (cs : List Char) : List Char := cs.dropWhile isBlank

/-- The text behind blanks, ends of lines and comments. -/
def skipLines (inComment : Bool) : List Char → List Char
  | [] => []
  | c :: cs =>
    if c = '\n' then skipLines false cs
    else if inComment then if isPlain c then skipLines true cs else c :: cs
    else if isBlank c then skipLines false cs
    else if c = '#' then skipLines true cs
    else c :: cs

/-- The text behind the rest of a line, which may hold nothing but blanks and a comment. -/
def lineEnd? (cs : List Char) : Option (List Char) :=
  let cs := skipBlanks cs
  let cs := if cs.head? = some '#' then cs.dropWhile isPlain else cs
  match cs with
  | [] => some []
  | c :: rest => if c = '\n' then some rest else none

/-! ### Keys -/

def isBareKeyChar (c : Char) : Bool := c.isAlphanum || c == '_' || c == '-'

/-- Reads a key without dots. -/
def simpleKey? (cs : List Char) : Option (String × List Char) :=
  let bare := cs.takeWhile isBareKeyChar
  if bare.isEmpty then lineString? cs else some (String.ofList bare, cs.dropWhile isBareKeyChar)

/-- Reads the parts of a key, behind those already found. -/
def keyFrom? (found : List String) (cs : List Char) : Option (List String × List Char) :=
  match simpleKey? (skipBlanks cs) with
  | none => none
  | some (key, rest) =>
    match mark? '.' (skipBlanks rest) with
    | none => some ((key :: found).reverse, skipBlanks rest)
    | some rest => if rest.length < cs.length then keyFrom? (key :: found) rest else none
termination_by cs.length

def key? (cs : List Char) : Option (List String × List Char) :=
  match keyFrom? [] cs with
  | some (key, rest) => if key.length < depthBound then some (key, rest) else none
  | none => none

/-! ### Values -/

/-- Reads the elements of an array up to its end, behind those already found. -/
def elementsFrom? (element : List Char → Option (Toml × List Char)) (found : List Toml) (cs : List Char) :
    Option (Toml × List Char) :=
  match mark? ']' (skipLines false cs) with
  | some rest => some (.array found.reverse, rest)
  | none =>
    match element (skipLines false cs) with
    | none => none
    | some (value, rest) =>
      match mark? ',' (skipLines false rest) with
      | some rest => if rest.length < cs.length then elementsFrom? element (value :: found) rest else none
      | none => (mark? ']' (skipLines false rest)).map fun rest => (.array (value :: found).reverse, rest)
termination_by cs.length

def keyValue? (value : List Char → Option (Toml × List Char)) (cs : List Char) :
    Option ((List String × Toml) × List Char) := do
  let (key, rest) ← key? cs
  let rest ← mark? '=' rest
  let (v, rest) ← value (skipBlanks rest)
  return ((key, v), skipBlanks rest)

/-- Reads the keys and values of a table in braces up to its end, behind those already found. -/
def pairsFrom? (value : List Char → Option (Toml × List Char)) (found : Entries) (cs : List Char) :
    Option (Toml × List Char) :=
  match keyValue? value cs with
  | none => none
  | some ((key, v), rest) =>
    match insert v key found with
    | none => none
    | some found =>
      match mark? ',' rest with
      | some rest => if rest.length < cs.length then pairsFrom? value found rest else none
      | none => (mark? '}' rest).map fun rest => (.table .braces found, rest)
termination_by cs.length

/-- Reads a value in which values nest up to a depth. -/
def value? : Nat → List Char → Option (Toml × List Char)
  | depth, cs =>
    match string? cs with
    | some (text, rest) => some (.string text, rest)
    | none =>
      match depth with
      | 0 => word? cs
      | depth + 1 =>
        match mark? '[' cs, mark? '{' cs with
        | some rest, _ => elementsFrom? (value? depth) [] rest
        | none, some rest =>
          match mark? '}' (skipBlanks rest) with
          | some rest => some (.table .braces [], rest)
          | none => pairsFrom? (value? depth) [] rest
        | none, none => word? cs

/-! ### Lines -/

/-- A document that is being read: all of it, and the keys of the table that lines add to. -/
structure Draft where
  entries : Entries := []
  current : List String := []

/-- Adds a table by its header. -/
def Draft.header (d : Draft) (add : String → Entries → Option Entries) (key : List String) : Option Draft := do
  let last ← key.getLast?
  let entries ← within (add last) key.dropLast d.entries
  return ⟨entries, key⟩

def Draft.add (d : Draft) (key : List String) (value : Toml) : Option Draft :=
  (within (insert value key) d.current d.entries).map fun entries => { d with entries }

def line? (d : Draft) (cs : List Char) : Option (Draft × List Char) :=
  let cs := skipBlanks cs
  if ['[', '['].isPrefixOf cs then do
    let (key, rest) ← key? (cs.drop 2)
    let rest ← lineEnd? (← mark? ']' (← mark? ']' rest))
    return (← d.header addToTables key, rest)
  else if cs.head? = some '[' then do
    let (key, rest) ← key? (cs.drop 1)
    let rest ← lineEnd? (← mark? ']' rest)
    return (← d.header addTable key, rest)
  else
    match lineEnd? cs with
    | some rest => some (d, rest)
    | none => do
      let ((key, value), rest) ← keyValue? (value? (depthBound - 1)) cs
      let rest ← lineEnd? rest
      return (← d.add key value, rest)

def linesFrom? (d : Draft) (cs : List Char) : Option Draft :=
  if cs.isEmpty then some d
  else
    match line? d cs with
    | none => none
    | some (d, rest) => if rest.length < cs.length then linesFrom? d rest else none
termination_by cs.length

/-- The mark that some editors put in front of a text. -/
def byteOrderMark : Char := Char.ofNat 0xFEFF

def read? (text : String) : Option Entries :=
  let cs := text.toList
  let cs := if cs.head? = some byteOrderMark then cs.tail else cs
  (linesFrom? {} (unifyLineEnds cs)).map Draft.entries

end MonkeyLang.Toml
