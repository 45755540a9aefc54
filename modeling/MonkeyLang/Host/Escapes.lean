import MonkeyLang.Text.Utf8
/-!
# Escapes

Text in which a backslash and what follows stand for bytes: control characters by letter, and any byte by its octal or
hexadecimal code. Programs differ in what they accept, which is what `Escapes` says. A backslash that starts no escape
stands for itself, and an escape by the letter `c` ends the text.
-/

namespace MonkeyLang.Host

/-- The value of a digit, up to `f`. -/
def digitValue (c : Char) : Nat :=
  if c.isDigit then c.toNat - '0'.toNat
  else if 'a' ≤ c then c.toNat - 'a'.toNat + 10
  else c.toNat - 'A'.toNat + 10

def digitsValue (base : Nat) (cs : List Char) : Nat := cs.foldl (fun n c => base * n + digitValue c) 0

def isOctal (c : Char) : Bool := '0' ≤ c && c ≤ '7'

def isHexadecimal (c : Char) : Bool := c.isDigit || ('a' ≤ c && c ≤ 'f') || ('A' ≤ c && c ≤ 'F')

/-- Which escapes are accepted besides letters and octal codes. -/
structure Escapes where
  /-- A zero may stand in front of an octal code of three digits. -/
  zero : Bool
  /-- A double quote may be escaped. -/
  quote : Bool
  /-- An `x` stands in front of a hexadecimal code. -/
  hexadecimal : Bool
deriving DecidableEq, Repr

namespace Escapes

/-- The byte that a letter stands for behind a backslash. -/
def control? (c : Char) : Option UInt8 :=
  [('\\', 0x5C), ('a', 0x07), ('b', 0x08), ('e', 0x1B), ('f', 0x0C), ('n', 0x0A), ('r', 0x0D), ('t', 0x09),
    ('v', 0x0B)].lookup c

/-- The bytes that a backslash and the character behind it stand for, and how many more characters belong to them. -/
def bytes (e : Escapes) (c : Char) (rest : List Char) : List UInt8 × Nat :=
  let code (base : Nat) (digits : List Char) : List UInt8 := [UInt8.ofNat (digitsValue base digits)]
  let three := (rest.take 3).takeWhile isOctal
  let two := (rest.take 2).takeWhile isOctal
  let sixteen := (rest.take 2).takeWhile isHexadecimal
  if c = '0' ∧ e.zero then (code 8 three, three.length)
  else if isOctal c then (code 8 (c :: two), two.length)
  else if c = 'x' ∧ e.hexadecimal ∧ ¬sixteen.isEmpty then (code 16 sixteen, sixteen.length)
  else if c = '"' ∧ e.quote then ([0x22], 0)
  else
    match control? c with
    | some b => ([b], 0)
    | none => (0x5C :: Text.Utf8.encode c.toString, 0)

/-- The bytes of a text with escapes, behind those already found, and whether one of the escapes ends it. -/
def decodeFrom (e : Escapes) (found : List UInt8) (cs : List Char) : List UInt8 × Bool :=
  match cs with
  | [] => (found, false)
  | [c] => (found ++ Text.Utf8.encode c.toString, false)
  | c :: next :: rest =>
    if c ≠ '\\' then e.decodeFrom (found ++ Text.Utf8.encode c.toString) (next :: rest)
    else if next = 'c' then (found, true)
    else e.decodeFrom (found ++ (e.bytes next rest).1) (rest.drop (e.bytes next rest).2)
termination_by cs.length
decreasing_by all_goals simp only [List.length_cons, List.length_drop]; omega

/-- The bytes of a text with escapes, and whether one of the escapes ends it. -/
def decode (e : Escapes) (text : String) : List UInt8 × Bool := e.decodeFrom [] text.toList

end Escapes

end MonkeyLang.Host
