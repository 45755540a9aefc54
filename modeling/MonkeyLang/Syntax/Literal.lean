import MonkeyLang.Syntax
import MonkeyLang.Syntax.ParseError
/-!
# Literals

The value that the spelling of a literal stands for. Integers are decimal and have to fit 64 bits with a sign. A string
stands between double quotes, and a backslash in it may be followed by one of six characters.
-/

namespace MonkeyLang.Literal

def decimal (digits : List Char) : Nat :=
  digits.foldl (fun n c => 10 * n + (c.toNat - '0'.toNat)) 0

/-- The number that a text spells, if it is made up of digits and is not empty. -/
def decimal? (text : List Char) : Option Nat :=
  if text ≠ [] ∧ text.all Char.isDigit then some (decimal text) else none

/-- Whether a text starts with a minus sign, and the text without its sign. -/
def unsign : List Char → Bool × List Char
  | '-' :: text => (true, text)
  | '+' :: text => (false, text)
  | text => (false, text)

def maxInt : Nat := 9223372036854775807

/-- The integer that a text spells, if it is in range. A sign may stand in front. -/
def int? (lexeme : String) : Option Int64 :=
  let (negative, text) := unsign lexeme.toList
  match decimal? text with
  | none => none
  | some n =>
    if negative then
      if n ≤ maxInt + 1 then some (-Int64.ofNat n) else none
    else
      if n ≤ maxInt then some (Int64.ofNat n) else none

/-- The character that a character behind a backslash stands for. -/
def escaped? (c : Char) : Option Char :=
  if c = 'n' then some '\n'
  else if c = 't' then some '\t'
  else if c = 'r' then some '\r'
  else if c = '0' then some '\x00'
  else if c = '"' then some '"'
  else if c = '\\' then some '\\'
  else none

/-- Why the body of a string literal has no value. -/
inductive StringFault where
  | unknownEscape (char : Char)
  | loneBackslash
deriving DecidableEq, Repr

def StringFault.message : StringFault → String
  | unknownEscape char => "unknown escape sequence '\\" ++ char.toString ++ "'"
  | loneBackslash => "string ends with a lone backslash"

/-- The text that the body of a string literal stands for, behind the text already decoded. -/
def decodeBody (afterBackslash : Bool) (decoded : List Char) : List Char → Except StringFault (List Char)
  | [] => if afterBackslash then .error .loneBackslash else .ok decoded.reverse
  | c :: cs =>
    if afterBackslash then
      match escaped? c with
      | some value => decodeBody false (value :: decoded) cs
      | none => .error (.unknownEscape c)
    else if c = '\\' then decodeBody true decoded cs
    else decodeBody false (c :: decoded) cs

/-- What stands between the quotes of a string literal. A text that is not in quotes is taken as it is. -/
def body (lexeme : String) : List Char :=
  let text := lexeme.toList
  if text.head? = some '"' ∧ text.tail.getLast? = some '"' then text.tail.dropLast else text

/-- The text that a string literal stands for. Where there is no backslash, nothing has to be decoded. -/
def string (lexeme : String) : Except StringFault String :=
  let inner := body lexeme
  if '\\' ∈ inner then (decodeBody false [] inner).map String.ofList else .ok (String.ofList inner)

end MonkeyLang.Literal
