import MonkeyLang.Toml.Document
/-!
# TOML strings, numbers and dates

Strings stand in quotation marks or apostrophes, one of them or three. Between quotation marks a backslash starts an
escape; three marks let a string run over several lines. Everything else that is no table and no array is a word: an
integer of at most 64 bits, a number with a point or an exponent, a date or a time, or a truth value.
-/

namespace MonkeyLang.Toml

/-- Whether a character may stand in a comment or, unless it has a meaning there, in a string. -/
def isPlain (c : Char) : Bool := c == '\t' || (0x20 ≤ c.toNat && c.toNat != 0x7F)

def isBlank (c : Char) : Bool := c == ' ' || c == '\t'

/-! ### Strings -/

def hexDigit? (c : Char) : Option Nat :=
  if '0' ≤ c ∧ c ≤ '9' then some (c.toNat - '0'.toNat)
  else if 'a' ≤ c ∧ c ≤ 'f' then some (c.toNat - 'a'.toNat + 10)
  else if 'A' ≤ c ∧ c ≤ 'F' then some (c.toNat - 'A'.toNat + 10)
  else none

/-- What a character stands for behind a backslash. -/
def escaped? (c : Char) : Option Char :=
  [('b', Char.ofNat 0x08), ('t', '\t'), ('n', '\n'), ('f', Char.ofNat 0x0C), ('r', '\r'), ('"', '"'), ('\\', '\\')].lookup c

/-- What the reading of a string is in the middle of. -/
inductive StringMode where
  | plain
  /-- Behind a backslash. -/
  | escape
  /-- Inside a code point, with so many digits to come. -/
  | code (left value : Nat)
  /-- Between a backslash and the end of the line. -/
  | gap
  /-- Behind an escaped end of line, where blanks and further lines are skipped. -/
  | fold
  /-- Behind so many quotes in a row. -/
  | quotes (count : Nat)
deriving DecidableEq, Repr

structure StringStyle where
  quote : Char
  /-- Whether a backslash starts an escape. -/
  escapes : Bool
  /-- Whether there are three quotes on both sides, and lines may end between them. -/
  multiline : Bool
deriving DecidableEq, Repr

/-- The mode behind a character of plain text, and what the character adds. -/
def StringStyle.plainStep (style : StringStyle) (taken : List Char) (c : Char) : Option (StringMode × List Char) :=
  if c = style.quote then some (.quotes 1, taken)
  else if c = '\\' ∧ style.escapes then some (.escape, taken)
  else if isPlain c ∨ (c = '\n' ∧ style.multiline) then some (.plain, c :: taken)
  else none

/-- The mode behind a character that follows a backslash, and what it adds. -/
def StringStyle.escapeStep (style : StringStyle) (taken : List Char) (c : Char) : Option (StringMode × List Char) :=
  match escaped? c with
  | some meant => some (.plain, meant :: taken)
  | none =>
    if c = 'u' then some (.code 4 0, taken)
    else if c = 'U' then some (.code 8 0, taken)
    else if style.multiline ∧ c = '\n' then some (.fold, taken)
    else if style.multiline ∧ isBlank c then some (.gap, taken)
    else none

/-- The mode behind a digit of a code point, and what it adds. -/
def codeStep (taken : List Char) (left value : Nat) (c : Char) : Option (StringMode × List Char) :=
  match hexDigit? c with
  | none => none
  | some digit =>
    let value := 16 * value + digit
    if 1 < left then some (.code (left - 1) value, taken)
    else if value.isValidChar then some (.plain, Char.ofNat value :: taken)
    else none

def StringStyle.closing (style : StringStyle) : Nat := if style.multiline then 3 else 1

/-- A string that ends with so many quotes: those that do not belong to the end belong to the string. -/
def StringStyle.close (style : StringStyle) (taken : List Char) (count : Nat) : String :=
  String.ofList (List.replicate (count - style.closing) style.quote ++ taken).reverse

/-- Reads a string behind its first quotes. -/
def StringStyle.readFrom (style : StringStyle) (mode : StringMode) (taken : List Char) :
    List Char → Option (String × List Char)
  | [] =>
    match mode with
    | .quotes count => if style.closing ≤ count then some (style.close taken count, []) else none
    | _ => none
  | c :: cs =>
    let next (step : Option (StringMode × List Char)) : Option (String × List Char) :=
      match step with
      | some (mode, taken) => readFrom style mode taken cs
      | none => none
    match mode with
    | .plain => next (style.plainStep taken c)
    | .escape => next (style.escapeStep taken c)
    | .code left value => next (codeStep taken left value c)
    | .gap => if isBlank c then readFrom style .gap taken cs else if c = '\n' then readFrom style .fold taken cs else none
    | .fold =>
      if isBlank c ∨ c = '\n' then readFrom style .fold taken cs else next (style.plainStep taken c)
    | .quotes count =>
      if c = style.quote ∧ style.multiline ∧ count < 5 then readFrom style (.quotes (count + 1)) taken cs
      else if style.closing ≤ count then some (style.close taken count, c :: cs)
      else next (style.plainStep (List.replicate count style.quote ++ taken) c)

/-- Reads a string with one quote on both sides. -/
def lineString? (cs : List Char) : Option (String × List Char) :=
  match cs with
  | c :: rest =>
    if c = '"' then StringStyle.readFrom ⟨'"', true, false⟩ .plain [] rest
    else if c = '\'' then StringStyle.readFrom ⟨'\'', false, false⟩ .plain [] rest
    else none
  | [] => none

def skipNewline (cs : List Char) : List Char :=
  match cs with
  | c :: rest => if c = '\n' then rest else c :: rest
  | [] => []

/-- Reads a string of any kind. An end of line right behind three quotes does not belong to it. -/
def string? (cs : List Char) : Option (String × List Char) :=
  if ['"', '"', '"'].isPrefixOf cs then
    StringStyle.readFrom ⟨'"', true, true⟩ .plain [] (skipNewline (cs.drop 3))
  else if ['\'', '\'', '\''].isPrefixOf cs then
    StringStyle.readFrom ⟨'\'', false, true⟩ .plain [] (skipNewline (cs.drop 3))
  else
    lineString? cs

/-! ### Numbers -/

/-- Digits, with single underscores between them. -/
def isDigitRun (isDigit : Char → Bool) : List Char → Bool
  | [] => false
  | [c] => isDigit c
  | c :: next :: rest =>
    isDigit c && (if next = '_' then isDigitRun isDigit rest else isDigitRun isDigit (next :: rest))

/-- The value of digits in a base. Underscores do not count. -/
def digitsValue (base : Nat) (cs : List Char) : Nat :=
  cs.foldl (fun n c => match hexDigit? c with
    | some digit => base * n + digit
    | none => n) 0

/-- A sign, if there is one, and what follows. -/
def splitSign : List Char → Bool × List Char
  | '-' :: cs => (true, cs)
  | '+' :: cs => (false, cs)
  | cs => (false, cs)

/-- Decimal digits that do not start with a zero, unless they are just that. -/
def isDecimal (cs : List Char) : Bool :=
  isDigitRun Char.isDigit cs && (cs.head? != some '0' || cs.length == 1)

/-- The bound that integers of 64 bits with a sign stay below. -/
def integerBound : Nat := Nat.pow 2 63

/-- An integer in a base that two characters announce. -/
def basedInteger? (base : Nat) (isDigit : Char → Bool) (cs : List Char) : Option Int :=
  let value := digitsValue base cs
  if isDigitRun isDigit cs ∧ value < integerBound then some value else none

def integer? (word : List Char) : Option Int :=
  match word with
  | '0' :: 'x' :: cs => basedInteger? 16 (fun c => (hexDigit? c).isSome) cs
  | '0' :: 'o' :: cs => basedInteger? 8 (fun c => '0' ≤ c && c ≤ '7') cs
  | '0' :: 'b' :: cs => basedInteger? 2 (fun c => c == '0' || c == '1') cs
  | _ =>
    let (negative, digits) := splitSign word
    let value := digitsValue 10 digits
    if ¬isDecimal digits then none
    else if negative then if value ≤ integerBound then some (-value) else none
    else if value < integerBound then some value else none

/-- Whether `digits` times ten to the power of `exponent` is beyond all numbers of 64 bits. -/
def isHuge (digits : Nat) (exponent : Int) : Bool :=
  let places : Int := (Nat.toDigits 10 digits).length + exponent
  let bound := Nat.pow 2 1024 - Nat.pow 2 970
  if digits = 0 ∨ places < 300 then false
  else if 320 < places then true
  else if 0 ≤ exponent then bound ≤ digits * Nat.pow 10 exponent.toNat
  else bound * Nat.pow 10 (-exponent).toNat ≤ digits

/-- Whether a word is a number with a point or an exponent. A positive one must not be huge. -/
def isFloat (word : List Char) : Bool :=
  let (negative, unsigned) := splitSign word
  let mantissa := unsigned.takeWhile fun c => c != 'e' && c != 'E'
  let power := unsigned.drop mantissa.length
  let whole := mantissa.takeWhile (· != '.')
  let fraction := mantissa.drop whole.length
  let (down, exponent) := splitSign power.tail
  let shift : Int := if down then -digitsValue 10 exponent else digitsValue 10 exponent
  let places := (fraction.filter Char.isDigit).length
  (unsigned == ['i', 'n', 'f'] || unsigned == ['n', 'a', 'n']) ||
    isDecimal whole && (fraction.isEmpty || isDigitRun Char.isDigit fraction.tail) &&
      (power.isEmpty || isDigitRun Char.isDigit exponent) && !(fraction.isEmpty && power.isEmpty) &&
      (negative || !isHuge (digitsValue 10 (whole ++ fraction)) (shift - places))

/-! ### Dates and times -/

/-- Reads a number of exactly so many digits. -/
def number? (width : Nat) (cs : List Char) : Option (Nat × List Char) :=
  let digits := cs.take width
  if digits.length = width ∧ digits.all Char.isDigit then some (digitsValue 10 digits, cs.drop width) else none

/-- The text behind a character, if it stands there. -/
def mark? (mark : Char) : List Char → Option (List Char)
  | [] => none
  | c :: cs => if c = mark then some cs else none

def daysIn (year month : Nat) : Nat :=
  if month = 2 then
    if year % 4 = 0 ∧ (year % 100 ≠ 0 ∨ year % 400 = 0) then 29 else 28
  else if month = 4 ∨ month = 6 ∨ month = 9 ∨ month = 11 then 30
  else 31

/-- The text behind a date, if one stands there. -/
def afterDate? (cs : List Char) : Option (List Char) := do
  let (year, cs) ← number? 4 cs
  let cs ← mark? '-' cs
  let (month, cs) ← number? 2 cs
  let cs ← mark? '-' cs
  let (day, cs) ← number? 2 cs
  if 1 ≤ month ∧ month ≤ 12 ∧ 1 ≤ day ∧ day ≤ daysIn year month then some cs else none

/-- The text behind a fraction of a second, if one stands there or none is meant. -/
def afterFraction? (cs : List Char) : Option (List Char) :=
  match mark? '.' cs with
  | none => some cs
  | some cs => if (cs.head?.map Char.isDigit).getD false then some (cs.dropWhile Char.isDigit) else none

/-- The text behind a time, if one stands there. -/
def afterTime? (cs : List Char) : Option (List Char) := do
  let (hour, cs) ← number? 2 cs
  let cs ← mark? ':' cs
  let (minute, cs) ← number? 2 cs
  let cs ← mark? ':' cs
  let (second, cs) ← number? 2 cs
  if hour ≤ 23 ∧ minute ≤ 59 ∧ second ≤ 60 then afterFraction? cs else none

/-- Whether a word is the distance of a time zone, or empty. -/
def isOffset (word : List Char) : Bool :=
  match word with
  | [] => true
  | c :: cs =>
    if c = 'Z' ∨ c = 'z' then cs.isEmpty
    else if c = '+' ∨ c = '-' then
      match number? 2 cs with
      | some (hour, ':' :: cs) =>
        match number? 2 cs with
        | some (minute, []) => hour ≤ 23 && minute ≤ 59
        | _ => false
      | _ => false
    else false

def isZonedTime (word : List Char) : Bool := ((afterTime? word).map isOffset).getD false

def isTime (word : List Char) : Bool := afterTime? word == some []

def isDate (word : List Char) : Bool := afterDate? word == some []

def isDateTime (word : List Char) : Bool :=
  match afterDate? word with
  | some (c :: cs) => (c == 'T' || c == 't') && isZonedTime cs
  | _ => false

/-! ### Words -/

def isWordChar (c : Char) : Bool := c.isAlphanum || c == '_' || c == '+' || c == '-' || c == '.' || c == ':'

/-- Reads a word. A date may be followed by a blank and a time. -/
def word? (cs : List Char) : Option (Toml × List Char) :=
  let word := cs.takeWhile isWordChar
  let rest := cs.dropWhile isWordChar
  if word = ['t', 'r', 'u', 'e'] then some (.boolean true, rest)
  else if word = ['f', 'a', 'l', 's', 'e'] then some (.boolean false, rest)
  else if isDate word then
    let time := (rest.drop 1).takeWhile isWordChar
    if rest.head? = some ' ' ∧ time ≠ [] then
      if isZonedTime time then some (.dateTime (String.ofList (word ++ ' ' :: time)), rest.drop (1 + time.length)) else none
    else
      some (.dateTime (String.ofList word), rest)
  else if isDateTime word ∨ isTime word then some (.dateTime (String.ofList word), rest)
  else if isFloat word then some (.float (String.ofList word), rest)
  else (integer? word).map fun value => (.integer value, rest)

end MonkeyLang.Toml
