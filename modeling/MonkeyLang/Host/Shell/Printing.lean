import MonkeyLang.Host.Escapes
/-!
# Printing in scripts

What a shell's own `echo` and `printf` write. Backslashes start escapes in both. A format of `printf` has directives, which
take arguments, and is written again until no arguments are left.
-/

namespace MonkeyLang.Host.Shell

/-- The escapes of `echo`, and of the arguments that `printf` reads them in. -/
def echoEscapes : Escapes := { zero := true, quote := true, hexadecimal := false }

def formatEscapes : Escapes := { echoEscapes with zero := false }

def echoBytes (args : List String) : List UInt8 :=
  let (newline, args) := match args with
    | "-n" :: rest => (false, rest)
    | args => (true, args)
  let (bytes, stopped) := echoEscapes.decode (" ".intercalate args)
  if newline ∧ ¬stopped then bytes ++ [0x0A] else bytes

/-! ### Numbers -/

/-- What reading an argument as a number comes to: its value, and what is wrong with it. -/
structure NumberReading where
  value : Int
  complaint : Option String := none

/-- The digits at the start of a text in its base, which a leading zero makes octal and `0x` hexadecimal, with their
value and with what follows. -/
def leadingNumber (cs : List Char) : Bool × Nat × List Char :=
  let read (base : Nat) (accepts : Char → Bool) (cs : List Char) : Bool × Nat × List Char :=
    let digits := cs.takeWhile accepts
    (!digits.isEmpty, digitsValue base digits, cs.drop digits.length)
  match cs with
  | '0' :: 'x' :: rest | '0' :: 'X' :: rest =>
    let (found, value, after) := read 16 isHexadecimal rest
    if found then (true, value, after) else (true, 0, cs.drop 1)
  | '0' :: _ => read 8 isOctal cs
  | _ => read 10 Char.isDigit cs

/-- The nearest number to one that a word holds, with its sign or without one. -/
def clampToWord (signed : Bool) (n : Int) : Int :=
  if signed then max (-9223372036854775808) (min n 9223372036854775807)
  else if n.natAbs < 18446744073709551616 then n
  else 18446744073709551615

/-- What is wrong with an argument of which only the start is the number, or whose number is too large or too small. -/
def numberComplaint (arg : String) (found complete inRange : Bool) : Option String :=
  if !found then if arg.isEmpty then none else some s!"{arg}: expected numeric value"
  else if !complete then some s!"{arg}: not completely converted"
  else if !inRange then some s!"{arg}: Numerical result out of range"
  else none

/-- Reads an argument as a number. A quotation mark in front of a character makes it the character's code. -/
def readNumber (signed : Bool) (arg : String) : NumberReading :=
  match arg.toList with
  | '"' :: rest | '\'' :: rest => ⟨(((Text.Utf8.encode (String.ofList rest)).head?.getD 0).toNat : Int), none⟩
  | cs =>
    let blank := cs.dropWhile fun c => c == ' ' || c == '\t' || c == '\n'
    let (negative, digits) := match blank with
      | '-' :: rest => (true, rest)
      | '+' :: rest => (false, rest)
      | rest => (false, rest)
    let (found, value, after) := leadingNumber digits
    let value : Int := if negative then -(value : Int) else value
    let clamped := clampToWord signed value
    ⟨clamped, numberComplaint arg found after.isEmpty (value == clamped)⟩

/-! ### Directives -/

structure Layout where
  left : Bool := false
  plus : Bool := false
  blank : Bool := false
  zero : Bool := false
  marked : Bool := false
  width : Nat := 0
  precision : Option Nat := none
deriving DecidableEq, Repr

def Layout.fill (l : Layout) (bytes : List UInt8) : List UInt8 :=
  let padding := List.replicate (l.width - bytes.length) 0x20
  if l.left then bytes ++ padding else padding ++ bytes

def Layout.text (l : Layout) (bytes : List UInt8) : List UInt8 := l.fill ((l.precision.map bytes.take).getD bytes)

/-- Writes a number, given what stands in front of its digits. -/
def Layout.number (l : Layout) (sign : String) (digits : String) : List UInt8 :=
  let zeros (n : Nat) : String := String.ofList (List.replicate n '0')
  let digits := match l.precision with
    | some n => if n = 0 ∧ digits = "0" then "" else zeros (n - digits.length) ++ digits
    | none => if l.zero ∧ ¬l.left then zeros (l.width - sign.length - digits.length) ++ digits else digits
  l.fill (Text.Utf8.encode (sign ++ digits))

/-- A number as its bits in a 64-bit word have it. -/
def wordOf (n : Int) : Nat := (n % 18446744073709551616).toNat

def Layout.integer (l : Layout) (letter : Char) (n : Int) : List UInt8 :=
  let digitsIn (base : Nat) : String := String.ofList (Nat.toDigits base (wordOf n))
  match letter with
  | 'o' => l.number (if l.marked then "0" else "") (digitsIn 8)
  | 'x' => l.number (if l.marked ∧ n ≠ 0 then "0x" else "") (digitsIn 16)
  | 'X' => l.number (if l.marked ∧ n ≠ 0 then "0X" else "") ((digitsIn 16).toUpper)
  | 'u' => l.number "" (digitsIn 10)
  | _ =>
    let sign := if n < 0 then "-" else if l.plus then "+" else if l.blank then " " else ""
    l.number sign (toString n.natAbs)

/-! ### Formats -/

/-- What is printed so far, and what there is to say about it. -/
structure Print where
  bytes : List UInt8 := []
  args : List String := []
  complaints : List String := []
  /-- Why printing had to be given up. -/
  failure : Option String := none
  /-- Whether an escape has ended all output. -/
  stopped : Bool := false

namespace Print

def ended (p : Print) : Bool := p.stopped || p.failure.isSome

def put (p : Print) (bytes : List UInt8) : Print := { p with bytes := p.bytes ++ bytes }

def takeText (p : Print) : String × Print := (p.args.headD "", { p with args := p.args.tail })

def takeNumber (p : Print) (signed : Bool) : Int × Print :=
  match p.args with
  | [] => (0, p)
  | arg :: rest =>
    let reading := readNumber signed arg
    (reading.value, { p with args := rest, complaints := p.complaints ++ reading.complaint.toList })

/-- The number at the start of a text, which a star takes from the arguments, with how much of the text it is. -/
def takeWidth (p : Print) (cs : List Char) : Option Int × Nat × Print :=
  match cs with
  | '*' :: _ => let (n, p) := p.takeNumber true; (some n, 1, p)
  | cs =>
    let digits := cs.takeWhile Char.isDigit
    if digits.isEmpty then (none, 0, p)
    else (some (digitsValue 10 digits : Int), digits.length, p)

/-- Carries a directive out that is given by the text behind its percent sign, and tells how much of it that is. -/
def direct (p : Print) (cs : List Char) : Print × Nat :=
  let flags := cs.takeWhile fun c => c == '-' || c == '+' || c == ' ' || c == '0' || c == '#'
  let behindFlags := cs.drop flags.length
  let (width, widthLength, p) := p.takeWidth behindFlags
  let behindWidth := behindFlags.drop widthLength
  let (precision, precisionLength, p) := match behindWidth with
    | '.' :: rest => let (n, length, p) := p.takeWidth rest; (some (n.getD 0), length + 1, p)
    | _ => (none, 0, p)
  let behind := behindWidth.drop precisionLength
  let before := flags.length + widthLength + precisionLength
  let l : Layout :=
    { left := '-' ∈ flags || (width.getD 0) < 0
      plus := '+' ∈ flags
      blank := ' ' ∈ flags
      zero := '0' ∈ flags
      marked := '#' ∈ flags
      width := (width.getD 0).natAbs
      precision := precision.bind fun n => if n < 0 then none else some n.toNat }
  match behind with
  | [] => ({ p with failure := some "missing format character" }, before)
  | letter :: _ =>
    if letter ∈ ['d', 'i', 'o', 'u', 'x', 'X'] then
      let (n, p) := p.takeNumber (letter == 'd' || letter == 'i')
      (p.put (l.integer letter n), before + 1)
    else if letter = 's' then
      let (text, p) := p.takeText
      (p.put (l.text (Text.Utf8.encode text)), before + 1)
    else if letter = 'b' then
      let (text, p) := p.takeText
      let (bytes, stopped) := echoEscapes.decode text
      ({ p.put (l.text bytes) with stopped }, before + 1)
    else if letter = 'c' then
      let (text, p) := p.takeText
      (p.put (l.fill [(Text.Utf8.encode text).head?.getD 0]), before + 1)
    else
      let directive := String.ofList ('%' :: cs.take (before + 1))
      ({ p with failure := some s!"{directive}: invalid directive" }, before + 1)

def pass (p : Print) (cs : List Char) : Print :=
  if p.ended then p
  else
    match cs with
    | [] => p
    | '\\' :: next :: rest =>
      (p.put (formatEscapes.bytes next rest).1).pass (rest.drop (formatEscapes.bytes next rest).2)
    | '%' :: '%' :: rest => (p.put [0x25]).pass rest
    | '%' :: rest => (p.direct rest).1.pass (rest.drop (p.direct rest).2)
    | c :: rest => (p.put (Text.Utf8.encode c.toString)).pass rest
termination_by cs.length
decreasing_by all_goals simp only [List.length_cons, List.length_drop]; omega

/-- Passes over a format until no arguments are left, at most as often as there are arguments. -/
def passes (template : List Char) : Nat → Print → Print
  | 0, p => p
  | n + 1, p =>
    let q := p.pass template
    if q.ended ∨ q.args.isEmpty ∨ q.args.length = p.args.length then q else passes template n q

def ofFormat (template : String) (args : List String) : Print := passes template.toList (args.length + 1) { args }

end Print

end MonkeyLang.Host.Shell
