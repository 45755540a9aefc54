import MonkeyLang.Host.Escapes
/-!
# Arithmetic in scripts

Expressions over whole numbers of 64 bits, with variables. An expression is cut into tokens and evaluated while they are
read.
-/

namespace MonkeyLang.Host.Shell.Arithmetic

inductive Token where
  | number (value : Int)
  | name (text : String)
  | operator (text : String)
deriving DecidableEq, Repr

/-- A number as it fits into 64 bits. -/
def wrap (n : Int) : Int := Int.bmod n 18446744073709551616

/-- How tightly an operator between two operands binds: the more tightly, the smaller. -/
def level? (operator : String) : Option Nat :=
  [("*", 1), ("/", 1), ("%", 1), ("+", 2), ("-", 2), ("<", 3), ("<=", 3), (">", 3), (">=", 3), ("==", 4), ("!=", 4)].lookup
    operator

/-- What an operator makes of two numbers, unless it divides by zero. -/
def combine? (operator : String) (a b : Int) : Option Int :=
  let truth (holds : Bool) : Int := if holds then 1 else 0
  match operator with
  | "*" => some (wrap (a * b))
  | "/" => if b = 0 then none else some (wrap (Int.tdiv a b))
  | "%" => if b = 0 then none else some (Int.tmod a b)
  | "+" => some (wrap (a + b))
  | "-" => some (wrap (a - b))
  | "<" => some (truth (a < b))
  | "<=" => some (truth (a ≤ b))
  | ">" => some (truth (b < a))
  | ">=" => some (truth (b ≤ a))
  | "==" => some (truth (a = b))
  | _ => some (truth (a ≠ b))

/-- The operators, the longest first. -/
def operators : List String := ["<=", ">=", "==", "!=", "*", "/", "%", "+", "-", "<", ">", "!", "(", ")"]

/-- The number at the start of a text in its base, and its length. -/
def number (cs : List Char) : Int × Nat :=
  let read (base skipped : Nat) (accepts : Char → Bool) : Int × Nat :=
    let digits := (cs.drop skipped).takeWhile accepts
    ((min (digitsValue base digits) 9223372036854775807 : Nat), skipped + digits.length)
  match cs with
  | '0' :: 'x' :: c :: _ | '0' :: 'X' :: c :: _ => if isHexadecimal c then read 16 2 isHexadecimal else (0, 1)
  | '0' :: _ => read 8 0 isOctal
  | _ => read 10 0 Char.isDigit

/-- Cuts an expression into tokens. What is no token is taken for an operator of its own. `fuel` is at least the number of
characters. -/
def tokens : Nat → List Char → List Token
  | 0, _ => []
  | _, [] => []
  | fuel + 1, c :: rest =>
    if c = ' ' ∨ c = '\t' ∨ c = '\n' then tokens fuel rest
    else if c.isDigit then
      let (value, length) := number (c :: rest)
      .number value :: tokens fuel ((c :: rest).drop (max length 1))
    else if c.isAlpha ∨ c = '_' then
      let name := (c :: rest).takeWhile fun c => c.isAlphanum || c == '_'
      .name (String.ofList name) :: tokens fuel ((c :: rest).drop (max name.length 1))
    else
      match operators.find? fun operator => operator.toList.isPrefixOf (c :: rest) with
      | some operator => .operator operator :: tokens fuel ((c :: rest).drop operator.length)
      | none => [.operator c.toString]

/-! ### Evaluation -/

abbrev Evaluation := StateT (List Token) (Except String)

/-- Evaluates an operand. `whole` evaluates an expression in parentheses. -/
def operand (look : String → Except String Int) (whole : Evaluation Int) : Nat → Evaluation Int
  | 0 => throw "expecting primary"
  | fuel + 1 => do
    match ← get with
    | .number value :: rest =>
      set rest
      return value
    | .name text :: rest =>
      set rest
      look text
    | .operator text :: rest =>
      set rest
      match text with
      | "(" =>
        let value ← whole
        match ← get with
        | .operator ")" :: rest =>
          set rest
          return value
        | _ => throw "expecting ')'"
      | "+" => operand look whole fuel
      | "-" => return wrap (-(← operand look whole fuel))
      | "!" => return if (← operand look whole fuel) = 0 then 1 else 0
      | _ => throw "expecting primary"
    | [] => throw "expecting primary"

/-- Evaluates operands with operators of a level between them, behind a first one. -/
def chain (level : Nat) (operand : Evaluation Int) : Nat → Int → Evaluation Int
  | 0, left => return left
  | fuel + 1, left => do
    match ← get with
    | .operator text :: rest =>
      if level? text = some level then
        set rest
        match combine? text left (← operand) with
        | some value => chain level operand fuel value
        | none => throw "division by zero"
      else return left
    | _ => return left

/-- Evaluates operands with the operators between them that bind at least as tightly as a level says. -/
def binary (operand : Evaluation Int) (fuel : Nat) : Nat → Evaluation Int
  | 0 => operand
  | level + 1 => do chain (level + 1) (binary operand fuel level) fuel (← binary operand fuel level)

/-- Evaluates an expression. `fuel` is at least the number of tokens. -/
def expression (look : String → Except String Int) : Nat → Evaluation Int
  | 0 => throw "expecting primary"
  | fuel + 1 => binary (operand look (expression look fuel) (fuel + 1)) (fuel + 1) 4

def evaluate (look : String → Except String Int) (text : String) : Except String Int := do
  let found := tokens text.length text.toList
  let (value, rest) ← (expression look (found.length + 1)).run found
  if rest.isEmpty then return value else throw "expecting EOF"

end MonkeyLang.Host.Shell.Arithmetic
