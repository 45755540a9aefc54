import MonkeyLang.Text.Utf8
import MonkeyLang.Workspace
/-!
# Tests in scripts

The conditions of `test` and `[`: about texts, numbers and files, joined by `-a` and `-o`, and negated by an exclamation
mark.
-/

namespace MonkeyLang.Host.Shell

/-- The number that an operand has to be. -/
def needInteger (operand : String) : Except String Int :=
  let (negative, digits) := match operand.toList with
    | '-' :: rest => (true, rest)
    | '+' :: rest => (false, rest)
    | rest => (false, rest)
  if digits.isEmpty ∨ ¬digits.all Char.isDigit then .error s!"Illegal number: {operand}"
  else
    let value : Int := (digits.foldl (fun n c => 10 * n + (c.toNat - '0'.toNat)) 0 : Nat)
    .ok (if negative then -value else value)

/-- Whether a condition on one operand holds, if there is one of that name. -/
def unary? (w : Workspace) (name operand : String) : Option Bool :=
  let node := (w.find operand).toOption
  match name with
  | "-n" => some (operand ≠ "")
  | "-z" => some (operand = "")
  | "-e" | "-r" | "-w" => some node.isSome
  | "-d" => some (node = some .directory)
  | "-f" => match node with
    | some (.file _ _) | some (.program _) => some true
    | _ => some false
  | "-s" => match node with
    | some (.file bytes _) => some !bytes.isEmpty
    | some .directory | some (.program _) => some true
    | _ => some false
  | "-x" => match node with
    | some (.file _ executable) => some executable
    | some .directory | some (.program _) => some true
    | _ => some false
  | _ => none

/-- Whether a condition on two operands holds, if there is one of that name. -/
def binary? (name a b : String) : Option (Except String Bool) :=
  let compare (holds : Int → Int → Bool) : Option (Except String Bool) := some do
    let m ← needInteger a
    let n ← needInteger b
    return holds m n
  match name with
  | "=" => some (.ok (a = b))
  | "!=" => some (.ok (a ≠ b))
  | "-eq" => compare (· = ·)
  | "-ne" => compare (· ≠ ·)
  | "-lt" => compare (· < ·)
  | "-le" => compare (· ≤ ·)
  | "-gt" => compare (· > ·)
  | "-ge" => compare (· ≥ ·)
  | _ => none

/-- Whether a condition without joints holds. A condition on two operands comes before a negation. -/
def holdsAlone (w : Workspace) : List String → Except String Bool
  | [] => .ok false
  | [a] => .ok (a ≠ "")
  | first :: rest => do
    let negated : Except String Bool := do
      if first = "!" then return !(← holdsAlone w rest) else throw s!"{first}: unexpected operator"
    match rest with
    | [operand] => (unary? w first operand).elim negated .ok
    | [name, b] => (binary? name first b).getD negated
    | _ => negated

/-- Whether the condition that arguments state holds. Joints are looked for only where there is no simpler way to read it. -/
def holds (w : Workspace) (args : List String) : Except String Bool :=
  if args.length ≤ 3 then holdsAlone w args
  else (args.splitOn "-o").anyM fun some => (some.splitOn "-a").allM (holdsAlone w)

end MonkeyLang.Host.Shell
