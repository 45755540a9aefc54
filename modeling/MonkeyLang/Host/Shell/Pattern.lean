import MonkeyLang.Text.Utf8
/-!
# Patterns

A pattern stands for texts: a star for any text, a question mark for any byte, and a set in brackets for one of the bytes
in it. What is quoted stands for itself, and so does a backslash together with what follows.
-/

namespace MonkeyLang.Host.Shell

structure PatternByte where
  byte : UInt8
  quoted : Bool
deriving DecidableEq, Repr

inductive PatternElement where
  | byte (b : UInt8)
  | anyByte
  | anyText
  /-- The bytes of some ranges, or all others. -/
  | set (negated : Bool) (ranges : List (UInt8 × UInt8))
deriving DecidableEq, Repr

abbrev Pattern := List PatternElement

/-- The ranges of a set up to its closing bracket, and what follows. A bracket in front of all of them is one of them. -/
def ranges? (first : Bool) (bytes : List PatternByte) : Option (List (UInt8 × UInt8) × List PatternByte) :=
  match bytes with
  | [] => none
  | p :: rest =>
    if p.byte = 0x5D ∧ ¬p.quoted ∧ ¬first then some ([], rest)
    else
      let high := if rest.head? = some ⟨0x2D, false⟩ then rest[1]?.filter (· ≠ ⟨0x5D, false⟩) else none
      let length := if high.isSome then 2 else 0
      (ranges? false (rest.drop length)).map fun (ranges, after) => ((p.byte, (high.getD p).byte) :: ranges, after)
termination_by bytes.length
decreasing_by simp only [List.length_cons, List.length_drop]; omega

/-- Reads a pattern. `fuel` is at least the number of bytes. -/
def readPattern : Nat → List PatternByte → Pattern
  | 0, _ => []
  | _, [] => []
  | fuel + 1, p :: rest =>
    if p.quoted then .byte p.byte :: readPattern fuel rest
    else if p.byte = 0x2A then .anyText :: readPattern fuel rest
    else if p.byte = 0x3F then .anyByte :: readPattern fuel rest
    else if p.byte = 0x5B then
      let (negated, items) := match rest with
        | ⟨0x21, false⟩ :: behind => (true, behind)
        | _ => (false, rest)
      match ranges? true items with
      | some (found, behind) => .set negated found :: readPattern fuel behind
      | none => .byte p.byte :: readPattern fuel rest
    else if p.byte = 0x5C then
      match rest with
      | q :: behind => .byte q.byte :: readPattern fuel behind
      | [] => [.byte p.byte]
    else .byte p.byte :: readPattern fuel rest

def Pattern.ofBytes (bytes : List PatternByte) : Pattern := readPattern bytes.length bytes

def Pattern.matches (pattern : Pattern) (text : List UInt8) : Bool :=
  match pattern, text with
  | [], text => text.isEmpty
  | .anyText :: rest, [] => Pattern.matches rest []
  | .anyText :: rest, b :: text => Pattern.matches rest (b :: text) || Pattern.matches (.anyText :: rest) text
  | _ :: _, [] => false
  | .byte c :: rest, b :: text => b == c && Pattern.matches rest text
  | .anyByte :: rest, _ :: text => Pattern.matches rest text
  | .set negated ranges :: rest, b :: text =>
    (ranges.any (fun (low, high) => low ≤ b && b ≤ high) != negated) && Pattern.matches rest text
termination_by pattern.length + text.length

end MonkeyLang.Host.Shell
