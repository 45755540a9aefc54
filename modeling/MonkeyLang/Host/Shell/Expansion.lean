import MonkeyLang.Host.Shell.Arithmetic
import MonkeyLang.Host.Shell.Pattern
import MonkeyLang.Host.Shell.State
/-!
# Expanding words

What the words of a script stand for. Parameters, commands and arithmetic are replaced by text, which is cut into fields
where it was not quoted.
-/

namespace MonkeyLang.Host.Shell

/-! ### Parameters -/

def isBlank (c : Char) : Bool := c == ' ' || c == '\t' || c == '\n'

def valueGlyphs (quoted : Bool) (text : String) : List Glyph := text.toList.map fun c => .char c quoted (!quoted)

def argumentGlyphs (s : State) (manner : Manner) (name : String) : List Glyph :=
  if manner.full ∧ manner.quoted ∧ name = "@" then
    (s.args.map fun arg => .mark :: valueGlyphs true arg).intersperse [.cut] |>.flatten
  else if manner.full ∧ ¬manner.quoted then
    (s.args.map (valueGlyphs false)).intersperse [.gap] |>.flatten
  else valueGlyphs manner.quoted (" ".intercalate s.args)

def parameterGlyphs? (s : State) (manner : Manner) (name : String) : Option (List Glyph) :=
  if name = "@" ∨ name = "*" then if s.args.isEmpty then none else some (argumentGlyphs s manner name)
  else (s.value? name).map (valueGlyphs manner.quoted)

def textOf (glyphs : List Glyph) : String :=
  String.ofList (glyphs.filterMap fun glyph =>
    match glyph with
    | .char c _ _ => some c
    | .gap => some ' '
    | _ => none)

def integerValue (text : String) : Except String Int :=
  let cs := text.toList.dropWhile isBlank
  let (negative, digits) := match cs with
    | '-' :: rest => (true, rest)
    | rest => (false, rest)
  let (value, length) := Arithmetic.number digits
  if (digits.drop length).all isBlank then .ok (if negative then -value else value) else .error s!"Illegal number: {text}"

def expandParameter (ev : Evaluator) (manner : Manner) (name : String) (use : Use) : Act (List Glyph) := do
  let s ← get
  let found := parameterGlyphs? s manner name
  let present (strict : Bool) : Bool := found.any fun glyphs => !(strict && (textOf glyphs).isEmpty)
  let value : Act (List Glyph) := do
    if s.options.contains 'u' ∧ found.isNone ∧ name ∉ ["@", "*"] then Act.fail s!"{name}: parameter not set"
    else return found.getD []
  let replacement (word : Word) : Act (List Glyph) := ev.expand { manner with replaces := !manner.quoted } word
  match use with
  | .value => value
  | .length =>
    if name = "@" ∨ name = "*" then return valueGlyphs manner.quoted (toString s.args.length)
    else return valueGlyphs manner.quoted (toString (textOf (← value)).utf8ByteSize)
  | .otherwise strict word => if present strict then return found.getD [] else replacement word
  | .replaced strict word => if present strict then replacement word else return []
  | .senseless => Act.fail "Bad substitution"

/-! ### Words -/

def expandPart (ev : Evaluator) (manner : Manner) : WordPart → Act (List Glyph)
  | .plain c => return [.char c manner.quoted manner.replaces]
  | .literal cs => return .mark :: cs.map fun c => .char c true false
  | .quotes parts => do
    let glyphs ← ev.expand { manner with quoted := true, replaces := false } parts
    match parts with
    | [.parameter "@" .value] => return if manner.full then glyphs else .mark :: glyphs
    | _ => return .mark :: glyphs
  | .parameter name use => expandParameter ev manner name use
  | .commands body => do
    let bytes ← capture (ev.run false body)
    return valueGlyphs manner.quoted (Text.Utf8.decodeLossy bytes)
  | .arithmetic expression => do
    let text := textOf (← ev.expand { full := false, quoted := true } expression)
    let s ← get
    match Arithmetic.evaluate (fun name => integerValue ((s.value? name).getD "")) text with
    | .ok value => return valueGlyphs manner.quoted (toString value)
    | .error complaint =>
      Act.fail (if complaint.startsWith "Illegal" then complaint else s!"arithmetic expression: {complaint}: \"{text}\"")

def expandParts (ev : Evaluator) (manner : Manner) (word : Word) : Act (List Glyph) := do
  let glyphs ← word.mapM (expandPart ev manner)
  return glyphs.flatten

/-- The fields that are cut so far, and the one that has been started, in reverse. -/
structure Fields where
  finished : List String := []
  started : Option (List Char) := none

def Fields.finish (f : Fields) : Fields := { finished := f.finished ++ f.started.toList.map (String.ofList ·.reverse) }

def Fields.add (f : Fields) : Glyph → Fields
  | .mark => { f with started := some (f.started.getD []) }
  | .cut | .gap => f.finish
  | .char c _ splits => if splits && isBlank c then f.finish else { f with started := some (c :: f.started.getD []) }

namespace Evaluator

/-- The arguments that a word stands for. -/
def fields (ev : Evaluator) (word : Word) : Act (List String) :=
  return ((← ev.expand { full := true } word).foldl Fields.add {}).finish.finished

def text (ev : Evaluator) (word : Word) : Act String := return textOf (← ev.expand { full := false } word)

def pattern (ev : Evaluator) (word : Word) : Act Pattern := do
  let bytes := (← ev.expand { full := false } word).flatMap fun glyph =>
    match glyph with
    | .char c quoted _ => (Text.Utf8.encode c.toString).map (⟨·, quoted⟩)
    | _ => []
  return .ofBytes bytes

end Evaluator

end MonkeyLang.Host.Shell
