import MonkeyLang.Host.System
/-!
# Shell scripts

The shell's language as trees, and the tokens that the text of a script is cut into. A command is made of words, and a word
may hold commands in turn, whose output becomes part of it. What a word means depends on where it stands: `if` starts a
command, but not in the middle of one.
-/

namespace MonkeyLang.Host.Shell

mutual

inductive WordPart where
  | plain (c : Char)
  /-- Text that stands for itself only. -/
  | literal (cs : List Char)
  /-- What stands between quotation marks. -/
  | quotes (parts : List WordPart)
  | parameter (name : String) (use : Use)
  /-- The output of commands. -/
  | commands (body : Command)
  | arithmetic (expression : List WordPart)

/-- What is made of the value of a parameter. A strict use takes an empty value for none. -/
inductive Use where
  | value
  | length
  /-- The value, or else a word. -/
  | otherwise (strict : Bool) (word : List WordPart)
  /-- A word in place of the value. -/
  | replaced (strict : Bool) (word : List WordPart)
  /-- A use that has no meaning. -/
  | senseless

inductive Redirection where
  | file (stream : Nat) (access : Access) (path : List WordPart)
  /-- To wherever another stream leads. -/
  | same (stream : Nat) (other : List WordPart)
  /-- From a text that stands in the script. -/
  | document (stream : Nat) (text : List WordPart)

inductive Command where
  | nothing
  | simple (line : Nat) (assignments : List (String × List WordPart)) (words : List (List WordPart))
    (redirections : List Redirection)
  /-- Commands of which each reads what the one before it writes. -/
  | pipeline (commands : List Command)
  | negated (command : Command)
  | both (first second : Command)
  | either (first second : Command)
  | sequence (first second : Command)
  | branch (test whenTrue whenFalse : Command)
  /-- A loop that goes on as long as the test succeeds, or as long as it fails. -/
  | loop (succeeds : Bool) (test body : Command)
  | each (line : Nat) (name : String) (words : List (List WordPart)) (body : Command)
  | choice (line : Nat) (word : List WordPart) (cases : List (List (List WordPart) × Command))
  /-- Commands that cannot change the shell around them. -/
  | subshell (line : Nat) (body : Command)
  | redirected (line : Nat) (command : Command) (redirections : List Redirection)

end

abbrev Word := List WordPart

/-- Whether a character is a parameter by itself. -/
def isParameter (c : Char) : Bool := c.isDigit || ['#', '?', '$', '-', '*', '@'].contains c

def startsName (c : Char) : Bool := c.isAlpha || c == '_'

def continuesName (c : Char) : Bool := c.isAlphanum || c == '_'

def isName (cs : List Char) : Bool := cs.head?.any startsName && cs.all continuesName

/-- The commands of the shell itself that end the script when they go wrong. -/
def specialNames : List String := [":", "break", "continue", "eval", "exec", "exit", "export", "set", "shift", "unset"]

namespace Word

/-- The text of a word that is nothing but text. -/
def plainText? : Word → Option (List Char)
  | [] => some []
  | .plain c :: rest => (plainText? rest).map (c :: ·)
  | _ => none

/-- The name that a word starts with, if an equals sign follows, and the value behind it. -/
def assignment? (word : Word) : Option (String × Word) :=
  let rec go (name : List Char) : Word → Option (String × Word)
    | .plain '=' :: value => if isName name.reverse then some (String.ofList name.reverse, value) else none
    | .plain c :: rest => if continuesName c then go (c :: name) rest else none
    | _ => none
  go [] word

end Word

/-! ### Tokens -/

inductive Token where
  | word (parts : Word)
  /-- A word that has a meaning of its own. -/
  | keyword (name : String)
  /-- The start of a redirection. -/
  | redirection (stream : Nat) (operator : String)
  | operator (text : String)
  | newline
  | endOfText

def Token.description : Token → String
  | .word _ => "word"
  | .keyword name => "\"" ++ name ++ "\""
  | .redirection _ _ => "redirection"
  | .operator text => "\"" ++ text ++ "\""
  | .newline => "newline"
  | .endOfText => "end of file"

def keywords : List String :=
  ["!", "case", "do", "done", "elif", "else", "esac", "fi", "for", "if", "in", "then", "until", "while", "\x7b", "\x7d"]

def Token.endsList : Token → Bool
  | .endOfText => true
  | .operator text => text = ")" || text = ";;"
  | .keyword name => name ∈ ["do", "done", "elif", "else", "esac", "fi", "then", "\x7d"]
  | _ => false

/-- The keyword that a token is where keywords count, or else the token itself. -/
def Token.classified (token : Token) : Token :=
  match token with
  | .word parts =>
    match Word.plainText? parts with
    | some cs => if String.ofList cs ∈ keywords then .keyword (String.ofList cs) else token
    | none => token
  | _ => token

def Token.asWord : Token → Word
  | .word parts => parts
  | .keyword name => name.toList.map .plain
  | _ => []

end MonkeyLang.Host.Shell
