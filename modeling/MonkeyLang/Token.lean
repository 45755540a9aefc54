import MonkeyLang.Span
/-!
# Tokens

The words of the language. A token keeps its spelling and where it stands. Most kinds have one spelling only, given by
`TokenKind.spelling?`, and messages name a kind by that spelling or else in words.
-/

namespace MonkeyLang

/-- What a token is. `eof` stands for the end of the source and `error` for a stretch that is no token at all. -/
inductive TokenKind where
  | intLiteral
  | stringLiteral
  | identifier
  | kwLet
  | kwFn
  | kwTrue
  | kwFalse
  | kwIf
  | kwElse
  | kwReturn
  | plus
  | minus
  | star
  | slash
  | bang
  | equal
  | equalEqual
  | bangEqual
  | less
  | lessEqual
  | greater
  | greaterEqual
  | leftParen
  | rightParen
  | leftBrace
  | rightBrace
  | leftBracket
  | rightBracket
  | comma
  | colon
  | semicolon
  | eof
  | error
deriving DecidableEq, Repr

namespace TokenKind

/-- The spelling of the kinds that have only one. -/
def spelling? : TokenKind → Option String
  | intLiteral | stringLiteral | identifier | eof | error => none
  | kwLet => some "let"
  | kwFn => some "fn"
  | kwTrue => some "true"
  | kwFalse => some "false"
  | kwIf => some "if"
  | kwElse => some "else"
  | kwReturn => some "return"
  | plus => some "+"
  | minus => some "-"
  | star => some "*"
  | slash => some "/"
  | bang => some "!"
  | equal => some "="
  | equalEqual => some "=="
  | bangEqual => some "!="
  | less => some "<"
  | lessEqual => some "<="
  | greater => some ">"
  | greaterEqual => some ">="
  | leftParen => some "("
  | rightParen => some ")"
  | leftBrace => some "\x7b"
  | rightBrace => some "\x7d"
  | leftBracket => some "["
  | rightBracket => some "]"
  | comma => some ","
  | colon => some ":"
  | semicolon => some ";"

/-- How messages name a kind: by its spelling in single quotes, or in words. -/
def describe : TokenKind → String
  | intLiteral => "integer literal"
  | stringLiteral => "string literal"
  | identifier => "identifier"
  | eof => "end of file"
  | error => "invalid token"
  | kind => "'" ++ kind.spelling?.getD "" ++ "'"

def keywords : List TokenKind := [kwLet, kwFn, kwTrue, kwFalse, kwIf, kwElse, kwReturn]

/-- The kind of a word: the keyword it spells, or else an identifier. -/
def ofWord (word : String) : TokenKind :=
  (keywords.find? fun kind => kind.spelling? == some word).getD identifier

theorem ofWord_ne_eof (word : String) : ofWord word ≠ eof := by
  unfold ofWord
  cases hfind : keywords.find? fun kind => kind.spelling? == some word with
  | none => exact TokenKind.noConfusion
  | some kind =>
    rintro rfl
    exact absurd (List.mem_of_find?_eq_some hfind) (by decide)

end TokenKind

/-- A word of the source, as spelled, and where it stands. -/
structure Token where
  kind : TokenKind
  lexeme : String
  span : Span
deriving DecidableEq, Repr

namespace Token

def eofAt (line column : Nat) : Token := ⟨.eof, "", Span.point line column⟩

end Token

end MonkeyLang
