import MonkeyLang.Lexeme
/-!
# Reading a source token by token

A lexer holds what is left of a source and hands out one token at a time. A stretch that is no token comes out as a token
that holds its place, and the error is put down beside it. At the end of the source there is always one more token, the one
that stands for the end.
-/

namespace MonkeyLang

/-- The text that has not been read and where it starts, and the errors so far. -/
structure Lexer where
  rest : List Char
  place : Position
  errors : Array LexError

namespace Lexer

def ofSource (source : String) : Lexer := ⟨source.toList, .start, #[]⟩

def next (l : Lexer) : Token × Lexer :=
  match Lexeme.next? l.rest l.place with
  | some (lexeme, left, q) => (lexeme.toToken, ⟨left, q, l.errors ++ lexeme.error?.toArray⟩)
  | none =>
    let (left, q) := Lexeme.skipGap false l.rest l.place
    (.eofAt q.line q.column, ⟨left, q, l.errors⟩)

def take : Nat → Lexer → List Token × Lexer
  | 0, l => ([], l)
  | n + 1, l =>
    let (t, l) := l.next
    let (ts, l) := take n l
    (t :: ts, l)

def hasErrors (l : Lexer) : Bool := !l.errors.isEmpty

def takeErrors (l : Lexer) : Array LexError × Lexer := (l.errors, { l with errors := #[] })

end Lexer

end MonkeyLang
