import MonkeyLang.Text.Blank
import MonkeyLang.Token
/-!
# Cutting source text into lexemes

A source is a sequence of lexemes with gaps between them. A gap is white space and `//` comments, each of which runs up
to the end of its line. `Lexeme.cut` takes one lexeme off the front of a text that starts outside a gap: what it takes
and what it leaves make up the text, and it takes at least one character. `Lexeme.next?` skips a gap and then cuts, and
`Lexeme.scan` repeats this to the end of the source.
-/

namespace MonkeyLang

/-- Why a stretch of the source is no token. -/
inductive LexError where
  | unexpectedChar (char : Char) (span : Span)
  | unterminatedString (span : Span)
  /-- A number with letters directly behind its digits. -/
  | invalidNumber (span : Span)
deriving DecidableEq, Repr

namespace LexError

def span : LexError → Span
  | unexpectedChar _ span | unterminatedString span | invalidNumber span => span

def message : LexError → String
  | unexpectedChar char span => "unexpected character '" ++ char.toString ++ "' at " ++ span.text
  | unterminatedString span => "unterminated string at " ++ span.text
  | invalidNumber span => "invalid number at " ++ span.text ++ ": identifier characters directly after digits"

end LexError

/-- A place in the source: line and column, both counted from one, the column in bytes. -/
structure Position where
  line : Nat
  column : Nat
deriving DecidableEq, Repr

namespace Position

def start : Position := ⟨1, 1⟩

def after (p : Position) (c : Char) : Position :=
  if c = '\n' then ⟨p.line + 1, 1⟩ else ⟨p.line, p.column + c.utf8Size⟩

def afterAll (p : Position) (cs : List Char) : Position := cs.foldl after p

end Position

/-- A token, or a stretch of the source that is none. -/
inductive Lexeme where
  | token (token : Token)
  | error (error : LexError)
deriving DecidableEq, Repr

namespace Lexeme

/-- An error as the token that holds its place. -/
def toToken : Lexeme → Token
  | token t => t
  | error e => ⟨.error, "", e.span⟩

def error? : Lexeme → Option LexError
  | token _ => none
  | error e => some e

/-! ### Gaps -/

/-- What is left of a text behind the gap at its front, and where. Inside a comment everything up to the next newline
belongs to the gap. -/
def skipGap (inComment : Bool) : List Char → Position → List Char × Position
  | [], p => ([], p)
  | c :: cs, p =>
    if inComment then
      skipGap (c != '\n') cs (p.after c)
    else if Text.isBlank c then
      skipGap false cs (p.after c)
    else if c = '/' ∧ cs.head? = some '/' then
      skipGap true cs (p.after c)
    else
      (c :: cs, p)

theorem length_skipGap_le (inComment : Bool) (cs : List Char) (p : Position) :
    (skipGap inComment cs p).1.length ≤ cs.length := by
  fun_induction skipGap inComment cs p <;> grind

/-! ### One lexeme -/

def isWordStart (c : Char) : Bool := c.isAlpha || c == '_'

def isWordRest (c : Char) : Bool := c.isAlphanum || c == '_'

inductive Form where
  | token (kind : TokenKind)
  | unexpected
  | unterminated
  | misnumbered
deriving DecidableEq, Repr

/-- The text of a string literal behind its opening quote, up to and with its closing quote: whether it is closed, what
was taken and what is left. A backslash takes the next character with it, whatever that is. -/
def cutString (escaped : Bool) (taken : List Char) : List Char → Bool × List Char × List Char
  | [] => (false, taken.reverse, [])
  | c :: cs =>
    if escaped then cutString false (c :: taken) cs
    else if c = '"' then (true, (c :: taken).reverse, cs)
    else cutString (c == '\\') (c :: taken) cs

/-- The spellings of operators and delimiters, the longer ones first. -/
def operators : List (List Char × TokenKind) :=
  [(['=', '='], .equalEqual), (['!', '='], .bangEqual), (['<', '='], .lessEqual), (['>', '='], .greaterEqual),
    (['='], .equal), (['!'], .bang), (['<'], .less), (['>'], .greater),
    (['+'], .plus), (['-'], .minus), (['*'], .star), (['/'], .slash),
    (['('], .leftParen), ([')'], .rightParen), (['\x7b'], .leftBrace), (['\x7d'], .rightBrace),
    (['['], .leftBracket), ([']'], .rightBracket), ([','], .comma), ([':'], .colon), ([';'], .semicolon)]

/-- Takes the longest lexeme off the front of a text that starts with `c`: what it is, what it takes, what it leaves. -/
def cut (c : Char) (cs : List Char) : Form × List Char × List Char :=
  if c = '"' then
    match cutString false [c] cs with
    | (true, taken, rest) => (.token .stringLiteral, taken, rest)
    | (false, taken, rest) => (.unterminated, taken, rest)
  else if c.isDigit then
    let digits := c :: cs.takeWhile Char.isDigit
    let rest := cs.dropWhile Char.isDigit
    if rest.head?.any isWordStart then
      (.misnumbered, digits ++ rest.takeWhile isWordRest, rest.dropWhile isWordRest)
    else
      (.token .intLiteral, digits, rest)
  else if isWordStart c then
    let word := c :: cs.takeWhile isWordRest
    (.token (.ofWord (String.ofList word)), word, cs.dropWhile isWordRest)
  else
    match operators.find? fun op => op.1.isPrefixOf (c :: cs) with
    | some op => (.token op.2, (c :: cs).take op.1.length, (c :: cs).drop op.1.length)
    | none => (.unexpected, [c], cs)

/-- The lexeme that a stretch of text of a given form makes up at a place. -/
def ofForm (form : Form) (p : Position) (taken : List Char) : Lexeme :=
  let text := String.ofList taken
  let span : Span := ⟨p.line, p.column, text.utf8ByteSize⟩
  match form with
  | .token kind => token ⟨kind, text, span⟩
  | .unexpected => error (.unexpectedChar (taken.headD ' ') span)
  | .unterminated => error (.unterminatedString span)
  | .misnumbered => error (.invalidNumber span)

theorem length_cutString_le (escaped : Bool) (taken cs : List Char) :
    (cutString escaped taken cs).2.2.length ≤ cs.length := by
  fun_induction cutString escaped taken cs <;> grind

theorem length_dropWhile_le (f : Char → Bool) (cs : List Char) : (cs.dropWhile f).length ≤ cs.length :=
  (List.dropWhile_suffix f).length_le

theorem length_pos_of_mem_operators {op : List Char × TokenKind} (h : op ∈ operators) : 0 < op.1.length := by
  revert op
  decide

theorem length_cut_le (c : Char) (cs : List Char) : (cut c cs).2.2.length ≤ cs.length := by
  have hstring := length_cutString_le false [c] cs
  have hdigits := length_dropWhile_le Char.isDigit cs
  have hword := length_dropWhile_le isWordRest cs
  have hmixed := length_dropWhile_le isWordRest (cs.dropWhile Char.isDigit)
  unfold cut
  split
  · split <;> simp_all
  · split
    · simp only []
      split <;> simp only [] <;> omega
    · split
      · exact hword
      · split
        · rename_i op hop
          have hpos := length_pos_of_mem_operators (List.mem_of_find?_eq_some hop)
          simp only [List.length_drop, List.length_cons]
          omega
        · exact Nat.le_refl _

theorem ne_eof_of_mem_operators {op : List Char × TokenKind} (h : op ∈ operators) : op.2 ≠ .eof := by
  revert op
  decide

/-- No stretch of text stands for the end of the source. -/
theorem cut_ne_eof (c : Char) (cs : List Char) : (cut c cs).1 ≠ .token .eof := by
  unfold cut
  split
  · split <;> simp
  · split
    · dsimp only
      split <;> simp
    · split
      · simpa using TokenKind.ofWord_ne_eof _
      · split
        · rename_i op hop
          simpa using ne_eof_of_mem_operators (List.mem_of_find?_eq_some hop)
        · simp

/-! ### The whole source -/

/-- The next lexeme behind a gap, with the text and place behind it; nothing at the end of the source. -/
def next? (cs : List Char) (p : Position) : Option (Lexeme × List Char × Position) :=
  match skipGap false cs p with
  | ([], _) => none
  | (c :: rest, q) =>
    let (form, taken, left) := cut c rest
    some (ofForm form q taken, left, q.afterAll taken)

theorem length_lt_of_next? {cs left : List Char} {p q : Position} {lexeme : Lexeme}
    (h : next? cs p = some (lexeme, left, q)) : left.length < cs.length := by
  have hgap := length_skipGap_le false cs p
  unfold next? at h
  split at h
  · simp at h
  · rename_i c rest _ hskip
    have hcut := length_cut_le c rest
    rw [hskip, List.length_cons] at hgap
    simp only [Option.some.injEq, Prod.mk.injEq] at h
    rw [← h.2.1]
    exact Nat.lt_of_le_of_lt hcut hgap

theorem ne_eof_of_next? {cs left : List Char} {p q : Position} {lexeme : Lexeme}
    (h : next? cs p = some (lexeme, left, q)) : lexeme.toToken.kind ≠ .eof := by
  unfold next? at h
  split at h
  · cases h
  · rename_i c rest _ _
    have hcut := cut_ne_eof c rest
    simp only [Option.some.injEq, Prod.mk.injEq] at h
    rw [← h.1]
    generalize (cut c rest).1 = form at hcut
    cases form with
    | token kind => exact fun hkind => hcut (congrArg Form.token hkind)
    | unexpected | unterminated | misnumbered => exact TokenKind.noConfusion

/-- The lexemes of a text that starts at a place, behind those already found, and the place where the text ends. -/
def scanFrom (found : Array Lexeme) (cs : List Char) (p : Position) : Array Lexeme × Position :=
  match hnext : next? cs p with
  | none => (found, (skipGap false cs p).2)
  | some (lexeme, left, q) =>
    have := length_lt_of_next? hnext
    scanFrom (found.push lexeme) left q
termination_by cs.length

/-- The lexemes of a source, and the place where it ends. -/
def scan (source : String) : List Lexeme × Position :=
  let (found, stop) := scanFrom #[] source.toList .start
  (found.toList, stop)

theorem ne_eof_of_mem_scanFrom {found : Array Lexeme} {cs : List Char} {p : Position}
    (hfound : ∀ lexeme ∈ found, lexeme.toToken.kind ≠ .eof) :
    ∀ lexeme ∈ (scanFrom found cs p).1, lexeme.toToken.kind ≠ .eof := by
  fun_induction scanFrom found cs p with
  | case1 => exact hfound
  | case2 found cs p lexeme left q hnext _ ih =>
    refine ih fun other hother => ?_
    rcases Array.mem_push.mp hother with hother | rfl
    · exact hfound other hother
    · exact ne_eof_of_next? hnext

theorem ne_eof_of_mem_scan {source : String} {lexeme : Lexeme} (h : lexeme ∈ (scan source).1) :
    lexeme.toToken.kind ≠ .eof := by
  have hnone : ∀ lexeme ∈ (#[] : Array Lexeme), lexeme.toToken.kind ≠ .eof := by simp
  exact ne_eof_of_mem_scanFrom hnone lexeme (Array.mem_toList_iff.mp h)

end Lexeme

end MonkeyLang
