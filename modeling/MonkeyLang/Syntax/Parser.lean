import MonkeyLang.Lexeme
import MonkeyLang.Place
import MonkeyLang.Syntax.ParseError
/-!
# Parsers

A parser holds the tokens that are still to be read and the errors noted so far. The token that stands for the end of
the source is kept apart from the others: looking ahead gives it when no token is left, and nothing moves past it.

A parser moves by one token at a time and counts its moves, also when it drops what is left of a statement. Spans are
covered by the parser, which puts down what it has computed.

`Reply` is what reading a phrase comes to. It says in its type that reading never puts tokens back and that a phrase
which is read takes at least one, and this is what every loop of the grammar ends by.
-/

namespace MonkeyLang

structure Parser where
  /-- The tokens still to be read. -/
  tokens : List Token
  /-- The token that stands for the end of the source. -/
  eof : Token
  /-- The span of the token read last. -/
  last : Span
  errors : Array ParseError
  /-- What positions have been computed from so far. -/
  log : SpanLog
  /-- How many tokens have been read. -/
  position : Nat
  /-- No token but the last one stands for the end. -/
  ended : eof.kind = .eof ∧ ∀ t ∈ tokens, t.kind ≠ .eof

namespace Parser

def lexicalError? (lexeme : Lexeme) : Option ParseError :=
  lexeme.error?.map fun e => ⟨.invalidSyntax, e.span, e.message⟩

def token? : Lexeme → Option Token
  | .token t => some t
  | .error _ => none

theorem ne_eof_of_mem_tokens {source : String} {t : Token} (h : t ∈ (Lexeme.scan source).1.filterMap token?) :
    t.kind ≠ .eof := by
  obtain ⟨lexeme, hmem, htoken⟩ := List.mem_filterMap.mp h
  cases lexeme with
  | error e => cases htoken
  | token u =>
    cases htoken
    exact Lexeme.ne_eof_of_mem_scan hmem

/-- A parser for a source. Whatever is no token is noted as an error and left out. -/
def ofSource (source : String) : Parser :=
  let lexemes := (Lexeme.scan source).1
  let stop := (Lexeme.scan source).2
  let tokens := lexemes.filterMap token?
  let eof := Token.eofAt stop.line stop.column
  { tokens
    eof
    last := (tokens.headD eof).span
    errors := (lexemes.filterMap lexicalError?).toArray
    log := ⟨source.utf8ByteSize, []⟩
    position := 0
    ended := ⟨rfl, fun _ => ne_eof_of_mem_tokens⟩ }

/-! ### Looking ahead and moving on -/

/-- The token `n` places ahead, if there is such a place. -/
def peekNth? (p : Parser) (n : Nat) : Option Token :=
  (Place.after? p.position n).map fun _ => p.tokens.getD n p.eof

def peek (p : Parser) : Token := p.tokens.headD p.eof

def check (p : Parser) (kind : TokenKind) : Bool := p.peek.kind == kind

def isEof (p : Parser) : Bool := p.check .eof

/-- Moves on by one token, to those behind it. -/
def moveTo (p : Parser) {first : Token} {rest : List Token} (h : p.tokens = first :: rest) : Parser :=
  { p with
    tokens := rest
    last := first.span
    position := p.position + 1
    ended := ⟨p.ended.1, fun t ht => p.ended.2 t (h ▸ List.mem_cons_of_mem first ht)⟩ }

theorem length_moveTo_lt (p : Parser) {t : Token} {rest : List Token} (h : p.tokens = t :: rest) :
    (p.moveTo h).tokens.length < p.tokens.length := by
  rw [h]
  exact Nat.lt_succ_self _

/-- The next token and the parser behind it; nothing at the end of the source. -/
def next? (p : Parser) : Option (Token × { q : Parser // q.tokens.length < p.tokens.length }) :=
  match h : p.tokens with
  | [] => none
  | t :: _ => some (t, ⟨p.moveTo h, Nat.lt_succ_self _⟩)

/-- Reads one token, or the end of the source again and again. -/
def advance (p : Parser) : Token × Parser :=
  match p.next? with
  | some (t, ⟨q, _⟩) => (t, q)
  | none => (p.eof, p)

def eat (p : Parser) (kind : TokenKind) : Option Token × Parser :=
  if p.check kind then
    let (t, q) := p.advance
    (some t, q)
  else
    (none, p)

/-- The error of finding the next token where one of another kind has to stand. -/
def unexpected (p : Parser) (kind : TokenKind) : ParseError :=
  let t := p.peek
  let errorKind := if t.kind = .eof then .unexpectedEof else .expectedToken
  ⟨errorKind, t.span, "expected " ++ kind.describe ++ ", found " ++ t.kind.describe⟩

def expect (p : Parser) (kind : TokenKind) : Except ParseError Token × Parser :=
  if p.check kind then
    let (t, q) := p.advance
    (.ok t, q)
  else
    (.error (p.unexpected kind), p)

def note (p : Parser) (e : ParseError) : Parser := { p with errors := p.errors.push e }

/-- The span from `a` to `b`, and the parser that has formed it. -/
def cover (p : Parser) (a b : Span) : Span × Parser := (a.cover b, { p with log := p.log.cover a b })

/-- Whether every position computed so far fits 32 bits. -/
def fits (p : Parser) : Bool := p.log.fits

@[simp] theorem tokens_moveTo (p : Parser) {t : Token} {rest : List Token} (h : p.tokens = t :: rest) :
    (p.moveTo h).tokens = rest := rfl

@[simp] theorem tokens_note (p : Parser) (e : ParseError) : (p.note e).tokens = p.tokens := rfl

@[simp] theorem cover_fst (p : Parser) (a b : Span) : (p.cover a b).1 = a.cover b := rfl

@[simp] theorem tokens_cover (p : Parser) (a b : Span) : (p.cover a b).2.tokens = p.tokens := rfl

theorem isEof_iff {p : Parser} : p.isEof ↔ p.tokens = [] := by
  rw [isEof, check, peek, beq_iff_eq]
  cases htokens : p.tokens with
  | nil => simpa using p.ended.1
  | cons t rest => simpa using p.ended.2 t (htokens ▸ List.mem_cons_self)

theorem next?_of_nil {p : Parser} (h : p.tokens = []) : p.next? = none := by
  obtain ⟨_, eof, last, errors, log, position, ended⟩ := p
  cases h
  rfl

theorem next?_of_cons {p : Parser} {t : Token} {rest : List Token} (h : p.tokens = t :: rest) :
    p.next? = some (t, ⟨p.moveTo h, p.length_moveTo_lt h⟩) := by
  obtain ⟨_, eof, last, errors, log, position, ended⟩ := p
  cases h
  rfl

theorem tokens_of_next?_eq_none {p : Parser} (h : p.next? = none) : p.tokens = [] := by
  cases htokens : p.tokens with
  | nil => rfl
  | cons t rest => cases h.symm.trans (next?_of_cons htokens)

theorem eq_moveTo_of_next? {p q : Parser} {t : Token} {hlt : q.tokens.length < p.tokens.length}
    (h : p.next? = some (t, ⟨q, hlt⟩)) : ∃ (rest : List Token) (htokens : p.tokens = t :: rest), q = p.moveTo htokens := by
  by_cases hnil : p.tokens = []
  · cases h.symm.trans (next?_of_nil hnil)
  · obtain ⟨u, rest, htokens⟩ := List.exists_cons_of_ne_nil hnil
    cases h.symm.trans (next?_of_cons htokens)
    exact ⟨rest, htokens, rfl⟩

/-! ### Recovery -/

/-- Drops tokens up to the end of the statement in which an error was found, for a parser that stood at `start`. Dropping
stops behind a `;` and, unless it is the first token, in front of `let` and `return`. A `}` is dropped as the last token
at the top level; in a block it stops the dropping, unless it is the first token. -/
def dropStatement (inBlock : Bool) (start : Nat) (p : Parser) : Parser :=
  match h : p.tokens with
  | [] => p
  | t :: _ =>
    match t.kind with
    | .semicolon => p.moveTo h
    | .rightBrace =>
      if inBlock then
        if start < p.position then p else dropStatement inBlock start (p.moveTo h)
      else p.moveTo h
    | .kwLet | .kwReturn => if start < p.position then p else dropStatement inBlock start (p.moveTo h)
    | _ => dropStatement inBlock start (p.moveTo h)
termination_by p.tokens.length
decreasing_by all_goals simp [h]

/-- Moves on to the next statement after an error. -/
def recover (p : Parser) (inBlock : Bool) : Parser := dropStatement inBlock p.position p

/-- What holds of a parser and is kept by moving on holds where dropping stops. -/
theorem dropStatement_keeps {motive : Parser → Prop} (inBlock : Bool) (start : Nat) (p : Parser) (hp : motive p)
    (hmove : ∀ (q : Parser) {t rest} (h : q.tokens = t :: rest), motive q → motive (q.moveTo h)) :
    motive (dropStatement inBlock start p) := by
  fun_induction dropStatement inBlock start p with
  | case1 | case3 | case6 | case8 => exact hp
  | case2 _ _ _ h _ | case5 _ _ _ h _ _ => exact hmove _ h hp
  | case4 _ _ _ h _ _ _ ih | case7 _ _ _ h _ _ ih | case9 _ _ _ h _ _ ih | case10 _ _ _ h _ _ _ _ ih =>
    exact ih (hmove _ h hp)

theorem length_dropStatement_le (inBlock : Bool) (start : Nat) (p : Parser) :
    (dropStatement inBlock start p).tokens.length ≤ p.tokens.length := by
  refine dropStatement_keeps (motive := fun q => q.tokens.length ≤ p.tokens.length) inBlock start p (Nat.le_refl _) ?_
  intro q t rest h hq
  rw [h] at hq
  exact Nat.le_of_lt hq

@[simp] theorem errors_recover (p : Parser) (inBlock : Bool) : (p.recover inBlock).errors = p.errors :=
  dropStatement_keeps (motive := fun q => q.errors = p.errors) inBlock p.position p rfl fun _ _ _ _ h => h

@[simp] theorem eof_recover (p : Parser) (inBlock : Bool) : (p.recover inBlock).eof = p.eof :=
  dropStatement_keeps (motive := fun q => q.eof = p.eof) inBlock p.position p rfl fun _ _ _ _ h => h

@[simp] theorem log_recover (p : Parser) (inBlock : Bool) : (p.recover inBlock).log = p.log :=
  dropStatement_keeps (motive := fun q => q.log = p.log) inBlock p.position p rfl fun _ _ _ _ h => h

theorem recover_suffix (p : Parser) (inBlock : Bool) : (p.recover inBlock).tokens <:+ p.tokens := by
  refine dropStatement_keeps (motive := fun q => q.tokens <:+ p.tokens) inBlock p.position p List.suffix_rfl ?_
  intro q t rest h hq
  exact (h ▸ List.suffix_cons t rest : rest <:+ q.tokens).trans hq

/-- The first token is always dropped. -/
theorem recover_of_cons {p : Parser} {t : Token} {rest : List Token} (h : p.tokens = t :: rest) (inBlock : Bool) :
    p.recover inBlock = p.moveTo h ∨ p.recover inBlock = dropStatement inBlock p.position (p.moveTo h) := by
  have hstart : ¬ p.position < p.position := Nat.lt_irrefl _
  rw [recover, dropStatement]
  split
  case h_1 hnil => cases h.symm.trans hnil
  case h_2 u us hcons =>
    cases h.symm.trans hcons
    split
    case h_1 => exact .inl rfl
    case h_2 =>
      cases inBlock with
      | false => exact .inl rfl
      | true => exact .inr (if_neg hstart)
    case h_3 | h_4 => exact .inr (if_neg hstart)
    case h_5 => exact .inr rfl

theorem recover_of_nil {p : Parser} (h : p.tokens = []) (inBlock : Bool) : p.recover inBlock = p := by
  rw [recover, dropStatement]
  split
  case h_1 => rfl
  case h_2 t rest hcons => cases h.symm.trans hcons

theorem length_recover_lt (p : Parser) (inBlock : Bool) {n : Nat} (hle : p.tokens.length ≤ n) (hpos : 0 < n) :
    (p.recover inBlock).tokens.length < n := by
  cases htokens : p.tokens with
  | nil =>
    rw [recover_of_nil htokens, htokens]
    exact hpos
  | cons t rest =>
    have hrest := length_dropStatement_le inBlock p.position (p.moveTo htokens)
    have hlt : (p.moveTo htokens).tokens.length < n := by
      rw [htokens] at hle
      exact hle
    rcases recover_of_cons htokens inBlock with hrecover | hrecover <;> rw [hrecover] <;> omega

end Parser

/-! ### Replies -/

/-- What reading a phrase comes to, for a parser with `n` tokens left: the phrase and the parser behind it, or an error
and the parser where reading stopped. -/
inductive Reply (α : Type) (n : Nat) where
  | ok (value : α) (rest : Parser) (shorter : rest.tokens.length < n)
  | error (cause : ParseError) (rest : Parser) (noLonger : rest.tokens.length ≤ n)

namespace Reply

variable {α β : Type} {m n : Nat}

@[inline] def andThen (reply : Reply α m) (hle : m ≤ n)
    (next : α → (p : Parser) → p.tokens.length < m → Reply β n) : Reply β n :=
  match reply with
  | .ok value rest h => next value rest h
  | .error cause rest h => .error cause rest (Nat.le_trans h hle)

/-- The same reply for a parser that had more tokens left. -/
@[inline] def weaken (reply : Reply α m) (hle : m ≤ n) : Reply α n :=
  match reply with
  | .ok value rest h => .ok value rest (Nat.lt_of_lt_of_le h hle)
  | .error cause rest h => .error cause rest (Nat.le_trans h hle)

def outcome : Reply α n → Except ParseError α
  | .ok value _ _ => .ok value
  | .error cause _ _ => .error cause

def parser : Reply α n → Parser
  | .ok _ rest _ => rest
  | .error _ rest _ => rest

end Reply

/-- A phrase that is read with the span from `a` to `b`. -/
abbrev Parser.spanning {α : Type} {n : Nat} (p : Parser) (a b : Span) (phrase : Span → α) (h : p.tokens.length < n) :
    Reply α n :=
  .ok (phrase (p.cover a b).1) (p.cover a b).2 h

end MonkeyLang
