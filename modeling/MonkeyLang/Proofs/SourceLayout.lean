import MonkeyLang.Proofs.Partition
/-!
# Layout

What stands between two tokens does not matter, as long as it keeps them apart. `Separates` says what may stand there: white
space and comments that are ended by a newline, with white space in front. A source that is all tokens can be laid out anew
with any such texts between its tokens, and a lexer reads the same words from it.
-/

namespace MonkeyLang

/-! ### Reading a source to its end -/

/-- A lexer that is asked for token after token hands out these before it comes to the end of the source. -/
inductive Lexer.Reads : Lexer → List Token → Lexer → Prop
  | stop {l eof l'} (hnext : l.next = (eof, l')) (hkind : eof.kind = .eof) : Reads l [] l'
  | token {l t l' tokens l''} (hnext : l.next = (t, l')) (hkind : t.kind ≠ .eof) (hrest : Reads l' tokens l'') :
      Reads l (t :: tokens) l''

/-- A source is read as these tokens, without an error. -/
def Lexes (source : String) (tokens : List Token) : Prop :=
  ∃ l, (Lexer.ofSource source).Reads tokens l ∧ l.hasErrors = false

/-- What a token is, apart from where it stands. -/
def Token.word (t : Token) : TokenKind × String := (t.kind, t.lexeme)

namespace Lexeme

variable {cs : List Char} {p stop : Position} {lexemes : List Lexeme}

/-- What a lexer reads up to the end of a source, and what becomes of it. -/
theorem Scans.reads_iff (h : Scans cs p lexemes stop) {errors : Array LexError} {tokens : List Token} {l : Lexer} :
    Lexer.Reads ⟨cs, p, errors⟩ tokens l ↔
      tokens = lexemes.map toToken ∧ l = ⟨[], stop, errors ++ (lexemes.filterMap error?).toArray⟩ := by
  induction h generalizing errors tokens with
  | @stop cs p q hskip =>
    have hnext : Lexer.next ⟨cs, p, errors⟩ = (.eofAt q.line q.column, ⟨[], q, errors⟩) := by
      simp [Lexer.next, next?, hskip]
    constructor
    · rintro (⟨hnext', -⟩ | ⟨hnext', hkind, -⟩)
      · cases hnext.symm.trans hnext'
        exact ⟨rfl, by simp⟩
      · cases hnext.symm.trans hnext'
        exact absurd rfl hkind
    · rintro ⟨rfl, rfl⟩
      exact .stop (by simpa using hnext) rfl
  | @step cs p lexeme left q lexemes stop hnext? _ ih =>
    have hnext : Lexer.next ⟨cs, p, errors⟩ = (lexeme.toToken, ⟨left, q, errors ++ lexeme.error?.toArray⟩) := by
      simp [Lexer.next, hnext?]
    have herrors : errors ++ ((lexeme :: lexemes).filterMap error?).toArray =
        errors ++ lexeme.error?.toArray ++ (lexemes.filterMap error?).toArray := by
      cases lexeme <;> simp [error?, List.filterMap_cons]
    constructor
    · rintro (⟨hnext', hkind⟩ | ⟨hnext', -, hrest⟩)
      · cases hnext.symm.trans hnext'
        exact absurd hkind (ne_eof_of_next? hnext?)
      · cases hnext.symm.trans hnext'
        obtain ⟨rfl, rfl⟩ := ih.mp hrest
        exact ⟨rfl, by rw [herrors]⟩
    · rintro ⟨rfl, rfl⟩
      exact .token hnext (ne_eof_of_next? hnext?) (ih.mpr ⟨rfl, by rw [herrors]⟩)

theorem eq_map_token_of_no_errors (h : lexemes.filterMap error? = []) : lexemes = (lexemes.map toToken).map token := by
  induction lexemes with
  | nil => rfl
  | cons lexeme lexemes ih =>
    cases lexeme with
    | token t => exact congrArg _ (ih h)
    | error e => simp [error?] at h

/-- A source is read without an error if it is scanned as nothing but tokens. -/
theorem lexes_iff {source : String} {tokens : List Token} :
    Lexes source tokens ↔ ∃ stop, Scans source.toList .start (tokens.map token) stop := by
  constructor
  · rintro ⟨l, hreads, herrors⟩
    obtain ⟨lexemes, stop, hscans⟩ := exists_scans source.toList .start
    obtain ⟨rfl, rfl⟩ := hscans.reads_iff.mp hreads
    have hnone : lexemes.filterMap error? = [] := by simpa [Lexer.hasErrors] using herrors
    rw [← eq_map_token_of_no_errors hnone]
    exact ⟨stop, hscans⟩
  · rintro ⟨stop, hscans⟩
    have htokens : (tokens.map token).map toToken = tokens := List.map_map.trans (List.map_id tokens)
    have hnone : (tokens.map token).filterMap error? = [] := by simp [List.filterMap_eq_nil_iff, error?]
    exact ⟨_, hscans.reads_iff.mpr ⟨htokens.symm, rfl⟩, by simp [Lexer.hasErrors, hnone]⟩

end Lexeme

/-! ### Texts between tokens -/

/-- White space and comments, each of which has its newline. -/
inductive Filler : List Char → Prop
  | nil : Filler []
  | blank {c cs} (hblank : Text.isBlank c) (hrest : Filler cs) : Filler (c :: cs)
  | comment {body cs} (hbody : '\n' ∉ body) (hrest : Filler cs) : Filler ('/' :: '/' :: (body ++ '\n' :: cs))

/-- What keeps two tokens apart: white space, and behind it white space and comments. -/
def Separates (text : String) : Prop := ∃ c cs, text.toList = c :: cs ∧ Text.isBlank c ∧ Filler cs

/-- Texts one behind the other, with a separator between each two of them. -/
def joined (separator : Nat → String) : List String → String
  | [] => ""
  | [text] => text
  | text :: next :: rest => text ++ (separator 0 ++ joined (fun i => separator (i + 1)) (next :: rest))

namespace Lexeme

variable {gap rest : List Char} {p stop : Position} {lexemes : List Lexeme}

theorem skipGap_comment {body : List Char} (hbody : '\n' ∉ body) (rest : List Char) (p : Position) :
    skipGap true (body ++ '\n' :: rest) p = skipGap false rest (p.afterAll (body ++ ['\n'])) := by
  induction body generalizing p with
  | nil => rfl
  | cons c body ih =>
    obtain ⟨hc, hbody⟩ := not_or.mp (List.mem_cons.not.mp hbody)
    have hgoes : (c != '\n') = true := by simpa using Ne.symm hc
    rw [List.cons_append, skipGap, if_pos rfl, hgoes, ih hbody]
    rfl

theorem skipGap_filler (h : Filler gap) (rest : List Char) (p : Position) :
    skipGap false (gap ++ rest) p = skipGap false rest (p.afterAll gap) := by
  induction h generalizing p with
  | nil => rfl
  | blank hblank _ ih =>
    rw [List.cons_append, skipGap, if_neg Bool.false_ne_true, if_pos hblank, ih]
    rfl
  | @comment body cs hbody _ ih =>
    -- The first slash starts the comment, and the second one is the first character in it.
    have hslash : skipGap false ('/' :: '/' :: (body ++ '\n' :: cs) ++ rest) p =
        skipGap true (body ++ '\n' :: (cs ++ rest)) ((p.after '/').after '/') := by
      simp [skipGap, Text.isBlank]
    rw [hslash, skipGap_comment hbody, ih]
    simp [Position.afterAll]

theorem Scans.filler_append (h : Filler gap) (hscans : Scans rest (p.afterAll gap) lexemes stop) :
    Scans (gap ++ rest) p lexemes stop :=
  .of_skipGap (skipGap_filler h rest p) hscans

/-- Texts of tokens with separators between them are scanned as these tokens. -/
theorem exists_scans_joined {separator : Nat → String} {tokens : List Token}
    (hwritten : ∀ t ∈ tokens, t.kind.Written t.lexeme.toList)
    (hseparates : ∀ i, i + 1 < tokens.length → Separates (separator i)) (p : Position) :
    ∃ (again : List Token) (stop : Position),
      Scans (joined separator (tokens.map Token.lexeme)).toList p (again.map token) stop ∧
      again.map Token.word = tokens.map Token.word := by
  induction tokens generalizing separator p with
  | nil => exact ⟨[], p, .stop rfl, rfl⟩
  | cons t tokens ih =>
    have ht := hwritten t List.mem_cons_self
    have hwritten' : ∀ u ∈ tokens, u.kind.Written u.lexeme.toList := fun u hu => hwritten u (List.mem_cons_of_mem t hu)
    cases tokens with
    | nil =>
      have hnone : Scans [] (p.afterAll t.lexeme.toList) [] (p.afterAll t.lexeme.toList) := .stop rfl
      have hscans := hnone.written_cons ht (by rintro d ⟨⟩)
      rw [List.append_nil] at hscans
      exact ⟨[tokenAt t.kind t.lexeme.toList p], _, hscans, by simp [tokenAt, Token.word]⟩
    | cons u us =>
      obtain ⟨c, cs, hseparator, hblank, hfiller⟩ := hseparates 0 (by simp)
      obtain ⟨again, stop, hscans, hwords⟩ :=
        ih hwritten' (fun i hi => hseparates (i + 1) (Nat.succ_lt_succ hi)) ((p.afterAll t.lexeme.toList).afterAll (c :: cs))
      refine ⟨tokenAt t.kind t.lexeme.toList p :: again, stop, ?_, ?_⟩
      · rw [List.map_cons, List.map_cons, joined, String.toList_append, String.toList_append, hseparator]
        exact .written_cons ht (by simpa [Apart] using hblank) (.filler_append (.blank hblank hfiller) hscans)
      · rw [List.map_cons, List.map_cons, hwords]
        simp [tokenAt, Token.word]

end Lexeme

/-- The tokens of a source that is read without an error, laid out anew with any separators between them, are read without an
error as the same words. -/
theorem layout_insensitive {source : String} {tokens : List Token} (h : Lexes source tokens) {separator : Nat → String}
    (hseparates : ∀ i, i + 1 < tokens.length → Separates (separator i)) :
    ∃ again, Lexes (joined separator (tokens.map Token.lexeme)) again ∧ again.map Token.word = tokens.map Token.word := by
  obtain ⟨stop, hscans⟩ := Lexeme.lexes_iff.mp h
  have hwritten : ∀ t ∈ tokens, t.kind.Written t.lexeme.toList := fun t ht => hscans.written (List.mem_map_of_mem ht)
  obtain ⟨again, stop', hscans', hwords⟩ := Lexeme.exists_scans_joined hwritten hseparates .start
  exact ⟨again, Lexeme.lexes_iff.mpr ⟨stop', hscans'⟩, hwords⟩

/-- A source with no gap between some of its tokens: a division, a comparison, and a string with a quote in it. -/
def denseSource : String := "a/b==\"c\\\" //\";"

/-- A comment behind white space, then white space of another kind. -/
def brokenLines : Nat → String
  | 0 => " // a/b\n"
  | 1 => "\t\n////\n "
  | _ + 2 => "\n"

theorem separates_brokenLines (i : Nat) : Separates (brokenLines i) := by
  match i with
  | 0 => exact ⟨' ', "// a/b\n".toList, rfl, rfl, @Filler.comment " a/b".toList _ (by decide) .nil⟩
  | 1 =>
    exact ⟨'\t', "\n////\n ".toList, rfl, rfl,
      .blank rfl (@Filler.comment "//".toList _ (by decide) (.blank rfl .nil))⟩
  | _ + 2 => exact ⟨'\n', [], by simp [brokenLines], rfl, .nil⟩

theorem layout_insensitive_denseSource : ∃ tokens again,
    tokens.map Token.lexeme = ["a", "/", "b", "==", "\"c\\\" //\"", ";"] ∧ Lexes denseSource tokens ∧
      (∀ i, i + 1 < tokens.length → Separates (brokenLines i)) ∧
      Lexes (joined brokenLines (tokens.map Token.lexeme)) again ∧ again.map Token.word = tokens.map Token.word := by
  let tokens := (Lexeme.scan denseSource).1.map Lexeme.toToken
  have hscan : Lexeme.scan denseSource = (tokens.map .token, (Lexeme.scan denseSource).2) := by decide +kernel
  have hlexes : Lexes denseSource tokens := Lexeme.lexes_iff.mpr ⟨_, Lexeme.scan_eq_iff.mp hscan⟩
  have hseparates : ∀ i, i + 1 < tokens.length → Separates (brokenLines i) := fun i _ => separates_brokenLines i
  obtain ⟨again, hagain, hwords⟩ := layout_insensitive hlexes hseparates
  exact ⟨tokens, again, by decide +kernel, hlexes, hseparates, hagain, hwords⟩

end MonkeyLang
