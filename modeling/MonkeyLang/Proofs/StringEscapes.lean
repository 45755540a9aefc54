import MonkeyLang.Proofs.Partition
import MonkeyLang.Proofs.Words
/-!
# Escapes in string literals

The rule for escapes is followed twice. The lexer looks for the end of a literal and passes over the character behind a backslash,
whatever it is; the parser takes off the quotes and replaces the pairs that it finds. Both go through the same pieces: `StringPiece`
is a character that stands for itself, or a backslash with the character behind it. So a literal never ends inside of a pair, and the
parser makes of it what its pieces stand for, or stops at the first pair that stands for nothing.
-/

namespace MonkeyLang

/-- A piece of the body of a string literal. -/
inductive StringPiece where
  | plain (c : Char) (hquote : c ≠ '"') (hslash : c ≠ '\\')
  /-- A backslash with the character behind it. -/
  | pair (c : Char)

namespace StringPiece

def text : StringPiece → List Char
  | plain c _ _ => [c]
  | pair c => ['\\', c]

/-- The character that a piece stands for. Of the pairs only some stand for one. -/
def value? : StringPiece → Option Char
  | plain c _ _ => some c
  | pair c => escapes.lookup c

def quoted (pieces : List StringPiece) : List Char := '"' :: (pieces.flatMap text ++ ['"'])

variable {pieces front : List StringPiece} {c : Char}

theorem exists_of_stringBody {body : List Char} (h : StringBody body) : ∃ pieces : List StringPiece, body = pieces.flatMap text := by
  induction h with
  | nil => exact ⟨[], rfl⟩
  | @plain c _ hquote hslash _ ih =>
    obtain ⟨pieces, rfl⟩ := ih
    exact ⟨.plain c hquote hslash :: pieces, rfl⟩
  | @pair c _ _ ih =>
    obtain ⟨pieces, rfl⟩ := ih
    exact ⟨.pair c :: pieces, rfl⟩

/-- Where some piece stands for nothing, there is a first one, and it is a pair. -/
theorem exists_first_unknown (h : ∃ piece ∈ pieces, piece.value? = none) :
    ∃ (front : List StringPiece) (c : Char) (back : List StringPiece),
      pieces = front ++ .pair c :: back ∧ (∀ piece ∈ front, piece.value?.isSome) ∧ escapes.lookup c = none := by
  induction pieces with
  | nil =>
    obtain ⟨piece, hmem, -⟩ := h
    cases hmem
  | cons piece pieces ih =>
    cases hvalue : piece.value? with
    | none =>
      cases piece with
      | plain => cases hvalue
      | pair c => exact ⟨[], c, pieces, rfl, fun _ hmem => absurd hmem List.not_mem_nil, hvalue⟩
    | some value =>
      have hrest : ∃ other ∈ pieces, other.value? = none := by simpa [hvalue] using h
      obtain ⟨front, c, back, rfl, hfront, hc⟩ := ih hrest
      exact ⟨piece :: front, c, back, rfl, List.forall_mem_cons.mpr ⟨by rw [hvalue, Option.isSome_some], hfront⟩, hc⟩

end StringPiece

/-! ### Decoding pieces -/

namespace Literal

open StringPiece

variable {pieces front : List StringPiece} {c : Char}

theorem escaped?_eq_lookup (c : Char) : escaped? c = escapes.lookup c := by
  simp only [escaped?, escapes, List.lookup_cons, List.lookup_nil]
  grind

/-- Pieces that stand for something are decoded one after the other. -/
theorem decodeBody_append (h : ∀ piece ∈ front, piece.value?.isSome) (decoded rest : List Char) :
    decodeBody false decoded (front.flatMap text ++ rest) =
      decodeBody false ((front.filterMap value?).reverse ++ decoded) rest := by
  induction front generalizing decoded with
  | nil => rfl
  | cons piece front ih =>
    obtain ⟨hpiece, hfront⟩ := List.forall_mem_cons.mp h
    obtain ⟨value, hvalue⟩ := Option.isSome_iff_exists.mp hpiece
    have hstep : ∀ cs, decodeBody false decoded (piece.text ++ cs) = decodeBody false (value :: decoded) cs := by
      intro cs
      cases piece with
      | plain c hquote hslash =>
        cases hvalue
        simp [text, decodeBody, hslash]
      | pair c =>
        have hescaped : escaped? c = some value := (escaped?_eq_lookup c).trans hvalue
        simp [text, decodeBody, hescaped]
    rw [List.flatMap_cons, List.append_assoc, hstep, ih hfront, List.filterMap_cons_some hvalue]
    simp

theorem decodeBody_of_known (h : ∀ piece ∈ pieces, piece.value?.isSome) :
    decodeBody false [] (pieces.flatMap text) = .ok (pieces.filterMap value?) := by
  have happend := decodeBody_append h [] []
  rw [List.append_nil, List.append_nil] at happend
  rw [happend]
  simp [decodeBody]

theorem decodeBody_of_unknown (hfront : ∀ piece ∈ front, piece.value?.isSome) (hc : escapes.lookup c = none)
    (back : List StringPiece) : decodeBody false [] ((front ++ .pair c :: back).flatMap text) = .error (.unknownEscape c) := by
  have hescaped : escaped? c = none := (escaped?_eq_lookup c).trans hc
  rw [List.flatMap_append, decodeBody_append hfront]
  simp [text, decodeBody, hescaped]

variable {lexeme : String}

theorem string_of_known (hlexeme : lexeme.toList = quoted pieces) (h : ∀ piece ∈ pieces, piece.value?.isSome) :
    string lexeme = .ok (String.ofList (pieces.filterMap value?)) := by
  rw [string_eq_decodeBody, body_of_quoted hlexeme, decodeBody_of_known h, Except.map]

theorem string_of_unknown {back : List StringPiece} (hlexeme : lexeme.toList = quoted (front ++ .pair c :: back))
    (hfront : ∀ piece ∈ front, piece.value?.isSome) (hc : escapes.lookup c = none) :
    string lexeme = .error (.unknownEscape c) := by
  rw [string_eq_decodeBody, body_of_quoted hlexeme, decodeBody_of_unknown hfront hc, Except.map]

/-- Either all pieces stand for something, or a pair is unknown. In no case does a backslash stand alone. -/
theorem string_cases (hlexeme : lexeme.toList = quoted pieces) :
    (∀ piece ∈ pieces, piece.value?.isSome) ∧ (∃ value, string lexeme = .ok value) ∨
    (∃ piece ∈ pieces, piece.value? = none) ∧ ∃ c, string lexeme = .error (.unknownEscape c) := by
  by_cases h : ∃ piece ∈ pieces, piece.value? = none
  · obtain ⟨front, c, back, rfl, hfront, hc⟩ := exists_first_unknown h
    exact .inr ⟨h, c, string_of_unknown hlexeme hfront hc⟩
  · have hknown : ∀ piece ∈ pieces, piece.value?.isSome :=
      fun piece hmem => Option.isSome_iff_ne_none.mpr fun hnone => h ⟨piece, hmem, hnone⟩
    exact .inl ⟨hknown, _, string_of_known hlexeme hknown⟩

end Literal

/-- What a lexer hands out, the end and the places of errors apart, are texts of their kinds. -/
theorem Lexer.written_of_mem_take {source : String} {n : Nat} {t : Token} (ht : t ∈ ((Lexer.ofSource source).take n).1)
    (heof : t.kind ≠ .eof) (herror : t.kind ≠ .error) : t.Written := by
  obtain ⟨lexemes, stop, hscans⟩ := Lexeme.exists_scans source.toList .start
  obtain ⟨rest, place, htake⟩ := hscans.take_eq #[] n
  rw [Lexer.ofSource, htake] at ht
  rcases List.mem_append.mp ht with ht | ht
  · obtain ⟨lexeme, hmem, rfl⟩ := List.mem_map.mp ht
    cases lexeme with
    | token t => exact hscans.written (List.mem_of_mem_take hmem)
    | error e => exact absurd rfl herror
  · obtain ⟨-, rfl⟩ := List.mem_replicate.mp ht
    exact absurd rfl heof

/-- A string literal that a lexer hands out is made up of pieces between quotes. The parser refuses it if and only if one of them is a
pair that stands for nothing, and names the first such pair; otherwise it takes each piece for what it stands for. It never finds a
backslash that stands alone, and where it need not decode, decoding would do the same. -/
theorem string_escapes_agree {source : String} {n : Nat} {t : Token} (ht : t ∈ ((Lexer.ofSource source).take n).1)
    (hkind : t.kind = .stringLiteral) :
    (∃ pieces, t.lexeme.toList = StringPiece.quoted pieces) ∧
    Literal.string t.lexeme ≠ .error .loneBackslash ∧
    Literal.string t.lexeme = (Literal.decodeBody false [] (Literal.body t.lexeme)).map String.ofList ∧
    ∀ pieces : List StringPiece, t.lexeme.toList = StringPiece.quoted pieces →
      Literal.body t.lexeme = pieces.flatMap StringPiece.text ∧
      ((∃ e, Parser.stringLiteral t = .error e) ↔ ∃ piece ∈ pieces, piece.value? = none) ∧
      (∀ (front : List StringPiece) (c : Char) (back : List StringPiece), pieces = front ++ .pair c :: back →
        (∀ piece ∈ front, piece.value?.isSome) → escapes.lookup c = none →
        Parser.stringLiteral t = .error ⟨.invalidLiteral, t.span, "unknown escape sequence '\\" ++ c.toString ++ "'"⟩) ∧
      ((∀ piece ∈ pieces, piece.value?.isSome) →
        Parser.stringLiteral t = .ok (.string (String.ofList (pieces.filterMap StringPiece.value?)) t.span)) := by
  have hwritten : t.kind.Written t.lexeme.toList := Lexer.written_of_mem_take ht (by simp [hkind]) (by simp [hkind])
  have hpieces : ∃ pieces, t.lexeme.toList = StringPiece.quoted pieces := by
    rw [hkind] at hwritten
    generalize t.lexeme.toList = cs at hwritten
    cases hwritten with
    | quoted hbody =>
      obtain ⟨pieces, rfl⟩ := StringPiece.exists_of_stringBody hbody
      exact ⟨pieces, rfl⟩
    | fixed hspelling => cases hspelling
  refine ⟨hpieces, ?_, Literal.string_eq_decodeBody t.lexeme, fun pieces hlexeme => ⟨Literal.body_of_quoted hlexeme, ?_, ?_, ?_⟩⟩
  · obtain ⟨pieces, hlexeme⟩ := hpieces
    obtain ⟨-, value, hvalue⟩ | ⟨-, c, hfault⟩ := Literal.string_cases hlexeme
    · simp [hvalue]
    · simp [hfault]
  · obtain ⟨hknown, value, hvalue⟩ | ⟨hunknown, c, hfault⟩ := Literal.string_cases hlexeme
    · have hnone : ¬ ∃ piece ∈ pieces, piece.value? = none := by
        rintro ⟨piece, hmem, hnone⟩
        exact Option.isSome_iff_ne_none.mp (hknown piece hmem) hnone
      exact iff_of_false (by simp [Parser.stringLiteral, hvalue]) hnone
    · exact iff_of_true (by simp [Parser.stringLiteral, hfault]) hunknown
  · rintro front c back rfl hfront hc
    rw [Parser.stringLiteral, Literal.string_of_unknown hlexeme hfront hc]
    rfl
  · intro hknown
    rw [Parser.stringLiteral, Literal.string_of_known hlexeme hknown]

/-- A literal that starts with a backslash and a quote, both escaped, and has two unknown pairs with an escaped quote between them. -/
def unknownPairs : Token := ⟨.stringLiteral, "\"\\\\\\\"\\q\\\" \\z\"", ⟨1, 5, 13⟩⟩

theorem string_escapes_agree_unknownPairs :
    unknownPairs ∈ ((Lexer.ofSource ("x = " ++ unknownPairs.lexeme ++ ";")).take 4).1 ∧
    unknownPairs.kind = .stringLiteral ∧
    Parser.stringLiteral unknownPairs = .error ⟨.invalidLiteral, ⟨1, 5, 13⟩, "unknown escape sequence '\\q'"⟩ := by
  have hmem : unknownPairs ∈ ((Lexer.ofSource ("x = " ++ unknownPairs.lexeme ++ ";")).take 4).1 := by decide +kernel
  obtain ⟨-, -, -, hpieces⟩ := string_escapes_agree hmem rfl
  obtain ⟨-, -, hfirst, -⟩ := hpieces
    [.pair '\\', .pair '"', .pair 'q', .pair '"', .plain ' ' (by decide) (by decide), .pair 'z'] (by decide)
  have hknown : ∀ piece ∈ [StringPiece.pair '\\', .pair '"'], piece.value?.isSome := by simp [StringPiece.value?, escapes]
  exact ⟨hmem, rfl, hfirst [.pair '\\', .pair '"'] 'q' _ rfl hknown rfl⟩

end MonkeyLang
