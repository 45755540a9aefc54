import Mathlib.Data.List.DropRight
import MonkeyLang.Lexer
import MonkeyLang.Proofs.Positions
/-!
# The tokens of a source and the gaps between them

A source is gaps and tokens in turn. `Partition` says so of a text that stands behind another one: a gap is white space and
comments, and the line and the column of a token are counted in all that stands in front of it. A lexer that is asked for
token after token hands out the tokens of a partition, and then the one for the end of the source as often as it is asked.
-/

namespace MonkeyLang

/-! ### Gaps -/

/-- White space and comments, in front of `rest`. A comment ends where its line ends. -/
inductive Gap (rest : List Char) : List Char → Prop
  | nil : Gap rest []
  | blank {c gap} (hblank : Text.isBlank c) (hgap : Gap rest gap) : Gap rest (c :: gap)
  | comment {body gap} (hbody : '\n' ∉ body) (hstop : ∀ c ∈ (gap ++ rest).head?, c = '\n') (hgap : Gap rest gap) :
      Gap rest ('/' :: '/' :: (body ++ gap))

/-- Behind the start of a comment, everything up to the end of the line belongs to it. -/
def GapFrom (inComment : Bool) (rest gap : List Char) : Prop :=
  if inComment then
    ∃ body more, gap = body ++ more ∧ '\n' ∉ body ∧ (∀ c ∈ (more ++ rest).head?, c = '\n') ∧ Gap rest more
  else
    Gap rest gap

namespace Lexeme

theorem gapFrom_skipGap {inComment : Bool} {cs left : List Char} {p q : Position} (h : skipGap inComment cs p = (left, q)) :
    ∃ gap, cs = gap ++ left ∧ GapFrom inComment left gap := by
  fun_induction skipGap inComment cs p with
  | case1 inComment p =>
    cases h
    refine ⟨[], rfl, ?_⟩
    cases inComment with
    | true => exact ⟨[], [], rfl, List.not_mem_nil, by simp, .nil⟩
    | false => exact .nil
  | case2 c cs p ih =>
    obtain ⟨gap, rfl, hgap⟩ := ih h
    refine ⟨c :: gap, rfl, ?_⟩
    by_cases hc : c = '\n'
    · subst hc
      exact ⟨[], '\n' :: gap, rfl, List.not_mem_nil, by simp, .blank rfl hgap⟩
    · rw [GapFrom, if_pos (by simpa using hc)] at hgap
      obtain ⟨body, more, rfl, hbody, hstop, hmore⟩ := hgap
      exact ⟨c :: body, more, rfl, by simp [hbody, Ne.symm hc], hstop, hmore⟩
  | case3 inComment c cs p hcomment hblank ih =>
    obtain ⟨gap, rfl, hgap⟩ := ih h
    rw [GapFrom, if_neg (by decide)] at hgap
    refine ⟨c :: gap, rfl, ?_⟩
    rw [GapFrom, if_neg hcomment]
    exact .blank hblank hgap
  | case4 inComment c cs p hcomment hblank hslash ih =>
    obtain ⟨gap, rfl, body, more, rfl, hbody, hstop, hmore⟩ := ih h
    obtain ⟨rfl, hhead⟩ := hslash
    refine ⟨'/' :: (body ++ more), rfl, ?_⟩
    rw [GapFrom, if_neg hcomment]
    cases body with
    | nil => cases hstop '/' (by simpa using hhead)
    | cons d body =>
      obtain rfl : d = '/' := by simpa using hhead
      exact .comment (fun hmem => hbody (List.mem_cons_of_mem _ hmem)) hstop hmore
  | case5 inComment c cs p hcomment =>
    cases h
    refine ⟨[], rfl, ?_⟩
    rw [GapFrom, if_neg hcomment]
    exact .nil

/-- The gap at the front of a text, and the place behind it. -/
theorem exists_gap_of_skipGap {cs left : List Char} {p q : Position} (h : skipGap false cs p = (left, q)) :
    ∃ gap, cs = gap ++ left ∧ Gap left gap ∧ q = p.afterAll gap := by
  obtain ⟨gap, rfl, hgap⟩ := gapFrom_skipGap h
  obtain ⟨gap', heq, rfl⟩ := gap_of_skipGap h
  obtain rfl := List.append_cancel_right heq
  exact ⟨gap, rfl, hgap, rfl⟩

/-- A step over a lexeme takes a gap and a stretch of text that is not empty. -/
theorem exists_stretch_of_next? {cs left : List Char} {p q : Position} {lexeme : Lexeme}
    (h : next? cs p = some (lexeme, left, q)) :
    ∃ gap form c taken, cs = gap ++ (c :: taken ++ left) ∧ Gap (c :: taken ++ left) gap ∧
      (∀ kind, form = .token kind → kind.Written (c :: taken)) ∧ lexeme = ofForm form (p.afterAll gap) (c :: taken) ∧
      q = (p.afterAll gap).afterAll (c :: taken) := by
  unfold next? at h
  split at h
  case h_1 => cases h
  case h_2 c rest r hskip =>
    obtain ⟨gap, rfl, hgap, rfl⟩ := exists_gap_of_skipGap hskip
    have happend := append_cut c rest
    have hlength := length_cut_le c rest
    generalize hcut : cut c rest = result at h happend hlength
    obtain ⟨form, taken, left'⟩ := result
    cases h
    dsimp only at happend hlength
    cases taken with
    | nil =>
      rw [← happend, List.nil_append] at hgap
      subst happend
      exact absurd hlength (by simp)
    | cons d taken =>
      rw [← happend] at hgap ⊢
      refine ⟨gap, form, d, taken, rfl, hgap, ?_, rfl, rfl⟩
      intro kind hkind
      subst hkind
      exact written_of_cut hcut

end Lexeme

/-! ### Partitions -/

/-- Where a text stands that comes behind another one: the line counts the newlines in front of it, and the column the bytes
since the last of them. -/
def Span.behind (before text : List Char) : Span :=
  ⟨before.count '\n' + 1, byteSize (before.rtakeWhile (· ≠ '\n')) + 1, byteSize text⟩

theorem Position.column_afterAll (cs : List Char) :
    (Position.start.afterAll cs).column = byteSize (cs.rtakeWhile (· ≠ '\n')) + 1 := by
  induction cs using List.reverseRecOn with
  | nil => rfl
  | append_singleton cs c ih =>
    rw [Position.afterAll_append]
    change (Position.after (Position.start.afterAll cs) c).column = _
    by_cases hc : c = '\n'
    · rw [List.rtakeWhile_concat_neg _ _ _ (by simpa using hc)]
      simp [Position.after, hc]
    · rw [List.rtakeWhile_concat_pos _ _ _ (by simpa using hc), byteSize_append, byteSize_singleton]
      simp only [Position.after, hc, if_false, ih]
      omega

theorem Span.behind_eq (before text : List Char) :
    Span.behind before text =
      ⟨(Position.start.afterAll before).line, (Position.start.afterAll before).column, byteSize text⟩ := by
  rw [Span.behind, Position.line_afterAll, Position.column_afterAll]

/-- A text behind another one is gaps and tokens in turn. Only the tokens that hold the place of an error do not keep their
text. -/
inductive Partition : List Char → List Char → List Token → Token → Prop
  | stop {before gap} (hgap : Gap [] gap) : Partition before gap [] ⟨.eof, "", .behind (before ++ gap) []⟩
  | token {before gap c taken rest t ts eof} (hgap : Gap (c :: taken ++ rest) gap) (hkind : t.kind ≠ .eof)
      (hspan : t.span = .behind (before ++ gap) (c :: taken)) (htext : t.kind ≠ .error → t.lexeme.toList = c :: taken)
      (hrest : Partition (before ++ gap ++ c :: taken) rest ts eof) : Partition before (gap ++ (c :: taken ++ rest)) (t :: ts) eof

namespace Partition

variable {before text : List Char} {tokens : List Token} {eof t : Token}

/-- Every token stands somewhere in the text, and so does the end. -/
theorem exists_behind (h : Partition before text tokens eof) (ht : t = eof ∨ t ∈ tokens) :
    ∃ xs ys, xs ++ ys <+: before ++ text ∧ t.span = .behind xs ys := by
  induction h with
  | @stop before gap hgap =>
    obtain rfl : t = _ := by simpa using ht
    exact ⟨before ++ gap, [], by simp, rfl⟩
  | @token before gap c taken rest u ts eof hgap hkind hspan htext hrest ih =>
    by_cases hu : t = u
    · refine ⟨before ++ gap, c :: taken, ⟨rest, ?_⟩, hu ▸ hspan⟩
      simp
    · simpa using ih (by simpa [hu] using ht)

end Partition

theorem Span.line_behind_le {xs ys cs : List Char} (h : xs ++ ys <+: cs) : (Span.behind xs ys).line ≤ cs.count '\n' + 1 := by
  obtain ⟨zs, rfl⟩ := h
  simp only [Span.behind, List.count_append]
  omega

theorem Span.stop_behind_le {xs ys cs : List Char} (h : xs ++ ys <+: cs) : (Span.behind xs ys).stop ≤ byteSize cs + 1 := by
  obtain ⟨zs, rfl⟩ := h
  obtain ⟨front, hfront⟩ := List.rtakeWhile_suffix (· ≠ '\n') xs
  have hsize := congrArg byteSize hfront
  rw [byteSize_append] at hsize
  simp only [Span.behind, Span.stop, byteSize_append]
  omega

theorem count_le_byteSize (c : Char) (cs : List Char) : cs.count c ≤ byteSize cs := by
  induction cs with
  | nil => rfl
  | cons d cs ih =>
    have hpos := d.utf8Size_pos
    rw [byteSize_cons, List.count_cons]
    split <;> omega

/-! ### Reading token after token -/

theorem TokenKind.Written.ne_eof_and_ne_error {kind : TokenKind} {cs : List Char} (h : kind.Written cs) :
    kind ≠ .eof ∧ kind ≠ .error := by
  cases h with
  | fixed hspelling => constructor <;> rintro rfl <;> cases hspelling
  | digits | quoted | word => simp

namespace Lexeme

theorem Scans.partition {cs : List Char} {p stop : Position} {lexemes : List Lexeme} (h : Scans cs p lexemes stop)
    {before : List Char} (hp : p = Position.start.afterAll before) :
    Partition before cs (lexemes.map toToken) (.eofAt stop.line stop.column) := by
  induction h generalizing before with
  | stop hskip =>
    obtain ⟨gap, rfl, hgap, rfl⟩ := exists_gap_of_skipGap hskip
    rw [hp, ← Position.afterAll_append, List.append_nil]
    have hspan := Span.behind_eq (before ++ gap) []
    rw [List.map_nil, Token.eofAt, Span.point]
    exact hspan ▸ .stop hgap
  | step hnext _ ih =>
    obtain ⟨gap, form, c, taken, rfl, hgap, hwritten, rfl, rfl⟩ := exists_stretch_of_next? hnext
    rw [hp, ← Position.afterAll_append _ before gap] at ih ⊢
    have hspan := (Span.behind_eq (before ++ gap) (c :: taken)).symm
    have hrest := ih (Position.afterAll_append _ (before ++ gap) (c :: taken)).symm
    cases form with
    | token kind =>
      have hkind : kind ≠ .eof := (hwritten kind rfl).ne_eof_and_ne_error.1
      exact .token hgap hkind hspan (fun _ => String.toList_ofList) hrest
    | unexpected | unterminated | misnumbered => exact .token hgap (nomatch ·) hspan (fun hne => absurd rfl hne) hrest

/-- A source that is all tokens and gaps is partitioned by its tokens. -/
theorem exists_partition_of_scan {source : String} {tokens : List Token} (h : (scan source).1 = tokens.map token) :
    ∃ eof, Partition [] source.toList tokens eof := by
  have hscans := scan_eq_iff.mp (Prod.ext h rfl : scan source = (tokens.map token, (scan source).2))
  have htokens : (tokens.map token).map toToken = tokens := List.map_map.trans (List.map_id tokens)
  exact ⟨_, htokens ▸ hscans.partition rfl⟩

/-- What a lexer hands out, and the errors it puts down meanwhile. -/
theorem Scans.take_eq {cs : List Char} {p stop : Position} {lexemes : List Lexeme} (h : Scans cs p lexemes stop)
    (errors : Array LexError) (n : Nat) :
    ∃ rest place, Lexer.take n ⟨cs, p, errors⟩ =
      ((lexemes.take n).map toToken ++ List.replicate (n - lexemes.length) (Token.eofAt stop.line stop.column),
        ⟨rest, place, errors ++ ((lexemes.take n).filterMap error?).toArray⟩) := by
  induction n generalizing cs p lexemes errors with
  | zero => exact ⟨cs, p, by simp [Lexer.take]⟩
  | succ n ih =>
    cases h with
    | stop hskip =>
      have hnone : next? cs p = none := by rw [next?, hskip]
      -- The gap at the end is read only once, and behind it there is nothing left.
      have hagain : Scans [] stop [] stop := .stop rfl
      obtain ⟨rest, place, hrest⟩ := ih hagain errors
      refine ⟨rest, place, ?_⟩
      rw [Lexer.take, Lexer.next, hnone]
      simp only [hskip, hrest]
      simp [List.replicate_succ]
    | @step _ _ lexeme left q lexemes _ hnext hscans =>
      obtain ⟨rest, place, hrest⟩ := ih hscans (errors ++ lexeme.error?.toArray)
      refine ⟨rest, place, ?_⟩
      rw [Lexer.take, Lexer.next, hnext]
      simp only [hrest]
      cases lexeme <;> simp [error?, List.filterMap_cons]

/-- The errors among lexemes are where the tokens stand that hold their places. -/
theorem map_span_errors {lexemes : List Lexeme} (h : ∀ t, .token t ∈ lexemes → t.kind ≠ .error) :
    (lexemes.filterMap error?).map LexError.span =
      ((lexemes.map toToken).filter fun t => t.kind = .error).map Token.span := by
  induction lexemes with
  | nil => rfl
  | cons lexeme lexemes ih =>
    have hrest := ih fun t ht => h t (List.mem_cons_of_mem _ ht)
    cases lexeme with
    | token t =>
      have ht := h t List.mem_cons_self
      simp [List.filterMap_cons, error?, toToken, ht, hrest]
    | error e => simp [error?, toToken, hrest]

end Lexeme

/-- A lexer hands out the tokens of a partition of the source and then, as often as it is asked, the one for the end. Whenever
it is stopped, the errors it has put down are those whose places it has handed out. Every number fits 32 bits. -/
theorem lexer_partitions {source : String} (hsize : source.utf8ByteSize < 2147483648) :
    ∃ tokens eof, Partition [] source.toList tokens eof ∧
      (∀ t, t = eof ∨ t ∈ tokens → t.span.line < Span.limit ∧ t.span.stop < Span.limit) ∧
      ∀ n, ∃ l, (Lexer.ofSource source).take n = (tokens.take n ++ List.replicate (n - tokens.length) eof, l) ∧
        l.errors.toList.map LexError.span = ((tokens.take n).filter fun t => t.kind = .error).map Token.span := by
  obtain ⟨lexemes, stop, hscans⟩ := Lexeme.exists_scans source.toList .start
  have hpartition : Partition [] source.toList (lexemes.map Lexeme.toToken) (.eofAt stop.line stop.column) :=
    hscans.partition rfl
  refine ⟨_, _, hpartition, ?_, ?_⟩
  · intro t ht
    obtain ⟨xs, ys, hinside, hspan⟩ := hpartition.exists_behind ht
    have hline := Span.line_behind_le hinside
    have hstop := Span.stop_behind_le hinside
    have hcount := count_le_byteSize '\n' source.toList
    have hbytes : byteSize source.toList = source.utf8ByteSize := by rw [byteSize, String.ofList_toList]
    rw [List.nil_append] at hline hstop
    rw [hspan, Span.limit]
    omega
  · intro n
    obtain ⟨rest, place, htake⟩ := hscans.take_eq #[] n
    have hkinds : ∀ t, .token t ∈ lexemes.take n → t.kind ≠ .error :=
      fun t ht => (hscans.written (List.mem_of_mem_take ht)).ne_eof_and_ne_error.2
    rw [List.length_map, ← List.map_take]
    refine ⟨_, htake, ?_⟩
    rw [← Lexeme.map_span_errors hkinds]
    simp

/-- A string over two lines behind a letter of two bytes, a comment at the end of a line, a misspelled number, and a string
that is never closed. -/
def mixedSource : String := "é = \"a\nb\" // none\n\t12ab; \"c\\"

theorem lexer_partitions_mixedSource :
    mixedSource.utf8ByteSize < 2147483648 ∧
    ∃ tokens eof, Partition [] mixedSource.toList tokens eof ∧
      (∀ t, t = eof ∨ t ∈ tokens → t.span.line < Span.limit ∧ t.span.stop < Span.limit) ∧
      ∀ n, ∃ l, (Lexer.ofSource mixedSource).take n = (tokens.take n ++ List.replicate (n - tokens.length) eof, l) ∧
        l.errors.toList.map LexError.span = ((tokens.take n).filter fun t => t.kind = .error).map Token.span :=
  ⟨by decide, lexer_partitions (by decide)⟩

end MonkeyLang
