import MonkeyLang.Proofs.Partition
/-!
# Positions in 32 bits

A lexer goes through a source character by character and a parser covers spans of the source by spans. In a source of less than
2 GiB each sum that is formed on the way stays below the 32-bit limit, and nothing is taken away from a smaller number. Across
lines the lengths of two spans are added up although they may overlap, so a span that covers others can be longer than the
source, but never more than twice as long.
-/

namespace MonkeyLang

variable {source : String}

/-! ### One character -/

section

variable {xs ys : List Char} {c : Char}

theorem Position.line_afterAll_le (cs : List Char) : (Position.start.afterAll cs).line ≤ byteSize cs + 1 := by
  have hcount := count_le_byteSize '\n' cs
  rw [Position.line_afterAll]
  omega

theorem Position.column_afterAll_le (cs : List Char) : (Position.start.afterAll cs).column ≤ byteSize cs + 1 := by
  have hstop : (Span.behind cs []).stop ≤ byteSize cs + 1 := Span.stop_behind_le (by simp)
  rw [Span.behind_eq] at hstop
  exact Nat.le_of_add_right_le hstop

/-- What is added to an offset, a line and a column for a character of the source. -/
theorem advance_fits (hsize : source.utf8ByteSize < 2147483648) (hsource : source.toList = xs ++ c :: ys) :
    byteSize xs + c.utf8Size < Span.limit ∧ (Position.start.afterAll xs).line + 1 < Span.limit ∧
      (Position.start.afterAll xs).column + c.utf8Size < Span.limit := by
  have hline := Position.line_afterAll_le xs
  have hcolumn := Position.column_afterAll_le xs
  have hbytes := byteSize_toList source
  rw [hsource, byteSize_append, byteSize_cons] at hbytes
  rw [Span.limit]
  omega

end

/-! ### One token -/

namespace Lexer

variable {l : Lexer}

/-- A lexer has read a part of the source and knows where it stands. -/
def Stands (source : String) (l : Lexer) : Prop :=
  ∃ xs, source.toList = xs ++ l.rest ∧ l.place = Position.start.afterAll xs

/-- A token has the place of some text of the source. -/
def Marks (source : String) (t : Token) : Prop := ∃ xs ys, xs ++ ys <+: source.toList ∧ t.span = .behind xs ys

theorem stands_ofSource (source : String) : (ofSource source).Stands source := ⟨[], rfl, rfl⟩

/-- A lexer that hands out a token goes on behind it. -/
theorem Stands.next (h : l.Stands source) : l.next.2.Stands source ∧ Marks source l.next.1 := by
  obtain ⟨cs, place, errors⟩ := l
  obtain ⟨xs, hsource, hplace⟩ := h
  dsimp only at hsource hplace
  subst hplace
  rw [Lexer.next]
  dsimp only
  split
  case h_1 lexeme left q hnext =>
    obtain ⟨gap, form, c, taken, rfl, -, -, rfl, rfl⟩ := Lexeme.exists_stretch_of_next? hnext
    have hread : source.toList = xs ++ gap ++ (c :: taken) ++ left := by rw [hsource]; simp
    have hspan := Span.behind_eq (xs ++ gap) (c :: taken)
    refine ⟨⟨xs ++ gap ++ c :: taken, hread, ?_⟩, xs ++ gap, c :: taken, ⟨left, hread.symm⟩, ?_⟩
    · simp only [Position.afterAll_append]
    · rw [Position.afterAll_append] at hspan
      rw [hspan]
      cases form <;> rfl
  case h_2 hnext =>
    rcases hskip : Lexeme.skipGap false cs (Position.start.afterAll xs) with ⟨left, q⟩
    obtain ⟨gap, rfl, -, rfl⟩ := Lexeme.exists_gap_of_skipGap hskip
    have hread : source.toList = xs ++ gap ++ left := by rw [hsource, List.append_assoc]
    have hspan := Span.behind_eq (xs ++ gap) []
    rw [Position.afterAll_append] at hspan
    refine ⟨⟨xs ++ gap, hread, (Position.afterAll_append _ _ _).symm⟩, xs ++ gap, [], ?_, hspan.symm⟩
    rw [List.append_nil]
    exact ⟨left, hread.symm⟩

theorem Stands.take (h : l.Stands source) (n : Nat) :
    (l.take n).2.Stands source ∧ ∀ t ∈ (l.take n).1, Marks source t := by
  induction n generalizing l with
  | zero => exact ⟨h, by simp [Lexer.take]⟩
  | succ n ih =>
    obtain ⟨hnext, hmark⟩ := h.next
    obtain ⟨hrest, hmarks⟩ := ih hnext
    exact ⟨hrest, List.forall_mem_cons.mpr ⟨hmark, hmarks⟩⟩

/-- The length of a token is the difference of the offsets behind it and in front of it. -/
theorem Marks.fits {t : Token} (h : Marks source t) (hsize : source.utf8ByteSize < 2147483648) :
    ∃ xs ys, xs ++ ys <+: source.toList ∧ byteSize xs ≤ byteSize (xs ++ ys) ∧ byteSize (xs ++ ys) < Span.limit ∧
      t.span = ⟨(Position.start.afterAll xs).line, (Position.start.afterAll xs).column, byteSize (xs ++ ys) - byteSize xs⟩ := by
  obtain ⟨xs, ys, hinside, hspan⟩ := h
  have hbytes := byteSize_toList source
  obtain ⟨zs, hsource⟩ := hinside
  rw [← hsource, byteSize_append] at hbytes
  refine ⟨xs, ys, ⟨zs, hsource⟩, ?_, ?_, ?_⟩
  · rw [byteSize_append]
    exact Nat.le_add_right _ _
  · rw [Span.limit]
    omega
  · rw [hspan, Span.behind_eq, byteSize_append, Nat.add_sub_cancel_left]

end Lexer

/-! ### One covering span -/

/-- Two spans of a source overlap in the worst case, and then both lengths count. -/
theorem Span.Lies.length_cover_le {m : SourceMap} {s s' : Span} {a b : Nat} (h : s.Lies m a m.size)
    (h' : s'.Lies m b m.size) : (s.cover s').length ≤ 2 * m.size := by
  obtain ⟨o, -, ho, hend⟩ := h
  obtain ⟨o', -, ho', hend'⟩ := h'
  unfold Span.cover
  by_cases hline : s.line = s'.line
  · rw [← hline] at ho'
    rw [if_pos hline]
    simp only [Span.stop]
    omega
  · rw [if_neg hline]
    simp only
    omega

theorem Parser.log_advance (p : Parser) : p.advance.2.log = p.log := by
  rw [advance]
  split
  case h_1 t q h hnext =>
    obtain ⟨rest, htokens, rfl⟩ := eq_moveTo_of_next? hnext
    rfl
  case h_2 => rfl

theorem Parser.log_expect (p : Parser) (kind : TokenKind) : (p.expect kind).2.log = p.log := by
  rw [expect]
  split
  · exact p.log_advance
  · rfl

/-- Whatever is covered while a source is read as an expression lies in the source. -/
theorem Parser.log_wholeExpr_lies (hsize : source.utf8ByteSize < 2147483648) :
    (ofSource source).wholeExpr.2.log.Lies (.ofSource source hsize) := by
  have hexpr := within_expr _ (placed_ofSource hsize)
  rw [wholeExpr]
  cases hreply : (ofSource source).expr with
  | error cause q hle =>
    rw [hreply] at hexpr
    exact hexpr.log
  | ok e q hlt =>
    rw [hreply] at hexpr
    obtain ⟨b, -, hq, -⟩ := hexpr
    have hlog := q.log_expect .eof
    dsimp only
    rcases hexpect : q.expect .eof with ⟨outcome, r⟩
    rw [hexpect] at hlog
    cases outcome <;> exact (hlog : r.log = q.log) ▸ hq.log

/-- No position overflows while a source of less than 2 GiB is read. A lexer stands behind some of its characters, adds up an
offset, a line and a column for each of them, and takes the length of a token to be the difference of two offsets. All spans
that are covered by spans have a 32-bit result, which is at most twice as long as the source. -/
theorem positions_fit {source : String} (hsize : source.utf8ByteSize < 2147483648) :
    (∀ xs c ys, source.toList = xs ++ c :: ys →
      byteSize xs + c.utf8Size < Span.limit ∧ (Position.start.afterAll xs).line + 1 < Span.limit ∧
        (Position.start.afterAll xs).column + c.utf8Size < Span.limit) ∧
    (∀ n, ((Lexer.ofSource source).take n).2.Stands source ∧
      ∀ t ∈ ((Lexer.ofSource source).take n).1,
        ∃ xs ys, xs ++ ys <+: source.toList ∧ byteSize xs ≤ byteSize (xs ++ ys) ∧ byteSize (xs ++ ys) < Span.limit ∧
          t.span = ⟨(Position.start.afterAll xs).line, (Position.start.afterAll xs).column, byteSize (xs ++ ys) - byteSize xs⟩) ∧
    (∀ a b, (a, b) ∈ (Parser.ofSource source).program.2.log.pairs ∨ (a, b) ∈ (Parser.ofSource source).wholeExpr.2.log.pairs →
      a.cover? b = some (a.cover b) ∧ min a.column b.column ≤ max a.stop b.stop ∧
        (a.cover b).length ≤ 2 * source.utf8ByteSize) ∧
    (Program.read source).fits := by
  refine ⟨fun xs c ys => advance_fits hsize, ?_, ?_, Program.read_fits hsize⟩
  · intro n
    obtain ⟨hstands, hmarks⟩ := (Lexer.stands_ofSource source).take n
    exact ⟨hstands, fun t ht => (hmarks t ht).fits hsize⟩
  · intro a b hmem
    obtain ⟨ha, hb⟩ : a.Lies (.ofSource source hsize) 0 source.utf8ByteSize ∧
        b.Lies (.ofSource source hsize) 0 source.utf8ByteSize := by
      rcases hmem with hmem | hmem
      · exact (Parser.log_program_lies hsize).pairs _ hmem
      · exact (Parser.log_wholeExpr_lies hsize).pairs _ hmem
    have hfits : a.coverFits b := ha.coverFits hb
    refine ⟨?_, ?_, ha.length_cover_le hb⟩
    · rw [Span.cover?, if_pos hfits]
    · unfold Span.stop
      omega

/-- A sum over five lines behind a letter that starts no token. Its first operand is an element of what a call gives, and the
call has a string of two lines in it. -/
def spreadSum : String := "é f(1,\n  \"a\nb\"\n)[-2] +\n g(x)"

theorem positions_fit_spreadSum :
    spreadSum.utf8ByteSize < 2147483648 ∧ ((Lexer.ofSource spreadSum).take 20).2.Stands spreadSum ∧
      -- The call, the negation, the element, the other call, the sum, its statement and the program, the last one first.
      (Parser.ofSource spreadSum).program.2.log.pairs =
        [(⟨1, 4, 1⟩, ⟨5, 6, 0⟩), (⟨1, 4, 4⟩, ⟨5, 5, 1⟩), (⟨1, 4, 3⟩, ⟨5, 5, 1⟩), (⟨5, 2, 1⟩, ⟨5, 5, 1⟩), (⟨1, 4, 2⟩, ⟨4, 5, 1⟩),
          (⟨4, 3, 1⟩, ⟨4, 4, 1⟩), (⟨1, 4, 1⟩, ⟨4, 1, 1⟩)] ∧
      (∀ a b, (a, b) ∈ (Parser.ofSource spreadSum).program.2.log.pairs →
        a.cover? b = some (a.cover b) ∧ min a.column b.column ≤ max a.stop b.stop ∧
          (a.cover b).length ≤ 2 * spreadSum.utf8ByteSize) ∧
      (Program.read spreadSum).fits := by
  have hsize : spreadSum.utf8ByteSize < 2147483648 := by decide
  obtain ⟨-, htokens, hcover, hfits⟩ := positions_fit hsize
  exact ⟨hsize, (htokens 20).1, by decide +kernel, fun a b hmem => hcover a b (.inl hmem), hfits⟩

end MonkeyLang
