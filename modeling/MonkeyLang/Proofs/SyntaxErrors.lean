import MonkeyLang.Proofs.Partition
import MonkeyLang.Proofs.ReadingLaws
/-!
# Where syntax errors point

A parser moves past tokens and notes errors, and never goes back on either. Each error that it notes, and each that it stops at,
points at one of the tokens that were left or at the end of the source. So the errors of a source are on lines of the source.
-/

namespace MonkeyLang

/-! ### Later states -/

/-- One state of a parser comes behind another: tokens have been dropped from the front, and errors have been added that point
at what was there. The source is the same. -/
structure Parser.Behind (p q : Parser) : Prop where
  tokens : q.tokens <:+ p.tokens
  eof : q.eof = p.eof
  size : q.log.size = p.log.size
  errors : ∃ es, q.errors.toList = p.errors.toList ++ es ∧ ∀ e ∈ es, p.Faces e.span

section

variable {p q r : Parser} {t : Token} {rest : List Token} {s s' : Span} {cause : ParseError}

namespace Parser

theorem Faces.behind (h : q.Faces s) (hq : p.Behind q) : p.Faces s := by
  rcases h with rfl | ⟨t, ht, rfl⟩
  · exact .inl (by rw [hq.eof])
  · exact .inr ⟨t, hq.tokens.subset ht, rfl⟩

namespace Behind

theorem refl (p : Parser) : p.Behind p := ⟨List.suffix_rfl, rfl, rfl, [], (List.append_nil _).symm, nofun⟩

theorem trans (h : p.Behind q) (h' : q.Behind r) : p.Behind r := by
  obtain ⟨es, hes, hfaces⟩ := h.errors
  obtain ⟨fs, hfs, hfaces'⟩ := h'.errors
  refine ⟨h'.tokens.trans h.tokens, h'.eof.trans h.eof, h'.size.trans h.size, es ++ fs, ?_, ?_⟩
  · rw [hfs, hes, List.append_assoc]
  · intro e he
    rcases List.mem_append.mp he with he | he
    · exact hfaces e he
    · exact (hfaces' e he).behind h

theorem moveTo (h : p.tokens = t :: rest) : p.Behind (p.moveTo h) :=
  ⟨h ▸ List.suffix_cons t rest, rfl, rfl, [], (List.append_nil _).symm, nofun⟩

theorem cover (h : p.Behind q) (s s' : Span) : p.Behind (q.cover s s').2 :=
  ⟨h.tokens, h.eof, h.size, h.errors⟩

theorem recover (h : p.Behind q) (hcause : p.Faces cause.span) (inBlock : Bool) :
    p.Behind ((q.note cause).recover inBlock) := by
  obtain ⟨es, hes, hfaces⟩ := h.errors
  refine ⟨(recover_suffix _ inBlock).trans h.tokens, (eof_recover _ inBlock).trans h.eof, ?_, es ++ [cause], ?_, ?_⟩
  · rw [log_recover]
    exact h.size
  · rw [errors_recover, note, Array.toList_push, hes, List.append_assoc]
  · intro e he
    rcases List.mem_append.mp he with he | he
    · exact hfaces e he
    · exact List.mem_singleton.mp he ▸ hcause

/-- All that is known of later states holds along every reading. -/
theorem laws : ReadingLaws Behind Behind fun p cause q => p.Behind q ∧ p.Faces cause.span where
  refl := refl
  trans := trans
  passes_of_reads h := h
  reads_passes := trans
  passes_reads := trans
  reads_fails h h' := ⟨h.trans h'.1, h'.2.behind h⟩
  moveTo := moveTo
  cover p a b := (refl p).cover a b
  cover_fails h := ⟨⟨h.1.tokens, h.1.eof, h.1.size, h.1.errors⟩, h.2⟩
  fails_here hfaces := ⟨refl _, hfaces⟩
  fails_behind htokens hspan := ⟨moveTo htokens, .inr ⟨_, htokens ▸ List.mem_cons_self, hspan⟩⟩
  recover _ h inBlock := h.1.recover h.2 inBlock

end Behind

end Parser

end

/-- A source whose positions fit 32 bits is not too large for that. -/
theorem Program.size_lt_of_fits {source : String} (h : (Program.read source).fits) : source.utf8ByteSize + 1 < Span.limit := by
  have hread : ((Parser.ofSource source).programRest []).2.log.size + 1 < Span.limit :=
    of_decide_eq_true (Bool.and_eq_true_iff.mp h).1
  rw [(Parser.Behind.laws.programRest [] (Parser.ofSource source)).size] at hread
  exact hread

/-! ### Lines of a source -/

/-- A span starts on a line of a source. -/
def Span.OnLine (source : String) (s : Span) : Prop := 1 ≤ s.line ∧ s.line ≤ source.toList.count '\n' + 1

theorem Lexeme.onLine_of_scan {source : String} {lexemes : List Lexeme} {stop : Position}
    (h : Lexeme.scan source = (lexemes, stop)) {t : Token}
    (ht : t = .eofAt stop.line stop.column ∨ t ∈ lexemes.map Lexeme.toToken) : t.span.OnLine source := by
  have hpartition : Partition [] source.toList (lexemes.map Lexeme.toToken) (.eofAt stop.line stop.column) :=
    (Lexeme.scan_eq_iff.mp h).partition rfl
  obtain ⟨xs, ys, hinside, hspan⟩ := hpartition.exists_behind ht
  rw [hspan]
  exact ⟨Nat.succ_le_succ (Nat.zero_le _), Span.line_behind_le hinside⟩

/-- The errors in a source are on its lines, both what is no token and what the grammar does not allow. -/
theorem Program.onLine_of_mem_errors {source : String} {e : ParseError} (he : e ∈ (Program.read source).errors) :
    e.span.OnLine source := by
  obtain ⟨es, hes, hfaces⟩ := (Parser.Behind.laws.programRest [] (Parser.ofSource source)).errors
  change e ∈ ((Parser.ofSource source).programRest []).2.errors.toList at he
  rcases hscan : Lexeme.scan source with ⟨lexemes, stop⟩
  rw [hes, List.mem_append] at he
  rcases he with he | he
  · simp only [Parser.ofSource, hscan, List.mem_filterMap] at he
    obtain ⟨lexeme, hmem, hlexical⟩ := he
    obtain ⟨cause, hcause, rfl⟩ := Option.map_eq_some_iff.mp hlexical
    cases lexeme with
    | token => cases hcause
    | error =>
      cases hcause
      exact Lexeme.onLine_of_scan hscan (.inr (List.mem_map_of_mem hmem))
  · rcases hfaces e he with hspan | ⟨t, ht, hspan⟩
    · rw [hspan]
      simp only [Parser.ofSource, hscan]
      exact Lexeme.onLine_of_scan hscan (.inl rfl)
    · simp only [Parser.ofSource, hscan, List.mem_filterMap] at ht
      obtain ⟨lexeme, hmem, htoken⟩ := ht
      cases lexeme with
      | error => cases htoken
      | token =>
        cases htoken
        rw [hspan]
        exact Lexeme.onLine_of_scan hscan (.inr (List.mem_map_of_mem hmem))

end MonkeyLang
