import MonkeyLang.Proofs.CommonReading
import MonkeyLang.Proofs.Progress
/-!
# Statements are read by themselves

A semicolon with no opening brace in front of it is the end of all that stands before it, whether that can be read or not. No
expression reads past it and a statement that is dropped is dropped no further. So the parser of a whole program goes along with
one for the part up to the semicolon, and behind it with one for the rest.
-/

namespace MonkeyLang

namespace Parser

/-- Dropping a statement stops at the semicolon at the latest, whatever comes behind it. -/
theorem Fenced.exists_leftover_eq {semi : Token} {front : List Token} (h : Fenced semi front)
    (hsemi : semi.kind = .semicolon) (inBlock started : Bool) :
    ∃ front', (Fenced semi front' ∨ front' = []) ∧
      ∀ rest, leftover inBlock started (front ++ rest) = front' ++ rest := by
  induction front generalizing started with
  | nil =>
    obtain ⟨-, body, hfront, -⟩ := h
    simp at hfront
  | cons t front ih =>
    rcases leftover_cons inBlock started t with hdrop | hdrop | hdrop
    · exact ⟨t :: front, .inl h, fun rest => hdrop (front ++ rest)⟩
    · refine ⟨front, ?_, fun rest => hdrop (front ++ rest)⟩
      exact h.tail.symm.imp And.left And.left
    · rcases h.tail with ⟨rfl, rfl, -⟩ | ⟨hfenced, -⟩
      · refine ⟨[], .inr rfl, fun rest => ?_⟩
        simp [leftover, hsemi]
      · obtain ⟨front', hfront', heq⟩ := ih hfenced true
        exact ⟨front', hfront', fun rest => (hdrop (front ++ rest)).trans (heq rest)⟩

/-- A fork that no statement is dropped beyond: at a semicolon, or at the same end. -/
def Fork.Holds (f : Fork) : Prop := ∀ fence ∈ f.fence, fence.kind = .semicolon

variable {f : Fork} {p q : Parser}

/-- Two parsers that are alike drop the same tokens. -/
theorem Alike.recover (h : Alike f p q) (hfork : f.Holds) (cause : ParseError) (inBlock : Bool) :
    Passed f ((p.note cause).recover inBlock) ((q.note cause).recover inBlock) := by
  cases hfence : f.fence with
  | none => exact (h.recover_of_none hfence cause inBlock).passed
  | some semi =>
    obtain ⟨front, noted, hp, hq, hparts⟩ := h
    have hsemi := hfork semi hfence
    have hfenced := (f.parts_of_some hfence).mp hparts
    obtain ⟨front', hfront', hdrop⟩ := hfenced.exists_leftover_eq hsemi inBlock false
    refine ⟨front', noted ++ [cause], hp.recover cause inBlock (hdrop _), hq.recover cause inBlock (hdrop _), ?_⟩
    exact hfront'.imp (f.parts_of_some hfence).mpr fun hnil => ⟨hnil, semi, hfence, hsemi⟩

/-! ### Programs -/

theorem InFront.tokens_ne_nil {front : List Token} {noted : List ParseError} (h : InFront front noted q p) (hne : front ≠ []) :
    p.tokens ≠ [] := by
  rw [h.tokens]
  exact List.append_ne_nil_of_left_ne_nil hne _

/-- Two parsers that are alike read or drop the same statement. -/
theorem Alike.round (h : Alike f p q) (hfork : f.Holds) (inBlock : Bool) :
    ∃ outcome p' q', p.Round inBlock outcome p' ∧ q.Round inBlock outcome q' ∧ Passed f p' q' := by
  rcases (alike_statement p q h).cases with ⟨stmt, p', _, q', _, hp, hq, h'⟩ | ⟨cause, p', _, q', _, hp, hq, h'⟩
  · exact ⟨some stmt, p', q', .read hp, .read hq, h'⟩
  · exact ⟨none, _, _, .failed hp, .failed hq, h'.recover hfork cause inBlock⟩

/-- Statement after statement, both parsers come to the fork, with the same outcomes. -/
theorem exists_common_rounds (hfork : f.Holds) (p q : Parser) (h : Passed f p q) :
    ∃ common noted p' q', InFront [] noted f.left p' ∧ InFront [] noted f.right q' ∧
      (∀ outcomes s, p'.Rounds false outcomes s → p.Rounds false (common ++ outcomes) s) ∧
      ∀ outcomes s, q'.Rounds false outcomes s → q.Rounds false (common ++ outcomes) s := by
  obtain ⟨front, noted, hp, hq, hahead⟩ := h
  by_cases hfront : front = []
  · subst hfront
    exact ⟨[], noted, p, q, hp, hq, fun _ _ hrounds => hrounds, fun _ _ hrounds => hrounds⟩
  · have halike : Alike f p q := ⟨front, noted, hp, hq, hahead.resolve_right fun hnil => hfront hnil.1⟩
    have hopen := goesOn_program (hp.tokens_ne_nil hfront)
    have hopen' := goesOn_program (hq.tokens_ne_nil hfront)
    obtain ⟨outcome, p₁, q₁, hround, hround', hpassed⟩ := halike.round hfork false
    have hlt := hround.length_lt hopen
    obtain ⟨common, noted, p', q', hp', hq', hrest, hrest'⟩ := exists_common_rounds hfork p₁ q₁ hpassed
    refine ⟨outcome :: common, noted, p', q', hp', hq', ?_, ?_⟩
    · intro outcomes s hrounds
      exact .round hopen hround (hrest outcomes s hrounds)
    · intro outcomes s hrounds
      exact .round hopen' hround' (hrest' outcomes s hrounds)
termination_by p.tokens.length

end Parser

/-- What is read up to a semicolon does not depend on what comes behind it, and what is read behind it does not depend on what
came before, if no brace is open there. Whatever the tokens are, both the statements that are read and the errors that are noted
are those of the part up to the semicolon, followed by those of the rest. -/
theorem statements_read_apart {p q r : Parser} {body rest : List Token} {semi : Token}
    (hbody : ∀ t ∈ body, t.kind ≠ .leftBrace) (hsemi : semi.kind = .semicolon) (hp : p.tokens = body ++ semi :: rest)
    (hq : q.tokens = body ++ [semi]) (hr : r.tokens = rest) (heof : r.eof = p.eof) :
    p.program.1.stmts = q.program.1.stmts ++ r.program.1.stmts ∧
    ∃ noted noted', q.program.2.errors.toList = q.errors.toList ++ noted ∧
      r.program.2.errors.toList = r.errors.toList ++ noted' ∧
      p.program.2.errors.toList = p.errors.toList ++ (noted ++ noted') := by
  -- Up to the semicolon, the parser of the whole goes along with that of the front part.
  have hrest : rest <:+ p.tokens := hp ▸ (List.suffix_cons semi rest).trans (List.suffix_append body _)
  have hfront : Parser.Passed ⟨p.leaving rest hrest, q.leaving [] List.nil_suffix, some semi⟩ p q := by
    refine ⟨body ++ [semi], [], ⟨?_, rfl, (List.append_nil _).symm⟩, ⟨?_, rfl, (List.append_nil _).symm⟩, ?_⟩
    · simp [hp]
    · simp [hq]
    · exact .inl ⟨.inl hsemi, body, rfl, hbody⟩
  obtain ⟨common, noted, p', q', hp', hq', hrounds, hrounds'⟩ :=
    Parser.exists_common_rounds (by simp [Parser.Fork.Holds, hsemi]) p q hfront
  -- Behind it, it goes along with that of the rest, and both come to the end of the source.
  have hrear : Parser.Passed ⟨p'.leaving [] List.nil_suffix, r.leaving [] List.nil_suffix, none⟩ p' r := by
    refine ⟨rest, [], ⟨?_, rfl, (List.append_nil _).symm⟩, ⟨?_, rfl, (List.append_nil _).symm⟩, .inl ⟨rfl, rfl, ?_⟩⟩
    · simp [hp'.tokens]
    · simp [hr]
    · exact hp'.eof.trans heof.symm
  obtain ⟨common', noted', p'', r'', hp'', hr'', hrest, hrest'⟩ :=
    Parser.exists_common_rounds (by simp [Parser.Fork.Holds]) p' r hrear
  have hstop (s : Parser) (hnil : s.tokens = []) : s.Rounds false [] s := .stop fun hopen => hopen.ne_nil hnil
  have hwhole := hrounds _ _ (hrest _ _ (hstop p'' hp''.tokens))
  have hpart := hrounds' _ _ (hstop q' hq'.tokens)
  have hremain := hrest' _ _ (hstop r'' hr''.tokens)
  rw [List.append_nil] at hwhole hpart hremain
  refine ⟨?_, noted, noted', ?_, ?_, ?_⟩
  · rw [hwhole.stmts_program, hpart.stmts_program, hremain.stmts_program, List.reduceOption_append]
  · rw [hpart.errors_program, hq'.errors]
  · rw [hremain.errors_program, hr''.errors]
  · rw [hwhole.errors_program, hp''.errors]
    change p'.errors.toList ++ noted' = _
    rw [hp'.errors, List.append_assoc]

/-- A parser for some tokens on one line and the column where they end. -/
def Parser.ofTokens (tokens : List Token) (stop : Nat) (h : ∀ t ∈ tokens, t.kind ≠ .eof := by decide) : Parser :=
  ⟨tokens, .eofAt 1 stop, (tokens.headD (.eofAt 1 stop)).span, #[], ⟨stop, []⟩, 0, rfl, h⟩

/-- The tokens of `let f = fn(1`, where a list of parameters is broken off. -/
def brokenHeader : List Token :=
  [⟨.kwLet, "let", ⟨1, 1, 3⟩⟩, ⟨.identifier, "f", ⟨1, 5, 1⟩⟩, ⟨.equal, "=", ⟨1, 7, 1⟩⟩, ⟨.kwFn, "fn", ⟨1, 9, 2⟩⟩,
    ⟨.leftParen, "(", ⟨1, 11, 1⟩⟩, ⟨.intLiteral, "1", ⟨1, 12, 1⟩⟩]

theorem statements_read_apart_brokenHeader :
    let semi : Token := ⟨.semicolon, ";", ⟨1, 13, 1⟩⟩
    let rest : List Token := [⟨.identifier, "x", ⟨1, 15, 1⟩⟩, ⟨.rightParen, ")", ⟨1, 16, 1⟩⟩]
    let p := Parser.ofTokens (brokenHeader ++ semi :: rest) 17
    let q := Parser.ofTokens (brokenHeader ++ [semi]) 14
    let r := Parser.ofTokens rest 17
    (∀ t ∈ brokenHeader, t.kind ≠ .leftBrace) ∧ semi.kind = .semicolon ∧
    p.program.1.stmts = q.program.1.stmts ++ r.program.1.stmts ∧
    ∃ noted noted', q.program.2.errors.toList = noted ∧ r.program.2.errors.toList = noted' ∧
      p.program.2.errors.toList = noted ++ noted' :=
  ⟨by decide, rfl, statements_read_apart (by decide) rfl rfl rfl rfl rfl⟩

end MonkeyLang
