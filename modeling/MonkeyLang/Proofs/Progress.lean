import Mathlib.Data.List.ReduceOption
import Mathlib.Logic.Relation
import MonkeyLang.Proofs.SyntaxErrors
/-!
# Reading comes to an end

A parser does three things by itself: it moves past a token, covers spans and notes an error. None of them takes it past the end
of the source, so its position stays that of a token of the source or of its end. The statements of a program and of a block are
read in rounds, and a round takes a token at least, whether the statement is read or fails.

The errors are bounded by the tokens as well. An error that is noted costs a token that recovery drops; only at the end of the
source nothing is left to drop, but then a block is open, and its brace has not been charged for.
-/

namespace MonkeyLang

namespace Parser

/-! ### Steps of a parser -/

inductive Step : Parser → Parser → Prop
  | moveTo {p : Parser} {t rest} (htokens : p.tokens = t :: rest) : Step p (p.moveTo htokens)
  | cover (p : Parser) (a b : Span) : Step p (p.cover a b).2
  | note (p : Parser) (cause : ParseError) : Step p (p.note cause)

def Reaches : Parser → Parser → Prop := Relation.ReflTransGen Step

/-- All tokens that can be looked at. -/
def buffer (p : Parser) : List Token := p.tokens ++ [p.eof]

/-- A parser stands in a source where its position says, with the tokens from there on before it. -/
structure StandsIn (start p : Parser) : Prop where
  le : p.position ≤ start.tokens.length
  tokens : p.tokens = start.tokens.drop p.position
  eof : p.eof = start.eof

section

variable {start p q r : Parser}

namespace Reaches

theorem refl (p : Parser) : p.Reaches p := Relation.ReflTransGen.refl

theorem trans (h : p.Reaches q) (h' : q.Reaches r) : p.Reaches r := Relation.ReflTransGen.trans h h'

theorem step (h : p.Reaches q) (h' : q.Step r) : p.Reaches r := Relation.ReflTransGen.tail h h'

/-- Dropping a statement is moving on. -/
theorem recover (h : p.Reaches q) (inBlock : Bool) : p.Reaches (q.recover inBlock) :=
  dropStatement_keeps (motive := p.Reaches) inBlock q.position q h fun _ _ _ htokens hr => hr.step (.moveTo htokens)

/-- Reading is made up of these steps. -/
theorem laws : ReadingLaws Reaches Reaches fun p _ q => p.Reaches q where
  refl := refl
  trans := trans
  passes_of_reads h := h
  reads_passes := trans
  passes_reads := trans
  reads_fails := trans
  moveTo htokens := (refl _).step (.moveTo htokens)
  cover p a b := (refl p).step (.cover p a b)
  cover_fails h := ((refl _).step (.cover _ _ _)).trans h
  fails_here _ := refl _
  fails_behind htokens _ := (refl _).step (.moveTo htokens)
  recover _ h inBlock := (h.step (.note _ _)).recover inBlock

end Reaches

namespace StandsIn

/-- A step goes past a token of the source and never past its end. -/
theorem step (h : start.StandsIn p) (hstep : p.Step q) : start.StandsIn q := by
  cases hstep with
  | @moveTo t rest htokens =>
    have hdrop : start.tokens.drop p.position = t :: rest := h.tokens.symm.trans htokens
    have hlength := congrArg List.length hdrop
    rw [List.length_drop, List.length_cons] at hlength
    refine ⟨?_, ?_, h.eof⟩
    · show p.position + 1 ≤ start.tokens.length
      omega
    · show rest = start.tokens.drop (p.position + 1)
      rw [← List.tail_drop, hdrop, List.tail_cons]
  | cover | note => exact ⟨h.le, h.tokens, h.eof⟩

theorem reaches (h : start.StandsIn p) (hreaches : p.Reaches q) : start.StandsIn q := by
  induction hreaches with
  | refl => exact h
  | tail _ hstep ih => exact ih.step hstep

/-- The next token is the one at the position, or the end of the source. -/
theorem peek (h : start.StandsIn p) :
    p.position < start.buffer.length ∧ start.buffer[p.position]? = some p.peek := by
  have hle := h.le
  constructor
  · rw [buffer, List.length_append, List.length_singleton]
    omega
  · have hbuffer : start.buffer.drop p.position = p.tokens ++ [p.eof] := by
      rw [buffer, List.drop_append_of_le_length hle, ← h.tokens, h.eof]
    rw [← List.head?_drop, hbuffer, Parser.peek]
    cases p.tokens <;> rfl

theorem position_lt (hp : start.StandsIn p) (hq : start.StandsIn q) (hlt : q.tokens.length < p.tokens.length) :
    p.position < q.position := by
  rw [hp.tokens, hq.tokens, List.length_drop, List.length_drop] at hlt
  omega

end StandsIn

theorem standsIn_ofSource (source : String) : (ofSource source).StandsIn (ofSource source) :=
  ⟨Nat.zero_le _, rfl, rfl⟩

end

/-! ### Rounds -/

/-- Whether there is another statement to read: in a program up to the end of the source, and in a block up to its brace. -/
def GoesOn (inBlock : Bool) (p : Parser) : Prop := ∃ t rest, p.tokens = t :: rest ∧ (inBlock = true → t.kind ≠ .rightBrace)

/-- A statement is read, or it fails and what is left of it is dropped. -/
inductive Round (inBlock : Bool) : Parser → Option Stmt → Parser → Prop
  | read {p q stmt h} (hread : p.statement = .ok stmt q h) : Round inBlock p (some stmt) q
  | failed {p q cause h} (hfail : p.statement = .error cause q h) : Round inBlock p none ((q.note cause).recover inBlock)

/-- One statement after the other, until there is no other. -/
inductive Rounds (inBlock : Bool) : Parser → List (Option Stmt) → Parser → Prop
  | stop {p} (hstop : ¬ p.GoesOn inBlock) : Rounds inBlock p [] p
  | round {p q r outcome outcomes} (hopen : p.GoesOn inBlock) (hround : Round inBlock p outcome q)
      (hrest : Rounds inBlock q outcomes r) : Rounds inBlock p (outcome :: outcomes) r

section

variable {inBlock : Bool} {p q r : Parser} {outcome : Option Stmt} {outcomes : List (Option Stmt)}

theorem GoesOn.ne_nil (h : p.GoesOn inBlock) : p.tokens ≠ [] := by
  obtain ⟨t, rest, htokens, -⟩ := h
  rw [htokens]
  exact List.cons_ne_nil _ _

theorem goesOn_program (h : p.tokens ≠ []) : p.GoesOn false := by
  obtain ⟨t, rest, htokens⟩ := List.exists_cons_of_ne_nil h
  exact ⟨t, rest, htokens, fun hblock => absurd hblock Bool.false_ne_true⟩

theorem not_goesOn_program (h : ¬ p.GoesOn false) : p.tokens = [] := by
  by_contra hne
  exact h (goesOn_program hne)

theorem not_goesOn_block (h : ¬ p.GoesOn true) :
    p.tokens = [] ∨ ∃ t rest, p.tokens = t :: rest ∧ t.kind = .rightBrace := by
  cases htokens : p.tokens with
  | nil => exact .inl rfl
  | cons t rest =>
    refine .inr ⟨t, rest, rfl, ?_⟩
    by_contra hkind
    exact h ⟨t, rest, htokens, fun _ => hkind⟩

theorem Round.reaches (h : p.Round inBlock outcome q) : p.Reaches q := by
  have hstatement := Reaches.laws.statement p
  cases h with
  | read hread =>
    rw [hread] at hstatement
    exact hstatement
  | failed hfail =>
    rw [hfail] at hstatement
    exact (hstatement.step (.note _ _)).recover inBlock

/-- A round takes a token. -/
theorem Round.length_lt (h : p.Round inBlock outcome q) (hopen : p.GoesOn inBlock) : q.tokens.length < p.tokens.length := by
  cases h with
  | @read _ _ hlt _ => exact hlt
  | @failed _ _ hle _ => exact length_recover_lt _ _ hle (List.length_pos_of_ne_nil hopen.ne_nil)

theorem exists_round (inBlock : Bool) (p : Parser) : ∃ outcome q, p.Round inBlock outcome q := by
  cases hreply : p.statement with
  | ok stmt q h => exact ⟨some stmt, q, .read hreply⟩
  | error cause q h => exact ⟨none, _, .failed hreply⟩

namespace Rounds

theorem reaches (h : p.Rounds inBlock outcomes r) : p.Reaches r := by
  induction h with
  | stop => exact .refl _
  | round _ hround _ ih => exact hround.reaches.trans ih

theorem stops (h : p.Rounds inBlock outcomes r) : ¬ r.GoesOn inBlock := by
  induction h with
  | stop hstop => exact hstop
  | round _ _ _ ih => exact ih

theorem length_le (h : p.Rounds inBlock outcomes r) : outcomes.length + r.tokens.length ≤ p.tokens.length := by
  induction h with
  | stop => exact Nat.le_of_eq (Nat.zero_add _)
  | round hopen hround _ ih =>
    have hlt := hround.length_lt hopen
    rw [List.length_cons]
    omega

end Rounds

/-- The rounds come to an end. -/
theorem exists_rounds (inBlock : Bool) (p : Parser) : ∃ outcomes r, p.Rounds inBlock outcomes r := by
  by_cases hopen : p.GoesOn inBlock
  · obtain ⟨outcome, q, hround⟩ := p.exists_round inBlock
    have hlt := hround.length_lt hopen
    obtain ⟨outcomes, r, hrest⟩ := exists_rounds inBlock q
    exact ⟨outcome :: outcomes, r, .round hopen hround hrest⟩
  · exact ⟨[], p, .stop hopen⟩
termination_by p.tokens.length

end

/-! ### The loops of the grammar -/

section

variable {p q r : Parser} {outcomes : List (Option Stmt)}

/-- A program is what is read in the rounds from its start. -/
theorem Rounds.programRest_eq (h : p.Rounds false outcomes r) (stmts : List Stmt) :
    programRest stmts p = (stmts.reverse ++ outcomes.reduceOption, r) := by
  induction h generalizing stmts with
  | @stop p hstop =>
    rw [programRest]
    simp only [next?_of_nil (not_goesOn_program hstop)]
    simp
  | @round p q r outcome outcomes hopen hround _ ih =>
    obtain ⟨t, rest, htokens, -⟩ := hopen
    rw [programRest]
    simp only [next?_of_cons htokens]
    cases hround with
    | read hread =>
      rw [hread]
      simp [ih]
    | failed hfail =>
      rw [hfail]
      simp [ih]

theorem Rounds.stmts_program (h : p.Rounds false outcomes r) : p.program.1.stmts = outcomes.reduceOption :=
  congrArg Prod.fst (h.programRest_eq [])

theorem Rounds.errors_program (h : p.Rounds false outcomes r) : p.program.2.errors = r.errors :=
  congrArg (fun read => read.2.errors) (h.programRest_eq [])

end

end Parser

/-- A block that starts with some span ends at a state with some statements read: it is closed by the brace there, or the source
ends there. -/
def Reply.EndsBlock {n : Nat} (start : Span) (stmts : List Stmt) (stop : Parser) : Reply Block n → Prop
  | ok b q _ => ∃ (close : Token) (rest : List Token) (htokens : stop.tokens = close :: rest), close.kind = .rightBrace ∧
      b = .mk stmts (start.cover close.span) ∧ q = ((stop.moveTo htokens).cover start close.span).2
  | error _ q _ => stop.tokens = [] ∧ q = stop

theorem Reply.EndsBlock.weaken {m n : Nat} {start : Span} {stmts : List Stmt} {stop : Parser} {reply : Reply Block m}
    {hle : m ≤ n} (h : reply.EndsBlock start stmts stop) : (reply.weaken hle).EndsBlock start stmts stop := by
  cases reply <;> exact h

namespace Parser

section

variable {p q r : Parser} {outcomes : List (Option Stmt)}

theorem Rounds.blockRest_ends (h : p.Rounds true outcomes r) (start : Span) (stmts : List Stmt) :
    (blockRest start stmts p).EndsBlock start (stmts.reverse ++ outcomes.reduceOption) r := by
  induction h generalizing stmts with
  | stop hstop =>
    rcases not_goesOn_block hstop with htokens | ⟨t, rest, htokens, hkind⟩
    · rw [blockRest_of_nil htokens]
      exact ⟨htokens, rfl⟩
    · rw [blockRest_of_close htokens hkind]
      exact ⟨t, rest, htokens, hkind, by simp, rfl⟩
  | round hopen hround _ ih =>
    obtain ⟨t, rest, htokens, hkind⟩ := hopen
    cases hround with
    | @read _ stmt _ hread =>
      rw [blockRest_of_ok htokens (hkind rfl) hread]
      simpa using (ih (stmt :: stmts)).weaken
    | failed hfail =>
      rw [blockRest_of_error htokens (hkind rfl) hfail]
      simpa using (ih stmts).weaken

/-- A block is what is read in the rounds behind its opening brace. -/
theorem Rounds.block_ends {t : Token} {ts : List Token} {htokens : p.tokens = t :: ts}
    (h : (p.moveTo htokens).Rounds true outcomes r) (hkind : t.kind = .leftBrace) :
    p.block.EndsBlock t.span outcomes.reduceOption r := by
  rw [block]
  simp only [take, next?_of_cons htokens, if_pos hkind]
  dsimp only [Reply.andThen]
  exact (h.blockRest_ends t.span []).weaken

end

/-! ### Errors -/

/-- The tokens that are left and the errors that have been noted, taken together. -/
def tally (p : Parser) : Nat := p.tokens.length + p.errors.size

/-- The same, with one more at the end of the source. -/
def tallyAtError (p : Parser) : Nat := max p.tokens.length 1 + p.errors.size

section

variable {p q r : Parser} {outcome : Option Stmt} {outcomes : List (Option Stmt)} {cause : ParseError} {inBlock : Bool}

theorem tally_recover_le (q : Parser) (cause : ParseError) (inBlock : Bool) :
    ((q.note cause).recover inBlock).tally ≤ q.tallyAtError := by
  have hlt : ((q.note cause).recover inBlock).tokens.length < max q.tokens.length 1 :=
    length_recover_lt _ _ (Nat.le_max_left _ _) (by omega)
  have hsize : ((q.note cause).recover inBlock).errors.size = q.errors.size + 1 := by
    rw [errors_recover, note, Array.size_push]
  rw [tally, tallyAtError, hsize]
  omega

/-- A phrase that is read leaves less of tokens and errors together, and statements that are dropped do not leave more. -/
theorem tally_laws : ReadingLaws (fun p q => q.tally < p.tally) (fun p q => q.tally ≤ p.tally)
    (fun p _ q => q.tallyAtError ≤ p.tallyAtError) where
  refl _ := Nat.le_refl _
  trans h h' := Nat.le_trans h' h
  passes_of_reads := Nat.le_of_lt
  reads_passes h h' := Nat.lt_of_le_of_lt h' h
  passes_reads h h' := Nat.lt_of_lt_of_le h' h
  reads_fails h h' := by
    simp only [tally, tallyAtError] at h h' ⊢
    omega
  moveTo htokens := by simp [tally, moveTo, htokens]
  cover _ _ _ := Nat.le_refl _
  cover_fails h := h
  fails_here _ := Nat.le_refl _
  fails_behind htokens _ := by
    simp only [tallyAtError, moveTo, htokens, List.length_cons]
    omega
  recover {p q cause} hne h inBlock := by
    have hpos := List.length_pos_of_ne_nil hne
    have hrecover := tally_recover_le q cause inBlock
    have hsame : p.tallyAtError = p.tally := by
      rw [tallyAtError, tally]
      omega
    omega

theorem Round.tally_le (h : p.Round inBlock outcome q) (hopen : p.GoesOn inBlock) :
    outcome.toList.length + q.tally ≤ p.tally := by
  have hstatement := tally_laws.statement p
  cases h with
  | read hread =>
    rw [hread] at hstatement
    simp only [Option.toList_some, List.length_singleton]
    exact Nat.one_add _ ▸ hstatement
  | failed hfail =>
    rw [hfail] at hstatement
    simpa using tally_laws.recover hopen.ne_nil hstatement inBlock

/-- Statements and errors are no more than the tokens they are made of. -/
theorem Rounds.tally_le (h : p.Rounds inBlock outcomes r) : outcomes.reduceOption.length + r.tally ≤ p.tally := by
  induction h with
  | stop => simp
  | @round _ _ _ outcome outcomes hopen hround _ ih =>
    have hround := hround.tally_le hopen
    cases outcome with
    | none =>
      rw [List.reduceOption_cons_of_none]
      simp only [Option.toList_none, List.length_nil] at hround
      omega
    | some stmt =>
      rw [List.reduceOption_cons_of_some, List.length_cons]
      simp only [Option.toList_some, List.length_singleton] at hround
      omega

end

/-! ### Sources -/

theorem ne_error_of_mem_ofSource {source : String} {t : Token} (ht : t ∈ (ofSource source).tokens) : t.kind ≠ .error := by
  obtain ⟨lexeme, hmem, htoken⟩ := List.mem_filterMap.mp ht
  cases lexeme with
  | error => cases htoken
  | token =>
    cases htoken
    exact ((Lexeme.scan_eq_iff.mp rfl).written hmem).ne_eof_and_ne_error.2

end Parser

open MonkeyLang.Parser (ofSource lexicalError?) in
/-- A source is read to its end. The only token for the end stands behind all others, and no state that can be reached is past it;
where an expression, a statement or a block is read, such a state is reached. A round of statements moves on from every state,
so a program and every block end after finitely many, and there are no more statements and errors than tokens. -/
theorem reading_ends (source : String) :
    ((ofSource source).eof.kind = .eof ∧ ∀ t ∈ (ofSource source).tokens, t.kind ≠ .eof ∧ t.kind ≠ .error) ∧
    (∀ p, (ofSource source).Reaches p →
      (p.position < (ofSource source).buffer.length ∧ (ofSource source).buffer[p.position]? = some p.peek) ∧
      ((ofSource source).Reaches p.expr.parser ∧ (ofSource source).Reaches p.statement.parser ∧
        (ofSource source).Reaches p.block.parser) ∧
      ∀ inBlock outcome q, p.GoesOn inBlock → p.Round inBlock outcome q →
        (ofSource source).Reaches q ∧ p.position < q.position) ∧
    (∃ outcomes stop, (ofSource source).Rounds false outcomes stop ∧ outcomes.length ≤ (ofSource source).tokens.length ∧
      stop.isEof ∧ (Program.read source).program.stmts = outcomes.reduceOption ∧
      ∃ noted, (Program.read source).errors = (Lexeme.scan source).1.filterMap lexicalError? ++ noted ∧
        (Program.read source).program.stmts.length + noted.length ≤ (ofSource source).tokens.length) ∧
    ∀ p opening rest (htokens : p.tokens = opening :: rest), (ofSource source).Reaches p → opening.kind = .leftBrace →
      ∃ outcomes stop, (p.moveTo htokens).Rounds true outcomes stop ∧ outcomes.length ≤ rest.length ∧
        (ofSource source).Reaches stop ∧ p.block.EndsBlock opening.span outcomes.reduceOption stop := by
  have hstart := Parser.standsIn_ofSource source
  refine ⟨⟨rfl, fun t ht => ⟨(ofSource source).ended.2 t ht, Parser.ne_error_of_mem_ofSource ht⟩⟩, ?_, ?_, ?_⟩
  · intro p hp
    have hexpr := hp.trans ((Parser.Reaches.laws.expr p).parser id)
    have hstatement := hp.trans ((Parser.Reaches.laws.statement p).parser id)
    have hblock := hp.trans ((Parser.Reaches.laws.block p).parser id)
    have hstands := hstart.reaches hp
    refine ⟨hstands.peek, ⟨hexpr, hstatement, hblock⟩, ?_⟩
    intro inBlock outcome q hopen hround
    exact ⟨hp.trans hround.reaches, hstands.position_lt (hstands.reaches hround.reaches) (hround.length_lt hopen)⟩
  · obtain ⟨outcomes, stop, hrounds⟩ := (ofSource source).exists_rounds false
    have hstop := Parser.not_goesOn_program hrounds.stops
    have hstmts : (Program.read source).program.stmts = outcomes.reduceOption := hrounds.stmts_program
    have herrors : (Program.read source).errors = stop.errors.toList := congrArg Array.toList hrounds.errors_program
    obtain ⟨noted, hnoted, -⟩ := (Parser.Behind.laws.programRest [] (ofSource source)).errors
    rw [hrounds.programRest_eq []] at hnoted
    refine ⟨outcomes, stop, hrounds, Nat.le_of_add_right_le hrounds.length_le, ?_, hstmts, noted, ?_, ?_⟩
    · exact Parser.isEof_iff.mpr hstop
    · rw [herrors, hnoted]
      rfl
    · have htally := hrounds.tally_le
      have hsize : stop.errors.size = (ofSource source).errors.size + noted.length := by
        rw [← Array.length_toList, hnoted, List.length_append, Array.length_toList]
      rw [Parser.tally, Parser.tally, hstop] at htally
      simp only [List.length_nil] at htally
      rw [hstmts]
      omega
  · intro p opening rest htokens hp hkind
    obtain ⟨outcomes, stop, hrounds⟩ := (p.moveTo htokens).exists_rounds true
    have hinside := (hp.step (.moveTo htokens)).trans hrounds.reaches
    exact ⟨outcomes, stop, hrounds, Nat.le_of_add_right_le hrounds.length_le, hinside, hrounds.block_ends hkind⟩

/-- A block that is not closed, with an error in it. -/
def unclosedBlock : String := "if (x) \x7b let"

open MonkeyLang.Parser (ofSource) in
theorem reading_ends_unclosedBlock :
    (ofSource unclosedBlock).Reaches (ofSource unclosedBlock) ∧ (ofSource unclosedBlock).GoesOn false ∧
    ∃ outcome q, (ofSource unclosedBlock).Round false outcome q ∧ (ofSource unclosedBlock).Reaches q ∧
      (ofSource unclosedBlock).position < q.position := by
  have hstart := Parser.Reaches.refl (ofSource unclosedBlock)
  have hopen : (ofSource unclosedBlock).GoesOn false := Parser.goesOn_program (by decide +kernel)
  obtain ⟨outcome, q, hround⟩ := (ofSource unclosedBlock).exists_round false
  obtain ⟨-, hreached, -⟩ := reading_ends unclosedBlock
  obtain ⟨-, -, hmoves⟩ := hreached _ hstart
  exact ⟨hstart, hopen, outcome, q, hround, hmoves false outcome q hopen hround⟩

end MonkeyLang
