import Mathlib.Data.List.Induction
import MonkeyLang.Proofs.Lexing
import MonkeyLang.Proofs.ParserSoundness
/-!
# Positions fit 32 bits

A place in a source is a number of bytes from its start, and a line with a column is one if the start of the line is known. The
tokens of a source stand one behind the other. The span of a phrase starts where the phrase starts and is no longer than the
phrase, because the two spans that it covers do not overlap. So the sums that are formed stay below twice the size of the source.
-/

namespace MonkeyLang

/-! ### Lines of a source -/

def byteSize (cs : List Char) : Nat := (String.ofList cs).utf8ByteSize

@[simp] theorem byteSize_nil : byteSize [] = 0 := rfl

theorem byteSize_append (xs ys : List Char) : byteSize (xs ++ ys) = byteSize xs + byteSize ys := by
  rw [byteSize, String.ofList_append, String.utf8ByteSize_append]
  rfl

@[simp] theorem byteSize_singleton (c : Char) : byteSize [c] = c.utf8Size := by
  rw [byteSize, ← String.singleton_eq_ofList, String.utf8ByteSize_singleton]

theorem byteSize_toList (source : String) : byteSize source.toList = source.utf8ByteSize := by
  rw [byteSize, String.ofList_toList]

theorem byteSize_cons (c : Char) (cs : List Char) : byteSize (c :: cs) = c.utf8Size + byteSize cs := by
  rw [← byteSize_singleton, ← byteSize_append]
  rfl

/-- The number of bytes in front of the line behind a number of newlines. -/
def lineStart : List Char → Nat → Nat
  | _, 0 => 0
  | [], _ => 0
  | c :: cs, n + 1 => c.utf8Size + lineStart cs (if c = '\n' then n else n + 1)

theorem lineStart_newline (xs ys : List Char) : lineStart (xs ++ '\n' :: ys) (xs.count '\n' + 1) = byteSize (xs ++ ['\n']) := by
  induction xs with
  | nil => simp [lineStart]
  | cons c xs ih =>
    rw [List.cons_append, List.cons_append, lineStart, byteSize_cons, ← ih]
    by_cases hc : c = '\n' <;> simp [hc]

theorem Position.afterAll_append (p : Position) (xs ys : List Char) : p.afterAll (xs ++ ys) = (p.afterAll xs).afterAll ys :=
  List.foldl_append

theorem Position.line_afterAll (cs : List Char) : (Position.start.afterAll cs).line = cs.count '\n' + 1 := by
  induction cs using List.reverseRecOn with
  | nil => rfl
  | append_singleton cs c ih =>
    rw [Position.afterAll_append]
    change (Position.after (Position.start.afterAll cs) c).line = _
    by_cases hc : c = '\n' <;> simp [Position.after, hc, ih]

/-- The bytes in front of a position are those in front of its line and those in front of its column. -/
theorem Position.offset_afterAll (xs ys : List Char) :
    byteSize xs + 1 = lineStart (xs ++ ys) ((Position.start.afterAll xs).line - 1) + (Position.start.afterAll xs).column := by
  induction xs using List.reverseRecOn generalizing ys with
  | nil => simp [Position.afterAll, Position.start, lineStart]
  | append_singleton xs c ih =>
    have hline := Position.line_afterAll xs
    have hih := ih (c :: ys)
    rw [Position.afterAll_append]
    change _ = lineStart _ ((Position.after (Position.start.afterAll xs) c).line - 1) +
      (Position.after (Position.start.afterAll xs) c).column
    rw [List.append_assoc]
    by_cases hc : c = '\n'
    · subst hc
      simp only [Position.after, if_true, hline, Nat.add_sub_cancel]
      rw [List.singleton_append, lineStart_newline]
    · simp only [Position.after, hc, if_false, byteSize_append, byteSize_singleton]
      rw [List.singleton_append]
      omega

/-! ### Where spans lie -/

/-- Where the lines of a source start, for a source that is not too large. -/
structure SourceMap where
  lineStart : Nat → Nat
  size : Nat
  size_lt : size < 2147483648

def SourceMap.ofSource (source : String) (hsize : source.utf8ByteSize < 2147483648) : SourceMap where
  lineStart line := MonkeyLang.lineStart source.toList (line - 1)
  size := source.utf8ByteSize
  size_lt := hsize

/-- A span lies between two places of a source, going by its start and its length. -/
def Span.Lies (m : SourceMap) (a b : Nat) (s : Span) : Prop :=
  ∃ o, a ≤ o ∧ o + 1 = m.lineStart s.line + s.column ∧ o + s.length ≤ b

namespace Span.Lies

variable {m : SourceMap} {s s' : Span} {a b c d : Nat}

theorem mono (h : s.Lies m a b) (hstart : c ≤ a) (hend : b ≤ d) : s.Lies m c d := by
  obtain ⟨o, ha, ho, hb⟩ := h
  exact ⟨o, by omega, ho, by omega⟩

theorem back (h : s.Lies m b c) (hle : a ≤ b) : s.Lies m a c := h.mono hle (Nat.le_refl _)

theorem ahead (h : s.Lies m a b) (hle : b ≤ c) : s.Lies m a c := h.mono (Nat.le_refl _) hle

theorem le (h : s.Lies m a b) : a ≤ b := by
  obtain ⟨o, ha, -, hb⟩ := h
  omega

theorem cover (h : s.Lies m a b) (h' : s'.Lies m b c) : (s.cover s').Lies m a c := by
  obtain ⟨o, ha, ho, hb⟩ := h
  obtain ⟨o', hb', ho', hc⟩ := h'
  unfold Span.cover
  by_cases hline : s.line = s'.line
  · rw [if_pos hline]
    rw [← hline] at ho'
    exact ⟨o, ha, by simp only; omega, by simp only [Span.stop]; omega⟩
  · rw [if_neg hline]
    exact ⟨o, ha, ho, by simp only; omega⟩

/-- Two spans of a source can be covered, whether they overlap or not. -/
theorem coverFits (h : s.Lies m a m.size) (h' : s'.Lies m b m.size) : s.coverFits s' := by
  obtain ⟨o, -, ho, hend⟩ := h
  obtain ⟨o', -, ho', hend'⟩ := h'
  have hsize := m.size_lt
  unfold Span.coverFits
  by_cases hline : s.line = s'.line
  · rw [if_pos hline, Bool.and_eq_true, decide_eq_true_eq, decide_eq_true_eq]
    unfold Span.stop Span.limit
    omega
  · rw [if_neg hline, decide_eq_true_eq]
    unfold Span.limit
    omega

end Span.Lies

/-- Everything that is computed concerns spans that lie in the source. -/
structure SpanLog.Lies (m : SourceMap) (log : SpanLog) : Prop where
  size : log.size = m.size
  pairs : ∀ pair ∈ log.pairs, pair.1.Lies m 0 m.size ∧ pair.2.Lies m 0 m.size

theorem SpanLog.Lies.fits {m : SourceMap} {log : SpanLog} (h : log.Lies m) : log.fits := by
  have hsize := m.size_lt
  rw [SpanLog.fits, Bool.and_eq_true, decide_eq_true_eq, List.all_eq_true]
  refine ⟨?_, ?_⟩
  · rw [h.size, Span.limit]
    omega
  · intro pair hpair
    exact (h.pairs pair hpair).1.coverFits (h.pairs pair hpair).2

/-- Tokens stand one behind the other, from a place to the end of the source. -/
inductive Ranged (m : SourceMap) : Nat → List Token → Prop
  | nil {a} (hle : a ≤ m.size) : Ranged m a []
  | cons {a b t ts} (ht : t.span.Lies m a b) (hrest : Ranged m b ts) : Ranged m a (t :: ts)

namespace Ranged

variable {m : SourceMap} {a b : Nat} {t : Token} {ts us : List Token}

theorem mono (h : Ranged m b ts) (hle : a ≤ b) : Ranged m a ts := by
  cases h with
  | nil hle' => exact .nil (Nat.le_trans hle hle')
  | cons ht hrest => exact .cons (ht.back hle) hrest

theorem le (h : Ranged m a ts) : a ≤ m.size := by
  induction h with
  | nil hle => exact hle
  | cons ht _ ih => exact Nat.le_trans ht.le ih

theorem suffix (h : Ranged m a ts) (hsuffix : us <:+ ts) : Ranged m a us := by
  induction h with
  | nil hle =>
    obtain rfl := List.suffix_nil.mp hsuffix
    exact .nil hle
  | cons ht hrest ih =>
    rcases List.suffix_cons_iff.mp hsuffix with rfl | hsuffix
    · exact .cons ht hrest
    · exact (ih hsuffix).mono ht.le

end Ranged

namespace Lexeme

variable {m : SourceMap} {xs ys zs : List Char}

/-- The span of a stretch of the source, given what stands in front of it. -/
theorem lies_of_afterAll (hlines : ∀ line, m.lineStart line = lineStart (xs ++ ys ++ zs) (line - 1)) :
    Span.Lies m (byteSize xs) (byteSize (xs ++ ys))
      ⟨(Position.start.afterAll xs).line, (Position.start.afterAll xs).column, byteSize ys⟩ := by
  refine ⟨byteSize xs, Nat.le_refl _, ?_, ?_⟩
  · rw [hlines, List.append_assoc]
    exact Position.offset_afterAll xs (ys ++ zs)
  · exact Nat.le_of_eq (byteSize_append xs ys).symm

/-- The tokens of a source stand one behind the other, and it ends behind them. -/
theorem Scans.ranged {cs : List Char} {p stop : Position} {lexemes : List Lexeme} (h : Scans cs p lexemes stop)
    (hp : p = Position.start.afterAll xs) (hsize : m.size = byteSize (xs ++ cs))
    (hlines : ∀ line, m.lineStart line = lineStart (xs ++ cs) (line - 1)) :
    Ranged m (byteSize xs) (lexemes.filterMap Parser.token?) ∧ stop = Position.start.afterAll (xs ++ cs) := by
  induction h generalizing xs with
  | stop hskip =>
    obtain ⟨gap, rfl, rfl⟩ := gap_of_skipGap hskip
    refine ⟨.nil ?_, ?_⟩
    · rw [hsize, byteSize_append]
      exact Nat.le_add_right _ _
    · rw [hp, List.append_nil, Position.afterAll_append]
  | step hnext _ ih =>
    obtain ⟨gap, c, rest, form, taken, rfl, -, rfl, rfl⟩ := next?_cases hnext
    rw [hp, ← Position.afterAll_append _ xs gap] at ih ⊢
    rw [← List.append_assoc, ← List.append_assoc] at hsize hlines ⊢
    obtain ⟨hranged, hstop⟩ := ih (Position.afterAll_append _ (xs ++ gap) taken).symm hsize hlines
    have hlies := lies_of_afterAll hlines
    have hle : byteSize xs ≤ byteSize (xs ++ gap) := by
      rw [byteSize_append]
      exact Nat.le_add_right _ _
    refine ⟨?_, hstop⟩
    cases form with
    | token kind => exact .cons (hlies.back hle) hranged
    | unexpected | unterminated | misnumbered => exact hranged.mono (Nat.le_trans hle hlies.le)

end Lexeme

/-! ### Parsers -/

/-- The tokens that are left stand behind a place of the source, and all spans that have been covered lie in it. -/
structure Parser.Placed (m : SourceMap) (a : Nat) (p : Parser) : Prop where
  log : p.log.Lies m
  eof : p.eof.span.Lies m 0 m.size
  tokens : Ranged m a p.tokens

section

variable {m : SourceMap} {a b c d : Nat} {p q : Parser} {t : Token} {rest : List Token} {s s' : Span}

namespace Parser.Placed

theorem mono (h : p.Placed m b) (hle : a ≤ b) : p.Placed m a := ⟨h.log, h.eof, h.tokens.mono hle⟩

theorem cover (h : p.Placed m a) (hs : s.Lies m b a) (hs' : s'.Lies m c a) : (p.cover s s').2.Placed m a := by
  have hle := h.tokens.le
  refine ⟨⟨h.log.size, List.forall_mem_cons.mpr ⟨?_, h.log.pairs⟩⟩, h.eof, h.tokens⟩
  exact ⟨hs.mono (Nat.zero_le _) hle, hs'.mono (Nat.zero_le _) hle⟩

theorem next? {hlt : q.tokens.length < p.tokens.length} (h : p.Placed m a) (hnext : p.next? = some (t, ⟨q, hlt⟩)) :
    ∃ b, q.Placed m b ∧ t.span.Lies m a b ∧ q.last.Lies m a b := by
  obtain ⟨rest, htokens, rfl⟩ := eq_moveTo_of_next? hnext
  have hranged := h.tokens
  rw [htokens] at hranged
  cases hranged with
  | cons ht hrest => exact ⟨_, ⟨h.log, h.eof, hrest⟩, ht, ht⟩

theorem behind? {kind : TokenKind} {hlt : q.tokens.length < p.tokens.length} (h : p.Placed m a)
    (hbehind : p.behind? kind = some ⟨q, hlt⟩) : ∃ b, q.Placed m b ∧ q.last.Lies m a b := by
  obtain ⟨t, hnext, -⟩ := next?_of_behind? hbehind
  obtain ⟨b, hq, -, hlast⟩ := h.next? hnext
  exact ⟨b, hq, hlast⟩

theorem chainOp? {level : ChainLevel} {op : BinaryOp} {hlt : q.tokens.length < p.tokens.length} (h : p.Placed m a)
    (hop : p.chainOp? level = some (op, ⟨q, hlt⟩)) : ∃ b, q.Placed m b ∧ q.last.Lies m a b := by
  obtain ⟨t, hnext, -⟩ := next?_of_chainOp? hop
  obtain ⟨b, hq, -, hlast⟩ := h.next? hnext
  exact ⟨b, hq, hlast⟩

theorem semicolon (h : p.Placed m b) (hlast : p.last.Lies m a b) :
    ∃ c, b ≤ c ∧ p.semicolon.1.Placed m c ∧ p.semicolon.1.last.Lies m a c := by
  unfold Parser.semicolon
  split
  case h_1 q hlt hbehind =>
    obtain ⟨c, hq, hlast'⟩ := h.behind? hbehind
    exact ⟨c, hlast'.le, hq, hlast'.back hlast.le⟩
  case h_2 => exact ⟨b, Nat.le_refl _, h, hlast⟩

theorem peek (h : p.Placed m a) : p.peek.span.Lies m 0 m.size := by
  have hranged := h.tokens
  unfold Parser.peek
  cases htokens : p.tokens with
  | nil => exact h.eof
  | cons t rest =>
    rw [htokens] at hranged
    cases hranged with
    | cons ht hrest => exact ht.mono (Nat.zero_le _) hrest.le

theorem recover (h : p.Placed m a) (cause : ParseError) (inBlock : Bool) :
    ((p.note cause).recover inBlock).Placed m a := by
  refine ⟨?_, ?_, h.tokens.suffix (recover_suffix _ inBlock)⟩
  · rw [log_recover]
    exact h.log
  · rw [eof_recover]
    exact h.eof

end Parser.Placed

end

/-! ### Replies -/

namespace Reply

variable {α β : Type} {m : SourceMap} {a b c d k n : Nat} {p q : Parser} {s s' : Span} {post mid : α → Parser → Nat → Prop}

/-- The parser is placed where reading stops. Behind a phrase, something is known of the phrase and of the place there. -/
def Within (m : SourceMap) (a : Nat) (post : α → Parser → Nat → Prop) : Reply α n → Prop
  | ok value q _ => ∃ b, a ≤ b ∧ q.Placed m b ∧ post value q b
  | error _ q _ => q.Placed m a

namespace Within

theorem ok {value : α} {hlt : q.tokens.length < n} (hq : q.Placed m a) (hpost : post value q a) :
    Within m a post (.ok value q hlt) := ⟨a, Nat.le_refl _, hq, hpost⟩

theorem covered {value : α} {hlt : (q.cover s s').2.tokens.length < n} (hq : q.Placed m a) (hs : s.Lies m b a)
    (hs' : s'.Lies m c a) (hpost : post value (q.cover s s').2 a) : Within m a post (.ok value (q.cover s s').2 hlt) :=
  .ok (hq.cover hs hs') hpost

theorem behind {reply : Reply α n} (h : reply.Within m b post) (hle : a ≤ b) : reply.Within m a post := by
  cases reply with
  | ok value q _ =>
    obtain ⟨c, hbc, hq, hpost⟩ := h
    exact ⟨c, Nat.le_trans hle hbc, hq, hpost⟩
  | error cause q _ => exact Parser.Placed.mono h hle

theorem weaken {reply : Reply α k} {hle : k ≤ n} (h : reply.Within m a post) : (reply.weaken hle).Within m a post := by
  cases reply <;> exact h

theorem mono {post' : α → Parser → Nat → Prop} {reply : Reply α n} (h : reply.Within m a post)
    (hpost : ∀ value q b, post value q b → post' value q b) : reply.Within m a post' := by
  cases reply with
  | ok value q _ =>
    obtain ⟨b, hab, hq, hvalue⟩ := h
    exact ⟨b, hab, hq, hpost value q b hvalue⟩
  | error cause q _ => exact h

theorem andThen {post : β → Parser → Nat → Prop} {reply : Reply α k} {hle : k ≤ n}
    {next : α → (p : Parser) → p.tokens.length < k → Reply β n} (h : reply.Within m a mid)
    (hnext : ∀ value q hlt b, a ≤ b → q.Placed m b → mid value q b → (next value q hlt).Within m b post) :
    (reply.andThen hle next).Within m a post := by
  cases reply with
  | ok value q hlt =>
    obtain ⟨b, hab, hq, hvalue⟩ := h
    exact (hnext value q hlt b hab hq hvalue).behind hab
  | error cause q _ => exact h

end Within

end Reply

namespace Parser

variable {m : SourceMap}

theorem within_take {p : Parser} (kind : TokenKind) {a : Nat} (hp : p.Placed m a) :
    (p.take kind).Within m a fun t q b => t.span.Lies m a b ∧ q.last.Lies m a b := by
  unfold take
  split
  case h_1 t q h hnext =>
    obtain ⟨b, hq, ht, hlast⟩ := hp.next? hnext
    split
    case isTrue => exact ⟨b, ht.le, hq, ht, hlast⟩
    case isFalse => exact hp
  case h_2 => exact hp

theorem within_identifier {p : Parser} {a : Nat} (hp : p.Placed m a) : p.identifier.Within m a fun _ _ _ => True := by
  unfold identifier
  split
  case h_1 t q h hnext =>
    obtain ⟨b, hq, ht, -⟩ := hp.next? hnext
    split
    case isTrue => exact ⟨b, ht.le, hq, trivial⟩
    case isFalse => exact hp
  case h_2 => exact hp

theorem within_paramsRest (params : List Ident) (p : Parser) {a : Nat} (hp : p.Placed m a) :
    (paramsRest params p).Within m a fun _ _ _ => True := by
  rw [paramsRest]
  refine (within_identifier hp).andThen fun param p₁ h₁ b hab hp₁ _ => ?_
  split
  case h_1 p₂ h₂ hbehind =>
    obtain ⟨c, hp₂, hlast⟩ := hp₁.behind? hbehind
    exact ((within_paramsRest _ p₂ hp₂).behind hlast.le).weaken
  case h_2 => exact (within_take .rightParen hp₁).andThen fun _ p₃ h₃ c hbc hp₃ _ => .ok hp₃ trivial
termination_by p.tokens.length

theorem within_params {p : Parser} {a : Nat} (hp : p.Placed m a) : p.params.Within m a fun _ _ _ => True := by
  unfold params
  split
  case h_1 q h hbehind =>
    obtain ⟨b, hq, hlast⟩ := hp.behind? hbehind
    exact ⟨b, hlast.le, hq, trivial⟩
  case h_2 => exact within_paramsRest [] p hp

/-- A phrase that starts with one span and ends with another, which is that of its last token or ends with it. -/
theorem within_spanned {α : Type} {n a b c d : Nat} {start stop : Span} {q : Parser} {value : α} {span : α → Span}
    {hlt : (q.cover start stop).2.tokens.length < n} (hstart : start.Lies m a b) (hbc : b ≤ c) (hq : q.Placed m d)
    (hstop : stop.Lies m c d) (hlast : q.last.Lies m c d) (hspan : span value = start.cover stop) :
    (Reply.ok value (q.cover start stop).2 hlt).Within m d fun v q k => (span v).Lies m a k ∧ q.last.Lies m a k := by
  have hcover : (start.cover stop).Lies m a d := hstart.cover (hstop.back hbc)
  refine .covered hq (hstart.ahead (Nat.le_trans hbc hstop.le)) hstop ⟨hspan ▸ hcover, ?_⟩
  exact hlast.back (Nat.le_trans hstart.le hbc)

mutual

theorem within_expr (p : Parser) {a : Nat} (hp : p.Placed m a) :
    p.expr.Within m a fun e q b => e.span.Lies m a b ∧ q.last.Lies m a b := by
  rw [expr]
  exact within_chain .comparison p hp
termination_by 16 * p.tokens.length + 10
decreasing_by all_goals (simp only [chainRank]; omega)

theorem within_chain (level : ChainLevel) (p : Parser) {a : Nat} (hp : p.Placed m a) :
    (chain level p).Within m a fun e q b => e.span.Lies m a b ∧ q.last.Lies m a b := by
  rw [chain]
  refine (within_operand level p hp).andThen fun first p₁ h₁ b hab hp₁ ⟨hfirst, hlast⟩ => .weaken ?_
  exact within_chainRest level first [] p₁ hp₁ hfirst (Nat.le_refl _) hlast (absurd rfl)
termination_by 16 * p.tokens.length + chainRank level
decreasing_by all_goals (cases level <;> simp only [chainRank] <;> omega)

theorem within_operand (level : ChainLevel) (p : Parser) {a : Nat} (hp : p.Placed m a) :
    (operand level p).Within m a fun e q b => e.span.Lies m a b ∧ q.last.Lies m a b := by
  cases level with
  | comparison =>
    rw [operand]
    exact within_chain .addition p hp
  | addition =>
    rw [operand]
    exact within_chain .multiplication p hp
  | multiplication =>
    rw [operand]
    exact within_unary p hp
termination_by 16 * p.tokens.length + chainRank level - 1
decreasing_by all_goals (simp only [chainRank]; omega)

/-- The rest of a chain, whose first operand ends in front of the token read last, unless it is the only one. -/
theorem within_chainRest (level : ChainLevel) (first : Expr) (rest : List (BinaryOp × Expr)) (p : Parser)
    {a b c : Nat} (hp : p.Placed m c) (hfirst : first.span.Lies m a b) (hbc : b ≤ c) (hlast : p.last.Lies m a c)
    (hrest : rest ≠ [] → p.last.Lies m b c) :
    (chainRest level first rest p).Within m c fun e q d => e.span.Lies m a d ∧ q.last.Lies m a d := by
  rw [chainRest]
  split
  case h_1 op p₁ h₁ hop =>
    obtain ⟨c₁, hp₁, hop⟩ := hp.chainOp? hop
    refine .behind ((within_operand level p₁ hp₁).andThen fun e p₂ h₂ c₂ hle hp₂ ⟨he, hlast₂⟩ => .weaken ?_) hop.le
    have hbc₁ : b ≤ c₁ := Nat.le_trans hbc hop.le
    have hac₁ : a ≤ c₁ := Nat.le_trans hfirst.le hbc₁
    exact within_chainRest level first ((op, e) :: rest) p₂ hp₂ hfirst (Nat.le_trans hbc₁ hle)
      (hlast₂.back hac₁) fun _ => hlast₂.back hbc₁
  case h_2 =>
    split
    case isTrue => exact .ok hp ⟨hfirst.ahead hbc, hlast⟩
    case isFalse hempty =>
      have hlast' : p.last.Lies m b c := hrest fun hnil => hempty (List.isEmpty_iff.mpr hnil)
      exact .covered hp (hfirst.ahead hbc) hlast ⟨hfirst.cover hlast', hlast⟩
termination_by 16 * p.tokens.length
decreasing_by
  · cases level <;> simp only [chainRank] <;> omega
  · omega

theorem within_unary (p : Parser) {a : Nat} (hp : p.Placed m a) :
    p.unary.Within m a fun e q b => e.span.Lies m a b ∧ q.last.Lies m a b := by
  rw [unary]
  split
  case h_1 t p₁ h₁ hnext =>
    obtain ⟨b, hp₁, ht, -⟩ := hp.next? hnext
    split
    case h_1 op hop =>
      refine .behind ((within_unary p₁ hp₁).andThen fun e p₂ h₂ c hbc hp₂ ⟨he, hlast⟩ => ?_) ht.le
      exact .covered hp₂ (ht.ahead hbc) he ⟨ht.cover he, hlast.back ht.le⟩
    case h_2 =>
      refine (within_primary p hp).andThen fun e p₂ h₂ c hac hp₂ ⟨he, hlast⟩ => ?_
      exact .weaken (within_postfixed e p₂ hp₂ he hlast)
  case h_2 => exact hp
termination_by 16 * p.tokens.length + 2

theorem within_postfixed (e : Expr) (p : Parser) {a b : Nat} (hp : p.Placed m b) (he : e.span.Lies m a b)
    (hlast : p.last.Lies m a b) :
    (postfixed e p).Within m b fun v q c => v.span.Lies m a c ∧ q.last.Lies m a c := by
  rw [postfixed]
  split
  case h_1 p₁ h₁ hbehind =>
    obtain ⟨c, hp₁, hopen⟩ := hp.behind? hbehind
    refine .behind ((within_exprList .rightParen p₁ hp₁).andThen fun args p₂ h₂ d hcd hp₂ hclose => .weaken ?_) hopen.le
    have hclose' : p₂.last.Lies m b d := hclose.back hopen.le
    have hlast' : p₂.last.Lies m a d := hclose'.back he.le
    exact within_postfixed _ _ (hp₂.cover (he.ahead hclose'.le) hlast') (he.cover hclose') hlast'
  case h_2 =>
    split
    case h_1 p₁ h₁ hbehind =>
      obtain ⟨c, hp₁, hopen⟩ := hp.behind? hbehind
      refine .behind ((within_expr p₁ hp₁).andThen fun i p₂ h₂ d hcd hp₂ _ => ?_) hopen.le
      refine (within_take .rightBracket hp₂).andThen fun close p₃ h₃ d' hle hp₃ ⟨hclose, hlast₃⟩ => .weaken ?_
      have hbd : b ≤ d := Nat.le_trans hopen.le hcd
      have hclose' : close.span.Lies m b d' := hclose.back hbd
      have hlast' : p₃.last.Lies m a d' := hlast₃.back (Nat.le_trans he.le hbd)
      exact within_postfixed _ _ (hp₃.cover (he.ahead hclose'.le) hclose') (he.cover hclose') hlast'
    case h_2 => exact .ok hp ⟨he, hlast⟩
termination_by 16 * p.tokens.length
decreasing_by all_goals ((try simp only [tokens_cover]); omega)

theorem within_primary (p : Parser) {a : Nat} (hp : p.Placed m a) :
    p.primary.Within m a fun e q b => e.span.Lies m a b ∧ q.last.Lies m a b := by
  rw [primary]
  split
  case h_1 => exact hp
  case h_2 t p₁ h₁ hnext =>
    obtain ⟨b, hp₁, ht, hlast₁⟩ := hp.next? hnext
    split
    case h_1 =>
      unfold intLiteral
      cases Literal.int? t.lexeme with
      | none => exact hp₁.mono ht.le
      | some value => exact .behind (.ok hp₁ ⟨ht, hlast₁⟩) ht.le
    case h_2 =>
      unfold stringLiteral
      cases Literal.string t.lexeme with
      | error fault => exact hp₁.mono ht.le
      | ok value => exact .behind (.ok hp₁ ⟨ht, hlast₁⟩) ht.le
    case h_3 | h_4 | h_5 => exact .behind (.ok hp₁ ⟨ht, hlast₁⟩) ht.le
    case h_6 =>
      refine .behind ((within_expr _ hp₁).andThen fun e p₂ h₂ c hbc hp₂ _ => ?_) ht.le
      refine (within_take .rightParen hp₂).andThen fun close p₃ h₃ d hcd hp₃ ⟨hclose, hlast⟩ => ?_
      exact within_spanned ht hbc hp₃ hclose hlast rfl
    case h_7 =>
      refine .behind ((within_exprList .rightBracket _ hp₁).andThen fun elements p₂ h₂ c hbc hp₂ hlast => ?_) ht.le
      exact within_spanned ht (Nat.le_refl _) hp₂ hlast hlast rfl
    case h_8 =>
      refine .behind ((within_pairs _ hp₁).andThen fun entries p₂ h₂ c hbc hp₂ hlast => ?_) ht.le
      exact within_spanned ht (Nat.le_refl _) hp₂ hlast hlast rfl
    case h_9 =>
      refine .behind ((within_take .leftParen hp₁).andThen fun start p₂ h₂ c hbc hp₂ _ => ?_) ht.le
      refine (within_params hp₂).andThen fun ps p₃ h₃ d hcd hp₃ _ => ?_
      refine (within_block p₃ hp₃).andThen fun body p₄ h₄ e hde hp₄ ⟨hbody, hlast⟩ => ?_
      exact within_spanned ht (Nat.le_trans hbc hcd) hp₄ hbody hlast rfl
    case h_10 =>
      refine .behind ((within_take .leftParen hp₁).andThen fun start p₂ h₂ c hbc hp₂ _ => ?_) ht.le
      refine (within_expr p₂ hp₂).andThen fun condition p₃ h₃ d hcd hp₃ _ => ?_
      refine (within_take .rightParen hp₃).andThen fun stop p₄ h₄ e hde hp₄ _ => ?_
      refine (within_block p₄ hp₄).andThen fun thenBlock p₅ h₅ f hef hp₅ ⟨hthen, hlast⟩ => ?_
      have hbe : b ≤ e := Nat.le_trans (Nat.le_trans hbc hcd) hde
      split
      case h_1 p₆ h₆ hbehind =>
        obtain ⟨g, hp₆, hmiddle⟩ := hp₅.behind? hbehind
        refine .behind ((within_block p₆ hp₆).andThen fun elseBlock p₇ h₇ k hgk hp₇ ⟨helse, hlast'⟩ => ?_) hmiddle.le
        exact within_spanned ht (Nat.le_trans (Nat.le_trans hbe hef) hmiddle.le) hp₇ helse hlast' rfl
      case h_2 => exact within_spanned ht hbe hp₅ hthen hlast rfl
    case h_11 => exact hp
termination_by 16 * p.tokens.length + 1

theorem within_exprList (close : TokenKind) (p : Parser) {a : Nat} (hp : p.Placed m a) :
    (exprList close p).Within m a fun _ q b => q.last.Lies m a b := by
  rw [exprList]
  split
  case h_1 q h hbehind =>
    obtain ⟨b, hq, hlast⟩ := hp.behind? hbehind
    exact ⟨b, hlast.le, hq, hlast⟩
  case h_2 => exact within_exprListRest close [] p hp
termination_by 16 * p.tokens.length + 12
decreasing_by all_goals omega

theorem within_exprListRest (close : TokenKind) (items : List Expr) (p : Parser) {a : Nat} (hp : p.Placed m a) :
    (exprListRest close items p).Within m a fun _ q b => q.last.Lies m a b := by
  rw [exprListRest]
  refine (within_expr p hp).andThen fun item p₁ h₁ b hab hp₁ _ => ?_
  split
  case h_1 p₂ h₂ hbehind =>
    obtain ⟨c, hp₂, hcomma⟩ := hp₁.behind? hbehind
    refine .weaken (.behind ((within_exprListRest close (item :: items) p₂ hp₂).mono ?_) hcomma.le)
    exact fun _ _ _ hlast => hlast.back (Nat.le_trans hab hcomma.le)
  case h_2 =>
    refine (within_take close hp₁).andThen fun stop p₃ h₃ c hbc hp₃ ⟨_, hlast⟩ => ?_
    exact .ok hp₃ (hlast.back hab)
termination_by 16 * p.tokens.length + 11
decreasing_by all_goals omega

theorem within_pairs (p : Parser) {a : Nat} (hp : p.Placed m a) : p.pairs.Within m a fun _ q b => q.last.Lies m a b := by
  rw [pairs]
  split
  case h_1 q h hbehind =>
    obtain ⟨b, hq, hlast⟩ := hp.behind? hbehind
    exact ⟨b, hlast.le, hq, hlast⟩
  case h_2 => exact within_pairsRest [] p hp
termination_by 16 * p.tokens.length + 12
decreasing_by all_goals omega

theorem within_pairsRest (entries : List (Expr × Expr)) (p : Parser) {a : Nat} (hp : p.Placed m a) :
    (pairsRest entries p).Within m a fun _ q b => q.last.Lies m a b := by
  rw [pairsRest]
  refine (within_expr p hp).andThen fun key p₁ h₁ b hab hp₁ _ => ?_
  refine (within_take .colon hp₁).andThen fun colon p₂ h₂ c hbc hp₂ _ => ?_
  refine (within_expr p₂ hp₂).andThen fun value p₃ h₃ d hcd hp₃ _ => ?_
  have had : a ≤ d := Nat.le_trans (Nat.le_trans hab hbc) hcd
  split
  case h_1 p₄ h₄ hbehind =>
    obtain ⟨e, hp₄, hcomma⟩ := hp₃.behind? hbehind
    refine .weaken (.behind ((within_pairsRest ((key, value) :: entries) p₄ hp₄).mono ?_) hcomma.le)
    exact fun _ _ _ hlast => hlast.back (Nat.le_trans had hcomma.le)
  case h_2 =>
    refine (within_take .rightBrace hp₃).andThen fun stop p₅ h₅ e hde hp₅ ⟨_, hlast⟩ => ?_
    exact .ok hp₅ (hlast.back had)
termination_by 16 * p.tokens.length + 11
decreasing_by all_goals omega

theorem within_block (p : Parser) {a : Nat} (hp : p.Placed m a) :
    p.block.Within m a fun b q c => b.span.Lies m a c ∧ q.last.Lies m a c := by
  rw [block]
  refine (within_take .leftBrace hp).andThen fun start p₁ h₁ b hab hp₁ ⟨hstart, _⟩ => .weaken ?_
  exact within_blockRest start.span [] p₁ hp₁ hstart
termination_by 16 * p.tokens.length
decreasing_by all_goals omega

/-- The rest of a block, behind its opening brace. -/
theorem within_blockRest (start : Span) (stmts : List Stmt) (p : Parser) {a b : Nat} (hp : p.Placed m b)
    (hstart : start.Lies m a b) :
    (blockRest start stmts p).Within m b fun block q c => block.span.Lies m a c ∧ q.last.Lies m a c := by
  have hstatement := within_statement p hp
  rw [blockRest]
  split
  case h_1 => exact hp
  case h_2 t q h hnext =>
    split
    case isTrue =>
      obtain ⟨c, hq, ht, hlast⟩ := hp.next? hnext
      exact .behind (within_spanned hstart (Nat.le_refl _) hq ht hlast rfl) ht.le
    case isFalse =>
      split
      case h_1 stmt p₁ h₁ hreply =>
        rw [hreply] at hstatement
        obtain ⟨c, hbc, hp₁, -⟩ := hstatement
        refine .weaken (.behind ?_ hbc)
        exact within_blockRest start (stmt :: stmts) p₁ hp₁ (hstart.ahead hbc)
      case h_2 cause p₁ h₁ hreply =>
        rw [hreply] at hstatement
        have hlt : ((p₁.note cause).recover true).tokens.length < p.tokens.length :=
          length_recover_lt _ _ h₁ (Nat.zero_lt_of_lt h)
        exact .weaken (within_blockRest start stmts _ (Placed.recover hstatement cause true) hstart)
termination_by 16 * p.tokens.length + 14

theorem within_statement (p : Parser) {a : Nat} (hp : p.Placed m a) : p.statement.Within m a fun _ _ _ => True := by
  rw [statement]
  split
  case h_1 => exact hp
  case h_2 t p₁ h₁ hnext =>
    obtain ⟨b, hp₁, ht, -⟩ := hp.next? hnext
    split
    case h_1 =>
      refine .behind ((within_identifier hp₁).andThen fun name p₂ h₂ c hbc hp₂ _ => ?_) ht.le
      refine (within_take .equal hp₂).andThen fun equal p₃ h₃ d hcd hp₃ _ => ?_
      refine (within_expr p₃ hp₃).andThen fun value p₄ h₄ e hde hp₄ ⟨_, hlast⟩ => ?_
      obtain ⟨f, hef, hp₅, hlast'⟩ := hp₄.semicolon hlast
      refine .behind (.covered hp₅ (ht.ahead ?_) hlast' trivial) hef
      omega
    case h_2 =>
      refine .behind ((within_expr _ hp₁).andThen fun value p₂ h₂ c hbc hp₂ ⟨_, hlast⟩ => ?_) ht.le
      obtain ⟨d, hcd, hp₃, hlast'⟩ := hp₂.semicolon hlast
      exact .behind (.covered hp₃ (ht.ahead (Nat.le_trans hbc hcd)) hlast' trivial) hcd
    case h_3 =>
      refine (within_expr _ hp).andThen fun e p₂ h₂ c hac hp₂ ⟨he, hlast⟩ => ?_
      obtain ⟨d, hcd, hp₃, hlast'⟩ := hp₂.semicolon hlast
      exact .behind (.covered hp₃ (he.ahead hcd) hlast' trivial) hcd
termination_by 16 * p.tokens.length + 13

end

theorem placed_programRest (stmts : List Stmt) (p : Parser) {a : Nat} (hp : p.Placed m a) :
    (programRest stmts p).2.Placed m a := by
  have hstatement := within_statement p hp
  rw [programRest]
  split
  case h_1 => exact hp
  case h_2 t q h hnext =>
    split
    case h_1 stmt p₁ h₁ hreply =>
      rw [hreply] at hstatement
      obtain ⟨b, hab, hp₁, -⟩ := hstatement
      exact (placed_programRest (stmt :: stmts) p₁ hp₁).mono hab
    case h_2 cause p₁ h₁ hreply =>
      rw [hreply] at hstatement
      have hlt : ((p₁.note cause).recover false).tokens.length < p.tokens.length :=
        length_recover_lt _ _ h₁ (Nat.zero_lt_of_lt h)
      exact placed_programRest stmts _ (Placed.recover hstatement cause false)
termination_by p.tokens.length

theorem placed_ofSource {source : String} (hsize : source.utf8ByteSize < 2147483648) :
    (ofSource source).Placed (.ofSource source hsize) 0 := by
  have hbytes := byteSize_toList source
  have hstart : Position.start = Position.start.afterAll [] := rfl
  have hlines (line : Nat) : (SourceMap.ofSource source hsize).lineStart line =
      lineStart (source.toList ++ [] ++ []) (line - 1) := by
    rw [List.append_nil, List.append_nil]
    rfl
  have hend := Lexeme.lies_of_afterAll hlines
  have hscans : Lexeme.Scans source.toList .start (Lexeme.scan source).1 (Lexeme.scan source).2 :=
    Lexeme.scan_eq_iff.mp rfl
  obtain ⟨hranged, hstop⟩ := hscans.ranged (m := .ofSource source hsize) hstart hbytes.symm fun _ => rfl
  refine ⟨⟨rfl, List.forall_mem_nil _⟩, ?_, hranged⟩
  rw [List.append_nil, hbytes] at hend
  change Span.Lies _ 0 _ (Token.eofAt (Lexeme.scan source).2.line (Lexeme.scan source).2.column).span
  rw [hstop]
  exact hend.back (Nat.zero_le _)

/-- Whatever is covered while a source is read as a program lies in the source. -/
theorem log_program_lies {source : String} (hsize : source.utf8ByteSize < 2147483648) :
    (ofSource source).program.2.log.Lies (.ofSource source hsize) := by
  have hrest := placed_programRest [] _ (placed_ofSource hsize)
  have hstart := (placed_ofSource hsize).peek
  exact ⟨hrest.log.size, List.forall_mem_cons.mpr ⟨⟨hstart, hrest.peek⟩, hrest.log.pairs⟩⟩

end Parser

/-- The positions that are formed while a source is read fit 32 bits, with or without errors in it. -/
theorem Program.read_fits {source : String} (hsize : source.utf8ByteSize < 2147483648) : (Program.read source).fits :=
  (Parser.log_program_lies hsize).fits

end MonkeyLang
