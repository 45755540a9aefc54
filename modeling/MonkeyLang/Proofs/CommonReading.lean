import MonkeyLang.Proofs.ReadingLaws
/-!
# Parsers with tokens in common

Two parsers are compared that have some tokens in common before they come to different ones, or to the same end. A `Fork` is where
they part. `Alike f p q` says that `p` and `q` have the same tokens to read before that, and have noted the same errors since;
and that the last of these tokens is a `;` or a `}` with no `{` in front of it, unless both come to the same end. The grammar
takes a `}` only behind a `{`, and a `;` only at the end of a statement. So no expression reads past the fork, and both parsers
give the same replies.
-/

namespace MonkeyLang

namespace Parser

/-- A parser with only the last of its tokens left. -/
abbrev leaving (p : Parser) (rest : List Token) (h : rest <:+ p.tokens) : Parser :=
  { p with tokens := rest, ended := ⟨p.ended.1, fun t ht => p.ended.2 t (h.subset ht)⟩ }

/-- The parser `p` has the tokens `front` to read before it comes to where `l` stands, and has noted some errors since. -/
structure InFront (front : List Token) (noted : List ParseError) (l p : Parser) : Prop where
  tokens : p.tokens = front ++ l.tokens
  eof : p.eof = l.eof
  errors : p.errors.toList = l.errors.toList ++ noted

/-- A `;` or a `}` with no `{` in front of it. -/
def Fenced (fence : Token) (front : List Token) : Prop :=
  (fence.kind = .semicolon ∨ fence.kind = .rightBrace) ∧ ∃ body, front = body ++ [fence] ∧ ∀ t ∈ body, t.kind ≠ .leftBrace

/-- Where two parsers part. -/
structure Fork where
  left : Parser
  right : Parser
  /-- The last token in common, unless both parsers come to the same end. -/
  fence : Option Token

namespace Fork

/-- The tokens in common are fenced off from the others, or there are no others. -/
def Parts (f : Fork) (front : List Token) : Prop :=
  match f.fence with
  | none => f.left.tokens = [] ∧ f.right.tokens = [] ∧ f.left.eof = f.right.eof
  | some fence => Fenced fence front

/-- A token of some kind can be taken without passing the fork. -/
def Takes (f : Fork) (kind : TokenKind) : Prop := f.fence = none ∨ kind ≠ .semicolon ∧ kind ≠ .rightBrace

end Fork

/-- Two parsers come to a fork along the same tokens, of which something is known, with the same errors noted. -/
def Join (f : Fork) (ahead : List Token → Prop) (p q : Parser) : Prop :=
  ∃ front noted, InFront front noted f.left p ∧ InFront front noted f.right q ∧ ahead front

/-- Two parsers have the same tokens in front of them. -/
def Alike (f : Fork) (p q : Parser) : Prop := Join f f.Parts p q

/-- Alike, behind a token that both have read. -/
def Abreast (f : Fork) (p q : Parser) : Prop := Alike f p q ∧ p.last = q.last

/-- Alike, or right behind a `;` at the fork. -/
def Passed (f : Fork) (p q : Parser) : Prop :=
  Join f (fun front => f.Parts front ∨ front = [] ∧ ∃ fence ∈ f.fence, fence.kind = .semicolon) p q

section

variable {f : Fork} {l p q : Parser} {front : List Token} {noted : List ParseError} {t fence : Token}

theorem InFront.moveTo {rest : List Token} (h : InFront (t :: front) noted l p) (htokens : p.tokens = t :: rest) :
    InFront front noted l (p.moveTo htokens) :=
  ⟨List.tail_eq_of_cons_eq (htokens.symm.trans h.tokens), h.eof, h.errors⟩

theorem Fenced.tail (h : Fenced fence (t :: front)) :
    front = [] ∧ t = fence ∧ (t.kind = .semicolon ∨ t.kind = .rightBrace) ∨ Fenced fence front ∧ t.kind ≠ .leftBrace := by
  obtain ⟨hkind, body, hfront, hbody⟩ := h
  cases body with
  | nil =>
    obtain ⟨rfl, rfl⟩ : t = fence ∧ front = [] := by simpa using hfront
    exact .inl ⟨rfl, rfl, hkind⟩
  | cons u body =>
    obtain ⟨rfl, rfl⟩ : t = u ∧ front = body ++ [fence] := by simpa using hfront
    rw [List.forall_mem_cons] at hbody
    exact .inr ⟨⟨hkind, body, rfl, hbody.2⟩, hbody.1⟩

theorem Fork.parts_of_none (hfence : f.fence = none) :
    f.Parts front ↔ f.left.tokens = [] ∧ f.right.tokens = [] ∧ f.left.eof = f.right.eof := by
  rw [Parts, hfence]

theorem Fork.parts_of_some (hfence : f.fence = some fence) : f.Parts front ↔ Fenced fence front := by
  rw [Parts, hfence]

/-- What two parsers that are alike can find: the same end, or the same token. Behind it they are alike again, or have passed
a `;` at the fork. -/
theorem Alike.next (h : Alike f p q) :
    (p.next? = none ∧ q.next? = none ∧ p.eof = q.eof) ∨
    ∃ t p' hlt q' hlt', p.next? = some (t, ⟨p', hlt⟩) ∧ q.next? = some (t, ⟨q', hlt'⟩) ∧ p'.last = q'.last ∧
      (t.kind = .semicolon → Passed f p' q') ∧ (f.Takes t.kind → Abreast f p' q') ∧
      (t.kind = .leftBrace → f.fence = none) := by
  obtain ⟨front, noted, hp, hq, hparts⟩ := h
  cases front with
  | nil =>
    cases hfence : f.fence with
    | none =>
      obtain ⟨hleft, hright, heof⟩ := (f.parts_of_none hfence).mp hparts
      refine .inl ⟨next?_of_nil ?_, next?_of_nil ?_, ?_⟩
      · rw [hp.tokens, hleft, List.append_nil]
      · rw [hq.tokens, hright, List.append_nil]
      · rw [hp.eof, hq.eof, heof]
    | some fence =>
      obtain ⟨-, body, hfront, -⟩ := (f.parts_of_some hfence).mp hparts
      simp at hfront
  | cons t front =>
    have hp' : p.tokens = t :: (front ++ f.left.tokens) := hp.tokens
    have hq' : q.tokens = t :: (front ++ f.right.tokens) := hq.tokens
    refine .inr ⟨t, _, _, _, _, next?_of_cons hp', next?_of_cons hq', rfl, ?_⟩
    have hmoved := hp.moveTo hp'
    have hmoved' := hq.moveTo hq'
    cases hfence : f.fence with
    | none =>
      have hparts' : f.Parts front := (f.parts_of_none hfence).mpr ((f.parts_of_none hfence).mp hparts)
      exact ⟨fun _ => ⟨front, noted, hmoved, hmoved', .inl hparts'⟩,
        fun _ => ⟨⟨front, noted, hmoved, hmoved', hparts'⟩, rfl⟩, fun _ => rfl⟩
    | some fence =>
      rcases ((f.parts_of_some hfence).mp hparts).tail with ⟨rfl, rfl, hkind⟩ | ⟨hrest, hopen⟩
      · refine ⟨fun hsemi => ⟨[], noted, hmoved, hmoved', .inr ⟨rfl, t, hfence, hsemi⟩⟩, fun htakes => ?_, fun hopen => ?_⟩
        · rcases htakes with hnone | ⟨hsemi, hbrace⟩
          · cases hfence.symm.trans hnone
          · exact absurd hkind (not_or.mpr ⟨hsemi, hbrace⟩)
        · rw [hopen] at hkind
          exact absurd hkind (by decide)
      · have hparts' : f.Parts front := (f.parts_of_some hfence).mpr hrest
        exact ⟨fun _ => ⟨front, noted, hmoved, hmoved', .inl hparts'⟩,
          fun _ => ⟨⟨front, noted, hmoved, hmoved', hparts'⟩, rfl⟩, fun hkind => absurd hkind hopen⟩

theorem Join.cover {ahead : List Token → Prop} (h : Join f ahead p q) (a b c d : Span) :
    Join f ahead (p.cover a b).2 (q.cover c d).2 := by
  obtain ⟨front, noted, hp, hq, hahead⟩ := h
  exact ⟨front, noted, ⟨hp.tokens, hp.eof, hp.errors⟩, ⟨hq.tokens, hq.eof, hq.errors⟩, hahead⟩

theorem Abreast.cover (h : Abreast f p q) (a b c d : Span) : Abreast f (p.cover a b).2 (q.cover c d).2 :=
  ⟨Join.cover h.1 a b c d, h.2⟩

theorem Passed.cover (h : Passed f p q) (a b c d : Span) : Passed f (p.cover a b).2 (q.cover c d).2 :=
  Join.cover h a b c d

theorem Alike.passed (h : Alike f p q) : Passed f p q := by
  obtain ⟨front, noted, hp, hq, hparts⟩ := h
  exact ⟨front, noted, hp, hq, .inl hparts⟩

theorem Passed.alike (h : Passed f p q) (hend : f.fence = none) : Alike f p q := by
  obtain ⟨front, noted, hp, hq, hparts | ⟨-, fence, hfence, -⟩⟩ := h
  · exact ⟨front, noted, hp, hq, hparts⟩
  · cases hend.symm.trans hfence

end

/-! ### Dropping statements -/

/-- What is left of tokens behind the statement at their front, by their kinds alone. -/
def leftover (inBlock started : Bool) : List Token → List Token
  | [] => []
  | t :: rest =>
    match t.kind with
    | .semicolon => rest
    | .rightBrace => if inBlock then if started then t :: rest else leftover inBlock true rest else rest
    | .kwLet | .kwReturn => if started then t :: rest else leftover inBlock true rest
    | _ => leftover inBlock true rest

theorem tokens_dropStatement {start : Nat} (inBlock : Bool) (p : Parser) (hstart : start ≤ p.position) :
    (dropStatement inBlock start p).tokens = leftover inBlock (decide (start < p.position)) p.tokens := by
  have hmoved {q : Parser} {t : Token} {rest : List Token} (h : q.tokens = t :: rest) (hle : start ≤ q.position) :
      decide (start < (q.moveTo h).position) = true := decide_eq_true (Nat.lt_succ_of_le hle)
  fun_induction dropStatement inBlock start p with
  | case1 p hnil => simp [hnil, leftover]
  | case2 p t rest h hkind => simp [h, leftover, hkind]
  | case3 p t rest h hkind hblock hlt => simp [h, leftover, hkind, hblock, hlt]
  | case4 p t rest h hkind hblock hlt ih =>
    subst hblock
    simp [ih (Nat.le_succ_of_le hstart), hmoved, hstart, h, leftover, hkind, hlt]
  | case5 p t rest h hkind hblock => simp [h, leftover, hkind, hblock]
  | case6 p t rest h hkind hlt | case8 p t rest h hkind hlt => simp [h, leftover, hkind, hlt]
  | case7 p t rest h hkind hlt ih | case9 p t rest h hkind hlt ih =>
    simp [ih (Nat.le_succ_of_le hstart), hmoved, hstart, h, leftover, hkind, hlt]
  | case10 p t rest h _ _ _ _ ih =>
    rw [ih (Nat.le_succ_of_le hstart), hmoved h hstart, h, leftover]
    split <;> first | contradiction | rfl

/-- Recovery goes by the kinds of the tokens. -/
theorem tokens_recover (p : Parser) (inBlock : Bool) : (p.recover inBlock).tokens = leftover inBlock false p.tokens := by
  rw [recover, tokens_dropStatement inBlock p (Nat.le_refl _), decide_eq_false (Nat.lt_irrefl _)]

/-- What becomes of a token is the same whatever comes behind it: dropping stops in front of it, or behind it, or goes on. -/
theorem leftover_cons (inBlock started : Bool) (t : Token) :
    (∀ rest, leftover inBlock started (t :: rest) = t :: rest) ∨ (∀ rest, leftover inBlock started (t :: rest) = rest) ∨
    ∀ rest, leftover inBlock started (t :: rest) = leftover inBlock true rest := by
  by_cases hsemi : t.kind = .semicolon
  · exact .inr (.inl fun rest => by simp [leftover, hsemi])
  by_cases hbrace : t.kind = .rightBrace
  · cases inBlock with
    | false => exact .inr (.inl fun rest => by simp [leftover, hbrace])
    | true =>
      cases started with
      | true => exact .inl fun rest => by simp [leftover, hbrace]
      | false => exact .inr (.inr fun rest => by simp [leftover, hbrace])
  by_cases hword : t.kind = .kwLet ∨ t.kind = .kwReturn
  · cases started with
    | true => exact .inl fun rest => by rcases hword with hword | hword <;> simp [leftover, hword]
    | false => exact .inr (.inr fun rest => by rcases hword with hword | hword <;> simp [leftover, hword])
  · refine .inr (.inr fun rest => ?_)
    obtain ⟨hlet, hreturn⟩ := not_or.mp hword
    rw [leftover]
    split <;> first | contradiction | rfl

theorem InFront.recover {l p : Parser} {front front' : List Token} {noted : List ParseError} (h : InFront front noted l p)
    (cause : ParseError) (inBlock : Bool) (hdrop : leftover inBlock false (front ++ l.tokens) = front' ++ l.tokens) :
    InFront front' (noted ++ [cause]) l ((p.note cause).recover inBlock) := by
  refine ⟨?_, (eof_recover _ inBlock).trans h.eof, ?_⟩
  · rw [tokens_recover, tokens_note, h.tokens, hdrop]
  · rw [errors_recover, note, Array.toList_push, h.errors, List.append_assoc]

/-- On the way to the same end, two parsers drop the same tokens. -/
theorem Alike.recover_of_none {f : Fork} {p q : Parser} (h : Alike f p q) (hfence : f.fence = none) (cause : ParseError)
    (inBlock : Bool) : Alike f ((p.note cause).recover inBlock) ((q.note cause).recover inBlock) := by
  obtain ⟨front, noted, hp, hq, hparts⟩ := h
  have hend := (f.parts_of_none hfence).mp hparts
  refine ⟨leftover inBlock false front, noted ++ [cause], ?_, ?_, (f.parts_of_none hfence).mpr hend⟩
  · apply hp.recover
    rw [hend.1, List.append_nil, List.append_nil]
  · apply hq.recover
    rw [hend.2.1, List.append_nil, List.append_nil]

end Parser

/-! ### Replies -/

namespace Reply

variable {α β : Type} {k m n o : Nat} {post fail : Parser → Parser → Prop}

/-- Two replies with the same value or the same error, and with related parsers. -/
def Agrees (post fail : Parser → Parser → Prop) : Reply α m → Reply α n → Prop
  | ok value p _, ok value' q _ => value = value' ∧ post p q
  | error cause p _, error cause' q _ => cause = cause' ∧ fail p q
  | _, _ => False

theorem Agrees.weaken {reply : Reply α k} {reply' : Reply α m} {hle : k ≤ n} {hle' : m ≤ o}
    (h : reply.Agrees post fail reply') : (reply.weaken hle).Agrees post fail (reply'.weaken hle') := by
  cases reply <;> cases reply' <;> exact h

theorem Agrees.cases {reply : Reply α m} {reply' : Reply α n} (h : reply.Agrees post fail reply') :
    (∃ value p hlt q hlt', reply = .ok value p hlt ∧ reply' = .ok value q hlt' ∧ post p q) ∨
    ∃ cause p hle q hle', reply = .error cause p hle ∧ reply' = .error cause q hle' ∧ fail p q := by
  cases reply with
  | ok value p hlt =>
    cases reply' with
    | ok value' q hlt' =>
      obtain ⟨rfl, hpost⟩ := h
      exact .inl ⟨value, p, hlt, q, hlt', rfl, rfl, hpost⟩
    | error cause' q hle' => exact h.elim
  | error cause p hle =>
    cases reply' with
    | ok value' q hlt' => exact h.elim
    | error cause' q hle' =>
      obtain ⟨rfl, hfail⟩ := h
      exact .inr ⟨cause, p, hle, q, hle', rfl, rfl, hfail⟩

theorem Agrees.parser {reply : Reply α m} {reply' : Reply α n} (h : reply.Agrees post fail reply')
    (hfail : ∀ {p q}, fail p q → post p q) : post reply.parser reply'.parser := by
  rcases h.cases with ⟨value, p, _, q, _, rfl, rfl, hpost⟩ | ⟨cause, p, _, q, _, rfl, rfl, hfailed⟩
  · exact hpost
  · exact hfail hfailed

theorem Agrees.andThen {post' : Parser → Parser → Prop} {reply : Reply α k} {reply' : Reply α m} {hle : k ≤ n} {hle' : m ≤ o}
    {next : α → (p : Parser) → p.tokens.length < k → Reply β n} {next' : α → (p : Parser) → p.tokens.length < m → Reply β o}
    (h : reply.Agrees post fail reply')
    (hnext : ∀ value p hlt q hlt', post p q → (next value p hlt).Agrees post' fail (next' value q hlt')) :
    (reply.andThen hle next).Agrees post' fail (reply'.andThen hle' next') := by
  rcases h.cases with ⟨value, p, hlt, q, hlt', rfl, rfl, hpost⟩ | ⟨cause, p, _, q, _, rfl, rfl, hfail⟩
  · exact hnext value p hlt q hlt' hpost
  · exact ⟨rfl, hfail⟩

end Reply

namespace Parser

variable {f : Fork} {p q : Parser}

/-! ### Single tokens -/

theorem Alike.behind? (h : Alike f p q) (kind : TokenKind) (hkind : f.Takes kind) :
    (p.behind? kind = none ∧ q.behind? kind = none) ∨
    ∃ p' hlt q' hlt', p.behind? kind = some ⟨p', hlt⟩ ∧ q.behind? kind = some ⟨q', hlt'⟩ ∧ Abreast f p' q' := by
  rcases h.next with ⟨hp, hq, -⟩ | ⟨t, p', hlt, q', hlt', hp, hq, -, -, hmove, -⟩
  · refine .inl ⟨?_, ?_⟩ <;> simp only [Parser.behind?, hp, hq]
  · by_cases ht : t.kind = kind
    · refine .inr ⟨p', hlt, q', hlt', ?_, ?_, hmove (ht ▸ hkind)⟩
      · simp only [Parser.behind?, hp, if_pos ht]
      · simp only [Parser.behind?, hq, if_pos ht]
    · refine .inl ⟨?_, ?_⟩ <;> simp only [Parser.behind?, hp, hq, if_neg ht]

theorem Alike.chainOp? (h : Alike f p q) (level : ChainLevel) :
    (p.chainOp? level = none ∧ q.chainOp? level = none) ∨
    ∃ op p' hlt q' hlt', p.chainOp? level = some (op, ⟨p', hlt⟩) ∧ q.chainOp? level = some (op, ⟨q', hlt'⟩) ∧
      Abreast f p' q' := by
  rcases h.next with ⟨hp, hq, -⟩ | ⟨t, p', hlt, q', hlt', hp, hq, -, -, hmove, -⟩
  · refine .inl ⟨?_, ?_⟩ <;> simp only [Parser.chainOp?, hp, hq]
  · cases hop : BinaryOp.ofTokenKind? t.kind with
    | none => refine .inl ⟨?_, ?_⟩ <;> simp only [Parser.chainOp?, hp, hq, hop]
    | some op =>
      by_cases hlevel : op.level = level
      · have hkind : f.Takes t.kind := by
          rw [← BinaryOp.ofTokenKind?_eq_some_iff.mp hop]
          exact .inr (by cases op <;> decide)
        refine .inr ⟨op, p', hlt, q', hlt', ?_, ?_, hmove hkind⟩
        · simp only [Parser.chainOp?, hp, hop, if_pos hlevel]
        · simp only [Parser.chainOp?, hq, hop, if_pos hlevel]
      · refine .inl ⟨?_, ?_⟩ <;> simp only [Parser.chainOp?, hp, hq, hop, if_neg hlevel]

theorem Abreast.semicolon (h : Abreast f p q) :
    Passed f p.semicolon.1 q.semicolon.1 ∧ p.semicolon.1.last = q.semicolon.1.last := by
  obtain ⟨halike, hlast⟩ := h
  rcases halike.next with ⟨hp, hq, -⟩ | ⟨t, p', _, q', _, hp, hq, hlast', hmove, -⟩ <;>
    simp only [Parser.semicolon, Parser.behind?, hp, hq]
  · exact ⟨halike.passed, hlast⟩
  · by_cases ht : t.kind = .semicolon
    · simp only [if_pos ht]
      exact ⟨hmove ht, hlast'⟩
    · simp only [if_neg ht]
      exact ⟨halike.passed, hlast⟩

theorem peek_of_next? {t : Token} {hlt : q.tokens.length < p.tokens.length} (h : p.next? = some (t, ⟨q, hlt⟩)) :
    p.peek = t := by
  obtain ⟨rest, htokens, -⟩ := eq_moveTo_of_next? h
  rw [peek, htokens, List.headD_cons]

theorem peek_of_next?_eq_none (h : p.next? = none) : p.peek = p.eof := by
  rw [peek, tokens_of_next?_eq_none h, List.headD_nil]

theorem Alike.unexpected (h : Alike f p q) (kind : TokenKind) : p.unexpected kind = q.unexpected kind := by
  have hpeek : p.peek = q.peek := by
    rcases h.next with ⟨hp, hq, heof⟩ | ⟨t, p', _, q', _, hp, hq, -⟩
    · rw [peek_of_next?_eq_none hp, peek_of_next?_eq_none hq, heof]
    · rw [peek_of_next? hp, peek_of_next? hq]
  rw [Parser.unexpected, Parser.unexpected, hpeek]

theorem Alike.take (h : Alike f p q) (kind : TokenKind) (hkind : f.Takes kind) :
    (p.take kind).Agrees (Abreast f) (Alike f) (q.take kind) := by
  have hcause := h.unexpected kind
  rcases h.next with ⟨hp, hq, -⟩ | ⟨t, p', _, q', _, hp, hq, -, -, hmove, -⟩ <;> simp only [Parser.take, hp, hq]
  · exact ⟨hcause, h⟩
  · by_cases ht : t.kind = kind
    · simp only [if_pos ht]
      exact ⟨rfl, hmove (ht ▸ hkind)⟩
    · simp only [if_neg ht]
      exact ⟨hcause, h⟩

theorem Alike.identifier (h : Alike f p q) : p.identifier.Agrees (Abreast f) (Alike f) q.identifier := by
  rcases h.next with ⟨hp, hq, heof⟩ | ⟨t, p', _, q', _, hp, hq, -, -, hmove, -⟩ <;> simp only [Parser.identifier, hp, hq]
  · exact ⟨by rw [heof], h⟩
  · by_cases ht : t.kind = .identifier
    · simp only [if_pos ht]
      exact ⟨rfl, hmove (.inr (by simp [ht]))⟩
    · simp only [if_neg ht]
      exact ⟨rfl, h⟩

theorem alike_paramsRest (names : List Ident) (p q : Parser) (h : Alike f p q) :
    (paramsRest names p).Agrees (Abreast f) (Alike f) (paramsRest names q) := by
  rw [paramsRest, paramsRest]
  refine h.identifier.andThen fun param p₁ h₁ q₁ g₁ h' => ?_
  rcases h'.1.behind? .comma (.inr (by decide)) with ⟨hp, hq⟩ | ⟨p₂, h₂, q₂, g₂, hp, hq, h', -⟩ <;> simp only [hp, hq]
  · refine (h'.1.take .rightParen (.inr (by decide))).andThen fun _ p₃ h₃ q₃ g₃ h' => ?_
    exact ⟨rfl, h'⟩
  · exact .weaken (alike_paramsRest (param :: names) p₂ q₂ h')
termination_by p.tokens.length

theorem Alike.params (h : Alike f p q) : p.params.Agrees (Abreast f) (Alike f) q.params := by
  unfold Parser.params
  rcases h.behind? .rightParen (.inr (by decide)) with ⟨hp, hq⟩ | ⟨p₁, h₁, q₁, g₁, hp, hq, h'⟩ <;> simp only [hp, hq]
  · exact alike_paramsRest [] p q h
  · exact ⟨rfl, h'⟩

/-! ### Phrases -/

mutual

theorem alike_expr (p q : Parser) (h : Alike f p q) : p.expr.Agrees (Abreast f) (Alike f) q.expr := by
  rw [expr, expr]
  exact alike_chain .comparison p q h
termination_by 16 * p.tokens.length + 10
decreasing_by all_goals (simp only [chainRank]; omega)

theorem alike_chain (level : ChainLevel) (p q : Parser) (h : Alike f p q) :
    (chain level p).Agrees (Abreast f) (Alike f) (chain level q) := by
  rw [chain, chain]
  refine (alike_operand level p q h).andThen fun first p₁ h₁ q₁ g₁ h' => ?_
  exact .weaken (alike_chainRest level first [] p₁ q₁ h')
termination_by 16 * p.tokens.length + chainRank level
decreasing_by all_goals (cases level <;> simp only [chainRank] <;> omega)

theorem alike_operand (level : ChainLevel) (p q : Parser) (h : Alike f p q) :
    (operand level p).Agrees (Abreast f) (Alike f) (operand level q) := by
  cases level with
  | comparison =>
    rw [operand, operand]
    exact alike_chain .addition p q h
  | addition =>
    rw [operand, operand]
    exact alike_chain .multiplication p q h
  | multiplication =>
    rw [operand, operand]
    exact alike_unary p q h
termination_by 16 * p.tokens.length + chainRank level - 1
decreasing_by all_goals (simp only [chainRank]; omega)

theorem alike_chainRest (level : ChainLevel) (first : Expr) (rest : List (BinaryOp × Expr)) (p q : Parser)
    (h : Abreast f p q) :
    (chainRest level first rest p).Agrees (Abreast f) (Alike f) (chainRest level first rest q) := by
  rw [chainRest, chainRest]
  rcases h.1.chainOp? level with ⟨hp, hq⟩ | ⟨op, p₁, h₁, q₁, g₁, hp, hq, h', -⟩ <;> simp only [hp, hq]
  · split
    case isTrue => exact ⟨rfl, h⟩
    case isFalse => exact ⟨by rw [h.2]; rfl, h.cover _ _ _ _⟩
  · refine (alike_operand level p₁ q₁ h').andThen fun e p₂ h₂ q₂ g₂ h' => ?_
    exact .weaken (alike_chainRest level first ((op, e) :: rest) p₂ q₂ h')
termination_by 16 * p.tokens.length
decreasing_by
  · cases level <;> simp only [chainRank] <;> omega
  · omega

theorem alike_unary (p q : Parser) (h : Alike f p q) : p.unary.Agrees (Abreast f) (Alike f) q.unary := by
  rcases h.next with ⟨hp, hq, heof⟩ | ⟨t, p₁, h₁, q₁, g₁, hp, hq, -, -, hmove, -⟩ <;> rw [unary, unary] <;> simp only [hp, hq]
  · exact ⟨by rw [heof], h⟩
  · cases hop : UnaryOp.ofTokenKind? t.kind with
    | some op =>
      have hkind : f.Takes t.kind := by
        rw [← UnaryOp.ofTokenKind?_eq_some_iff.mp hop]
        exact .inr (by cases op <;> decide)
      exact (alike_unary p₁ q₁ (hmove hkind).1).andThen fun e p₂ h₂ q₂ g₂ h' => ⟨rfl, h'.cover _ _ _ _⟩
    | none => exact (alike_primary p q h).andThen fun e p₂ h₂ q₂ g₂ h' => .weaken (alike_postfixed e p₂ q₂ h')
termination_by 16 * p.tokens.length + 2
decreasing_by all_goals omega

theorem alike_postfixed (e : Expr) (p q : Parser) (h : Abreast f p q) :
    (postfixed e p).Agrees (Abreast f) (Alike f) (postfixed e q) := by
  rw [postfixed, postfixed]
  rcases h.1.behind? .leftParen (.inr (by decide)) with ⟨hp, hq⟩ | ⟨p₁, h₁, q₁, g₁, hp, hq, h', -⟩ <;> simp only [hp, hq]
  · rcases h.1.behind? .leftBracket (.inr (by decide)) with ⟨hp, hq⟩ | ⟨p₁, h₁, q₁, g₁, hp, hq, h', -⟩ <;> simp only [hp, hq]
    · exact ⟨rfl, h⟩
    · refine (alike_expr p₁ q₁ h').andThen fun i p₂ h₂ q₂ g₂ h' => ?_
      refine (h'.1.take .rightBracket (.inr (by decide))).andThen fun close p₃ h₃ q₃ g₃ h' => ?_
      exact .weaken (alike_postfixed _ _ _ (h'.cover _ _ _ _))
  · refine (alike_exprList .rightParen (.inr (by decide)) p₁ q₁ h').andThen fun args p₂ h₂ q₂ g₂ h' => ?_
    rw [h'.2]
    exact .weaken (alike_postfixed _ _ _ (h'.cover _ _ _ _))
termination_by 16 * p.tokens.length
decreasing_by all_goals ((try simp only [tokens_cover]); omega)

theorem alike_primary (p q : Parser) (h : Alike f p q) : p.primary.Agrees (Abreast f) (Alike f) q.primary := by
  rcases h.next with ⟨hp, hq, heof⟩ | ⟨t, p₁, h₁, q₁, g₁, hp, hq, -, -, hmove, hopen⟩ <;> rw [primary, primary] <;>
    simp only [hp, hq]
  · exact ⟨by rw [heof], h⟩
  · cases hkind : t.kind <;> dsimp only
    case intLiteral =>
      replace hmove := hmove (.inr (by simp [hkind]))
      cases intLiteral t with
      | error cause => exact ⟨rfl, hmove.1⟩
      | ok e => exact ⟨rfl, hmove⟩
    case stringLiteral =>
      replace hmove := hmove (.inr (by simp [hkind]))
      cases stringLiteral t with
      | error cause => exact ⟨rfl, hmove.1⟩
      | ok e => exact ⟨rfl, hmove⟩
    case kwTrue | kwFalse | identifier => exact ⟨rfl, hmove (.inr (by simp [hkind]))⟩
    case leftParen =>
      refine (alike_expr p₁ q₁ (hmove (.inr (by simp [hkind]))).1).andThen fun e p₂ h₂ q₂ g₂ h' => ?_
      exact (h'.1.take .rightParen (.inr (by decide))).andThen fun close p₃ h₃ q₃ g₃ h' => ⟨rfl, h'.cover _ _ _ _⟩
    case leftBracket =>
      replace hmove := hmove (.inr (by simp [hkind]))
      refine (alike_exprList .rightBracket (.inr (by decide)) p₁ q₁ hmove.1).andThen fun elements p₂ h₂ q₂ g₂ h' => ?_
      exact ⟨by rw [h'.2]; rfl, h'.cover _ _ _ _⟩
    case leftBrace =>
      refine (alike_pairs (hopen hkind) p₁ q₁ (hmove (.inr (by simp [hkind]))).1).andThen fun entries p₂ h₂ q₂ g₂ h' => ?_
      exact ⟨by rw [h'.2]; rfl, h'.cover _ _ _ _⟩
    case kwFn =>
      refine ((hmove (.inr (by simp [hkind]))).1.take .leftParen (.inr (by decide))).andThen fun start p₂ h₂ q₂ g₂ h' => ?_
      refine h'.1.params.andThen fun names p₃ h₃ q₃ g₃ h' => ?_
      exact (alike_block p₃ q₃ h'.1).andThen fun body p₄ h₄ q₄ g₄ h' => ⟨rfl, h'.cover _ _ _ _⟩
    case kwIf =>
      refine ((hmove (.inr (by simp [hkind]))).1.take .leftParen (.inr (by decide))).andThen fun start p₂ h₂ q₂ g₂ h' => ?_
      refine (alike_expr p₂ q₂ h'.1).andThen fun condition p₃ h₃ q₃ g₃ h' => ?_
      refine (h'.1.take .rightParen (.inr (by decide))).andThen fun stop p₄ h₄ q₄ g₄ h' => ?_
      refine (alike_block p₄ q₄ h'.1).andThen fun thenBlock p₅ h₅ q₅ g₅ h' => ?_
      rcases h'.1.behind? .kwElse (.inr (by decide)) with ⟨hp, hq⟩ | ⟨p₆, h₆, q₆, g₆, hp, hq, h', -⟩ <;> simp only [hp, hq]
      · exact ⟨rfl, h'.cover _ _ _ _⟩
      · exact (alike_block p₆ q₆ h').andThen fun elseBlock p₇ h₇ q₇ g₇ h' => ⟨rfl, h'.cover _ _ _ _⟩
    all_goals exact ⟨rfl, h⟩
termination_by 16 * p.tokens.length + 1
decreasing_by all_goals omega

theorem alike_exprList (close : TokenKind) (hclose : f.Takes close) (p q : Parser) (h : Alike f p q) :
    (exprList close p).Agrees (Abreast f) (Alike f) (exprList close q) := by
  rw [exprList, exprList]
  rcases h.behind? close hclose with ⟨hp, hq⟩ | ⟨p₁, h₁, q₁, g₁, hp, hq, h'⟩ <;> simp only [hp, hq]
  · exact alike_exprListRest close hclose [] p q h
  · exact ⟨rfl, h'⟩
termination_by 16 * p.tokens.length + 12
decreasing_by all_goals omega

theorem alike_exprListRest (close : TokenKind) (hclose : f.Takes close) (items : List Expr) (p q : Parser)
    (h : Alike f p q) : (exprListRest close items p).Agrees (Abreast f) (Alike f) (exprListRest close items q) := by
  rw [exprListRest, exprListRest]
  refine (alike_expr p q h).andThen fun item p₁ h₁ q₁ g₁ h' => ?_
  rcases h'.1.behind? .comma (.inr (by decide)) with ⟨hp, hq⟩ | ⟨p₂, h₂, q₂, g₂, hp, hq, h', -⟩ <;> simp only [hp, hq]
  · exact (h'.1.take close hclose).andThen fun stop p₃ h₃ q₃ g₃ h' => ⟨rfl, h'⟩
  · exact .weaken (alike_exprListRest close hclose (item :: items) p₂ q₂ h')
termination_by 16 * p.tokens.length + 11
decreasing_by all_goals omega

theorem alike_pairs (hend : f.fence = none) (p q : Parser) (h : Alike f p q) :
    p.pairs.Agrees (Abreast f) (Alike f) q.pairs := by
  rw [pairs, pairs]
  rcases h.behind? .rightBrace (.inl hend) with ⟨hp, hq⟩ | ⟨p₁, h₁, q₁, g₁, hp, hq, h'⟩ <;> simp only [hp, hq]
  · exact alike_pairsRest hend [] p q h
  · exact ⟨rfl, h'⟩
termination_by 16 * p.tokens.length + 12
decreasing_by all_goals omega

theorem alike_pairsRest (hend : f.fence = none) (entries : List (Expr × Expr)) (p q : Parser) (h : Alike f p q) :
    (pairsRest entries p).Agrees (Abreast f) (Alike f) (pairsRest entries q) := by
  rw [pairsRest, pairsRest]
  refine (alike_expr p q h).andThen fun key p₁ h₁ q₁ g₁ h' => ?_
  refine (h'.1.take .colon (.inr (by decide))).andThen fun colon p₂ h₂ q₂ g₂ h' => ?_
  refine (alike_expr p₂ q₂ h'.1).andThen fun value p₃ h₃ q₃ g₃ h' => ?_
  rcases h'.1.behind? .comma (.inr (by decide)) with ⟨hp, hq⟩ | ⟨p₄, h₄, q₄, g₄, hp, hq, h', -⟩ <;> simp only [hp, hq]
  · exact (h'.1.take .rightBrace (.inl hend)).andThen fun stop p₅ h₅ q₅ g₅ h' => ⟨rfl, h'⟩
  · exact .weaken (alike_pairsRest hend ((key, value) :: entries) p₄ q₄ h')
termination_by 16 * p.tokens.length + 11
decreasing_by all_goals omega

/-- There is no opening brace in front of a fence, so a block is read only where both parsers come to the same end. -/
theorem alike_block (p q : Parser) (h : Alike f p q) : p.block.Agrees (Abreast f) (Alike f) q.block := by
  have hcause := h.unexpected .leftBrace
  rcases h.next with ⟨hp, hq, -⟩ | ⟨t, p₁, h₁, q₁, g₁, hp, hq, -, -, hmove, hopen⟩ <;> rw [block, block] <;>
    simp only [take, hp, hq]
  · exact ⟨hcause, h⟩
  · by_cases hkind : t.kind = .leftBrace
    · simp only [if_pos hkind]
      dsimp only [Reply.andThen]
      exact .weaken (alike_blockRest (hopen hkind) t.span [] p₁ q₁ (hmove (.inr (by simp [hkind]))).1)
    · simp only [if_neg hkind]
      exact ⟨hcause, h⟩
termination_by 16 * p.tokens.length
decreasing_by all_goals omega

theorem alike_blockRest (hend : f.fence = none) (start : Span) (stmts : List Stmt) (p q : Parser) (h : Alike f p q) :
    (blockRest start stmts p).Agrees (Abreast f) (Alike f) (blockRest start stmts q) := by
  rcases h.next with ⟨hp, hq, -⟩ | ⟨t, p', hlt, q', hlt', hp, hq, -, -, hmove, -⟩ <;> rw [blockRest, blockRest] <;>
    simp only [hp, hq]
  · exact ⟨h.unexpected .rightBrace, h⟩
  · by_cases hkind : t.kind = .rightBrace
    · simp only [if_pos hkind]
      exact ⟨rfl, (hmove (.inl hend)).cover _ _ _ _⟩
    · simp only [if_neg hkind]
      rcases (alike_statement p q h).cases with
        ⟨stmt, p₁, h₁, q₁, g₁, hp₁, hq₁, h'⟩ | ⟨cause, p₁, h₁, q₁, g₁, hp₁, hq₁, h'⟩ <;> simp only [hp₁, hq₁]
      · exact .weaken (alike_blockRest hend start (stmt :: stmts) p₁ q₁ (h'.alike hend))
      · have hshorter : ((p₁.note cause).recover true).tokens.length < p.tokens.length :=
          length_recover_lt _ _ h₁ (Nat.zero_lt_of_lt hlt)
        exact .weaken (alike_blockRest hend start stmts _ _ (h'.recover_of_none hend cause true))
termination_by 16 * p.tokens.length + 14
decreasing_by all_goals omega

theorem alike_statement (p q : Parser) (h : Alike f p q) : p.statement.Agrees (Passed f) (Alike f) q.statement := by
  rcases h.next with ⟨hp, hq, heof⟩ | ⟨t, p₁, h₁, q₁, g₁, hp, hq, -, -, hmove, -⟩ <;> rw [statement, statement] <;>
    simp only [hp, hq]
  · exact ⟨by rw [heof], h⟩
  · cases hkind : t.kind <;> dsimp only
    case kwLet =>
      refine (hmove (.inr (by simp [hkind]))).1.identifier.andThen fun name p₂ h₂ q₂ g₂ h' => ?_
      refine (h'.1.take .equal (.inr (by decide))).andThen fun equal p₃ h₃ q₃ g₃ h' => ?_
      refine (alike_expr p₃ q₃ h'.1).andThen fun value p₄ h₄ q₄ g₄ h' => ?_
      exact ⟨by rw [h'.semicolon.2]; rfl, h'.semicolon.1.cover _ _ _ _⟩
    case kwReturn =>
      refine (alike_expr p₁ q₁ (hmove (.inr (by simp [hkind]))).1).andThen fun value p₂ h₂ q₂ g₂ h' => ?_
      exact ⟨by rw [h'.semicolon.2]; rfl, h'.semicolon.1.cover _ _ _ _⟩
    all_goals
      refine (alike_expr p q h).andThen fun e p₂ h₂ q₂ g₂ h' => ?_
      exact ⟨by rw [h'.semicolon.2]; rfl, h'.semicolon.1.cover _ _ _ _⟩
termination_by 16 * p.tokens.length + 13
decreasing_by all_goals omega

end

end Parser

end MonkeyLang
