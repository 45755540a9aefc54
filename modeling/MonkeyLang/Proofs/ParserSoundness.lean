import MonkeyLang.Proofs.Spelling
import MonkeyLang.Syntax.Parsing
/-!
# What the parser reads

Where a parser reads something and notes no error on the way, the tokens that it has moved past spell what it has read. The
functions of the grammar pass the parts of a list or a chain along, so each is said to give syntax that starts with what has
been passed. Errors are noted only where a statement is dropped, and none is ever taken back.
-/

namespace MonkeyLang

/-- Some tokens lead from one state of a parser to another. -/
structure Parser.Reads (p : Parser) (ts : List Token) (q : Parser) : Prop where
  tokens : p.tokens = ts ++ q.tokens
  last : q.last = lastSpan p.last ts

namespace Parser.Reads

variable {p q r : Parser} {t : Token} {ts us : List Token}

theorem refl (p : Parser) : p.Reads [] p := ⟨rfl, rfl⟩

theorem trans (h : p.Reads ts q) (h' : q.Reads us r) : p.Reads (ts ++ us) r := by
  refine ⟨?_, ?_⟩
  · rw [h.tokens, h'.tokens, List.append_assoc]
  · rw [h'.last, h.last, lastSpan_append]

theorem moveTo (h : p.tokens = t :: ts) : p.Reads [t] (p.moveTo h) := ⟨h, rfl⟩

theorem cover (h : p.Reads ts q) (a b : Span) : p.Reads ts (q.cover a b).2 := ⟨h.tokens, h.last⟩

end Parser.Reads

namespace Reply

variable {α β : Type} {m n : Nat} {p p₁ q : Parser} {ts : List Token} {post mid : α → List Token → Prop}

/-- A reply is sound: if no error has been noted on the way, what it gives is spelled by the tokens that have been read. -/
def Sound (p : Parser) (post : α → List Token → Prop) : Reply α n → Prop
  | ok value q _ => p.errors.size < q.errors.size ∨
      q.errors.size = p.errors.size ∧ ∃ ts, p.Reads ts q ∧ post value ts
  | error _ q _ => p.errors.size ≤ q.errors.size

namespace Sound

theorem ok {value : α} {h : q.tokens.length < n} (hreads : p.Reads ts q) (herrors : q.errors = p.errors)
    (hpost : post value ts) : Sound p post (.ok value q h) :=
  .inr ⟨congrArg Array.size herrors, ts, hreads, hpost⟩

theorem error {cause : ParseError} {h : q.tokens.length ≤ n} (herrors : q.errors = p.errors) :
    Sound p post (.error cause q h : Reply α n) :=
  Nat.le_of_eq (congrArg Array.size herrors).symm

theorem mono {post' : α → List Token → Prop} {reply : Reply α n} (h : reply.Sound p post)
    (hpost : ∀ value ts, post value ts → post' value ts) : reply.Sound p post' := by
  cases reply with
  | ok value q _ =>
    rcases h with hlt | ⟨heq, ts, hreads, hvalue⟩
    · exact .inl hlt
    · exact .inr ⟨heq, ts, hreads, hpost value ts hvalue⟩
  | error cause q _ => exact h

/-- A reply of a parser that has come further, or has noted errors. -/
theorem behind {reply : Reply α n} (hreads : p.Reads ts p₁) (herrors : p₁.errors = p.errors)
    (h : reply.Sound p₁ fun value us => post value (ts ++ us)) : reply.Sound p post := by
  cases reply with
  | ok value q _ =>
    rcases h with hlt | ⟨heq, us, hreads', hvalue⟩
    · exact .inl (herrors ▸ hlt)
    · exact .inr ⟨herrors ▸ heq, ts ++ us, hreads.trans hreads', hvalue⟩
  | error cause q _ => exact Nat.le_trans (Nat.le_of_eq (congrArg Array.size herrors).symm) h

theorem weaken {reply : Reply α m} {hle : m ≤ n} (h : reply.Sound p post) : (reply.weaken hle).Sound p post := by
  cases reply <;> exact h

/-- A reply that is given behind something that has been read. -/
theorem next {post : β → List Token → Prop} {value : α} {hlt : q.tokens.length < m} {reply : Reply β n}
    (h : Sound p mid (.ok value q hlt)) (hnext : reply.Sound q fun result us =>
      ∀ ts, p.Reads ts q → mid value ts → post result (ts ++ us)) : reply.Sound p post := by
  cases reply with
  | error cause r _ =>
    rcases h with hlt | ⟨heq, -⟩
    · exact Nat.le_trans (Nat.le_of_lt hlt) hnext
    · exact Nat.le_trans (Nat.le_of_eq heq.symm) hnext
  | ok result r _ =>
    rcases h with hlt | ⟨heq, ts, hreads, hvalue⟩ <;>
      rcases hnext with hlt' | ⟨heq', us, hreads', hresult⟩
    · exact .inl (Nat.lt_trans hlt hlt')
    · exact .inl (heq' ▸ hlt)
    · exact .inl (heq ▸ hlt')
    · exact .inr ⟨heq'.trans heq, ts ++ us, hreads.trans hreads', hresult ts hreads hvalue⟩

theorem andThen {post : β → List Token → Prop} {reply : Reply α m} {hle : m ≤ n}
    {next : α → (p : Parser) → p.tokens.length < m → Reply β n} (h : reply.Sound p mid)
    (hnext : ∀ value q hlt, (next value q hlt).Sound q fun result us =>
      ∀ ts, p.Reads ts q → mid value ts → post result (ts ++ us)) : (reply.andThen hle next).Sound p post := by
  cases reply with
  | error cause q _ => exact h
  | ok value q hlt => exact h.next (hnext value q hlt)

/-- A reply that is given behind an error that has been noted. -/
theorem of_noted {post' : α → List Token → Prop} {reply : Reply α n} (hnoted : p.errors.size < p₁.errors.size)
    (h : reply.Sound p₁ post') : reply.Sound p post := by
  cases reply with
  | error cause q _ => exact Nat.le_trans (Nat.le_of_lt hnoted) h
  | ok value q _ =>
    rcases h with hlt | ⟨heq, -⟩
    · exact .inl (Nat.lt_trans hnoted hlt)
    · exact .inl (heq ▸ hnoted)

end Sound

end Reply

namespace Parser

open Reply (Sound)

variable {p q : Parser} {kind : TokenKind}

/-- An error is noted where a statement is dropped. -/
theorem size_errors_recover_lt {n : Nat} {cause : ParseError} (h : n ≤ p.errors.size) (inBlock : Bool) :
    n < ((p.note cause).recover inBlock).errors.size := by
  rw [errors_recover, note, Array.size_push]
  exact Nat.lt_succ_of_le h

/-! ### Single tokens -/

theorem reads_of_next? {t : Token} {h : q.tokens.length < p.tokens.length} (hnext : p.next? = some (t, ⟨q, h⟩)) :
    p.Reads [t] q ∧ q.errors = p.errors := by
  obtain ⟨rest, htokens, rfl⟩ := eq_moveTo_of_next? hnext
  exact ⟨.moveTo htokens, rfl⟩

theorem sound_take (p : Parser) (kind : TokenKind) : (p.take kind).Sound p fun t ts => ts = [t] ∧ t.kind = kind := by
  unfold take
  split
  case h_1 t q h hnext =>
    obtain ⟨hreads, herrors⟩ := reads_of_next? hnext
    split
    case isTrue hkind => exact .ok hreads herrors ⟨rfl, hkind⟩
    case isFalse => exact .error rfl
  case h_2 => exact .error rfl

theorem sound_identifier (p : Parser) :
    p.identifier.Sound p fun name ts => ∃ t, ts = [t] ∧ t.kind = .identifier ∧ name = t.ident := by
  unfold identifier
  split
  case h_1 t q h hnext =>
    obtain ⟨hreads, herrors⟩ := reads_of_next? hnext
    split
    case isTrue hkind => exact .ok hreads herrors ⟨t, rfl, hkind, rfl⟩
    case isFalse => exact .error rfl
  case h_2 => exact .error rfl

theorem next?_of_behind? {h : q.tokens.length < p.tokens.length} (hbehind : p.behind? kind = some ⟨q, h⟩) :
    ∃ t, p.next? = some (t, ⟨q, h⟩) ∧ t.kind = kind := by
  unfold behind? at hbehind
  split at hbehind
  case h_1 t r hnext =>
    split at hbehind
    case isTrue hkind =>
      cases hbehind
      exact ⟨t, hnext, hkind⟩
    case isFalse => cases hbehind
  case h_2 => cases hbehind

theorem reads_of_behind? {h : q.tokens.length < p.tokens.length} (hbehind : p.behind? kind = some ⟨q, h⟩) :
    ∃ t, t.kind = kind ∧ p.Reads [t] q ∧ q.errors = p.errors := by
  obtain ⟨t, hnext, hkind⟩ := next?_of_behind? hbehind
  exact ⟨t, hkind, reads_of_next? hnext⟩

theorem next?_of_chainOp? {level : ChainLevel} {op : BinaryOp} {h : q.tokens.length < p.tokens.length}
    (hop : p.chainOp? level = some (op, ⟨q, h⟩)) :
    ∃ t, p.next? = some (t, ⟨q, h⟩) ∧ t.kind = op.tokenKind ∧ op.level = level := by
  unfold chainOp? at hop
  split at hop
  case h_1 t r hnext =>
    split at hop
    case h_1 op' hkind =>
      split at hop
      case isTrue hlevel =>
        cases hop
        exact ⟨t, hnext, (BinaryOp.ofTokenKind?_eq_some_iff.mp hkind).symm, hlevel⟩
      case isFalse => cases hop
    case h_2 => cases hop
  case h_2 => cases hop

theorem reads_of_chainOp? {level : ChainLevel} {op : BinaryOp} {h : q.tokens.length < p.tokens.length}
    (hop : p.chainOp? level = some (op, ⟨q, h⟩)) :
    ∃ t, t.kind = op.tokenKind ∧ op.level = level ∧ p.Reads [t] q ∧ q.errors = p.errors := by
  obtain ⟨t, hnext, hkind, hlevel⟩ := next?_of_chainOp? hop
  exact ⟨t, hkind, hlevel, reads_of_next? hnext⟩

theorem reads_semicolon (p : Parser) : ∃ ts, Ends ts ∧ p.Reads ts p.semicolon.1 ∧ p.semicolon.1.errors = p.errors := by
  unfold semicolon
  split
  case h_1 q h hbehind =>
    obtain ⟨t, hkind, hreads, herrors⟩ := reads_of_behind? hbehind
    exact ⟨[t], .semicolon hkind, hreads, herrors⟩
  case h_2 => exact ⟨[], .nothing, .refl p, rfl⟩

/-! ### Lists -/

/-- Tokens spell something and end with a closing delimiter. -/
def Closed {α : Type} (close : TokenKind) (spells : α → List Token → Prop) (items : α) (ts : List Token) : Prop :=
  ∃ us t, ts = us ++ [t] ∧ t.kind = close ∧ spells items us

/-- The same for a list that is read behind some items. -/
def ClosedBehind {α : Type} (close : TokenKind) (spells : List α → List Token → Prop) (items result : List α)
    (ts : List Token) : Prop :=
  ∃ new, result = items.reverse ++ new ∧ new ≠ [] ∧ Closed close spells new ts

theorem sound_paramsRest (params : List Ident) (p : Parser) :
    (paramsRest params p).Sound p (ClosedBehind .rightParen (fun ps us => Spells (.params ps) us) params) := by
  rw [paramsRest]
  refine (sound_identifier p).andThen fun param p₁ h₁ => ?_
  split
  case h_1 p₂ h₂ hbehind =>
    obtain ⟨comma, hcomma, hreads, herrors⟩ := reads_of_behind? hbehind
    refine .weaken (.behind hreads herrors ((sound_paramsRest (param :: params) p₂).mono ?_))
    rintro _ _ ⟨new, rfl, hne, us, stop, rfl, hstop, hnew⟩ _ - ⟨t, rfl, hkind, rfl⟩
    exact ⟨t.ident :: new, by simp, List.cons_ne_nil _ _, t :: comma :: us, stop, rfl, hstop,
      .paramsCons hkind hcomma hnew hne⟩
  case h_2 =>
    refine (sound_take p₁ .rightParen).andThen fun stop p₃ h₃ => .ok (.refl p₃) rfl ?_
    rintro _ - ⟨rfl, hstop⟩ _ - ⟨t, rfl, hkind, rfl⟩
    exact ⟨[t.ident], by simp, List.cons_ne_nil _ _, [t], stop, rfl, hstop, .paramsLast hkind⟩
termination_by p.tokens.length

theorem sound_params (p : Parser) :
    p.params.Sound p (Closed .rightParen fun ps us => Spells (.params ps) us) := by
  unfold params
  split
  case h_1 q h hbehind =>
    obtain ⟨stop, hstop, hreads, herrors⟩ := reads_of_behind? hbehind
    exact .ok hreads herrors ⟨[], stop, rfl, hstop, .paramsNil⟩
  case h_2 =>
    refine (sound_paramsRest [] p).mono ?_
    rintro _ ts ⟨new, rfl, -, hclosed⟩
    exact hclosed

/-! ### Phrases -/

mutual

theorem sound_expr (p : Parser) : p.expr.Sound p fun e ts => Spells (.expr e) ts := by
  rw [expr]
  exact (sound_chain .comparison p).mono fun _ _ h => h.1
termination_by 16 * p.tokens.length + 10
decreasing_by all_goals (simp only [chainRank]; omega)

theorem sound_chain (level : ChainLevel) (p : Parser) :
    (chain level p).Sound p fun e ts => Spells (.expr e) ts ∧ level.rank ≤ e.rank := by
  rw [chain]
  refine (sound_operand level p).andThen fun first p₁ h₁ => .weaken ((sound_chainRest level first [] p₁).mono ?_)
  intro e us hrest ts hreads ⟨hfirst, hrank⟩
  simpa using hrest p.last ts [] (by rw [hreads.last, List.append_nil]) hfirst hrank .operandsNil
termination_by 16 * p.tokens.length + chainRank level
decreasing_by all_goals (cases level <;> simp only [chainRank] <;> omega)

theorem sound_operand (level : ChainLevel) (p : Parser) :
    (operand level p).Sound p fun e ts => Spells (.expr e) ts ∧ level.rank < e.rank := by
  cases level with
  | comparison =>
    rw [operand]
    exact sound_chain .addition p
  | addition =>
    rw [operand]
    exact sound_chain .multiplication p
  | multiplication =>
    rw [operand]
    exact sound_unary p
termination_by 16 * p.tokens.length + chainRank level - 1
decreasing_by all_goals (simp only [chainRank]; omega)

/-- The rest of a chain, when some tokens spell its first operands. -/
theorem sound_chainRest (level : ChainLevel) (first : Expr) (rest : List (BinaryOp × Expr)) (p : Parser) :
    (chainRest level first rest p).Sound p fun e us => ∀ last ts₁ ts₂, p.last = lastSpan last (ts₁ ++ ts₂) →
      Spells (.expr first) ts₁ → level.rank < first.rank → Spells (.operands level rest.reverse) ts₂ →
      Spells (.expr e) (ts₁ ++ ts₂ ++ us) ∧ level.rank ≤ e.rank := by
  rw [chainRest]
  split
  case h_1 op p₁ h₁ hop =>
    obtain ⟨t, hkind, hlevel, hreads, herrors⟩ := reads_of_chainOp? hop
    refine .behind hreads herrors ?_
    refine (sound_operand level p₁).andThen fun e p₂ h₂ =>
      .weaken ((sound_chainRest level first ((op, e) :: rest) p₂).mono ?_)
    intro v us hrest ts hreads' ⟨hoperand, hrank⟩ last ts₁ ts₂ hlast hfirst hfirstRank hoperands
    have hbehind : p₂.last = lastSpan last (ts₁ ++ (ts₂ ++ t :: ts)) := by
      rw [hreads'.last, hreads.last]
      simp [lastSpan_append]
    have hlonger : Spells (.operands level ((op, e) :: rest).reverse) (ts₂ ++ t :: ts) := by
      rw [List.reverse_cons]
      exact hoperands.operands_concat hkind hlevel hoperand hrank
    simpa using hrest last ts₁ _ hbehind hfirst hfirstRank hlonger
  case h_2 =>
    split
    case isTrue hempty =>
      refine .ok (.refl p) rfl ?_
      intro last ts₁ ts₂ hlast hfirst hrank hoperands
      obtain rfl := List.isEmpty_iff.mp hempty
      cases hoperands
      simpa using ⟨hfirst, Nat.le_of_lt hrank⟩
    case isFalse hempty =>
      refine .ok (.cover (.refl p) _ _) rfl ?_
      intro last ts₁ ts₂ hlast hfirst hrank hoperands
      have hne : rest.reverse ≠ [] := by simpa using hempty
      have hspan : p.last = lastSpan first.span ts₂ := by
        rw [hlast, lastSpan_append]
        exact lastSpan_of_ne_nil (hoperands.operands_ne_nil hne)
      rw [List.append_nil, hspan]
      exact ⟨.chain hfirst hrank hoperands hne, Nat.le_refl _⟩
termination_by 16 * p.tokens.length
decreasing_by
  · cases level <;> simp only [chainRank] <;> omega
  · omega

theorem sound_unary (p : Parser) : p.unary.Sound p fun e ts => Spells (.expr e) ts ∧ 3 ≤ e.rank := by
  rw [unary]
  split
  case h_1 t p₁ h₁ hnext =>
    obtain ⟨hmoved, herrors⟩ := reads_of_next? hnext
    split
    case h_1 op hop =>
      have hkind := (UnaryOp.ofTokenKind?_eq_some_iff.mp hop).symm
      refine .behind hmoved herrors ((sound_unary p₁).andThen fun e p₂ h₂ => .ok (.cover (.refl p₂) _ _) rfl ?_)
      rintro ts - ⟨he, hrank⟩
      simpa using ⟨Spells.unary hkind he hrank, Nat.le_refl _⟩
    case h_2 =>
      refine (sound_primary p).andThen fun e p₂ h₂ => .weaken ((sound_postfixed e p₂).mono ?_)
      rintro v us hpostfixed ts - ⟨he, hrank⟩
      obtain ⟨hv, hrank'⟩ := hpostfixed ts he hrank
      exact ⟨hv, by omega⟩
  case h_2 => exact .error rfl
termination_by 16 * p.tokens.length + 2

/-- The calls and index operations behind an expression that some tokens spell. -/
theorem sound_postfixed (e : Expr) (p : Parser) : (postfixed e p).Sound p fun v us =>
    ∀ ts, Spells (.expr e) ts → e.rank = 4 → Spells (.expr v) (ts ++ us) ∧ v.rank = 4 := by
  rw [postfixed]
  split
  case h_1 p₁ h₁ hbehind =>
    obtain ⟨start, hstart, hreads, herrors⟩ := reads_of_behind? hbehind
    refine .behind hreads herrors ((sound_exprList .rightParen p₁).andThen fun args p₂ h₂ => .weaken ?_)
    refine .behind (.cover (.refl p₂) _ _) rfl ((sound_postfixed _ _).mono ?_)
    rintro v us hpostfixed _ hargs ⟨ts, stop, rfl, hstop, hspells⟩ ts₀ he hrank
    have hlast : p₂.last = stop.span := by rw [hargs.last, lastSpan_concat]
    rw [hlast] at hpostfixed
    simpa using hpostfixed _ (.call he hrank hstart hspells hstop) rfl
  case h_2 =>
    split
    case h_1 p₁ h₁ hbehind =>
      obtain ⟨start, hstart, hreads, herrors⟩ := reads_of_behind? hbehind
      refine .behind hreads herrors ((sound_expr p₁).andThen fun i p₂ h₂ => ?_)
      refine (sound_take p₂ .rightBracket).andThen fun stop p₃ h₃ => .weaken ?_
      refine .behind (.cover (.refl p₃) _ _) rfl ((sound_postfixed _ _).mono ?_)
      rintro v us hpostfixed _ - ⟨rfl, hstop⟩ ts - hindex ts₀ he hrank
      simpa using hpostfixed _ (.index he hrank hstart hindex hstop) rfl
    case h_2 =>
      refine .ok (.refl p) rfl ?_
      intro ts he hrank
      rw [List.append_nil]
      exact ⟨he, hrank⟩
termination_by 16 * p.tokens.length
decreasing_by all_goals ((try simp only [tokens_cover]); omega)

theorem sound_primary (p : Parser) : p.primary.Sound p fun e ts => Spells (.expr e) ts ∧ e.rank = 4 := by
  rw [primary]
  split
  case h_1 => exact .error rfl
  case h_2 t p₁ h₁ hnext =>
    obtain ⟨hmoved, herrors⟩ := reads_of_next? hnext
    split
    case h_1 hkind =>
      unfold intLiteral
      cases hvalue : Literal.int? t.lexeme with
      | none => exact .error herrors
      | some value => exact .ok hmoved herrors ⟨.int hkind hvalue, rfl⟩
    case h_2 hkind =>
      unfold stringLiteral
      cases hvalue : Literal.string t.lexeme with
      | error fault => exact .error herrors
      | ok value => exact .ok hmoved herrors ⟨.string hkind hvalue, rfl⟩
    case h_3 hkind => exact .ok hmoved herrors ⟨.bool hkind, rfl⟩
    case h_4 hkind => exact .ok hmoved herrors ⟨.bool hkind, rfl⟩
    case h_5 hkind => exact .ok hmoved herrors ⟨.ident hkind, rfl⟩
    case h_6 hkind =>
      refine .behind hmoved herrors ((sound_expr _).andThen fun e p₂ h₂ => ?_)
      refine (sound_take p₂ .rightParen).andThen fun stop p₃ h₃ => .ok (.cover (.refl p₃) _ _) rfl ?_
      rintro _ - ⟨rfl, hstop⟩ ts - he
      simpa using ⟨Spells.paren hkind he hstop, rfl⟩
    case h_7 hkind =>
      refine .behind hmoved herrors ((sound_exprList .rightBracket _).andThen fun elements p₂ h₂ =>
        .ok (.cover (.refl p₂) _ _) rfl ?_)
      rintro _ hreads ⟨ts, stop, rfl, hstop, helements⟩
      rw [hreads.last, lastSpan_concat]
      simpa using ⟨Spells.array hkind helements hstop, rfl⟩
    case h_8 hkind =>
      refine .behind hmoved herrors ((sound_pairs _).andThen fun ps p₂ h₂ => .ok (.cover (.refl p₂) _ _) rfl ?_)
      rintro _ hreads ⟨ts, stop, rfl, hstop, hpairs⟩
      rw [hreads.last, lastSpan_concat]
      simpa using ⟨Spells.hash hkind hpairs hstop, rfl⟩
    case h_9 hkind =>
      refine .behind hmoved herrors ((sound_take _ .leftParen).andThen fun start p₂ h₂ => ?_)
      refine (sound_params p₂).andThen fun ps p₃ h₃ => (sound_block p₃).andThen fun body p₄ h₄ =>
        .ok (.cover (.refl p₄) _ _) rfl ?_
      rintro vs - hbody _ - ⟨us, stop, rfl, hstop, hparams⟩ _ - ⟨rfl, hstart⟩
      simpa using ⟨Spells.function hkind hstart hparams hstop hbody, rfl⟩
    case h_10 hkind =>
      refine .behind hmoved herrors ((sound_take _ .leftParen).andThen fun start p₂ h₂ => ?_)
      refine (sound_expr p₂).andThen fun condition p₃ h₃ => (sound_take p₃ .rightParen).andThen fun stop p₄ h₄ =>
        (sound_block p₄).andThen fun thenBlock p₅ h₅ => ?_
      split
      case h_1 p₆ h₆ hbehind =>
        obtain ⟨middle, hmiddle, hreads, hsame⟩ := reads_of_behind? hbehind
        refine .behind hreads hsame ((sound_block p₆).andThen fun elseBlock p₇ h₇ =>
          .ok (.cover (.refl p₇) _ _) rfl ?_)
        rintro ws - helse vs - hthen _ - ⟨rfl, hstop⟩ us - hcondition _ - ⟨rfl, hstart⟩
        simpa using ⟨Spells.ifElse hkind hstart hcondition hstop hthen hmiddle helse, rfl⟩
      case h_2 =>
        refine .ok (.cover (.refl p₅) _ _) rfl ?_
        rintro vs - hthen _ - ⟨rfl, hstop⟩ us - hcondition _ - ⟨rfl, hstart⟩
        simpa using ⟨Spells.ifThen hkind hstart hcondition hstop hthen, rfl⟩
    case h_11 => exact .error rfl
termination_by 16 * p.tokens.length + 1

theorem sound_exprList (close : TokenKind) (p : Parser) :
    (exprList close p).Sound p (Closed close fun es us => Spells (.exprs es) us) := by
  rw [exprList]
  split
  case h_1 q h hbehind =>
    obtain ⟨stop, hstop, hreads, herrors⟩ := reads_of_behind? hbehind
    exact .ok hreads herrors ⟨[], stop, rfl, hstop, .exprsNil⟩
  case h_2 =>
    refine (sound_exprListRest close [] p).mono ?_
    rintro _ ts ⟨new, rfl, -, hclosed⟩
    exact hclosed
termination_by 16 * p.tokens.length + 12

theorem sound_exprListRest (close : TokenKind) (items : List Expr) (p : Parser) :
    (exprListRest close items p).Sound p (ClosedBehind close (fun es us => Spells (.exprs es) us) items) := by
  rw [exprListRest]
  refine (sound_expr p).andThen fun item p₁ h₁ => ?_
  split
  case h_1 p₂ h₂ hbehind =>
    obtain ⟨comma, hcomma, hreads, herrors⟩ := reads_of_behind? hbehind
    refine .weaken (.behind hreads herrors ((sound_exprListRest close (item :: items) p₂).mono ?_))
    rintro _ _ ⟨new, rfl, hne, us, stop, rfl, hstop, hnew⟩ ts - hitem
    exact ⟨item :: new, by simp, List.cons_ne_nil _ _, ts ++ comma :: us, stop, by simp, hstop,
      .exprsCons hitem hcomma hnew hne⟩
  case h_2 =>
    refine (sound_take p₁ close).andThen fun stop p₃ h₃ => .ok (.refl p₃) rfl ?_
    rintro _ - ⟨rfl, hstop⟩ ts - hitem
    exact ⟨[item], by simp, List.cons_ne_nil _ _, ts, stop, by simp, hstop, .exprsLast hitem⟩
termination_by 16 * p.tokens.length + 11

theorem sound_pairs (p : Parser) : p.pairs.Sound p (Closed .rightBrace fun ps us => Spells (.pairs ps) us) := by
  rw [pairs]
  split
  case h_1 q h hbehind =>
    obtain ⟨stop, hstop, hreads, herrors⟩ := reads_of_behind? hbehind
    exact .ok hreads herrors ⟨[], stop, rfl, hstop, .pairsNil⟩
  case h_2 =>
    refine (sound_pairsRest [] p).mono ?_
    rintro _ ts ⟨new, rfl, -, hclosed⟩
    exact hclosed
termination_by 16 * p.tokens.length + 12

theorem sound_pairsRest (entries : List (Expr × Expr)) (p : Parser) :
    (pairsRest entries p).Sound p (ClosedBehind .rightBrace (fun ps us => Spells (.pairs ps) us) entries) := by
  rw [pairsRest]
  refine (sound_expr p).andThen fun key p₁ h₁ => (sound_take p₁ .colon).andThen fun colon p₂ h₂ =>
    (sound_expr p₂).andThen fun value p₃ h₃ => ?_
  split
  case h_1 p₄ h₄ hbehind =>
    obtain ⟨comma, hcomma, hreads, herrors⟩ := reads_of_behind? hbehind
    refine .weaken (.behind hreads herrors ((sound_pairsRest ((key, value) :: entries) p₄).mono ?_))
    rintro _ _ ⟨new, rfl, hne, vs, stop, rfl, hstop, hnew⟩ us - hvalue _ - ⟨rfl, hcolon⟩ ts - hkey
    exact ⟨(key, value) :: new, by simp, List.cons_ne_nil _ _, ts ++ colon :: (us ++ comma :: vs), stop, by simp, hstop,
      .pairsCons hkey hcolon hvalue hcomma hnew hne⟩
  case h_2 =>
    refine (sound_take p₃ .rightBrace).andThen fun stop p₅ h₅ => .ok (.refl p₅) rfl ?_
    rintro _ - ⟨rfl, hstop⟩ us - hvalue _ - ⟨rfl, hcolon⟩ ts - hkey
    exact ⟨[(key, value)], by simp, List.cons_ne_nil _ _, ts ++ colon :: us, stop, by simp, hstop,
      .pairsLast hkey hcolon hvalue⟩
termination_by 16 * p.tokens.length + 11

theorem sound_block (p : Parser) : p.block.Sound p fun b ts => Spells (.block b) ts := by
  rw [block]
  refine (sound_take p .leftBrace).andThen fun start p₁ h₁ => .weaken ((sound_blockRest start.span [] p₁).mono ?_)
  rintro _ _ ⟨new, us, stop, rfl, rfl, hstop, hnew⟩ _ - ⟨rfl, hstart⟩
  simpa using Spells.block hstart hnew hstop
termination_by 16 * p.tokens.length

/-- The rest of a block, behind some statements. -/
theorem sound_blockRest (start : Span) (stmts : List Stmt) (p : Parser) :
    (blockRest start stmts p).Sound p fun b ts => ∃ (new : List Stmt) (us : List Token) (stop : Token),
      b = .mk (stmts.reverse ++ new) (start.cover stop.span) ∧ ts = us ++ [stop] ∧ stop.kind = .rightBrace ∧
        Spells (.stmts new) us := by
  have hstatement := sound_statement p
  rw [blockRest]
  split
  case h_1 => exact .error rfl
  case h_2 t q h hnext =>
    obtain ⟨hmoved, herrors⟩ := reads_of_next? hnext
    split
    case isTrue hkind =>
      exact .ok (.cover hmoved _ _) herrors ⟨[], [], t, by simp, rfl, hkind, .stmtsNil⟩
    case isFalse =>
      split
      case h_1 stmt p₁ h₁ hreply =>
        rw [hreply] at hstatement
        refine .weaken (hstatement.next ((sound_blockRest start (stmt :: stmts) p₁).mono ?_))
        rintro _ _ ⟨new, us, stop, rfl, rfl, hstop, hnew⟩ ts - hstmt
        exact ⟨stmt :: new, ts ++ us, stop, by simp, by simp, hstop, .stmtsCons hstmt hnew⟩
      case h_2 cause p₁ h₁ hreply =>
        rw [hreply] at hstatement
        have hlt : ((p₁.note cause).recover true).tokens.length < p.tokens.length :=
          length_recover_lt _ _ h₁ (Nat.zero_lt_of_lt h)
        exact .weaken (.of_noted (size_errors_recover_lt hstatement true) (sound_blockRest start stmts _))
termination_by 16 * p.tokens.length + 14

theorem sound_statement (p : Parser) : p.statement.Sound p fun s ts => Spells (.stmt s) ts := by
  rw [statement]
  split
  case h_1 => exact .error rfl
  case h_2 t p₁ h₁ hnext =>
    obtain ⟨hmoved, hsame⟩ := reads_of_next? hnext
    split
    case h_1 hkind =>
      refine .behind hmoved hsame ((sound_identifier _).andThen fun name p₂ h₂ => ?_)
      refine (sound_take p₂ .equal).andThen fun equal p₃ h₃ => (sound_expr p₃).andThen fun value p₄ h₄ => ?_
      obtain ⟨stop, hends, hreads, herrors⟩ := reads_semicolon p₄
      refine .ok (.cover hreads _ _) herrors ?_
      rintro ts hvalueReads hvalue _ hequalReads ⟨rfl, hequal⟩ _ - ⟨nameToken, rfl, hname, rfl⟩
      have hlast : p₄.semicolon.1.last = lastSpan equal.span (ts ++ stop) := by
        rw [hreads.last, hvalueReads.last, hequalReads.last, lastSpan_append]
        rfl
      rw [hlast]
      simpa using Spells.letStmt hkind hname hequal hvalue hends
    case h_2 hkind =>
      refine .behind hmoved hsame ((sound_expr _).andThen fun value p₂ h₂ => ?_)
      obtain ⟨stop, hends, hreads, herrors⟩ := reads_semicolon p₂
      refine .ok (.cover hreads _ _) herrors ?_
      intro ts hvalueReads hvalue
      have hlast : p₂.semicolon.1.last = lastSpan t.span (ts ++ stop) := by
        rw [hreads.last, hvalueReads.last, hmoved.last, lastSpan_append]
        rfl
      rw [hlast]
      exact .returnStmt hkind hvalue hends
    case h_3 =>
      refine (sound_expr _).andThen fun e p₂ h₂ => ?_
      obtain ⟨stop, hends, hreads, herrors⟩ := reads_semicolon p₂
      refine .ok (.cover hreads _ _) herrors ?_
      intro ts heReads he
      have hlast : p₂.semicolon.1.last = lastSpan e.span (ts ++ stop) := by
        rw [hreads.last, heReads.last, ← lastSpan_append]
        exact lastSpan_of_ne_nil (List.append_ne_nil_of_left_ne_nil he.ne_nil _)
      rw [hlast]
      exact .exprStmt he hends
termination_by 16 * p.tokens.length + 13

end

/-! ### Programs -/

/-- Errors stay noted to the end of the source, and where none has been added, the tokens spell statements. -/
theorem sound_programRest (stmts : List Stmt) (p : Parser) : p.errors.size ≤ (programRest stmts p).2.errors.size ∧
    ((programRest stmts p).2.errors.size = p.errors.size →
      ∃ new, (programRest stmts p).1 = stmts.reverse ++ new ∧ Spells (.stmts new) p.tokens) := by
  have hstatement := sound_statement p
  rw [programRest]
  split
  case h_1 hnext => exact ⟨Nat.le_refl _, fun _ => ⟨[], by simp, tokens_of_next?_eq_none hnext ▸ .stmtsNil⟩⟩
  case h_2 t q h hnext =>
    split
    case h_1 stmt p₁ h₁ hreply =>
      rw [hreply] at hstatement
      obtain ⟨hle, hspells⟩ := sound_programRest (stmt :: stmts) p₁
      rcases hstatement with hlt | ⟨heq, ts, hreads, hstmt⟩
      · exact ⟨by omega, fun hsame => by omega⟩
      · refine ⟨by omega, fun hsame => ?_⟩
        obtain ⟨new, hnew, hrest⟩ := hspells (by omega)
        exact ⟨stmt :: new, by rw [hnew]; simp, hreads.tokens ▸ .stmtsCons hstmt hrest⟩
    case h_2 cause p₁ h₁ hreply =>
      rw [hreply] at hstatement
      dsimp only
      have hnoted : p.errors.size < ((p₁.note cause).recover false).errors.size := size_errors_recover_lt hstatement false
      have hlt : ((p₁.note cause).recover false).tokens.length < p.tokens.length :=
        length_recover_lt _ _ h₁ (Nat.zero_lt_of_lt h)
      have hle := (sound_programRest stmts ((p₁.note cause).recover false)).1
      exact ⟨by omega, fun hsame => by omega⟩
termination_by p.tokens.length

theorem map_token_of_lexicalErrors_nil {lexemes : List Lexeme} (h : lexemes.filterMap lexicalError? = []) :
    lexemes = (lexemes.filterMap token?).map Lexeme.token := by
  induction lexemes with
  | nil => rfl
  | cons lexeme rest ih =>
    cases lexeme with
    | error e => cases h
    | token t => exact congrArg (Lexeme.token t :: ·) (ih h)

end Parser

/-- The tokens of a source that is read without an error spell what is read. -/
theorem Program.spells_of_parse {source : String} {program : Program} (h : Program.parse source = .ok program) :
    ∃ ts, (Lexeme.scan source).1 = ts.map .token ∧ Spells (.stmts program.stmts) ts := by
  obtain ⟨hle, hspells⟩ := Parser.sound_programRest [] (Parser.ofSource source)
  unfold Program.parse at h
  dsimp only at h
  split at h
  case isFalse => cases h
  case isTrue hempty =>
    cases h
    have hzero : ((Parser.ofSource source).programRest []).2.errors.size = 0 :=
      congrArg List.length (List.isEmpty_iff.mp hempty)
    have hlexical : (Parser.ofSource source).errors.size = 0 := Nat.le_zero.mp (hzero ▸ hle)
    obtain ⟨new, hnew, hstmts⟩ := hspells (hzero.trans hlexical.symm)
    have hread : (Program.read source).program.stmts = new := hnew
    rw [hread]
    exact ⟨_, Parser.map_token_of_lexicalErrors_nil (List.eq_nil_of_length_eq_zero hlexical), hstmts⟩

end MonkeyLang
