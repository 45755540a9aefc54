import MonkeyLang.Proofs.ParserSoundness
/-!
# What reading does to a parser

Reading moves a parser past tokens, puts down the spans that are covered, and notes the errors of statements that are dropped. It
stops behind a phrase or at an error. `ReadingLaws` says what relations between the states of a parser have to keep to hold
along every reading, with a law for each thing that a parser does by itself. The grammar is gone through once, for all such
relations; whatever is known of the states of a parser is known from the laws.
-/

namespace MonkeyLang

/-- A span is that of a token still to be read, or of the end of the source. -/
def Parser.Faces (p : Parser) (s : Span) : Prop := s = p.eof.span ∨ ∃ t ∈ p.tokens, s = t.span

theorem Parser.Faces.peek (p : Parser) : p.Faces p.peek.span := by
  unfold Parser.peek
  cases htokens : p.tokens with
  | nil => exact .inl rfl
  | cons t rest => exact .inr ⟨t, htokens ▸ List.mem_cons_self, rfl⟩

theorem Parser.Faces.next? {p q : Parser} {t : Token} {hlt : q.tokens.length < p.tokens.length}
    (h : p.next? = some (t, ⟨q, hlt⟩)) : p.Faces t.span := by
  obtain ⟨rest, htokens, -⟩ := Parser.eq_moveTo_of_next? h
  exact .inr ⟨t, htokens ▸ List.mem_cons_self, rfl⟩

theorem Parser.Faces.eof (p : Parser) : p.Faces p.eof.span := .inl rfl

/-! ### Blocks statement by statement -/

namespace Parser

variable {p q : Parser} {t : Token} {ts : List Token} {start : Span} {stmts : List Stmt}

theorem blockRest_of_nil (htokens : p.tokens = []) :
    blockRest start stmts p = .error (p.unexpected .rightBrace) p (Nat.le_refl _) := by
  rw [blockRest]
  simp only [next?_of_nil htokens]

theorem blockRest_of_close (htokens : p.tokens = t :: ts) (hkind : t.kind = .rightBrace) :
    blockRest start stmts p = .ok (.mk stmts.reverse (start.cover t.span)) ((p.moveTo htokens).cover start t.span).2
      (by rw [htokens]; exact Nat.lt_succ_self _) := by
  rw [blockRest]
  simp only [next?_of_cons htokens, if_pos hkind]
  rfl

theorem blockRest_of_ok {stmt : Stmt} {h : q.tokens.length < p.tokens.length} (htokens : p.tokens = t :: ts)
    (hkind : t.kind ≠ .rightBrace) (hread : p.statement = .ok stmt q h) :
    blockRest start stmts p = (blockRest start (stmt :: stmts) q).weaken (Nat.le_of_lt h) := by
  rw [blockRest]
  simp only [next?_of_cons htokens, if_neg hkind, hread]

theorem blockRest_of_error {cause : ParseError} {h : q.tokens.length ≤ p.tokens.length} (htokens : p.tokens = t :: ts)
    (hkind : t.kind ≠ .rightBrace) (hfail : p.statement = .error cause q h) :
    blockRest start stmts p = (blockRest start stmts ((q.note cause).recover true)).weaken
      (Nat.le_of_lt (length_recover_lt _ _ h (by rw [htokens]; exact Nat.succ_pos _))) := by
  rw [blockRest]
  simp only [next?_of_cons htokens, if_neg hkind, hfail]

end Parser

/-! ### Laws -/

/-- Relations between the states of a parser that hold along every reading: between the states around a phrase that is read,
around any number of phrases, and from the start of a phrase to an error in it. -/
structure ReadingLaws (reads passes : Parser → Parser → Prop) (fails : Parser → ParseError → Parser → Prop) : Prop where
  refl : ∀ p, passes p p
  trans : ∀ {p q r}, passes p q → passes q r → passes p r
  passes_of_reads : ∀ {p q}, reads p q → passes p q
  reads_passes : ∀ {p q r}, reads p q → passes q r → reads p r
  passes_reads : ∀ {p q r}, passes p q → reads q r → reads p r
  reads_fails : ∀ {p q r cause}, reads p q → fails q cause r → fails p cause r
  moveTo : ∀ {p : Parser} {t rest} (h : p.tokens = t :: rest), reads p (p.moveTo h)
  cover : ∀ (p : Parser) a b, passes p (p.cover a b).2
  cover_fails : ∀ {p q : Parser} {a b cause}, fails (p.cover a b).2 cause q → fails p cause q
  /-- An error at the next token, which is left. -/
  fails_here : ∀ {p : Parser} {cause : ParseError}, p.Faces cause.span → fails p cause p
  /-- An error in the next token, which is taken. -/
  fails_behind : ∀ {p : Parser} {t rest} {cause : ParseError} (h : p.tokens = t :: rest), cause.span = t.span →
    fails p cause (p.moveTo h)
  recover : ∀ {p q : Parser} {cause}, p.tokens ≠ [] → fails p cause q → ∀ inBlock,
    passes p ((q.note cause).recover inBlock)

/-- Where reading from a state stops, by what has been read: behind a phrase, or at an error. -/
def Reply.Does {α : Type} {n : Nat} (reads : Parser → Parser → Prop) (fails : Parser → ParseError → Parser → Prop)
    (p : Parser) : Reply α n → Prop
  | ok _ q _ => reads p q
  | error cause q _ => fails p cause q

theorem Reply.Does.weaken {α : Type} {m n : Nat} {reads : Parser → Parser → Prop}
    {fails : Parser → ParseError → Parser → Prop} {p : Parser} {reply : Reply α m} {hle : m ≤ n}
    (h : reply.Does reads fails p) : (reply.weaken hle).Does reads fails p := by
  cases reply <;> exact h

/-- Reading comes to where it stops, either way. -/
theorem Reply.Does.parser {α : Type} {n : Nat} {reads : Parser → Parser → Prop} {fails : Parser → ParseError → Parser → Prop}
    {p : Parser} {reply : Reply α n} (h : reply.Does reads fails p) (hfails : ∀ {cause q}, fails p cause q → reads p q) :
    reads p reply.parser := by
  cases reply with
  | ok value q _ => exact h
  | error cause q _ => exact hfails h

namespace ReadingLaws

variable {reads passes : Parser → Parser → Prop} {fails : Parser → ParseError → Parser → Prop} {α β : Type} {m n : Nat}
  {p q : Parser}

/-! ### Replies -/

theorem pass (laws : ReadingLaws reads passes fails) {reply : Reply α n} (h : reply.Does reads fails p) :
    reply.Does passes fails p := by
  cases reply with
  | ok value r _ => exact laws.passes_of_reads h
  | error cause r _ => exact h

/-- A reply behind something that has been read. -/
theorem behind (laws : ReadingLaws reads passes fails) {reply : Reply α n} (hreads : reads p q)
    (h : reply.Does passes fails q) : reply.Does reads fails p := by
  cases reply with
  | ok value r _ => exact laws.reads_passes hreads h
  | error cause r _ => exact laws.reads_fails hreads h

theorem andThen (laws : ReadingLaws reads passes fails) {reply : Reply α m} {hle : m ≤ n}
    {next : α → (p : Parser) → p.tokens.length < m → Reply β n} (h : reply.Does reads fails p)
    (hnext : ∀ value q hlt, (next value q hlt).Does passes fails q) : (reply.andThen hle next).Does reads fails p := by
  cases reply with
  | ok value q hlt => exact laws.behind h (hnext value q hlt)
  | error cause q _ => exact h

theorem covered (laws : ReadingLaws reads passes fails) {a b : Span} {reply : Reply α n}
    (h : reply.Does passes fails (p.cover a b).2) : reply.Does passes fails p := by
  cases reply with
  | ok value r _ => exact laws.trans (laws.cover p a b) h
  | error cause r _ => exact laws.cover_fails h

/-- The rest of a block behind some of its statements. -/
theorem round (laws : ReadingLaws reads passes fails) {reply : Reply α n} (hpassed : passes p q)
    (h : reply.Does reads (fun p cause q => passes p q ∧ q.Faces cause.span) q) :
    reply.Does reads (fun p cause q => passes p q ∧ q.Faces cause.span) p := by
  cases reply with
  | ok value r _ => exact laws.passes_reads hpassed h
  | error cause r _ => exact ⟨laws.trans hpassed h.1, h.2⟩

/-- A block from its opening brace on. -/
theorem unclosed (laws : ReadingLaws reads passes fails) {reply : Reply α n} (hopen : reads p q)
    (h : reply.Does reads (fun p cause q => passes p q ∧ q.Faces cause.span) q) : reply.Does reads fails p := by
  cases reply with
  | ok value r _ => exact laws.reads_passes hopen (laws.passes_of_reads h)
  | error cause r _ => exact laws.reads_fails (laws.reads_passes hopen h.1) (laws.fails_here h.2)

/-! ### Single tokens -/

theorem next? (laws : ReadingLaws reads passes fails) {t : Token} {hlt : q.tokens.length < p.tokens.length}
    (h : p.next? = some (t, ⟨q, hlt⟩)) : reads p q := by
  obtain ⟨rest, htokens, rfl⟩ := Parser.eq_moveTo_of_next? h
  exact laws.moveTo htokens

/-- An error in the token that has been taken. -/
theorem fails_next? (laws : ReadingLaws reads passes fails) {t : Token} {hlt : q.tokens.length < p.tokens.length}
    {cause : ParseError} (h : p.next? = some (t, ⟨q, hlt⟩)) (hspan : cause.span = t.span) : fails p cause q := by
  obtain ⟨rest, htokens, rfl⟩ := Parser.eq_moveTo_of_next? h
  exact laws.fails_behind htokens hspan

theorem behind? (laws : ReadingLaws reads passes fails) {kind : TokenKind} {hlt : q.tokens.length < p.tokens.length}
    (h : p.behind? kind = some ⟨q, hlt⟩) : reads p q := by
  obtain ⟨t, hnext, -⟩ := Parser.next?_of_behind? h
  exact laws.next? hnext

theorem chainOp? (laws : ReadingLaws reads passes fails) {level : ChainLevel} {op : BinaryOp}
    {hlt : q.tokens.length < p.tokens.length} (h : p.chainOp? level = some (op, ⟨q, hlt⟩)) : reads p q := by
  obtain ⟨t, hnext, -⟩ := Parser.next?_of_chainOp? h
  exact laws.next? hnext

theorem semicolon (laws : ReadingLaws reads passes fails) (p : Parser) : passes p p.semicolon.1 := by
  unfold Parser.semicolon
  split
  case h_1 q hlt hbehind => exact laws.passes_of_reads (laws.behind? hbehind)
  case h_2 => exact laws.refl p

theorem take (laws : ReadingLaws reads passes fails) (p : Parser) (kind : TokenKind) : (p.take kind).Does reads fails p := by
  unfold Parser.take
  split
  case h_1 t q h hnext =>
    split
    case isTrue => exact laws.next? hnext
    case isFalse => exact laws.fails_here (Parser.Faces.peek p)
  case h_2 => exact laws.fails_here (Parser.Faces.peek p)

theorem identifier (laws : ReadingLaws reads passes fails) (p : Parser) : p.identifier.Does reads fails p := by
  unfold Parser.identifier
  split
  case h_1 t q h hnext =>
    split
    case isTrue => exact laws.next? hnext
    case isFalse => exact laws.fails_here (Parser.Faces.next? hnext)
  case h_2 => exact laws.fails_here (Parser.Faces.eof p)

theorem paramsRest (laws : ReadingLaws reads passes fails) (names : List Ident) (p : Parser) :
    (Parser.paramsRest names p).Does reads fails p := by
  rw [Parser.paramsRest]
  refine laws.andThen (laws.identifier p) fun param p₁ h₁ => laws.pass ?_
  split
  case h_1 p₂ h₂ hbehind => exact .weaken (laws.behind (laws.behind? hbehind) (laws.pass (laws.paramsRest _ p₂)))
  case h_2 => exact laws.andThen (laws.take p₁ .rightParen) fun _ p₃ h₃ => laws.refl p₃
termination_by p.tokens.length

theorem params (laws : ReadingLaws reads passes fails) (p : Parser) : p.params.Does reads fails p := by
  unfold Parser.params
  split
  case h_1 q h hbehind => exact laws.behind? hbehind
  case h_2 => exact laws.paramsRest [] p

/-! ### Phrases -/

mutual

theorem expr (laws : ReadingLaws reads passes fails) (p : Parser) : p.expr.Does reads fails p := by
  rw [Parser.expr]
  exact laws.chain .comparison p
termination_by 16 * p.tokens.length + 10
decreasing_by all_goals (simp only [Parser.chainRank]; omega)

theorem chain (laws : ReadingLaws reads passes fails) (level : ChainLevel) (p : Parser) :
    (Parser.chain level p).Does reads fails p := by
  rw [Parser.chain]
  exact laws.andThen (laws.operand level p) fun first p₁ h₁ => .weaken (laws.chainRest level first [] p₁)
termination_by 16 * p.tokens.length + Parser.chainRank level
decreasing_by all_goals (cases level <;> simp only [Parser.chainRank] <;> omega)

theorem operand (laws : ReadingLaws reads passes fails) (level : ChainLevel) (p : Parser) :
    (Parser.operand level p).Does reads fails p := by
  cases level with
  | comparison =>
    rw [Parser.operand]
    exact laws.chain .addition p
  | addition =>
    rw [Parser.operand]
    exact laws.chain .multiplication p
  | multiplication =>
    rw [Parser.operand]
    exact laws.unary p
termination_by 16 * p.tokens.length + Parser.chainRank level - 1
decreasing_by all_goals (simp only [Parser.chainRank]; omega)

theorem chainRest (laws : ReadingLaws reads passes fails) (level : ChainLevel) (first : Expr) (rest : List (BinaryOp × Expr))
    (p : Parser) : (Parser.chainRest level first rest p).Does passes fails p := by
  rw [Parser.chainRest]
  split
  case h_1 op p₁ h₁ hop =>
    refine laws.pass (laws.behind (laws.chainOp? hop) (laws.pass ?_))
    refine laws.andThen (laws.operand level p₁) fun e p₂ h₂ => ?_
    exact .weaken (laws.chainRest level first ((op, e) :: rest) p₂)
  case h_2 =>
    split
    case isTrue => exact laws.refl p
    case isFalse => exact laws.cover p _ _
termination_by 16 * p.tokens.length
decreasing_by
  · cases level <;> simp only [Parser.chainRank] <;> omega
  · omega

theorem unary (laws : ReadingLaws reads passes fails) (p : Parser) : p.unary.Does reads fails p := by
  rw [Parser.unary]
  split
  case h_1 t p₁ h₁ hnext =>
    split
    case h_1 op hop =>
      refine laws.behind (laws.next? hnext) (laws.pass ?_)
      exact laws.andThen (laws.unary p₁) fun e p₂ h₂ => laws.cover p₂ _ _
    case h_2 => exact laws.andThen (laws.primary p) fun e p₂ h₂ => .weaken (laws.postfixed e p₂)
  case h_2 => exact laws.fails_here (.eof p)
termination_by 16 * p.tokens.length + 2

theorem postfixed (laws : ReadingLaws reads passes fails) (e : Expr) (p : Parser) :
    (Parser.postfixed e p).Does passes fails p := by
  rw [Parser.postfixed]
  split
  case h_1 p₁ h₁ hbehind =>
    refine laws.pass (laws.behind (laws.behind? hbehind) (laws.pass ?_))
    refine laws.andThen (laws.exprList .rightParen p₁) fun args p₂ h₂ => ?_
    exact .weaken (laws.covered (laws.postfixed _ _))
  case h_2 =>
    split
    case h_1 p₁ h₁ hbehind =>
      refine laws.pass (laws.behind (laws.behind? hbehind) (laws.pass ?_))
      refine laws.andThen (laws.expr p₁) fun i p₂ h₂ => laws.pass ?_
      refine laws.andThen (laws.take p₂ .rightBracket) fun close p₃ h₃ => ?_
      exact .weaken (laws.covered (laws.postfixed _ _))
    case h_2 => exact laws.refl p
termination_by 16 * p.tokens.length
decreasing_by all_goals ((try simp only [Parser.tokens_cover]); omega)

theorem primary (laws : ReadingLaws reads passes fails) (p : Parser) : p.primary.Does reads fails p := by
  rw [Parser.primary]
  split
  case h_1 => exact laws.fails_here (.eof p)
  case h_2 t p₁ h₁ hnext =>
    have hmoved := laws.next? hnext
    split
    case h_1 =>
      unfold Parser.intLiteral
      cases Literal.int? t.lexeme with
      | none => exact laws.fails_next? hnext rfl
      | some value => exact hmoved
    case h_2 =>
      unfold Parser.stringLiteral
      cases Literal.string t.lexeme with
      | error fault => exact laws.fails_next? hnext rfl
      | ok value => exact hmoved
    case h_3 | h_4 | h_5 => exact hmoved
    case h_6 =>
      refine laws.behind hmoved (laws.pass (laws.andThen (laws.expr _) fun e p₂ h₂ => laws.pass ?_))
      exact laws.andThen (laws.take p₂ .rightParen) fun close p₃ h₃ => laws.cover p₃ _ _
    case h_7 =>
      refine laws.behind hmoved (laws.pass ?_)
      exact laws.andThen (laws.exprList .rightBracket _) fun elements p₂ h₂ => laws.cover p₂ _ _
    case h_8 =>
      exact laws.behind hmoved (laws.pass (laws.andThen (laws.pairs _) fun entries p₂ h₂ => laws.cover p₂ _ _))
    case h_9 =>
      refine laws.behind hmoved (laws.pass (laws.andThen (laws.take _ .leftParen) fun start p₂ h₂ => laws.pass ?_))
      refine laws.andThen (laws.params p₂) fun ps p₃ h₃ => laws.pass ?_
      exact laws.andThen (laws.block p₃) fun body p₄ h₄ => laws.cover p₄ _ _
    case h_10 =>
      refine laws.behind hmoved (laws.pass (laws.andThen (laws.take _ .leftParen) fun start p₂ h₂ => laws.pass ?_))
      refine laws.andThen (laws.expr p₂) fun condition p₃ h₃ => laws.pass ?_
      refine laws.andThen (laws.take p₃ .rightParen) fun stop p₄ h₄ => laws.pass ?_
      refine laws.andThen (laws.block p₄) fun thenBlock p₅ h₅ => ?_
      split
      case h_1 p₆ h₆ hbehind =>
        refine laws.pass (laws.behind (laws.behind? hbehind) (laws.pass ?_))
        exact laws.andThen (laws.block p₆) fun elseBlock p₇ h₇ => laws.cover p₇ _ _
      case h_2 => exact laws.cover p₅ _ _
    case h_11 => exact laws.fails_here (.next? hnext)
termination_by 16 * p.tokens.length + 1

theorem exprList (laws : ReadingLaws reads passes fails) (close : TokenKind) (p : Parser) :
    (Parser.exprList close p).Does reads fails p := by
  rw [Parser.exprList]
  split
  case h_1 q h hbehind => exact laws.behind? hbehind
  case h_2 => exact laws.exprListRest close [] p
termination_by 16 * p.tokens.length + 12
decreasing_by all_goals omega

theorem exprListRest (laws : ReadingLaws reads passes fails) (close : TokenKind) (items : List Expr) (p : Parser) :
    (Parser.exprListRest close items p).Does reads fails p := by
  rw [Parser.exprListRest]
  refine laws.andThen (laws.expr p) fun item p₁ h₁ => laws.pass ?_
  split
  case h_1 p₂ h₂ hbehind =>
    exact .weaken (laws.behind (laws.behind? hbehind) (laws.pass (laws.exprListRest close (item :: items) p₂)))
  case h_2 => exact laws.andThen (laws.take p₁ close) fun stop p₃ h₃ => laws.refl p₃
termination_by 16 * p.tokens.length + 11
decreasing_by all_goals omega

theorem pairs (laws : ReadingLaws reads passes fails) (p : Parser) : p.pairs.Does reads fails p := by
  rw [Parser.pairs]
  split
  case h_1 q h hbehind => exact laws.behind? hbehind
  case h_2 => exact laws.pairsRest [] p
termination_by 16 * p.tokens.length + 12
decreasing_by all_goals omega

theorem pairsRest (laws : ReadingLaws reads passes fails) (entries : List (Expr × Expr)) (p : Parser) :
    (Parser.pairsRest entries p).Does reads fails p := by
  rw [Parser.pairsRest]
  refine laws.andThen (laws.expr p) fun key p₁ h₁ => laws.pass ?_
  refine laws.andThen (laws.take p₁ .colon) fun colon p₂ h₂ => laws.pass ?_
  refine laws.andThen (laws.expr p₂) fun value p₃ h₃ => laws.pass ?_
  split
  case h_1 p₄ h₄ hbehind =>
    exact .weaken (laws.behind (laws.behind? hbehind) (laws.pass (laws.pairsRest ((key, value) :: entries) p₄)))
  case h_2 => exact laws.andThen (laws.take p₃ .rightBrace) fun stop p₅ h₅ => laws.refl p₅
termination_by 16 * p.tokens.length + 11
decreasing_by all_goals omega

theorem block (laws : ReadingLaws reads passes fails) (p : Parser) : p.block.Does reads fails p := by
  have hopen := laws.take p .leftBrace
  rw [Parser.block]
  cases htake : p.take .leftBrace with
  | error cause q hle =>
    rw [htake] at hopen
    exact hopen
  | ok start p₁ h₁ =>
    rw [htake] at hopen
    dsimp only [Reply.andThen]
    exact .weaken (laws.unclosed hopen (laws.blockRest start.span [] p₁))
termination_by 16 * p.tokens.length
decreasing_by all_goals omega

/-- The statements of a block that is not closed are passed all the same, with an error at the end. -/
theorem blockRest (laws : ReadingLaws reads passes fails) (start : Span) (stmts : List Stmt) (p : Parser) :
    (Parser.blockRest start stmts p).Does reads (fun p cause q => passes p q ∧ q.Faces cause.span) p := by
  have hstatement := laws.statement p
  rw [Parser.blockRest]
  split
  case h_1 => exact ⟨laws.refl p, .peek p⟩
  case h_2 t q h hnext =>
    split
    case isTrue => exact laws.reads_passes (laws.next? hnext) (laws.cover q _ _)
    case isFalse =>
      split
      case h_1 stmt p₁ h₁ hreply =>
        rw [hreply] at hstatement
        exact .weaken (laws.round (laws.passes_of_reads hstatement) (laws.blockRest start (stmt :: stmts) p₁))
      case h_2 cause p₁ h₁ hreply =>
        rw [hreply] at hstatement
        have hlt : ((p₁.note cause).recover true).tokens.length < p.tokens.length :=
          Parser.length_recover_lt _ _ h₁ (Nat.zero_lt_of_lt h)
        have hpassed := laws.recover (List.ne_nil_of_length_pos (Nat.zero_lt_of_lt h)) hstatement true
        exact .weaken (laws.round hpassed (laws.blockRest start stmts _))
termination_by 16 * p.tokens.length + 14

theorem statement (laws : ReadingLaws reads passes fails) (p : Parser) : p.statement.Does reads fails p := by
  have hend (q : Parser) (a b : Span) : passes q (q.semicolon.1.cover a b).2 :=
    laws.trans (laws.semicolon q) (laws.cover _ a b)
  rw [Parser.statement]
  split
  case h_1 => exact laws.fails_here (.eof p)
  case h_2 t p₁ h₁ hnext =>
    have hmoved := laws.next? hnext
    split
    case h_1 =>
      refine laws.behind hmoved (laws.pass (laws.andThen (laws.identifier p₁) fun name p₂ h₂ => laws.pass ?_))
      refine laws.andThen (laws.take p₂ .equal) fun equal p₃ h₃ => laws.pass ?_
      exact laws.andThen (laws.expr p₃) fun value p₄ h₄ => hend p₄ _ _
    case h_2 =>
      exact laws.behind hmoved (laws.pass (laws.andThen (laws.expr p₁) fun value p₂ h₂ => hend p₂ _ _))
    case h_3 => exact laws.andThen (laws.expr p) fun e p₂ h₂ => hend p₂ _ _
termination_by 16 * p.tokens.length + 13

end

/-- From any state to the end of the source. -/
theorem programRest (laws : ReadingLaws reads passes fails) (stmts : List Stmt) (p : Parser) :
    passes p (Parser.programRest stmts p).2 := by
  have hstatement := laws.statement p
  rw [Parser.programRest]
  split
  case h_1 => exact laws.refl p
  case h_2 t q h hnext =>
    split
    case h_1 stmt p₁ h₁ hreply =>
      rw [hreply] at hstatement
      exact laws.trans (laws.passes_of_reads hstatement) (laws.programRest (stmt :: stmts) p₁)
    case h_2 cause p₁ h₁ hreply =>
      rw [hreply] at hstatement
      have hlt : ((p₁.note cause).recover false).tokens.length < p.tokens.length :=
        Parser.length_recover_lt _ _ h₁ (Nat.zero_lt_of_lt h)
      have hpassed := laws.recover (List.ne_nil_of_length_pos (Nat.zero_lt_of_lt h)) hstatement false
      exact laws.trans hpassed (laws.programRest stmts _)
termination_by p.tokens.length

end ReadingLaws

end MonkeyLang
