import MonkeyLang.Proofs.CommonReading
import MonkeyLang.Proofs.SyntaxErrors
/-!
# Recovery in blocks

A statement of a block that cannot be read is dropped up to a `;`, or to the `}` of the block, so that the block ends where
it should and what follows is read outside of it. This holds unless the `}` is the very token at which the statement fails,
as in `{ let x = }`: the first token is always dropped, and then the block runs on.

Where no other brace comes before the `}` of a block, this is all that can go wrong. The grammar takes a `}` only where it has
taken a `{` before, so nothing but recovery passes the `}` of the block.
-/

namespace MonkeyLang

def Reply.Leaves {α : Type} {n : Nat} (rest : List Token) : Reply α n → Prop
  | ok _ p _ => p.tokens = rest
  | error _ _ _ => False

instance {α : Type} {n : Nat} (rest : List Token) (reply : Reply α n) : Decidable (reply.Leaves rest) :=
  match reply with
  | .ok _ p _ => inferInstanceAs (Decidable (p.tokens = rest))
  | .error _ _ _ => .isFalse id

namespace Reply.Leaves

variable {α : Type} {m n : Nat} {rest : List Token} {reply : Reply α m}

theorem weaken_iff (hle : m ≤ n) : (reply.weaken hle).Leaves rest ↔ reply.Leaves rest := by
  cases reply <;> rfl

theorem length_lt (h : reply.Leaves rest) : rest.length < m := by
  cases reply with
  | ok value p hlt =>
    cases h
    exact hlt
  | error _ _ _ => exact absurd h id

end Reply.Leaves

namespace Parser

/-! ### What recovery drops -/

/-- Once it has begun, recovery in a block drops no `}`. -/
theorem leftover_started (ts : List Token) :
    ∃ skipped, ts = skipped ++ leftover true true ts ∧ ∀ t ∈ skipped, t.kind ≠ .rightBrace := by
  induction ts with
  | nil => exact ⟨[], rfl, nofun⟩
  | cons t rest ih =>
    unfold leftover
    split
    case h_1 hkind => exact ⟨[t], rfl, by simp [hkind]⟩
    case h_2 | h_3 | h_4 => exact ⟨[], rfl, nofun⟩
    case h_5 _ hbrace _ _ =>
      obtain ⟨skipped, heq, hskipped⟩ := ih
      refine ⟨t :: skipped, congrArg (t :: ·) heq, ?_⟩
      intro u hu
      rcases List.mem_cons.mp hu with rfl | hu
      · exact hbrace
      · exact hskipped u hu

theorem leftover_first {t : Token} (hkind : t.kind ≠ .semicolon) (rest : List Token) :
    leftover true false (t :: rest) = leftover true true rest := by
  rw [leftover]
  split
  case h_1 hsemicolon => exact absurd hsemicolon hkind
  case h_2 | h_3 | h_4 | h_5 => rfl

/-- Recovery in a block drops no `}` but perhaps the first token, which it always drops. -/
theorem recover_inBlock (p : Parser) : ∃ skipped, p.tokens = skipped ++ (p.recover true).tokens ∧
    skipped.head? = p.tokens.head? ∧ ∀ t ∈ skipped.tail, t.kind ≠ .rightBrace := by
  rw [tokens_recover]
  cases p.tokens with
  | nil => exact ⟨[], rfl, rfl, nofun⟩
  | cons t rest =>
    by_cases hkind : t.kind = .semicolon
    · refine ⟨[t], ?_, rfl, nofun⟩
      simp [leftover, hkind]
    · obtain ⟨skipped, heq, hskipped⟩ := leftover_started rest
      refine ⟨t :: skipped, ?_, rfl, hskipped⟩
      rw [leftover_first hkind]
      exact congrArg (t :: ·) heq

/-! ### Where the grammar takes no brace -/

/-- A parser stands before a `}`, and no other brace comes first. -/
def Before (close : Token) (rest : List Token) (p : Parser) : Prop :=
  close.kind = .rightBrace ∧
    ∃ body, p.tokens = body ++ close :: rest ∧ ∀ t ∈ body, t.kind ≠ .leftBrace ∧ t.kind ≠ .rightBrace

section

variable {p : Parser} {close : Token} {rest : List Token}

/-- No statement takes a `}` where no `{` is left, whether it is read or fails. -/
theorem before_statement (h : p.Before close rest) : p.statement.parser.Before close rest := by
  obtain ⟨hclose, body, heq, hbody⟩ := h
  let l := p.leaving rest (heq ▸ (List.suffix_cons close rest).trans (List.suffix_append body _))
  have hfront : InFront (body ++ [close]) [] l p := ⟨by simp [l, heq], rfl, (List.append_nil _).symm⟩
  -- The parser is compared with itself: it does not come past the fence, and so it has not changed what stands behind it.
  have halike : Alike ⟨l, l, some close⟩ p p :=
    ⟨body ++ [close], [], hfront, hfront, .inr hclose, body, rfl, fun t ht => (hbody t ht).1⟩
  have hsuffix := ((Behind.laws.statement p).parser And.left).tokens
  obtain ⟨front, noted, hq, -, hparts | ⟨-, fence, hfence, hsemi⟩⟩ := (alike_statement p p halike).parser Alike.passed
  · obtain ⟨-, body', rfl, -⟩ := hparts
    have htokens : p.statement.parser.tokens = body' ++ close :: rest := by
      rw [hq.tokens]
      simp [l]
    rw [htokens, heq, List.suffix_append_self_iff] at hsuffix
    exact ⟨hclose, body', htokens, fun t ht => hbody t (hsuffix.subset ht)⟩
  · cases hfence
    cases hclose.symm.trans hsemi

/-- Recovery does not pass the `}` unless the statement has failed at it. -/
theorem Before.recover (h : p.Before close rest) (hne : p.tokens ≠ close :: rest) : (p.recover true).Before close rest := by
  obtain ⟨hclose, body, heq, hbody⟩ := h
  obtain ⟨skipped, hskip, hhead, hskipped⟩ := p.recover_inBlock
  refine ⟨hclose, ?_⟩
  cases body with
  | nil => exact absurd heq hne
  | cons first body =>
    rw [heq] at hskip hhead
    obtain ⟨skipped, rfl⟩ := List.head?_eq_some_iff.mp hhead
    have hrest : body ++ close :: rest = skipped ++ (p.recover true).tokens := List.tail_eq_of_cons_eq hskip
    -- What is dropped has no `}` behind its first token, so it ends before the `}` of the block.
    rcases List.append_eq_append_iff.mp hrest with ⟨more, hmore, hclosing⟩ | ⟨more, hmore, htokens⟩
    · cases more with
      | nil => exact ⟨[], hclosing.symm, nofun⟩
      | cons t more =>
        cases hclosing
        exact absurd hclose (hskipped close (by rw [hmore]; simp))
    · exact ⟨more, htokens, fun t ht => hbody t (by rw [hmore]; simp [ht])⟩

end

/-! ### Blocks -/

/-- Another statement of a block comes next, and not its end. -/
def InBlock (p : Parser) : Prop := ∃ t ts, p.tokens = t :: ts ∧ t.kind ≠ .rightBrace

/-- While the rest of a block is read, a statement fails and leaves a parser. -/
inductive FailsIn : Parser → Parser → Prop
  | here {p q cause h} (hopen : p.InBlock) (hfail : p.statement = .error cause q h) : FailsIn p q
  | behind {p p₁ q stmt h} (hopen : p.InBlock) (hread : p.statement = .ok stmt p₁ h) (hrest : FailsIn p₁ q) : FailsIn p q
  | recovered {p p₁ q cause h} (hopen : p.InBlock) (hfail : p.statement = .error cause p₁ h)
      (hrest : FailsIn ((p₁.note cause).recover true) q) : FailsIn p q

variable {p q : Parser} {close t : Token} {rest ts : List Token} {start : Span} {stmts : List Stmt}

theorem blockRest_leaves_of_ok {stmt : Stmt} {h : q.tokens.length < p.tokens.length} (hopen : p.InBlock)
    (hread : p.statement = .ok stmt q h) :
    (blockRest start stmts p).Leaves rest ↔ (blockRest start (stmt :: stmts) q).Leaves rest := by
  obtain ⟨t, ts, htokens, hkind⟩ := hopen
  rw [blockRest_of_ok htokens hkind hread, Reply.Leaves.weaken_iff]

theorem blockRest_leaves_of_error {cause : ParseError} {h : q.tokens.length ≤ p.tokens.length} (hopen : p.InBlock)
    (hfail : p.statement = .error cause q h) :
    (blockRest start stmts p).Leaves rest ↔ (blockRest start stmts ((q.note cause).recover true)).Leaves rest := by
  obtain ⟨t, ts, htokens, hkind⟩ := hopen
  rw [blockRest_of_error htokens hkind hfail, Reply.Leaves.weaken_iff]

/-- A block ends at its `}` if no statement fails there. -/
theorem blockRest_leaves (stmts : List Stmt) (p : Parser) (h : p.Before close rest)
    (hfine : ∀ q, p.FailsIn q → q.tokens ≠ close :: rest) : (blockRest start stmts p).Leaves rest := by
  have hstatement := before_statement h
  obtain ⟨hclose, body, heq, hbody⟩ := h
  cases body with
  | nil =>
    rw [blockRest_of_close heq hclose]
    exact Eq.refl rest
  | cons first body =>
    have hopen : p.InBlock := ⟨first, body ++ close :: rest, heq, (hbody first List.mem_cons_self).2⟩
    cases hreply : p.statement with
    | ok stmt q hlt =>
      rw [hreply] at hstatement
      rw [blockRest_leaves_of_ok hopen hreply]
      exact blockRest_leaves _ q hstatement fun q' hq' => hfine q' (.behind hopen hreply hq')
    | error cause q hle =>
      rw [hreply] at hstatement
      rw [blockRest_leaves_of_error hopen hreply]
      have hshorter : ((q.note cause).recover true).tokens.length < p.tokens.length :=
        length_recover_lt _ _ hle (by rw [heq]; exact Nat.succ_pos _)
      have hrecovered : ((q.note cause).recover true).Before close rest :=
        Before.recover hstatement (hfine q (.here hopen hreply))
      exact blockRest_leaves stmts _ hrecovered fun q' hq' => hfine q' (.recovered hopen hreply hq')
termination_by p.tokens.length

/-- Where a statement fails at the `}` of a block, the block does not end there. -/
theorem FailsIn.not_leaves (h : p.FailsIn q) (hq : q.tokens = close :: rest) (stmts : List Stmt) :
    ¬ (blockRest start stmts p).Leaves rest := by
  induction h generalizing stmts with
  | @here p q cause h hopen hfail =>
    rw [blockRest_leaves_of_error hopen hfail]
    intro hleaves
    -- Recovery drops the `}`, and the block takes one more token to its end, so less is left than stands behind the `}`.
    have hlt := hleaves.length_lt
    have hrecover : ((q.note cause).recover true).tokens.length < (close :: rest).length :=
      length_recover_lt _ _ (by simp [hq]) (Nat.succ_pos _)
    rw [List.length_cons] at hrecover
    omega
  | behind hopen hread _ ih =>
    rw [blockRest_leaves_of_ok hopen hread]
    exact ih hq _
  | recovered hopen hfail _ ih =>
    rw [blockRest_leaves_of_error hopen hfail]
    exact ih hq _

theorem blockRest_leaves_iff (h : p.Before close rest) (stmts : List Stmt) :
    (blockRest start stmts p).Leaves rest ↔ ∀ q, p.FailsIn q → q.tokens ≠ close :: rest := by
  constructor
  · intro hleaves q hfails hq
    exact hfails.not_leaves hq stmts hleaves
  · exact blockRest_leaves stmts p h

/-- A block is read from its `{` on. -/
theorem block_leaves_iff_blockRest (htokens : p.tokens = t :: ts) (hkind : t.kind = .leftBrace) :
    p.block.Leaves rest ↔ (blockRest t.span [] (p.moveTo htokens)).Leaves rest := by
  rw [block]
  simp only [take, next?_of_cons htokens, if_pos hkind]
  exact Reply.Leaves.weaken_iff (Nat.le_of_lt (p.length_moveTo_lt htokens))

/-- What recovery in a block drops starts with the token at which a statement failed, and has no `}` behind it. So where no
other brace comes before the `}` of a block, the block ends there, and what follows is left to be read, just if no further
statement fails at this `}`; this is true from the `{` on and from any statement in the block on. -/
theorem block_leaves_iff (p : Parser) :
    (∃ skipped, p.tokens = skipped ++ (p.recover true).tokens ∧ skipped.head? = p.tokens.head? ∧
      ∀ t ∈ skipped.tail, t.kind ≠ .rightBrace) ∧
    ∀ body close rest, close.kind = .rightBrace → (∀ t ∈ body, t.kind ≠ .leftBrace ∧ t.kind ≠ .rightBrace) →
      (p.tokens = body ++ close :: rest → ∀ start stmts, (blockRest start stmts p).Leaves rest ↔
        ∀ q, p.FailsIn q → q.tokens ≠ close :: rest) ∧
      ∀ (opening : Token) (htokens : p.tokens = opening :: (body ++ close :: rest)), opening.kind = .leftBrace →
        (p.block.Leaves rest ↔ ∀ q, (p.moveTo htokens).FailsIn q → q.tokens ≠ close :: rest) := by
  refine ⟨p.recover_inBlock, fun body close rest hclose hbody => ⟨?_, ?_⟩⟩
  · intro htokens start stmts
    exact blockRest_leaves_iff ⟨hclose, body, htokens, hbody⟩ stmts
  · intro opening htokens hopening
    rw [block_leaves_iff_blockRest htokens hopening]
    exact blockRest_leaves_iff ⟨hclose, body, rfl, hbody⟩ []

/-- A block with a statement that fails, and a name behind the block. -/
def namelessLet : Parser := .ofSource "{ let = 1; let y = 2; y } z"

theorem block_leaves_namelessLet : ∃ (opening : Token) (body : List Token) (close : Token) (rest : List Token)
    (htokens : namelessLet.tokens = opening :: (body ++ close :: rest)), rest.map Token.lexeme = ["z"] ∧
      namelessLet.block.Leaves rest ∧ ∀ q, (namelessLet.moveTo htokens).FailsIn q → q.tokens ≠ close :: rest := by
  let body := namelessLet.tokens.tail.take 10
  let close : Token := ⟨.rightBrace, "\x7d", ⟨1, 25, 1⟩⟩
  let rest : List Token := [⟨.identifier, "z", ⟨1, 27, 1⟩⟩]
  have htokens : namelessLet.tokens = ⟨.leftBrace, "\x7b", ⟨1, 1, 1⟩⟩ :: (body ++ close :: rest) := by decide +kernel
  have hbody : ∀ t ∈ body, t.kind ≠ .leftBrace ∧ t.kind ≠ .rightBrace := by decide +kernel
  have hleaves : namelessLet.block.Leaves rest := by decide +kernel
  have hiff := ((block_leaves_iff namelessLet).2 body close rest rfl hbody).2 _ htokens rfl
  exact ⟨_, body, close, rest, htokens, rfl, hleaves, hiff.mp hleaves⟩

/-- A block whose only statement has no value, and a name behind the block. -/
def unfinishedLet : Parser := .ofSource "{ let x = } y"

/-- The statement fails at the `}` of the block, recovery drops it, and the block takes up what follows. -/
theorem block_passes_brace :
    (∃ cause q h, unfinishedLet.advance.2.statement = .error cause q h ∧
      q.tokens.map Token.kind = [.rightBrace, .identifier] ∧ ((q.note cause).recover true).tokens = []) ∧
    unfinishedLet.block.outcome.toOption = none ∧ ¬ unfinishedLet.block.Leaves (unfinishedLet.tokens.drop 5) := by
  refine ⟨?_, by decide +kernel, by decide +kernel⟩
  have hfail : unfinishedLet.advance.2.statement.outcome.toOption.isNone := by decide +kernel
  have hkinds : unfinishedLet.advance.2.statement.parser.tokens.map Token.kind = [.rightBrace, .identifier] := by
    decide +kernel
  have hdropped : (unfinishedLet.advance.2.statement.parser.recover true).tokens = [] := by decide +kernel
  cases hreply : unfinishedLet.advance.2.statement with
  | ok stmt q h =>
    rw [hreply] at hfail
    cases hfail
  | error cause q h =>
    rw [hreply] at hkinds hdropped
    refine ⟨cause, q, h, rfl, hkinds, ?_⟩
    rw [tokens_recover] at hdropped ⊢
    exact hdropped

end Parser

end MonkeyLang
