import Mathlib.Data.List.Forall2
import MonkeyLang.Proofs.Words
/-!
# What the parser accepts

Syntax of the shape of the grammar is read back from tokens that spell its words, with the ends of statements written out. What may
stand behind an expression depends on how tightly its parts are joined: no call, no index operation, no `else`, and no operator
that would join more to it. A primary expression is read in front of any calls and index operations, which is why the statement
about it is one about all that may be read behind it.
-/

namespace MonkeyLang

theorem Expr.rank_le (e : Expr) : e.rank ≤ 4 := by
  cases e with
  | chain level =>
    have := level.rank_lt
    simp only [Expr.rank]
    omega
  | _ => simp [Expr.rank]

/-! ### Syntax without positions -/

namespace Bare

def ident (name : Ident) : Ident := ⟨name.name, default⟩

mutual

def expr : Expr → Expr
  | .int value _ => .int value default
  | .string value _ => .string value default
  | .bool value _ => .bool value default
  | .ident name => .ident (ident name)
  | .chain level first rest _ => .chain level (expr first) (operands rest) default
  | .unary op operand _ => .unary op (expr operand) default
  | .call callee args _ => .call (expr callee) (exprs args) default
  | .index object index _ => .index (expr object) (expr index) default
  | .array elements _ => .array (exprs elements) default
  | .hash entries _ _ => .hash (pairs entries) default default
  | .function params body _ => .function (params.map ident) (block body) default
  | .ifElse condition thenBlock elseBlock _ => .ifElse (expr condition) (block thenBlock) (otherwise elseBlock) default
  | .paren inner _ => .paren (expr inner) default

def operands : List (BinaryOp × Expr) → List (BinaryOp × Expr)
  | [] => []
  | (op, operand) :: rest => (op, expr operand) :: operands rest

def exprs : List Expr → List Expr
  | [] => []
  | e :: rest => expr e :: exprs rest

def pairs : List (Expr × Expr) → List (Expr × Expr)
  | [] => []
  | (key, value) :: rest => (expr key, expr value) :: pairs rest

def otherwise : Option Block → Option Block
  | none => none
  | some elseBlock => some (block elseBlock)

def stmt : Stmt → Stmt
  | .letStmt name value _ => .letStmt (ident name) (expr value) default
  | .returnStmt value _ => .returnStmt (expr value) default
  | .exprStmt e _ => .exprStmt (expr e) default

def stmts : List Stmt → List Stmt
  | [] => []
  | s :: rest => stmt s :: stmts rest

def block : Block → Block
  | .mk ss _ => .mk (stmts ss) default

end

theorem operands_append (xs ys : List (BinaryOp × Expr)) : operands (xs ++ ys) = operands xs ++ operands ys := by
  induction xs with
  | nil => rfl
  | cons x xs ih => simp [operands, ih]

theorem exprs_append (xs ys : List Expr) : exprs (xs ++ ys) = exprs xs ++ exprs ys := by
  induction xs with
  | nil => rfl
  | cons x xs ih => simp [exprs, ih]

theorem pairs_append (xs ys : List (Expr × Expr)) : pairs (xs ++ ys) = pairs xs ++ pairs ys := by
  induction xs with
  | nil => rfl
  | cons x xs ih => simp [pairs, ih]

theorem stmts_append (xs ys : List Stmt) : stmts (xs ++ ys) = stmts xs ++ stmts ys := by
  induction xs with
  | nil => rfl
  | cons x xs ih => simp [stmts, ih]

end Bare

def Program.bare (program : Program) : Program := ⟨Bare.stmts program.stmts, default⟩

/-! ### Tokens that spell words -/

/-- Tokens spell words in order, each word by one token. -/
def Words.Spelled (ws : List Word) (ts : List Token) : Prop := List.Forall₂ Word.Spelled ws ts

namespace Words.Spelled

variable {w : Word} {ws vs : List Word} {ts : List Token}

theorem nil_iff : Spelled [] ts ↔ ts = [] := List.forall₂_nil_left_iff

theorem cons_iff : Spelled (w :: ws) ts ↔ ∃ t us, w.Spelled t ∧ Spelled ws us ∧ ts = t :: us := List.forall₂_cons_left_iff

theorem append_iff : Spelled (ws ++ vs) ts ↔ ∃ us us', Spelled ws us ∧ Spelled vs us' ∧ ts = us ++ us' := by
  induction ws generalizing ts with
  | nil => simp [nil_iff]
  | cons w ws ih =>
    rw [List.cons_append, cons_iff]
    constructor
    · rintro ⟨t, rest, ht, hrest, rfl⟩
      obtain ⟨us, us', hus, hus', rfl⟩ := ih.mp hrest
      exact ⟨t :: us, us', cons_iff.mpr ⟨t, us, ht, hus, rfl⟩, hus', rfl⟩
    · rintro ⟨_, us', hws, hvs, rfl⟩
      obtain ⟨t, us, ht, hus, rfl⟩ := cons_iff.mp hws
      exact ⟨t, us ++ us', ht, ih.mpr ⟨us, us', hus, hvs, rfl⟩, rfl⟩

/-- Words between two delimiters. -/
theorem delimited {start stop : TokenKind} (h : Spelled (.fixed start :: (ws ++ [.fixed stop])) ts) :
    ∃ (t : Token) (us : List Token) (t' : Token), ts = t :: (us ++ [t']) ∧ t.kind = start ∧ Spelled ws us ∧ t'.kind = stop := by
  obtain ⟨t, _, ⟨hstart, -⟩, hrest, rfl⟩ := cons_iff.mp h
  obtain ⟨us, _, hus, hclose, rfl⟩ := append_iff.mp hrest
  obtain ⟨t', _, ⟨hstop, -⟩, hnil, rfl⟩ := cons_iff.mp hclose
  obtain rfl := nil_iff.mp hnil
  exact ⟨t, us, t', rfl, hstart, hus, hstop⟩

end Words.Spelled

def TokenKind.startsExpr : TokenKind → Bool
  | .intLiteral | .stringLiteral | .identifier | .kwTrue | .kwFalse | .kwIf | .kwFn | .minus | .bang | .leftParen
  | .leftBracket | .leftBrace => true
  | _ => false

/-- Whether the kind is one of those that stand behind a whole expression. -/
def TokenKind.endsExpr : TokenKind → Bool
  | .rightParen | .rightBracket | .rightBrace | .comma | .colon | .semicolon => true
  | _ => false

theorem TokenKind.ne_of_startsExpr {kind other : TokenKind} (h : kind.startsExpr) (hother : other.startsExpr = false) :
    kind ≠ other := by
  rintro rfl
  exact Bool.false_ne_true (hother.symm.trans h)

theorem TokenKind.not_startsExpr {kind : TokenKind} (h : kind.endsExpr) : kind.startsExpr = false := by
  cases kind <;> first | rfl | cases h

def Starts (ts : List Token) : Prop := ∃ t us, ts = t :: us ∧ t.kind.startsExpr

theorem Starts.append {ts : List Token} (h : Starts ts) (us : List Token) : Starts (ts ++ us) := by
  obtain ⟨t, ts', rfl, hstart⟩ := h
  exact ⟨t, ts' ++ us, rfl, hstart⟩

/-! ### Replies -/

/-- A parser with some errors noted and some tokens left to be read. -/
structure Parser.At (p : Parser) (errors : Array ParseError) (tokens : List Token) : Prop where
  tokens : p.tokens = tokens
  errors : p.errors = errors

namespace Reply

variable {α β : Type} {m n : Nat} {errors : Array ParseError} {rest rest' : List Token} {post mid : α → Prop}

/-- A reply gives something, with some tokens left to be read and no error noted. -/
def Gives (errors : Array ParseError) (rest : List Token) (post : α → Prop) : Reply α n → Prop
  | ok value q _ => q.At errors rest ∧ post value
  | error _ _ _ => False

namespace Gives

theorem mono {post' : α → Prop} {reply : Reply α n} (h : reply.Gives errors rest post) (hpost : ∀ value, post value → post' value) :
    reply.Gives errors rest post' := by
  cases reply with
  | ok value q _ => exact ⟨h.1, hpost value h.2⟩
  | error => exact h

theorem weaken {reply : Reply α m} {hle : m ≤ n} (h : reply.Gives errors rest post) :
    (reply.weaken hle).Gives errors rest post := by
  cases reply <;> exact h

theorem andThen {post : β → Prop} {reply : Reply α m} {hle : m ≤ n}
    {next : α → (p : Parser) → p.tokens.length < m → Reply β n} (h : reply.Gives errors rest mid)
    (hnext : ∀ value q hlt, q.At errors rest → mid value → (next value q hlt).Gives errors rest' post) :
    (reply.andThen hle next).Gives errors rest' post := by
  cases reply with
  | ok value q hlt => exact hnext value q hlt h.1 h.2
  | error => exact h.elim

theorem exists_ok {reply : Reply α n} (h : reply.Gives errors rest post) :
    ∃ value q hlt, reply = .ok value q hlt ∧ q.At errors rest ∧ post value := by
  cases reply with
  | ok value q hlt => exact ⟨value, q, hlt, rfl, h⟩
  | error => exact h.elim

end Gives

end Reply

namespace Parser

variable {p : Parser} {t : Token} {ts rest : List Token} {kind : TokenKind} {errors : Array ParseError}

/-! ### Single tokens -/

namespace At

theorem next? (h : p.At errors (t :: rest)) : ∃ q hlt, p.next? = some (t, ⟨q, hlt⟩) ∧ q.At errors rest :=
  ⟨_, _, next?_of_cons h.tokens, rfl, h.errors⟩

theorem cover (h : p.At errors rest) (a b : Span) : (p.cover a b).2.At errors rest := ⟨h.tokens, h.errors⟩

theorem take (h : p.At errors (t :: rest)) (hkind : t.kind = kind) : (p.take kind).Gives errors rest (· = t) := by
  obtain ⟨q, hlt, hnext, hq⟩ := h.next?
  simp only [Parser.take, hnext, if_pos hkind]
  exact ⟨hq, rfl⟩

theorem identifier (h : p.At errors (t :: rest)) (hkind : t.kind = .identifier) :
    p.identifier.Gives errors rest (· = t.ident) := by
  obtain ⟨q, hlt, hnext, hq⟩ := h.next?
  simp only [Parser.identifier, hnext, if_pos hkind]
  exact ⟨hq, rfl⟩

theorem behind? (h : p.At errors (t :: rest)) (hkind : t.kind = kind) :
    ∃ q hlt, p.behind? kind = some ⟨q, hlt⟩ ∧ q.At errors rest := by
  obtain ⟨q, hlt, hnext, hq⟩ := h.next?
  exact ⟨q, hlt, by simp only [Parser.behind?, hnext, if_pos hkind], hq⟩

theorem behind?_eq_none (h : p.At errors rest) (hkind : ∀ t ∈ rest.head?, t.kind ≠ kind) : p.behind? kind = none := by
  cases rest with
  | nil => simp only [Parser.behind?, next?_of_nil h.tokens]
  | cons t rest => simp only [Parser.behind?, next?_of_cons h.tokens, if_neg (hkind t rfl)]

theorem not_behind? (h : p.At errors (t :: rest)) (hkind : t.kind ≠ kind) : p.behind? kind = none := by
  refine h.behind?_eq_none fun t' ht' => ?_
  cases ht'
  exact hkind

theorem chainOp? {op : BinaryOp} (h : p.At errors (t :: rest)) (hkind : t.kind = op.tokenKind) :
    ∃ q hlt, p.chainOp? op.level = some (op, ⟨q, hlt⟩) ∧ q.At errors rest := by
  obtain ⟨q, hlt, hnext, hq⟩ := h.next?
  have hop : BinaryOp.ofTokenKind? t.kind = some op := BinaryOp.ofTokenKind?_eq_some_iff.mpr hkind.symm
  exact ⟨q, hlt, by simp only [Parser.chainOp?, hnext, hop, if_true], hq⟩

theorem chainOp?_eq_none {level : ChainLevel} (h : p.At errors rest)
    (hop : ∀ t ∈ rest.head?, ∀ op : BinaryOp, op.tokenKind = t.kind → op.level ≠ level) : p.chainOp? level = none := by
  cases rest with
  | nil => simp only [Parser.chainOp?, next?_of_nil h.tokens]
  | cons t rest =>
    simp only [Parser.chainOp?, next?_of_cons h.tokens]
    split
    case h_1 op hkind => rw [if_neg (hop t rfl op (BinaryOp.ofTokenKind?_eq_some_iff.mp hkind))]
    case h_2 => rfl

theorem semicolon (h : p.At errors (t :: rest)) (hkind : t.kind = .semicolon) : p.semicolon.1.At errors rest := by
  obtain ⟨q, hlt, hbehind, hq⟩ := h.behind? hkind
  simpa only [Parser.semicolon, hbehind] using hq

end At

/-! ### Ranks -/

/-- Reads an expression whose parts are joined at a rank or more tightly. -/
def ranked (rank : Nat) (p : Parser) : Reply Expr p.tokens.length :=
  match rank with
  | 0 => chain .comparison p
  | 1 => chain .addition p
  | 2 => chain .multiplication p
  | _ => unary p

theorem chain_eq_ranked (level : ChainLevel) (p : Parser) : chain level p = ranked level.rank p := by cases level <;> rfl

theorem operand_eq_ranked (level : ChainLevel) (p : Parser) : operand level p = ranked (level.rank + 1) p := by
  cases level <;> rw [operand] <;> rfl

/-- What may stand behind an expression that is read at a rank. -/
def Follows (rank : Nat) (rest : List Token) : Prop :=
  ∀ t ∈ rest.head?, t.kind ≠ .leftParen ∧ t.kind ≠ .leftBracket ∧ t.kind ≠ .kwElse ∧
    ∀ op : BinaryOp, op.tokenKind = t.kind → op.level.rank < rank

theorem Follows.mono {rank rank' : Nat} (h : Follows rank rest) (hle : rank ≤ rank') : Follows rank' rest := by
  intro t ht
  obtain ⟨hparen, hbracket, helse, hop⟩ := h t ht
  exact ⟨hparen, hbracket, helse, fun op hkind => Nat.lt_of_lt_of_le (hop op hkind) hle⟩

theorem follows_of_endsExpr {rank : Nat} (h : t.kind.endsExpr) : Follows rank (t :: rest) := by
  rintro _ ⟨rfl⟩
  generalize t.kind = kind at h ⊢
  have hop : ∀ op : BinaryOp, op.tokenKind ≠ kind := by
    rintro op rfl
    cases op <;> cases h
  refine ⟨?_, ?_, ?_, fun op hkind => absurd hkind (hop op)⟩
  all_goals
    rintro rfl
    cases h

theorem follows_of_op {op : BinaryOp} (h : t.kind = op.tokenKind) : Follows (op.level.rank + 1) (t :: rest) := by
  rintro _ ⟨rfl⟩
  rw [h]
  have hop : ∀ other : BinaryOp, other.tokenKind = op.tokenKind → other.level.rank < op.level.rank + 1 := by
    intro other heq
    have hsame : some other = some op := by
      rw [← BinaryOp.ofTokenKind?_eq_some_iff.mpr heq, BinaryOp.ofTokenKind?_eq_some_iff]
    cases hsame
    exact Nat.lt_succ_self _
  refine ⟨?_, ?_, ?_, hop⟩
  all_goals cases op <;> decide

theorem At.not_chainOp? {level : ChainLevel} (h : p.At errors rest) (hfollows : Follows level.rank rest) :
    p.chainOp? level = none := by
  refine h.chainOp?_eq_none fun t ht op hkind hlevel => ?_
  have hlt := (hfollows t ht).2.2.2 op hkind
  rw [hlevel] at hlt
  exact Nat.lt_irrefl _ hlt

/-- An operand alone is read as a chain if no operator of the level stands behind it. -/
theorem gives_chain_of_operand {level : ChainLevel} {post : Expr → Prop} (h : (operand level p).Gives errors rest post)
    (hfollows : Follows level.rank rest) : (chain level p).Gives errors rest post := by
  rw [chain]
  refine h.andThen fun e q hlt hq he => .weaken ?_
  rw [chainRest, hq.not_chainOp? hfollows]
  exact ⟨hq, he⟩

theorem gives_ranked_of_succ {rank : Nat} {post : Expr → Prop} (hrank : rank < 3)
    (h : (ranked (rank + 1) p).Gives errors rest post) (hfollows : Follows rank rest) :
    (ranked rank p).Gives errors rest post := by
  obtain ⟨level, rfl⟩ : ∃ level : ChainLevel, level.rank = rank := by
    have hcases : rank = 0 ∨ rank = 1 ∨ rank = 2 := by omega
    rcases hcases with rfl | rfl | rfl
    · exact ⟨.comparison, rfl⟩
    · exact ⟨.addition, rfl⟩
    · exact ⟨.multiplication, rfl⟩
  rw [← operand_eq_ranked] at h
  rw [← chain_eq_ranked]
  exact gives_chain_of_operand h hfollows

/-! ### Expressions in front of what stands behind them -/

theorem head_ne (h : t.kind ≠ kind) : ∀ t' ∈ (t :: rest).head?, t'.kind ≠ kind := by
  rintro _ ⟨rfl⟩
  exact h

/-- Tokens are read as an expression at a rank. -/
def Parses (rank : Nat) (e : Expr) (ts : List Token) : Prop :=
  ∀ (p : Parser) (errors : Array ParseError) (rest : List Token), p.At errors (ts ++ rest) → Follows rank rest →
    (ranked rank p).Gives errors rest fun e' => Bare.expr e' = Bare.expr e

/-- Tokens are read as an expression in front of whatever calls and index operations stand behind it. -/
def Heads (e : Expr) (ts : List Token) : Prop :=
  ∀ (p : Parser) (errors : Array ParseError) (rest : List Token), p.At errors (ts ++ rest) →
    (∀ t ∈ rest.head?, t.kind ≠ .kwElse) →
    ∃ e' q, q.At errors rest ∧ Bare.expr e' = Bare.expr e ∧
      ∀ rest' post, (postfixed e' q).Gives errors rest' post → p.unary.Gives errors rest' post

/-- Tokens are read as an expression, in the way that suits its rank. -/
structure ReadsBack (e : Expr) (ts : List Token) : Prop where
  start : Starts ts
  heads : e.rank = 4 → Heads e ts
  parses : e.rank ≤ 3 → Parses e.rank e ts

variable {e : Expr}

theorem Heads.parses (h : Heads e ts) : Parses 3 e ts := by
  intro p errors rest hp hfollows
  obtain ⟨e', q, hq, hbare, hunary⟩ := h p errors rest hp fun t ht => (hfollows t ht).2.2.1
  refine hunary rest _ ?_
  rw [postfixed, hq.behind?_eq_none fun t ht => (hfollows t ht).1, hq.behind?_eq_none fun t ht => (hfollows t ht).2.1]
  exact ⟨hq, hbare⟩

theorem Parses.of_le {rank rank' : Nat} (hle : rank ≤ rank') (hrank : rank' ≤ 3) (h : Parses rank' e ts) : Parses rank e ts := by
  induction hle with
  | refl => exact h
  | step _ ih =>
    refine ih (by omega) fun p errors rest hp hfollows => ?_
    exact gives_ranked_of_succ (by omega) (h p errors rest hp (hfollows.mono (Nat.le_succ _))) hfollows

namespace ReadsBack

theorem ranked {rank : Nat} (h : ReadsBack e ts) (hrank : rank ≤ 3) (hle : rank ≤ e.rank) : Parses rank e ts := by
  have hbound := e.rank_le
  by_cases htop : e.rank = 4
  · exact (h.heads htop).parses.of_le hrank (Nat.le_refl _)
  · exact (h.parses (by omega)).of_le hle (by omega)

theorem expr (h : ReadsBack e ts) (hp : p.At errors (ts ++ rest)) (hfollows : Follows 0 rest) :
    p.expr.Gives errors rest fun e' => Bare.expr e' = Bare.expr e := by
  rw [Parser.expr]
  exact h.ranked (Nat.zero_le _) (Nat.zero_le _) p errors rest hp hfollows

theorem of_heads (hstart : Starts ts) (h : Heads e ts) : ReadsBack e ts :=
  ⟨hstart, fun _ => h, fun hrank => h.parses.of_le hrank (Nat.le_refl _)⟩

/-- What is read by itself is read in front of calls and index operations. -/
theorem of_primary (hstart : t.kind.startsExpr) (hop : UnaryOp.ofTokenKind? t.kind = none)
    (h : ∀ (p : Parser) (errors : Array ParseError) (rest : List Token), p.At errors (t :: (ts ++ rest)) →
      (∀ t' ∈ rest.head?, t'.kind ≠ .kwElse) → p.primary.Gives errors rest fun e' => Bare.expr e' = Bare.expr e) :
    ReadsBack e (t :: ts) := by
  refine of_heads ⟨t, ts, rfl, hstart⟩ fun p errors rest hp helse => ?_
  obtain ⟨e', q, hlt, hreply, hq, hbare⟩ := (h p errors rest hp helse).exists_ok
  obtain ⟨p₀, h₀, hnext, -⟩ := hp.next?
  refine ⟨e', q, hq, hbare, fun rest' post hpost => ?_⟩
  rw [unary, hnext]
  simp only [hop, hreply, Reply.andThen]
  exact hpost.weaken

end ReadsBack

structure OperandsReadBack (level : ChainLevel) (operands : List (BinaryOp × Expr)) (ts : List Token) : Prop where
  follows : ∀ rest, Follows level.rank rest → Follows (level.rank + 1) (ts ++ rest)
  gives : ∀ (p : Parser) (errors : Array ParseError) (rest : List Token) (first : Expr) (before : List (BinaryOp × Expr)),
    p.At errors (ts ++ rest) → Follows level.rank rest → before.reverse ++ operands ≠ [] →
    (chainRest level first before p).Gives errors rest fun e =>
      Bare.expr e = .chain level (Bare.expr first) (Bare.operands (before.reverse ++ operands)) default

/-- Tokens are read as expressions with a closing delimiter behind them. -/
def ExprsReadBack (es : List Expr) (ts : List Token) : Prop :=
  ∀ (p : Parser) (errors : Array ParseError) (rest : List Token) (stop : Token), stop.kind.endsExpr → stop.kind ≠ .comma →
    p.At errors (ts ++ stop :: rest) →
    ((exprList stop.kind p).Gives errors rest fun items => Bare.exprs items = Bare.exprs es) ∧
      (es ≠ [] → ∀ before, (exprListRest stop.kind before p).Gives errors rest fun items =>
        Bare.exprs items = Bare.exprs (before.reverse ++ es))

def PairsReadBack (entries : List (Expr × Expr)) (ts : List Token) : Prop :=
  ∀ (p : Parser) (errors : Array ParseError) (rest : List Token) (stop : Token), stop.kind = .rightBrace →
    p.At errors (ts ++ stop :: rest) →
    (p.pairs.Gives errors rest fun ps => Bare.pairs ps = Bare.pairs entries) ∧
      (entries ≠ [] → ∀ before, (pairsRest before p).Gives errors rest fun ps =>
        Bare.pairs ps = Bare.pairs (before.reverse ++ entries))

def StmtReadsBack (s : Stmt) (ts : List Token) : Prop :=
  ∀ (p : Parser) (errors : Array ParseError) (rest : List Token), p.At errors (ts ++ rest) →
    p.statement.Gives errors rest fun s' => Bare.stmt s' = Bare.stmt s

def StmtsReadBack (ss : List Stmt) (ts : List Token) : Prop :=
  ∀ (p : Parser) (errors : Array ParseError) (rest : List Token) (stop : Token), stop.kind = .rightBrace →
    p.At errors (ts ++ stop :: rest) → ∀ (start : Span) (before : List Stmt),
    (blockRest start before p).Gives errors rest fun b => Bare.block b = .mk (Bare.stmts (before.reverse ++ ss)) default

def BlockReadsBack (b : Block) (ts : List Token) : Prop :=
  ∀ (p : Parser) (errors : Array ParseError) (rest : List Token), p.At errors (ts ++ rest) →
    p.block.Gives errors rest fun b' => Bare.block b' = Bare.block b

/-! ### Lists -/

theorem gives_paramsRest (params : List Ident) {stop : Token} (hspelled : Words.Spelled (Words.ofParams params) ts)
    (hne : params ≠ []) (hstop : stop.kind = .rightParen) (before : List Ident) (hp : p.At errors (ts ++ stop :: rest)) :
    (paramsRest before p).Gives errors rest fun ps => ps.map Bare.ident = (before.reverse ++ params).map Bare.ident := by
  induction params generalizing p ts before with
  | nil => exact absurd rfl hne
  | cons param params ih =>
    rw [paramsRest]
    cases params with
    | nil =>
      obtain ⟨t, us, ⟨hkind, hlexeme⟩, hnil, rfl⟩ := Words.Spelled.cons_iff.mp hspelled
      obtain rfl := Words.Spelled.nil_iff.mp hnil
      refine (hp.identifier hkind).andThen fun name p₁ h₁ hp₁ hname => ?_
      rw [hp₁.not_behind? (by rw [hstop]; decide)]
      refine (hp₁.take hstop).andThen fun _ p₂ h₂ hp₂ _ => ⟨hp₂, ?_⟩
      subst hname
      simp [Bare.ident, Token.ident, hlexeme]
    | cons next params =>
      rw [Words.ofParams.eq_3 _ _ (List.cons_ne_nil _ _)] at hspelled
      obtain ⟨t, us, ⟨hkind, hlexeme⟩, hrest, rfl⟩ := Words.Spelled.cons_iff.mp hspelled
      obtain ⟨comma, vs, ⟨hcomma, -⟩, hparams, rfl⟩ := Words.Spelled.cons_iff.mp hrest
      refine (hp.identifier hkind).andThen fun name p₁ h₁ hp₁ hname => ?_
      obtain ⟨p₂, h₂, hbehind, hp₂⟩ := hp₁.behind? hcomma
      rw [hbehind]
      refine .weaken ((ih hparams (List.cons_ne_nil _ _) (name :: before) hp₂).mono fun ps hps => ?_)
      subst hname
      rw [hps]
      simp [Bare.ident, Token.ident, hlexeme]

theorem gives_params {params : List Ident} {stop : Token} (hspelled : Words.Spelled (Words.ofParams params) ts)
    (hstop : stop.kind = .rightParen) (hp : p.At errors (ts ++ stop :: rest)) :
    p.params.Gives errors rest fun ps => ps.map Bare.ident = params.map Bare.ident := by
  unfold Parser.params
  cases params with
  | nil =>
    obtain rfl := Words.Spelled.nil_iff.mp hspelled
    obtain ⟨q, hlt, hbehind, hq⟩ := hp.behind? hstop
    rw [hbehind]
    exact ⟨hq, rfl⟩
  | cons param params =>
    obtain ⟨t, us, rfl, hkind⟩ : ∃ t us, ts = t :: us ∧ t.kind = .identifier := by
      cases params <;> obtain ⟨t, us, ⟨hkind, -⟩, -, rfl⟩ := Words.Spelled.cons_iff.mp hspelled <;> exact ⟨t, us, rfl, hkind⟩
    rw [hp.not_behind? (by rw [hkind]; decide)]
    exact gives_paramsRest (param :: params) hspelled (List.cons_ne_nil _ _) hstop [] hp

variable {us vs : List Token} {start stop comma : Token} {span : Span}

namespace OperandsReadBack

variable {level : ChainLevel} {op : BinaryOp} {first operand : Expr} {operands : List (BinaryOp × Expr)}

theorem nil : OperandsReadBack level [] [] where
  follows rest hfollows := hfollows.mono (Nat.le_succ _)
  gives := by
    intro p errors rest first before hp hfollows hne
    have hbefore : ¬before.isEmpty := by simpa using hne
    rw [chainRest, hp.not_chainOp? hfollows]
    simp only [if_neg hbefore]
    exact ⟨hp.cover _ _, by simp only [List.append_nil, Bare.expr]⟩

theorem cons (hkind : t.kind = op.tokenKind) (hoperand : ReadsBack operand us) (hrank : op.level.rank < operand.rank)
    (hoperands : OperandsReadBack op.level operands vs) :
    OperandsReadBack op.level ((op, operand) :: operands) (t :: (us ++ vs)) where
  follows rest _ := follows_of_op hkind
  gives := by
    intro p errors rest first before hp hfollows _
    rw [List.cons_append, List.append_assoc] at hp
    obtain ⟨p₁, h₁, hop, hp₁⟩ := hp.chainOp? hkind
    have hread := hoperand.ranked op.level.rank_lt hrank p₁ errors (vs ++ rest) hp₁ (hoperands.follows rest hfollows)
    rw [← operand_eq_ranked] at hread
    rw [chainRest, hop]
    refine hread.andThen fun operand' p₂ h₂ hp₂ hbare => .weaken ?_
    refine (hoperands.gives p₂ errors rest first ((op, operand') :: before) hp₂ hfollows (by simp)).mono fun e he => ?_
    rw [he]
    simp [Bare.operands, Bare.operands_append, hbare]

theorem chain (h : OperandsReadBack level operands vs) (hne : operands ≠ []) (hfirst : ReadsBack first us)
    (hrank : level.rank < first.rank) : ReadsBack (.chain level first operands span) (us ++ vs) where
  start := hfirst.start.append vs
  heads := by
    intro htop
    have hlevel := level.rank_lt
    rw [Expr.rank] at htop
    omega
  parses := by
    intro _ p errors rest hp hfollows
    rw [List.append_assoc] at hp
    have hread := hfirst.ranked level.rank_lt hrank p errors (vs ++ rest) hp (h.follows rest hfollows)
    rw [← operand_eq_ranked] at hread
    rw [Expr.rank, ← chain_eq_ranked, Parser.chain]
    refine hread.andThen fun first' p₁ h₁ hp₁ hbare => .weaken ?_
    refine (h.gives p₁ errors rest first' [] hp₁ hfollows hne).mono fun e' he' => ?_
    rw [he', hbare]
    rfl

end OperandsReadBack

namespace ExprsReadBack

variable {es : List Expr}

theorem nil : ExprsReadBack [] [] := by
  intro p errors rest stop _ _ hp
  obtain ⟨q, hlt, hbehind, hq⟩ := hp.behind? rfl
  rw [exprList, hbehind]
  exact ⟨⟨hq, rfl⟩, fun hne => absurd rfl hne⟩

/-- Expressions are read as a list if their first token is not the closing delimiter. -/
theorem of_rest (hstart : Starts ts)
    (h : ∀ (p : Parser) (errors : Array ParseError) (rest : List Token) (stop : Token), stop.kind.endsExpr → stop.kind ≠ .comma →
      p.At errors (ts ++ stop :: rest) → ∀ before, (exprListRest stop.kind before p).Gives errors rest fun items =>
        Bare.exprs items = Bare.exprs (before.reverse ++ es)) : ExprsReadBack es ts := by
  intro p errors rest stop hends hcomma hp
  have hrest := h p errors rest stop hends hcomma hp
  refine ⟨?_, fun _ => hrest⟩
  obtain ⟨t, us, rfl, hstart⟩ := hstart
  rw [exprList, hp.not_behind? (TokenKind.ne_of_startsExpr hstart (TokenKind.not_startsExpr hends))]
  exact hrest []

theorem last (he : ReadsBack e ts) : ExprsReadBack [e] ts := by
  refine of_rest he.start fun p errors rest stop hends hcomma hp before => ?_
  rw [exprListRest]
  refine (he.expr hp (follows_of_endsExpr hends)).andThen fun e' p₁ h₁ hp₁ hbare => ?_
  rw [hp₁.not_behind? hcomma]
  refine (hp₁.take rfl).andThen fun _ p₂ h₂ hp₂ _ => ⟨hp₂, ?_⟩
  simp [Bare.exprs, Bare.exprs_append, hbare]

theorem cons (he : ReadsBack e us) (hkind : comma.kind = .comma) (hes : ExprsReadBack es vs) (hne : es ≠ []) :
    ExprsReadBack (e :: es) (us ++ comma :: vs) := by
  refine of_rest (he.start.append _) fun p errors rest stop hends hcomma hp before => ?_
  rw [List.append_assoc, List.cons_append] at hp
  rw [exprListRest]
  refine (he.expr hp (follows_of_endsExpr (by rw [hkind]; rfl))).andThen fun e' p₁ h₁ hp₁ hbare => ?_
  obtain ⟨p₂, h₂, hbehind, hp₂⟩ := hp₁.behind? hkind
  rw [hbehind]
  refine .weaken (((hes p₂ errors rest stop hends hcomma hp₂).2 hne (e' :: before)).mono fun items hitems => ?_)
  rw [hitems]
  simp [Bare.exprs, Bare.exprs_append, hbare]

end ExprsReadBack

namespace PairsReadBack

variable {key value : Expr} {entries : List (Expr × Expr)} {colon : Token} {ws : List Token}

theorem nil : PairsReadBack [] [] := by
  intro p errors rest stop hstop hp
  obtain ⟨q, hlt, hbehind, hq⟩ := hp.behind? hstop
  rw [pairs, hbehind]
  exact ⟨⟨hq, rfl⟩, fun hne => absurd rfl hne⟩

theorem of_rest (hstart : Starts ts)
    (h : ∀ (p : Parser) (errors : Array ParseError) (rest : List Token) (stop : Token), stop.kind = .rightBrace →
      p.At errors (ts ++ stop :: rest) → ∀ before, (pairsRest before p).Gives errors rest fun ps =>
        Bare.pairs ps = Bare.pairs (before.reverse ++ entries)) : PairsReadBack entries ts := by
  intro p errors rest stop hstop hp
  have hrest := h p errors rest stop hstop hp
  refine ⟨?_, fun _ => hrest⟩
  obtain ⟨t, us, rfl, hstart⟩ := hstart
  rw [pairs, hp.not_behind? (TokenKind.ne_of_startsExpr hstart rfl)]
  exact hrest []

theorem last (hkey : ReadsBack key us) (hcolon : colon.kind = .colon) (hvalue : ReadsBack value vs) :
    PairsReadBack [(key, value)] (us ++ colon :: vs) := by
  refine of_rest (hkey.start.append _) fun p errors rest stop hstop hp before => ?_
  rw [List.append_assoc, List.cons_append] at hp
  rw [pairsRest]
  refine (hkey.expr hp (follows_of_endsExpr (by rw [hcolon]; rfl))).andThen fun key' p₁ h₁ hp₁ hkey' =>
    (hp₁.take hcolon).andThen fun _ p₂ h₂ hp₂ _ => ?_
  refine (hvalue.expr hp₂ (follows_of_endsExpr (by rw [hstop]; rfl))).andThen fun value' p₃ h₃ hp₃ hvalue' => ?_
  rw [hp₃.not_behind? (by rw [hstop]; decide)]
  refine (hp₃.take hstop).andThen fun _ p₄ h₄ hp₄ _ => ⟨hp₄, ?_⟩
  simp [Bare.pairs, Bare.pairs_append, hkey', hvalue']

theorem cons (hkey : ReadsBack key us) (hcolon : colon.kind = .colon) (hvalue : ReadsBack value vs)
    (hcomma : comma.kind = .comma) (hentries : PairsReadBack entries ws) (hne : entries ≠ []) :
    PairsReadBack ((key, value) :: entries) (us ++ colon :: (vs ++ comma :: ws)) := by
  refine of_rest (hkey.start.append _) fun p errors rest stop hstop hp before => ?_
  rw [List.append_assoc, List.cons_append, List.append_assoc, List.cons_append] at hp
  rw [pairsRest]
  refine (hkey.expr hp (follows_of_endsExpr (by rw [hcolon]; rfl))).andThen fun key' p₁ h₁ hp₁ hkey' =>
    (hp₁.take hcolon).andThen fun _ p₂ h₂ hp₂ _ => ?_
  refine (hvalue.expr hp₂ (follows_of_endsExpr (by rw [hcomma]; rfl))).andThen fun value' p₃ h₃ hp₃ hvalue' => ?_
  obtain ⟨p₄, h₄, hbehind, hp₄⟩ := hp₃.behind? hcomma
  rw [hbehind]
  refine .weaken (((hentries p₄ errors rest stop hstop hp₄).2 hne ((key', value') :: before)).mono fun ps hps => ?_)
  rw [hps]
  simp [Bare.pairs, Bare.pairs_append, hkey', hvalue']

end PairsReadBack

/-! ### Expressions -/

namespace ReadsBack

variable {callee object i inner condition operand : Expr} {args elements : List Expr} {entries : List (Expr × Expr)}
  {params : List Ident} {body thenBlock elseBlock : Block} {middle : Token} {ws : List Token}

theorem int {value : Int64} (hkind : t.kind = .intLiteral) (hvalue : Literal.int? t.lexeme = some value) :
    ReadsBack (.int value span) [t] := by
  refine of_primary (by rw [hkind]; rfl) (by rw [hkind]; rfl) fun p errors rest hp _ => ?_
  obtain ⟨p₀, h₀, hnext, hp₀⟩ := hp.next?
  rw [primary, hnext]
  simp only [hkind, intLiteral, hvalue]
  exact ⟨hp₀, rfl⟩

theorem string {value : String} (hkind : t.kind = .stringLiteral) (hvalue : Literal.string t.lexeme = .ok value) :
    ReadsBack (.string value span) [t] := by
  refine of_primary (by rw [hkind]; rfl) (by rw [hkind]; rfl) fun p errors rest hp _ => ?_
  obtain ⟨p₀, h₀, hnext, hp₀⟩ := hp.next?
  rw [primary, hnext]
  simp only [hkind, stringLiteral, hvalue]
  exact ⟨hp₀, rfl⟩

theorem bool {value : Bool} (hkind : t.kind = boolKind value) : ReadsBack (.bool value span) [t] := by
  refine of_primary (by rw [hkind]; cases value <;> rfl) (by rw [hkind]; cases value <;> rfl) fun p errors rest hp _ => ?_
  obtain ⟨p₀, h₀, hnext, hp₀⟩ := hp.next?
  rw [primary, hnext]
  cases value <;> simp only [hkind, boolKind] <;> exact ⟨hp₀, rfl⟩

theorem ident {name : Ident} (hkind : t.kind = .identifier) (hlexeme : t.lexeme = name.name) : ReadsBack (.ident name) [t] := by
  refine of_primary (by rw [hkind]; rfl) (by rw [hkind]; rfl) fun p errors rest hp _ => ?_
  obtain ⟨p₀, h₀, hnext, hp₀⟩ := hp.next?
  rw [primary, hnext]
  simp only [hkind]
  exact ⟨hp₀, by simp only [Bare.expr, Bare.ident, hlexeme]⟩

theorem unary {op : UnaryOp} (hkind : t.kind = op.tokenKind) (hoperand : ReadsBack operand us) (hrank : 3 ≤ operand.rank) :
    ReadsBack (.unary op operand span) (t :: us) where
  start := ⟨t, us, rfl, by rw [hkind]; cases op <;> rfl⟩
  heads htop := by cases htop
  parses := by
    intro _ p errors rest hp hfollows
    have hop : UnaryOp.ofTokenKind? t.kind = some op := UnaryOp.ofTokenKind?_eq_some_iff.mpr hkind.symm
    obtain ⟨p₀, h₀, hnext, hp₀⟩ := hp.next?
    have hread := hoperand.ranked (Nat.le_refl _) hrank p₀ errors rest hp₀ hfollows
    change (Parser.unary p).Gives errors rest _
    rw [Parser.unary, hnext]
    simp only [hop]
    refine Reply.Gives.andThen hread fun e' p₁ h₁ hp₁ hbare => ⟨hp₁.cover _ _, ?_⟩
    simp only [Bare.expr, hbare]

theorem call (hcallee : ReadsBack callee us) (hrank : callee.rank = 4) (hstart : start.kind = .leftParen)
    (hargs : ExprsReadBack args vs) (hstop : stop.kind = .rightParen) :
    ReadsBack (.call callee args span) (us ++ start :: (vs ++ [stop])) := by
  refine of_heads (hcallee.start.append _) fun p errors rest hp _ => ?_
  simp only [List.cons_append, List.append_assoc, List.nil_append] at hp
  obtain ⟨callee', q, hq, hbare, hunary⟩ := hcallee.heads hrank p errors _ hp (head_ne (by rw [hstart]; decide))
  obtain ⟨p₁, h₁, hbehind, hp₁⟩ := hq.behind? hstart
  have hread := (hargs p₁ errors rest stop (by rw [hstop]; rfl) (by rw [hstop]; decide) hp₁).1
  obtain ⟨args', p₂, h₂, hreply, hp₂, hbares⟩ := hread.exists_ok
  rw [hstop] at hreply
  refine ⟨.call callee' args' (callee'.span.cover p₂.last), (p₂.cover callee'.span p₂.last).2, hp₂.cover _ _, ?_,
    fun rest' post hpost => hunary rest' post ?_⟩
  · simp only [Bare.expr, hbare, hbares]
  · rw [postfixed, hbehind]
    simp only [hreply, Reply.andThen]
    exact hpost.weaken

theorem index (hobject : ReadsBack object us) (hrank : object.rank = 4) (hstart : start.kind = .leftBracket)
    (hindex : ReadsBack i vs) (hstop : stop.kind = .rightBracket) :
    ReadsBack (.index object i span) (us ++ start :: (vs ++ [stop])) := by
  refine of_heads (hobject.start.append _) fun p errors rest hp _ => ?_
  simp only [List.cons_append, List.append_assoc, List.nil_append] at hp
  obtain ⟨object', q, hq, hbare, hunary⟩ := hobject.heads hrank p errors _ hp (head_ne (by rw [hstart]; decide))
  obtain ⟨p₁, h₁, hbehind, hp₁⟩ := hq.behind? hstart
  have hread := hindex.expr hp₁ (follows_of_endsExpr (by rw [hstop]; rfl))
  obtain ⟨i', p₂, h₂, hreply, hp₂, hbare'⟩ := hread.exists_ok
  obtain ⟨close, p₃, h₃, htake, hp₃, rfl⟩ := (hp₂.take hstop).exists_ok
  refine ⟨.index object' i' (object'.span.cover close.span), (p₃.cover object'.span close.span).2, hp₃.cover _ _, ?_,
    fun rest' post hpost => hunary rest' post ?_⟩
  · simp only [Bare.expr, hbare, hbare']
  · rw [postfixed, hq.not_behind? (by rw [hstart]; decide), hbehind]
    simp only [hreply, htake, Reply.andThen]
    exact hpost.weaken

theorem array (hstart : start.kind = .leftBracket) (helements : ExprsReadBack elements us) (hstop : stop.kind = .rightBracket) :
    ReadsBack (.array elements span) (start :: (us ++ [stop])) := by
  refine of_primary (by rw [hstart]; rfl) (by rw [hstart]; rfl) fun p errors rest hp _ => ?_
  rw [List.append_assoc] at hp
  obtain ⟨p₀, h₀, hnext, hp₀⟩ := hp.next?
  have hread := (helements p₀ errors rest stop (by rw [hstop]; rfl) (by rw [hstop]; decide) hp₀).1
  rw [primary, hnext]
  simp only [hstart]
  rw [hstop] at hread
  refine hread.andThen fun elements' p₁ h₁ hp₁ hbares => ⟨hp₁.cover _ _, ?_⟩
  simp only [Bare.expr, hbares]

theorem hash {brace : Span} (hstart : start.kind = .leftBrace) (hentries : PairsReadBack entries us)
    (hstop : stop.kind = .rightBrace) : ReadsBack (.hash entries brace span) (start :: (us ++ [stop])) := by
  refine of_primary (by rw [hstart]; rfl) (by rw [hstart]; rfl) fun p errors rest hp _ => ?_
  rw [List.append_assoc] at hp
  obtain ⟨p₀, h₀, hnext, hp₀⟩ := hp.next?
  have hread := (hentries p₀ errors rest stop hstop hp₀).1
  rw [primary, hnext]
  simp only [hstart]
  refine hread.andThen fun entries' p₁ h₁ hp₁ hbares => ⟨hp₁.cover _ _, ?_⟩
  simp only [Bare.expr, hbares]

theorem function (hkind : t.kind = .kwFn) (hstart : start.kind = .leftParen)
    (hparams : Words.Spelled (Words.ofParams params) us) (hstop : stop.kind = .rightParen) (hbody : BlockReadsBack body vs) :
    ReadsBack (.function params body span) (t :: start :: (us ++ stop :: vs)) := by
  refine of_primary (by rw [hkind]; rfl) (by rw [hkind]; rfl) fun p errors rest hp _ => ?_
  simp only [List.cons_append, List.append_assoc] at hp
  obtain ⟨p₀, h₀, hnext, hp₀⟩ := hp.next?
  rw [primary, hnext]
  simp only [hkind]
  refine (hp₀.take hstart).andThen fun _ p₁ h₁ hp₁ _ => (gives_params hparams hstop hp₁).andThen fun ps p₂ h₂ hp₂ hps => ?_
  refine (hbody p₂ errors rest hp₂).andThen fun body' p₃ h₃ hp₃ hbare => ⟨hp₃.cover _ _, ?_⟩
  simp only [Bare.expr, hps, hbare]

theorem ifThen (hkind : t.kind = .kwIf) (hstart : start.kind = .leftParen) (hcondition : ReadsBack condition us)
    (hstop : stop.kind = .rightParen) (hthen : BlockReadsBack thenBlock vs) :
    ReadsBack (.ifElse condition thenBlock none span) (t :: start :: (us ++ stop :: vs)) := by
  refine of_primary (by rw [hkind]; rfl) (by rw [hkind]; rfl) fun p errors rest hp hother => ?_
  simp only [List.cons_append, List.append_assoc] at hp
  obtain ⟨p₀, h₀, hnext, hp₀⟩ := hp.next?
  rw [primary, hnext]
  simp only [hkind]
  refine (hp₀.take hstart).andThen fun _ p₁ h₁ hp₁ _ => ?_
  refine (hcondition.expr hp₁ (follows_of_endsExpr (by rw [hstop]; rfl))).andThen fun condition' p₂ h₂ hp₂ hbare =>
    (hp₂.take hstop).andThen fun _ p₃ h₃ hp₃ _ => (hthen p₃ errors rest hp₃).andThen fun thenBlock' p₄ h₄ hp₄ hthen' => ?_
  rw [hp₄.behind?_eq_none hother]
  exact ⟨hp₄.cover _ _, by simp only [Bare.expr, Bare.otherwise, hbare, hthen']⟩

theorem ifElse (hkind : t.kind = .kwIf) (hstart : start.kind = .leftParen) (hcondition : ReadsBack condition us)
    (hstop : stop.kind = .rightParen) (hthen : BlockReadsBack thenBlock vs) (hmiddle : middle.kind = .kwElse)
    (helse : BlockReadsBack elseBlock ws) :
    ReadsBack (.ifElse condition thenBlock (some elseBlock) span) (t :: start :: (us ++ stop :: (vs ++ middle :: ws))) := by
  refine of_primary (by rw [hkind]; rfl) (by rw [hkind]; rfl) fun p errors rest hp _ => ?_
  simp only [List.cons_append, List.append_assoc] at hp
  obtain ⟨p₀, h₀, hnext, hp₀⟩ := hp.next?
  rw [primary, hnext]
  simp only [hkind]
  refine (hp₀.take hstart).andThen fun _ p₁ h₁ hp₁ _ => ?_
  refine (hcondition.expr hp₁ (follows_of_endsExpr (by rw [hstop]; rfl))).andThen fun condition' p₂ h₂ hp₂ hbare =>
    (hp₂.take hstop).andThen fun _ p₃ h₃ hp₃ _ => (hthen p₃ errors _ hp₃).andThen fun thenBlock' p₄ h₄ hp₄ hthen' => ?_
  obtain ⟨p₅, h₅, hbehind, hp₅⟩ := hp₄.behind? hmiddle
  rw [hbehind]
  refine (helse p₅ errors rest hp₅).andThen fun elseBlock' p₆ h₆ hp₆ helse' => ⟨hp₆.cover _ _, ?_⟩
  simp only [Bare.expr, Bare.otherwise, hbare, hthen', helse']

theorem paren (hstart : start.kind = .leftParen) (hinner : ReadsBack inner us) (hstop : stop.kind = .rightParen) :
    ReadsBack (.paren inner span) (start :: (us ++ [stop])) := by
  refine of_primary (by rw [hstart]; rfl) (by rw [hstart]; rfl) fun p errors rest hp _ => ?_
  rw [List.append_assoc] at hp
  obtain ⟨p₀, h₀, hnext, hp₀⟩ := hp.next?
  rw [primary, hnext]
  simp only [hstart]
  refine (hinner.expr hp₀ (follows_of_endsExpr (by rw [hstop]; rfl))).andThen fun inner' p₁ h₁ hp₁ hbare =>
    (hp₁.take hstop).andThen fun _ p₂ h₂ hp₂ _ => ⟨hp₂.cover _ _, ?_⟩
  simp only [Bare.expr, hbare]

end ReadsBack

/-! ### Statements -/

section

variable {name : Ident} {value : Expr} {s : Stmt} {ss : List Stmt} {nameToken equal : Token}

theorem stmtReadsBack_let (hkind : t.kind = .kwLet) (hname : nameToken.kind = .identifier) (hlexeme : nameToken.lexeme = name.name)
    (hequal : equal.kind = .equal) (hvalue : ReadsBack value us) (hstop : stop.kind = .semicolon) :
    StmtReadsBack (.letStmt name value span) (t :: nameToken :: equal :: (us ++ [stop])) := by
  intro p errors rest hp
  simp only [List.cons_append, List.append_assoc, List.nil_append] at hp
  obtain ⟨p₀, h₀, hnext, hp₀⟩ := hp.next?
  rw [statement, hnext]
  simp only [hkind]
  refine (hp₀.identifier hname).andThen fun name' p₁ h₁ hp₁ hname' => (hp₁.take hequal).andThen fun _ p₂ h₂ hp₂ _ => ?_
  refine (hvalue.expr hp₂ (follows_of_endsExpr (by rw [hstop]; rfl))).andThen fun value' p₃ h₃ hp₃ hbare =>
    ⟨(hp₃.semicolon hstop).cover _ _, ?_⟩
  subst hname'
  simp only [Bare.stmt, Bare.ident, Token.ident, hlexeme, hbare]

theorem stmtReadsBack_return (hkind : t.kind = .kwReturn) (hvalue : ReadsBack value us) (hstop : stop.kind = .semicolon) :
    StmtReadsBack (.returnStmt value span) (t :: (us ++ [stop])) := by
  intro p errors rest hp
  simp only [List.cons_append, List.append_assoc, List.nil_append] at hp
  obtain ⟨p₀, h₀, hnext, hp₀⟩ := hp.next?
  rw [statement, hnext]
  simp only [hkind]
  refine (hvalue.expr hp₀ (follows_of_endsExpr (by rw [hstop]; rfl))).andThen fun value' p₁ h₁ hp₁ hbare =>
    ⟨(hp₁.semicolon hstop).cover _ _, ?_⟩
  simp only [Bare.stmt, hbare]

theorem stmtReadsBack_expr (he : ReadsBack e us) (hstop : stop.kind = .semicolon) :
    StmtReadsBack (.exprStmt e span) (us ++ [stop]) := by
  intro p errors rest hp
  rw [List.append_assoc] at hp
  have hread := he.expr hp (follows_of_endsExpr (by rw [hstop]; rfl))
  obtain ⟨t, us, rfl, hstart⟩ := he.start
  obtain ⟨p₀, h₀, hnext, hp₀⟩ := hp.next?
  rw [statement, hnext]
  dsimp only
  split
  case h_1 hkind => exact absurd hkind (TokenKind.ne_of_startsExpr hstart rfl)
  case h_2 hkind => exact absurd hkind (TokenKind.ne_of_startsExpr hstart rfl)
  case h_3 =>
    refine hread.andThen fun e' p₁ h₁ hp₁ hbare => ⟨(hp₁.semicolon hstop).cover _ _, ?_⟩
    simp only [Bare.stmt, hbare]

theorem stmtsReadBack_nil : StmtsReadBack [] [] := by
  intro p errors rest stop hstop hp start before
  obtain ⟨p₀, h₀, hnext, hp₀⟩ := hp.next?
  rw [blockRest, hnext]
  simp only [if_pos hstop]
  exact ⟨hp₀.cover _ _, by simp [Bare.block]⟩

theorem stmtsReadBack_cons (hstart : t.kind ≠ .rightBrace) (hs : StmtReadsBack s (t :: us)) (hss : StmtsReadBack ss vs) :
    StmtsReadBack (s :: ss) (t :: us ++ vs) := by
  intro p errors rest stop hstop hp start before
  rw [List.append_assoc] at hp
  obtain ⟨s', q, hlt, hreply, hq, hbare⟩ := (hs p errors _ hp).exists_ok
  obtain ⟨p₀, h₀, hnext, hp₀⟩ := hp.next?
  rw [blockRest, hnext]
  simp only [if_neg hstart, hreply]
  refine .weaken ((hss q errors rest stop hstop hq start (s' :: before)).mono fun b hb => ?_)
  rw [hb]
  simp [Bare.stmts, Bare.stmts_append, hbare]

theorem blockReadsBack_mk (hstart : start.kind = .leftBrace) (hss : StmtsReadBack ss us) (hstop : stop.kind = .rightBrace) :
    BlockReadsBack (.mk ss span) (start :: (us ++ [stop])) := by
  intro p errors rest hp
  simp only [List.cons_append, List.append_assoc, List.nil_append] at hp
  rw [block]
  exact (hp.take hstart).andThen fun _ p₁ h₁ hp₁ _ => .weaken (hss p₁ errors rest stop hstop hp₁ _ [])

end

/-! ### Whole phrases -/

mutual

theorem readsBack_expr (e : Expr) {ts : List Token} (hshaped : Shaped.expr e) (hspelled : Words.Spelled (Words.ofExpr e) ts) :
    ReadsBack e ts := by
  cases e with
  | int value span =>
    obtain ⟨t, us, ⟨hkind, hdigits, hvalue⟩, hnil, rfl⟩ := Words.Spelled.cons_iff.mp hspelled
    obtain rfl := Words.Spelled.nil_iff.mp hnil
    exact .int hkind ((Literal.int?_eq_some_iff hdigits).mpr hvalue)
  | string value span =>
    obtain ⟨t, us, ⟨hkind, body, hbody, hvalue⟩, hnil, rfl⟩ := Words.Spelled.cons_iff.mp hspelled
    obtain rfl := Words.Spelled.nil_iff.mp hnil
    refine .string hkind ?_
    rwa [Literal.string_eq_ok_iff, Literal.body_of_quoted hbody]
  | bool value span =>
    obtain ⟨t, us, ⟨hkind, -⟩, hnil, rfl⟩ := Words.Spelled.cons_iff.mp hspelled
    obtain rfl := Words.Spelled.nil_iff.mp hnil
    exact .bool hkind
  | ident name =>
    obtain ⟨t, us, ⟨hkind, hlexeme⟩, hnil, rfl⟩ := Words.Spelled.cons_iff.mp hspelled
    obtain rfl := Words.Spelled.nil_iff.mp hnil
    exact .ident hkind hlexeme
  | chain level first operands span =>
    simp only [Shaped.expr, Bool.and_eq_true, decide_eq_true_eq, Bool.not_eq_true', List.isEmpty_eq_false_iff] at hshaped
    obtain ⟨⟨⟨hrank, hfirst⟩, hne⟩, hoperands⟩ := hshaped
    obtain ⟨us, vs, hus, hvs, rfl⟩ := Words.Spelled.append_iff.mp hspelled
    exact (readsBack_operands level operands hoperands hvs).chain hne (readsBack_expr first hfirst hus) hrank
  | unary op operand span =>
    simp only [Shaped.expr, Bool.and_eq_true, decide_eq_true_eq] at hshaped
    obtain ⟨t, us, ⟨hkind, -⟩, hus, rfl⟩ := Words.Spelled.cons_iff.mp hspelled
    exact .unary hkind (readsBack_expr operand hshaped.2 hus) hshaped.1
  | call callee args span =>
    simp only [Shaped.expr, Bool.and_eq_true, decide_eq_true_eq] at hshaped
    obtain ⟨us, _, hus, hdelimited, rfl⟩ := Words.Spelled.append_iff.mp hspelled
    obtain ⟨start, vs, stop, rfl, hstart, hvs, hstop⟩ := hdelimited.delimited
    exact .call (readsBack_expr callee hshaped.1.2 hus) hshaped.1.1 hstart (readsBack_exprs args hshaped.2 hvs) hstop
  | index object index span =>
    simp only [Shaped.expr, Bool.and_eq_true, decide_eq_true_eq] at hshaped
    obtain ⟨us, _, hus, hdelimited, rfl⟩ := Words.Spelled.append_iff.mp hspelled
    obtain ⟨start, vs, stop, rfl, hstart, hvs, hstop⟩ := hdelimited.delimited
    exact .index (readsBack_expr object hshaped.1.2 hus) hshaped.1.1 hstart (readsBack_expr index hshaped.2 hvs) hstop
  | array elements span =>
    obtain ⟨start, us, stop, rfl, hstart, hus, hstop⟩ := hspelled.delimited
    exact .array hstart (readsBack_exprs elements hshaped hus) hstop
  | hash entries brace span =>
    obtain ⟨start, us, stop, rfl, hstart, hus, hstop⟩ := hspelled.delimited
    exact .hash hstart (readsBack_pairs entries hshaped hus) hstop
  | function params body span =>
    simp only [Shaped.expr, Bool.and_eq_true] at hshaped
    obtain ⟨t, _, ⟨hkind, -⟩, hopen, rfl⟩ := Words.Spelled.cons_iff.mp hspelled
    obtain ⟨start, _, ⟨hstart, -⟩, hinner, rfl⟩ := Words.Spelled.cons_iff.mp hopen
    obtain ⟨us, _, hus, hclose, rfl⟩ := Words.Spelled.append_iff.mp hinner
    obtain ⟨stop, vs, ⟨hstop, -⟩, hvs, rfl⟩ := Words.Spelled.cons_iff.mp hclose
    exact .function hkind hstart hus hstop (readsBack_block body hshaped.2 hvs)
  | ifElse condition thenBlock elseBlock span =>
    simp only [Shaped.expr, Bool.and_eq_true] at hshaped
    obtain ⟨⟨hcondition, hthen⟩, helse⟩ := hshaped
    obtain ⟨t, _, ⟨hkind, -⟩, hopen, rfl⟩ := Words.Spelled.cons_iff.mp hspelled
    obtain ⟨start, _, ⟨hstart, -⟩, hinner, rfl⟩ := Words.Spelled.cons_iff.mp hopen
    obtain ⟨us, _, hus, hclose, rfl⟩ := Words.Spelled.append_iff.mp hinner
    obtain ⟨stop, _, ⟨hstop, -⟩, hblocks, rfl⟩ := Words.Spelled.cons_iff.mp hclose
    obtain ⟨vs, _, hvs, hother, rfl⟩ := Words.Spelled.append_iff.mp hblocks
    have hcondition := readsBack_expr condition hcondition hus
    have hthen := readsBack_block thenBlock hthen hvs
    cases elseBlock with
    | none =>
      obtain rfl := Words.Spelled.nil_iff.mp hother
      rw [List.append_nil]
      exact .ifThen hkind hstart hcondition hstop hthen
    | some elseBlock =>
      obtain ⟨middle, ws, ⟨hmiddle, -⟩, hws, rfl⟩ := Words.Spelled.cons_iff.mp hother
      exact .ifElse hkind hstart hcondition hstop hthen hmiddle (readsBack_block elseBlock helse hws)
  | paren inner span =>
    obtain ⟨start, us, stop, rfl, hstart, hus, hstop⟩ := hspelled.delimited
    exact .paren hstart (readsBack_expr inner hshaped hus) hstop

theorem readsBack_operands (level : ChainLevel) (operands : List (BinaryOp × Expr)) {ts : List Token}
    (hshaped : Shaped.operands level operands) (hspelled : Words.Spelled (Words.ofOperands operands) ts) :
    OperandsReadBack level operands ts := by
  cases operands with
  | nil =>
    obtain rfl := Words.Spelled.nil_iff.mp hspelled
    exact .nil
  | cons step operands =>
    obtain ⟨op, operand⟩ := step
    simp only [Shaped.operands, Bool.and_eq_true, decide_eq_true_eq] at hshaped
    obtain ⟨⟨⟨rfl, hrank⟩, hoperand⟩, hoperands⟩ := hshaped
    obtain ⟨t, _, ⟨hkind, -⟩, hrest, rfl⟩ := Words.Spelled.cons_iff.mp hspelled
    obtain ⟨us, vs, hus, hvs, rfl⟩ := Words.Spelled.append_iff.mp hrest
    exact .cons hkind (readsBack_expr operand hoperand hus) hrank (readsBack_operands op.level operands hoperands hvs)

theorem readsBack_exprs (es : List Expr) {ts : List Token} (hshaped : Shaped.exprs es)
    (hspelled : Words.Spelled (Words.ofExprs es) ts) : ExprsReadBack es ts := by
  cases es with
  | nil =>
    obtain rfl := Words.Spelled.nil_iff.mp hspelled
    exact .nil
  | cons e es =>
    simp only [Shaped.exprs, Bool.and_eq_true] at hshaped
    by_cases hne : es = []
    · subst hne
      exact .last (readsBack_expr e hshaped.1 hspelled)
    · rw [Words.ofExprs.eq_3 _ _ hne] at hspelled
      obtain ⟨us, _, hus, hrest, rfl⟩ := Words.Spelled.append_iff.mp hspelled
      obtain ⟨comma, vs, ⟨hcomma, -⟩, hvs, rfl⟩ := Words.Spelled.cons_iff.mp hrest
      exact .cons (readsBack_expr e hshaped.1 hus) hcomma (readsBack_exprs es hshaped.2 hvs) hne

theorem readsBack_pairs (entries : List (Expr × Expr)) {ts : List Token} (hshaped : Shaped.pairs entries)
    (hspelled : Words.Spelled (Words.ofPairs entries) ts) : PairsReadBack entries ts := by
  cases entries with
  | nil =>
    obtain rfl := Words.Spelled.nil_iff.mp hspelled
    exact .nil
  | cons entry entries =>
    obtain ⟨key, value⟩ := entry
    simp only [Shaped.pairs, Bool.and_eq_true] at hshaped
    obtain ⟨⟨hkey, hvalue⟩, hentries⟩ := hshaped
    by_cases hne : entries = []
    · subst hne
      obtain ⟨us, _, hus, hrest, rfl⟩ := Words.Spelled.append_iff.mp hspelled
      obtain ⟨colon, vs, ⟨hcolon, -⟩, hvs, rfl⟩ := Words.Spelled.cons_iff.mp hrest
      exact .last (readsBack_expr key hkey hus) hcolon (readsBack_expr value hvalue hvs)
    · rw [Words.ofPairs.eq_3 _ _ _ hne] at hspelled
      obtain ⟨us, _, hus, hrest, rfl⟩ := Words.Spelled.append_iff.mp hspelled
      obtain ⟨colon, _, ⟨hcolon, -⟩, hrest', rfl⟩ := Words.Spelled.cons_iff.mp hrest
      obtain ⟨vs, _, hvs, hrest'', rfl⟩ := Words.Spelled.append_iff.mp hrest'
      obtain ⟨comma, ws, ⟨hcomma, -⟩, hws, rfl⟩ := Words.Spelled.cons_iff.mp hrest''
      exact .cons (readsBack_expr key hkey hus) hcolon (readsBack_expr value hvalue hvs) hcomma
        (readsBack_pairs entries hentries hws) hne

theorem readsBack_stmt (s : Stmt) {ts : List Token} (hshaped : Shaped.stmt s) (hspelled : Words.Spelled (Words.ofStmt s) ts) :
    StmtReadsBack s ts ∧ ∃ t us, ts = t :: us ∧ t.kind ≠ .rightBrace := by
  cases s with
  | letStmt name value span =>
    simp only [Shaped.stmt, Bool.and_eq_true] at hshaped
    obtain ⟨t, _, ⟨hkind, -⟩, hrest, rfl⟩ := Words.Spelled.cons_iff.mp hspelled
    obtain ⟨nameToken, _, ⟨hname, hlexeme⟩, hrest', rfl⟩ := Words.Spelled.cons_iff.mp hrest
    obtain ⟨equal, _, ⟨hequal, -⟩, hrest'', rfl⟩ := Words.Spelled.cons_iff.mp hrest'
    obtain ⟨us, _, hus, hend, rfl⟩ := Words.Spelled.append_iff.mp hrest''
    obtain ⟨stop, _, ⟨hstop, -⟩, hnil, rfl⟩ := Words.Spelled.cons_iff.mp hend
    obtain rfl := Words.Spelled.nil_iff.mp hnil
    refine ⟨stmtReadsBack_let hkind hname hlexeme hequal (readsBack_expr value hshaped.2 hus) hstop, t, _, rfl, ?_⟩
    rw [hkind]
    decide
  | returnStmt value span =>
    obtain ⟨t, _, ⟨hkind, -⟩, hrest, rfl⟩ := Words.Spelled.cons_iff.mp hspelled
    obtain ⟨us, _, hus, hend, rfl⟩ := Words.Spelled.append_iff.mp hrest
    obtain ⟨stop, _, ⟨hstop, -⟩, hnil, rfl⟩ := Words.Spelled.cons_iff.mp hend
    obtain rfl := Words.Spelled.nil_iff.mp hnil
    refine ⟨stmtReadsBack_return hkind (readsBack_expr value hshaped hus) hstop, t, _, rfl, ?_⟩
    rw [hkind]
    decide
  | exprStmt e span =>
    obtain ⟨us, _, hus, hend, rfl⟩ := Words.Spelled.append_iff.mp hspelled
    obtain ⟨stop, _, ⟨hstop, -⟩, hnil, rfl⟩ := Words.Spelled.cons_iff.mp hend
    obtain rfl := Words.Spelled.nil_iff.mp hnil
    have he := readsBack_expr e hshaped hus
    refine ⟨stmtReadsBack_expr he hstop, ?_⟩
    obtain ⟨t, us', rfl, hstart⟩ := he.start
    exact ⟨t, us' ++ [stop], rfl, TokenKind.ne_of_startsExpr hstart rfl⟩

theorem readsBack_stmts (ss : List Stmt) {ts : List Token} (hshaped : Shaped.stmts ss)
    (hspelled : Words.Spelled (Words.ofStmts ss) ts) : StmtsReadBack ss ts := by
  cases ss with
  | nil =>
    obtain rfl := Words.Spelled.nil_iff.mp hspelled
    exact stmtsReadBack_nil
  | cons s ss =>
    simp only [Shaped.stmts, Bool.and_eq_true] at hshaped
    obtain ⟨_, vs, hus, hvs, rfl⟩ := Words.Spelled.append_iff.mp hspelled
    obtain ⟨hs, t, us, rfl, hstart⟩ := readsBack_stmt s hshaped.1 hus
    exact stmtsReadBack_cons hstart hs (readsBack_stmts ss hshaped.2 hvs)

theorem readsBack_block (b : Block) {ts : List Token} (hshaped : Shaped.block b)
    (hspelled : Words.Spelled (Words.ofBlock b) ts) : BlockReadsBack b ts := by
  cases b with
  | mk ss span =>
    obtain ⟨start, us, stop, rfl, hstart, hus, hstop⟩ := hspelled.delimited
    exact blockReadsBack_mk hstart (readsBack_stmts ss hshaped hus) hstop

end

theorem gives_programRest (ss : List Stmt) (hshaped : Shaped.stmts ss) (hspelled : Words.Spelled (Words.ofStmts ss) ts)
    (before : List Stmt) (hp : p.At errors ts) :
    Bare.stmts (programRest before p).1 = Bare.stmts (before.reverse ++ ss) ∧ (programRest before p).2.errors = errors := by
  induction ss generalizing p ts before with
  | nil =>
    obtain rfl := Words.Spelled.nil_iff.mp hspelled
    rw [programRest, next?_of_nil hp.tokens]
    simp [hp.errors]
  | cons s ss ih =>
    simp only [Shaped.stmts, Bool.and_eq_true] at hshaped
    obtain ⟨_, vs, hus, hvs, rfl⟩ := Words.Spelled.append_iff.mp hspelled
    obtain ⟨hs, t, us, rfl, -⟩ := readsBack_stmt s hshaped.1 hus
    obtain ⟨s', q, hlt, hreply, hq, hbare⟩ := (hs p errors vs hp).exists_ok
    obtain ⟨p₀, h₀, hnext, -⟩ := hp.next?
    rw [programRest, hnext]
    simp only [hreply]
    obtain ⟨hstmts, herrors⟩ := ih hshaped.2 hvs (s' :: before) hq
    refine ⟨?_, herrors⟩
    rw [hstmts]
    simp [Bare.stmts, Bare.stmts_append, hbare]

end Parser

/-- A source whose lexemes are tokens that spell a program of the shape of the grammar is read as that program. -/
theorem Program.parse_of_spelled {source : String} {program : Program} {ts : List Token} (hshaped : program.shaped)
    (hscan : (Lexeme.scan source).1 = ts.map .token) (hspelled : Words.Spelled program.words ts) :
    ∃ program', Program.parse source = .ok program' ∧ program'.bare = program.bare := by
  have hp : (Parser.ofSource source).At #[] ts := by
    constructor <;> simp [Parser.ofSource, hscan, List.filterMap_map, Function.comp_def, Parser.token?, Parser.lexicalError?,
      Lexeme.error?]
  obtain ⟨hstmts, herrors⟩ := Parser.gives_programRest program.stmts hshaped hspelled [] hp
  have hread : (Program.read source).errors = [] := by
    change ((Parser.ofSource source).programRest []).2.errors.toList = []
    rw [herrors]
  refine ⟨(Program.read source).program, ?_, ?_⟩
  · simp [Program.parse, hread]
  · rw [Program.bare, Program.bare]
    exact congrArg (Program.mk · default) hstmts

end MonkeyLang
