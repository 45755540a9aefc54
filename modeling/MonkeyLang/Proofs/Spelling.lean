import MonkeyLang.Syntax.Grammar
/-!
# How tokens spell programs

`Spells node ts` is the grammar: some tokens spell a piece of syntax, with the spans that its parts have. There is one rule
for each way to spell something. A chain has operands that are joined more tightly than its operators join them, and at
least two of them; what a unary operator, a call or an index operation applies to is joined more tightly still, or in the
same way. A statement may end with a semicolon.
-/

namespace MonkeyLang

def ChainLevel.rank : ChainLevel → Nat
  | comparison => 0
  | addition => 1
  | multiplication => 2

/-- How tightly an expression is joined: chains in the order of their levels, then unary expressions, then all others. -/
def Expr.rank : Expr → Nat
  | chain level _ _ _ => level.rank
  | unary _ _ _ => 3
  | int _ _ | string _ _ | bool _ _ | ident _ | call _ _ _ | index _ _ _ | array _ _ | hash _ _ _ | function _ _ _
  | ifElse _ _ _ _ | paren _ _ => 4

theorem ChainLevel.rank_lt (level : ChainLevel) : level.rank < 3 := by cases level <;> decide

/-- The span of the last of some tokens, or else another span. -/
def lastSpan (span : Span) (ts : List Token) : Span := ts.foldl (fun _ t => t.span) span

section

variable {span span' : Span} {t : Token} {ts us : List Token}

@[simp] theorem lastSpan_nil : lastSpan span [] = span := rfl

@[simp] theorem lastSpan_cons : lastSpan span (t :: ts) = lastSpan t.span ts := rfl

theorem lastSpan_append : lastSpan span (ts ++ us) = lastSpan (lastSpan span ts) us := List.foldl_append

@[simp] theorem lastSpan_concat : lastSpan span (ts ++ [t]) = t.span := lastSpan_append

theorem lastSpan_of_ne_nil (h : ts ≠ []) : lastSpan span ts = lastSpan span' ts := by
  cases ts with
  | nil => exact absurd rfl h
  | cons t ts => rfl

end

inductive Node where
  | expr (e : Expr)
  /-- The operands of a chain behind the first one, with their operators. -/
  | operands (level : ChainLevel) (rest : List (BinaryOp × Expr))
  /-- Expressions with commas between them. -/
  | exprs (es : List Expr)
  | pairs (ps : List (Expr × Expr))
  | params (ps : List Ident)
  | block (b : Block)
  | stmt (s : Stmt)
  | stmts (ss : List Stmt)

def Token.ident (t : Token) : Ident := ⟨t.lexeme, t.span⟩

def boolKind : Bool → TokenKind
  | true => .kwTrue
  | false => .kwFalse

/-- The end of a statement: a semicolon, or nothing. -/
inductive Ends : List Token → Prop
  | nothing : Ends []
  | semicolon {t} (hkind : t.kind = .semicolon) : Ends [t]

/-- Tokens spell a piece of syntax. -/
inductive Spells : Node → List Token → Prop
  | int {t value} (hkind : t.kind = .intLiteral) (hvalue : Literal.int? t.lexeme = some value) :
      Spells (.expr (.int value t.span)) [t]
  | string {t value} (hkind : t.kind = .stringLiteral) (hvalue : Literal.string t.lexeme = .ok value) :
      Spells (.expr (.string value t.span)) [t]
  | bool {t value} (hkind : t.kind = boolKind value) : Spells (.expr (.bool value t.span)) [t]
  | ident {t} (hkind : t.kind = .identifier) : Spells (.expr (.ident t.ident)) [t]
  | chain {level first rest ts us} (hfirst : Spells (.expr first) ts) (hrank : level.rank < first.rank)
      (hrest : Spells (.operands level rest) us) (hne : rest ≠ []) :
      Spells (.expr (.chain level first rest (first.span.cover (lastSpan first.span us)))) (ts ++ us)
  | unary {t op operand ts} (hkind : t.kind = op.tokenKind) (hoperand : Spells (.expr operand) ts)
      (hrank : 3 ≤ operand.rank) : Spells (.expr (.unary op operand (t.span.cover operand.span))) (t :: ts)
  | call {callee args start stop ts us} (hcallee : Spells (.expr callee) ts) (hrank : callee.rank = 4)
      (hstart : start.kind = .leftParen) (hargs : Spells (.exprs args) us) (hstop : stop.kind = .rightParen) :
      Spells (.expr (.call callee args (callee.span.cover stop.span))) (ts ++ start :: (us ++ [stop]))
  | index {object index start stop ts us} (hobject : Spells (.expr object) ts) (hrank : object.rank = 4)
      (hstart : start.kind = .leftBracket) (hindex : Spells (.expr index) us) (hstop : stop.kind = .rightBracket) :
      Spells (.expr (.index object index (object.span.cover stop.span))) (ts ++ start :: (us ++ [stop]))
  | array {elements start stop us} (hstart : start.kind = .leftBracket) (helements : Spells (.exprs elements) us)
      (hstop : stop.kind = .rightBracket) :
      Spells (.expr (.array elements (start.span.cover stop.span))) (start :: (us ++ [stop]))
  | hash {ps start stop us} (hstart : start.kind = .leftBrace) (hpairs : Spells (.pairs ps) us)
      (hstop : stop.kind = .rightBrace) :
      Spells (.expr (.hash ps start.span (start.span.cover stop.span))) (start :: (us ++ [stop]))
  | function {t start stop params body us vs} (hkind : t.kind = .kwFn) (hstart : start.kind = .leftParen)
      (hparams : Spells (.params params) us) (hstop : stop.kind = .rightParen) (hbody : Spells (.block body) vs) :
      Spells (.expr (.function params body (t.span.cover body.span))) (t :: start :: (us ++ stop :: vs))
  | ifThen {t start stop condition thenBlock us vs} (hkind : t.kind = .kwIf) (hstart : start.kind = .leftParen)
      (hcondition : Spells (.expr condition) us) (hstop : stop.kind = .rightParen)
      (hthen : Spells (.block thenBlock) vs) :
      Spells (.expr (.ifElse condition thenBlock none (t.span.cover thenBlock.span))) (t :: start :: (us ++ stop :: vs))
  | ifElse {t start stop middle condition thenBlock elseBlock us vs ws} (hkind : t.kind = .kwIf)
      (hstart : start.kind = .leftParen) (hcondition : Spells (.expr condition) us) (hstop : stop.kind = .rightParen)
      (hthen : Spells (.block thenBlock) vs) (hmiddle : middle.kind = .kwElse) (helse : Spells (.block elseBlock) ws) :
      Spells (.expr (.ifElse condition thenBlock (some elseBlock) (t.span.cover elseBlock.span)))
        (t :: start :: (us ++ stop :: (vs ++ middle :: ws)))
  | paren {inner start stop us} (hstart : start.kind = .leftParen) (hinner : Spells (.expr inner) us)
      (hstop : stop.kind = .rightParen) :
      Spells (.expr (.paren inner (start.span.cover stop.span))) (start :: (us ++ [stop]))
  | operandsNil {level} : Spells (.operands level []) []
  | operandsCons {t level op operand rest ts us} (hkind : t.kind = op.tokenKind) (hlevel : op.level = level)
      (hoperand : Spells (.expr operand) ts) (hrank : level.rank < operand.rank)
      (hrest : Spells (.operands level rest) us) : Spells (.operands level ((op, operand) :: rest)) (t :: (ts ++ us))
  | exprsNil : Spells (.exprs []) []
  | exprsLast {e ts} (he : Spells (.expr e) ts) : Spells (.exprs [e]) ts
  | exprsCons {t e rest ts us} (he : Spells (.expr e) ts) (hkind : t.kind = .comma) (hrest : Spells (.exprs rest) us)
      (hne : rest ≠ []) : Spells (.exprs (e :: rest)) (ts ++ t :: us)
  | pairsNil : Spells (.pairs []) []
  | pairsLast {colon key value ts us} (hkey : Spells (.expr key) ts) (hcolon : colon.kind = .colon)
      (hvalue : Spells (.expr value) us) : Spells (.pairs [(key, value)]) (ts ++ colon :: us)
  | pairsCons {colon t key value rest ts us vs} (hkey : Spells (.expr key) ts) (hcolon : colon.kind = .colon)
      (hvalue : Spells (.expr value) us) (hkind : t.kind = .comma) (hrest : Spells (.pairs rest) vs) (hne : rest ≠ []) :
      Spells (.pairs ((key, value) :: rest)) (ts ++ colon :: (us ++ t :: vs))
  | paramsNil : Spells (.params []) []
  | paramsLast {t} (hkind : t.kind = .identifier) : Spells (.params [t.ident]) [t]
  | paramsCons {t comma rest us} (hkind : t.kind = .identifier) (hcomma : comma.kind = .comma)
      (hrest : Spells (.params rest) us) (hne : rest ≠ []) : Spells (.params (t.ident :: rest)) (t :: comma :: us)
  | block {start stop ss us} (hstart : start.kind = .leftBrace) (hstmts : Spells (.stmts ss) us)
      (hstop : stop.kind = .rightBrace) : Spells (.block (.mk ss (start.span.cover stop.span))) (start :: (us ++ [stop]))
  | letStmt {t name equal value ts stop} (hkind : t.kind = .kwLet) (hname : name.kind = .identifier)
      (hequal : equal.kind = .equal) (hvalue : Spells (.expr value) ts) (hends : Ends stop) :
      Spells (.stmt (.letStmt name.ident value (t.span.cover (lastSpan equal.span (ts ++ stop)))))
        (t :: name :: equal :: (ts ++ stop))
  | returnStmt {t value ts stop} (hkind : t.kind = .kwReturn) (hvalue : Spells (.expr value) ts) (hends : Ends stop) :
      Spells (.stmt (.returnStmt value (t.span.cover (lastSpan t.span (ts ++ stop))))) (t :: (ts ++ stop))
  | exprStmt {e ts stop} (he : Spells (.expr e) ts) (hends : Ends stop) :
      Spells (.stmt (.exprStmt e (e.span.cover (lastSpan e.span (ts ++ stop))))) (ts ++ stop)
  | stmtsNil : Spells (.stmts []) []
  | stmtsCons {s rest ts us} (hs : Spells (.stmt s) ts) (hrest : Spells (.stmts rest) us) :
      Spells (.stmts (s :: rest)) (ts ++ us)

namespace Spells

variable {e : Expr} {op : BinaryOp} {level : ChainLevel} {rest : List (BinaryOp × Expr)} {t : Token}
  {ts us : List Token}

theorem ne_nil (h : Spells (.expr e) ts) : ts ≠ [] := by
  generalize hnode : Node.expr e = node at h
  induction h generalizing e with
  | chain hfirst _ _ _ ih => exact List.append_ne_nil_of_left_ne_nil (ih rfl) _
  | call | index => simp
  | _ => first | exact List.cons_ne_nil _ _ | cases hnode

theorem operands_ne_nil (h : Spells (.operands level rest) ts) (hne : rest ≠ []) : ts ≠ [] := by
  cases h with
  | operandsNil => exact absurd rfl hne
  | operandsCons => exact List.cons_ne_nil _ _

theorem operands_concat (h : Spells (.operands level rest) ts) (hkind : t.kind = op.tokenKind) (hlevel : op.level = level)
    (he : Spells (.expr e) us) (hrank : level.rank < e.rank) :
    Spells (.operands level (rest ++ [(op, e)])) (ts ++ t :: us) := by
  induction rest generalizing ts with
  | nil =>
    cases h
    simpa using operandsCons hkind hlevel he hrank .operandsNil
  | cons first rest ih =>
    cases h with
    | operandsCons hkind' hlevel' hoperand hrank' hrest =>
      simpa using operandsCons hkind' hlevel' hoperand hrank' (ih hrest)

end Spells

end MonkeyLang
