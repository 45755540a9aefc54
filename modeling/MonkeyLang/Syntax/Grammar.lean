import MonkeyLang.Syntax.Literal
import MonkeyLang.Syntax.Parser
/-!
# The grammar

One function for each kind of phrase. An expression is a chain of comparisons, whose operands are chains of sums, whose
operands are chains of products, whose operands are unary expressions; a single operand is no chain. Calls and index
operations follow a primary expression in any number. A statement may end with a `;`.

An error ends the statement it is found in. A block and a program note it, drop what is left of the statement and read
on with the next one.
-/

namespace MonkeyLang

namespace Parser

/-! ### Single tokens -/

def take (p : Parser) (kind : TokenKind) : Reply Token p.tokens.length :=
  match p.next? with
  | some (t, ⟨q, h⟩) => if t.kind = kind then .ok t q h else .error (p.unexpected kind) p (Nat.le_refl _)
  | none => .error (p.unexpected kind) p (Nat.le_refl _)

/-- The parser behind the next token, if that is of the given kind. -/
def behind? (p : Parser) (kind : TokenKind) : Option { q : Parser // q.tokens.length < p.tokens.length } :=
  match p.next? with
  | some (t, q) => if t.kind = kind then some q else none
  | none => none

def semicolon (p : Parser) : { q : Parser // q.tokens.length ≤ p.tokens.length } :=
  match p.behind? .semicolon with
  | some ⟨q, h⟩ => ⟨q, Nat.le_of_lt h⟩
  | none => ⟨p, Nat.le_refl _⟩

/-- The operator of a chain that comes next, and the parser behind it. -/
def chainOp? (p : Parser) (level : ChainLevel) :
    Option (BinaryOp × { q : Parser // q.tokens.length < p.tokens.length }) :=
  match p.next? with
  | some (t, q) =>
    match BinaryOp.ofTokenKind? t.kind with
    | some op => if op.level = level then some (op, q) else none
    | none => none
  | none => none

def identifier (p : Parser) : Reply Ident p.tokens.length :=
  match p.next? with
  | some (t, ⟨q, h⟩) =>
    if t.kind = .identifier then .ok ⟨t.lexeme, t.span⟩ q h
    else .error (.notIdentifier t.span t.kind.describe) p (Nat.le_refl _)
  | none => .error (.notIdentifier p.eof.span p.eof.kind.describe) p (Nat.le_refl _)

/-- Reads the rest of a parameter list behind its opening parenthesis, with at least one parameter. -/
def paramsRest (params : List Ident) (p : Parser) : Reply (List Ident) p.tokens.length :=
  p.identifier.andThen (Nat.le_refl _) fun param p₁ h₁ =>
    match p₁.behind? .comma with
    | some ⟨p₂, h₂⟩ => (paramsRest (param :: params) p₂).weaken (by omega)
    | none =>
      (p₁.take .rightParen).andThen (Nat.le_of_lt h₁) fun _ p₃ h₃ =>
        .ok (param :: params).reverse p₃ (Nat.lt_trans h₃ h₁)
termination_by p.tokens.length

def params (p : Parser) : Reply (List Ident) p.tokens.length :=
  match p.behind? .rightParen with
  | some ⟨q, h⟩ => .ok [] q h
  | none => paramsRest [] p

def intLiteral (t : Token) : Except ParseError Expr :=
  match Literal.int? t.lexeme with
  | some value => .ok (.int value t.span)
  | none => .error ⟨.invalidLiteral, t.span, "integer literal " ++ t.lexeme ++ " is out of range"⟩

def stringLiteral (t : Token) : Except ParseError Expr :=
  match Literal.string t.lexeme with
  | .ok value => .ok (.string value t.span)
  | .error fault => .error ⟨.invalidLiteral, t.span, fault.message⟩

/-! ### Phrases -/

/-- Orders the phrases that start with the same token, so that each function calls only lower ones on it. -/
def chainRank : ChainLevel → Nat
  | .multiplication => 5
  | .addition => 7
  | .comparison => 9

mutual

def expr (p : Parser) : Reply Expr p.tokens.length :=
  chain .comparison p
termination_by 16 * p.tokens.length + 10
decreasing_by all_goals (simp only [chainRank]; omega)

/-- Reads operands joined by operators of one level. -/
def chain (level : ChainLevel) (p : Parser) : Reply Expr p.tokens.length :=
  (operand level p).andThen (Nat.le_refl _) fun first p₁ h₁ =>
    (chainRest level first [] p₁).weaken h₁
termination_by 16 * p.tokens.length + chainRank level
decreasing_by all_goals (cases level <;> simp only [chainRank] <;> omega)

def operand (level : ChainLevel) (p : Parser) : Reply Expr p.tokens.length :=
  match level with
  | .comparison => chain .addition p
  | .addition => chain .multiplication p
  | .multiplication => unary p
termination_by 16 * p.tokens.length + chainRank level - 1
decreasing_by all_goals (simp only [chainRank]; omega)

def chainRest (level : ChainLevel) (first : Expr) (rest : List (BinaryOp × Expr)) (p : Parser) :
    Reply Expr (p.tokens.length + 1) :=
  match p.chainOp? level with
  | some (op, ⟨p₁, h₁⟩) =>
    (operand level p₁).andThen (by omega) fun e p₂ h₂ =>
      (chainRest level first ((op, e) :: rest) p₂).weaken (by omega)
  | none =>
    if rest.isEmpty then
      .ok first p (Nat.lt_succ_self _)
    else
      p.spanning first.span p.last (.chain level first rest.reverse) (Nat.lt_succ_self _)
termination_by 16 * p.tokens.length
decreasing_by
  · cases level <;> simp only [chainRank] <;> omega
  · omega

/-- Reads a primary expression with the unary operators in front of it and the calls and index operations behind it. -/
def unary (p : Parser) : Reply Expr p.tokens.length :=
  match p.next? with
  | some (t, ⟨p₁, h₁⟩) =>
    match UnaryOp.ofTokenKind? t.kind with
    | some op =>
      (unary p₁).andThen (Nat.le_of_lt h₁) fun e p₂ h₂ =>
        p₂.spanning t.span e.span (.unary op e) (Nat.lt_trans h₂ h₁)
    | none => (primary p).andThen (Nat.le_refl _) fun e p₂ h₂ => (postfixed e p₂).weaken h₂
  | none => .error ⟨.unexpectedEof, p.eof.span, "expected expression, found end of file"⟩ p (Nat.le_refl _)
termination_by 16 * p.tokens.length + 2

/-- Reads the calls and index operations behind an expression. -/
def postfixed (e : Expr) (p : Parser) : Reply Expr (p.tokens.length + 1) :=
  match p.behind? .leftParen with
  | some ⟨p₁, h₁⟩ =>
    (exprList .rightParen p₁).andThen (by omega) fun args p₂ h₂ =>
      let covered := p₂.cover e.span p₂.last
      (postfixed (.call e args covered.1) covered.2).weaken (by simp only [covered, tokens_cover]; omega)
  | none =>
    match p.behind? .leftBracket with
    | some ⟨p₁, h₁⟩ =>
      (expr p₁).andThen (by omega) fun i p₂ h₂ =>
        (p₂.take .rightBracket).andThen (by omega) fun close p₃ h₃ =>
          let covered := p₃.cover e.span close.span
          (postfixed (.index e i covered.1) covered.2).weaken (by simp only [covered, tokens_cover]; omega)
    | none => .ok e p (Nat.lt_succ_self _)
termination_by 16 * p.tokens.length
decreasing_by all_goals ((try simp only [tokens_cover]); omega)

/-- Reads an expression that no operator joins to another. -/
def primary (p : Parser) : Reply Expr p.tokens.length :=
  match p.next? with
  | none => .error ⟨.unexpectedEof, p.eof.span, "expected expression, found end of file"⟩ p (Nat.le_refl _)
  | some (t, ⟨p₁, h₁⟩) =>
    match t.kind with
    | .intLiteral =>
      match intLiteral t with
      | .ok e => .ok e p₁ h₁
      | .error cause => .error cause p₁ (Nat.le_of_lt h₁)
    | .stringLiteral =>
      match stringLiteral t with
      | .ok e => .ok e p₁ h₁
      | .error cause => .error cause p₁ (Nat.le_of_lt h₁)
    | .kwTrue => .ok (.bool true t.span) p₁ h₁
    | .kwFalse => .ok (.bool false t.span) p₁ h₁
    | .identifier => .ok (.ident ⟨t.lexeme, t.span⟩) p₁ h₁
    | .leftParen =>
      (expr p₁).andThen (Nat.le_of_lt h₁) fun e p₂ h₂ =>
        (p₂.take .rightParen).andThen (by omega) fun close p₃ h₃ =>
          p₃.spanning t.span close.span (.paren e) (by omega)
    | .leftBracket =>
      (exprList .rightBracket p₁).andThen (Nat.le_of_lt h₁) fun elements p₂ h₂ =>
        p₂.spanning t.span p₂.last (.array elements) (Nat.lt_trans h₂ h₁)
    | .leftBrace =>
      (pairs p₁).andThen (Nat.le_of_lt h₁) fun entries p₂ h₂ =>
        p₂.spanning t.span p₂.last (.hash entries t.span) (Nat.lt_trans h₂ h₁)
    | .kwFn =>
      (p₁.take .leftParen).andThen (Nat.le_of_lt h₁) fun _ p₂ h₂ =>
        p₂.params.andThen (by omega) fun ps p₃ h₃ =>
          (block p₃).andThen (by omega) fun body p₄ h₄ =>
            p₄.spanning t.span body.span (.function ps body) (by omega)
    | .kwIf =>
      (p₁.take .leftParen).andThen (Nat.le_of_lt h₁) fun _ p₂ h₂ =>
        (expr p₂).andThen (by omega) fun condition p₃ h₃ =>
          (p₃.take .rightParen).andThen (by omega) fun _ p₄ h₄ =>
            (block p₄).andThen (by omega) fun thenBlock p₅ h₅ =>
              match p₅.behind? .kwElse with
              | some ⟨p₆, h₆⟩ =>
                (block p₆).andThen (by omega) fun elseBlock p₇ h₇ =>
                  p₇.spanning t.span elseBlock.span (.ifElse condition thenBlock (some elseBlock)) (by omega)
              | none => p₅.spanning t.span thenBlock.span (.ifElse condition thenBlock none) (by omega)
    | kind => .error (.notExpression t.span kind.describe) p (Nat.le_refl _)
termination_by 16 * p.tokens.length + 1

/-- Reads expressions with commas between them and the closing delimiter behind them. -/
def exprList (close : TokenKind) (p : Parser) : Reply (List Expr) p.tokens.length :=
  match p.behind? close with
  | some ⟨q, h⟩ => .ok [] q h
  | none => exprListRest close [] p
termination_by 16 * p.tokens.length + 12

def exprListRest (close : TokenKind) (items : List Expr) (p : Parser) : Reply (List Expr) p.tokens.length :=
  (expr p).andThen (Nat.le_refl _) fun item p₁ h₁ =>
    match p₁.behind? .comma with
    | some ⟨p₂, h₂⟩ => (exprListRest close (item :: items) p₂).weaken (by omega)
    | none =>
      (p₁.take close).andThen (Nat.le_of_lt h₁) fun _ p₃ h₃ => .ok (item :: items).reverse p₃ (Nat.lt_trans h₃ h₁)
termination_by 16 * p.tokens.length + 11

/-- Reads the pairs of a hash literal behind its opening brace, and the closing brace. -/
def pairs (p : Parser) : Reply (List (Expr × Expr)) p.tokens.length :=
  match p.behind? .rightBrace with
  | some ⟨q, h⟩ => .ok [] q h
  | none => pairsRest [] p
termination_by 16 * p.tokens.length + 12

def pairsRest (entries : List (Expr × Expr)) (p : Parser) : Reply (List (Expr × Expr)) p.tokens.length :=
  (expr p).andThen (Nat.le_refl _) fun key p₁ h₁ =>
    (p₁.take .colon).andThen (Nat.le_of_lt h₁) fun _ p₂ h₂ =>
      (expr p₂).andThen (by omega) fun value p₃ h₃ =>
        match p₃.behind? .comma with
        | some ⟨p₄, h₄⟩ => (pairsRest ((key, value) :: entries) p₄).weaken (by omega)
        | none =>
          (p₃.take .rightBrace).andThen (by omega) fun _ p₅ h₅ =>
            .ok ((key, value) :: entries).reverse p₅ (by omega)
termination_by 16 * p.tokens.length + 11

def block (p : Parser) : Reply Block p.tokens.length :=
  (p.take .leftBrace).andThen (Nat.le_refl _) fun start p₁ h₁ => (blockRest start.span [] p₁).weaken (Nat.le_of_lt h₁)
termination_by 16 * p.tokens.length

/-- Reads statements up to a closing brace and notes the errors in them. -/
def blockRest (start : Span) (stmts : List Stmt) (p : Parser) : Reply Block p.tokens.length :=
  match p.next? with
  | none => .error (p.unexpected .rightBrace) p (Nat.le_refl _)
  | some (t, ⟨q, h⟩) =>
    if t.kind = .rightBrace then
      q.spanning start t.span (.mk stmts.reverse) h
    else
      match statement p with
      | .ok stmt p₁ h₁ => (blockRest start (stmt :: stmts) p₁).weaken (Nat.le_of_lt h₁)
      | .error cause p₁ h₁ =>
        have hlt : ((p₁.note cause).recover true).tokens.length < p.tokens.length :=
          length_recover_lt _ _ h₁ (Nat.zero_lt_of_lt h)
        (blockRest start stmts ((p₁.note cause).recover true)).weaken (Nat.le_of_lt hlt)
termination_by 16 * p.tokens.length + 14

def statement (p : Parser) : Reply Stmt p.tokens.length :=
  match p.next? with
  | none => .error ⟨.unexpectedEof, p.eof.span, "expected expression, found end of file"⟩ p (Nat.le_refl _)
  | some (t, ⟨p₁, h₁⟩) =>
    match t.kind with
    | .kwLet =>
      p₁.identifier.andThen (by omega) fun name p₂ h₂ =>
        (p₂.take .equal).andThen (by omega) fun _ p₃ h₃ =>
          (expr p₃).andThen (by omega) fun value p₄ h₄ =>
            let p₅ := p₄.semicolon
            p₅.1.spanning t.span p₅.1.last (.letStmt name value) (by have := p₅.2; omega)
    | .kwReturn =>
      (expr p₁).andThen (by omega) fun value p₂ h₂ =>
        let p₃ := p₂.semicolon
        p₃.1.spanning t.span p₃.1.last (.returnStmt value) (by have := p₃.2; omega)
    | _ =>
      (expr p).andThen (Nat.le_refl _) fun e p₂ h₂ =>
        let p₃ := p₂.semicolon
        p₃.1.spanning e.span p₃.1.last (.exprStmt e) (by have := p₃.2; omega)
termination_by 16 * p.tokens.length + 13

end

end Parser

end MonkeyLang
