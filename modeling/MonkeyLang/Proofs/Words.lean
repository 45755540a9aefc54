import Mathlib.Data.List.Induction
import Mathlib.Data.Nat.Digits.Defs
import MonkeyLang.Proofs.Lexing
import MonkeyLang.Proofs.ParserSoundness
/-!
# Programs as words

A program is flattened into the words that it is written with. A word is spelled by one token; only the end of a statement may be
spelled by none. The values of literals are tied to their spellings here: a number is the sum of its digits at their places,
and the text of a string is found by replacing each pair of a backslash and a character. The tokens of a source that is read
without an error spell the words of what is read, which has the shape of the grammar.
-/

namespace MonkeyLang

/-! ### Values of literals -/

/-- The number that digits stand for, each worth ten times as much as the one behind it. -/
def decimalValue (cs : List Char) : Nat := Nat.ofDigits 10 (cs.map fun c => c.toNat - '0'.toNat).reverse

/-- The characters that may follow a backslash, with the characters that such a pair stands for. -/
def escapes : List (Char × Char) := [('n', '\n'), ('t', '\t'), ('r', '\r'), ('0', '\x00'), ('"', '"'), ('\\', '\\')]

/-- The text that the body of a string literal stands for. -/
inductive Unescapes : List Char → List Char → Prop
  | nil : Unescapes [] []
  | plain {c cs text} (hslash : c ≠ '\\') (hrest : Unescapes cs text) : Unescapes (c :: cs) (c :: text)
  | pair {c value cs text} (hpair : (c, value) ∈ escapes) (hrest : Unescapes cs text) :
      Unescapes ('\\' :: c :: cs) (value :: text)

namespace Literal

theorem decimal_eq_decimalValue (cs : List Char) : decimal cs = decimalValue cs := by
  induction cs using List.reverseRecOn with
  | nil => rfl
  | append_singleton cs c ih =>
    have hdecimal : decimal (cs ++ [c]) = 10 * decimal cs + (c.toNat - '0'.toNat) := by
      rw [decimal, List.foldl_append]
      rfl
    rw [hdecimal, ih]
    simp [decimalValue, Nat.ofDigits_cons]
    omega

theorem unsign_of_digits {text : List Char} (hdigits : ∀ c ∈ text, c.isDigit) : unsign text = (false, text) := by
  unfold unsign
  split
  case h_1 rest => exact absurd (hdigits '-' List.mem_cons_self) (by decide)
  case h_2 rest => exact absurd (hdigits '+' List.mem_cons_self) (by decide)
  case h_3 => rfl

theorem int?_of_digits {lexeme : String} (h : lexeme.toList ≠ [] ∧ ∀ c ∈ lexeme.toList, c.isDigit) :
    int? lexeme = if decimal lexeme.toList ≤ maxInt then some (Int64.ofNat (decimal lexeme.toList)) else none := by
  have hdecimal : decimal? lexeme.toList = some (decimal lexeme.toList) := if_pos ⟨h.1, List.all_eq_true.mpr h.2⟩
  rw [int?, unsign_of_digits h.2]
  simp only [hdecimal]
  rfl

theorem int?_eq_some_iff {lexeme : String} {value : Int64} (h : lexeme.toList ≠ [] ∧ ∀ c ∈ lexeme.toList, c.isDigit) :
    int? lexeme = some value ↔ value.toInt = decimalValue lexeme.toList := by
  rw [int?_of_digits h, ← decimal_eq_decimalValue]
  generalize decimal lexeme.toList = n
  have hround : n ≤ maxInt → (Int64.ofNat n).toInt = n := fun h => Int64.toInt_ofNat_of_lt (by unfold maxInt at h; omega)
  constructor
  · intro h
    split at h
    case isTrue hle =>
      cases h
      exact hround hle
    case isFalse => cases h
  · intro h
    have hle : n ≤ maxInt := by
      have := Int64.toInt_lt value
      unfold maxInt
      omega
    rw [if_pos hle, ← Int64.toInt_inj.mp (h.trans (hround hle).symm)]

theorem escaped?_eq_some_iff {c value : Char} : escaped? c = some value ↔ (c, value) ∈ escapes := by
  constructor
  · intro h
    unfold escaped? at h
    repeat' split at h
    all_goals cases h
    all_goals subst_vars; decide
  · intro h
    simp only [escapes, List.mem_cons, Prod.mk.injEq, List.not_mem_nil, or_false] at h
    rcases h with ⟨rfl, rfl⟩ | ⟨rfl, rfl⟩ | ⟨rfl, rfl⟩ | ⟨rfl, rfl⟩ | ⟨rfl, rfl⟩ | ⟨rfl, rfl⟩ <;> rfl

theorem unescapes_of_decodeBody {escaped : Bool} {decoded cs result : List Char}
    (h : decodeBody escaped decoded cs = .ok result) :
    ∃ text, result = decoded.reverse ++ text ∧ Unescapes (if escaped then '\\' :: cs else cs) text := by
  fun_induction decodeBody escaped decoded cs with
  | case1 => cases h
  | case2 escaped decoded hescaped =>
    cases h
    exact ⟨[], by simp, by simpa [hescaped] using Unescapes.nil⟩
  | case3 decoded c cs value hvalue ih =>
    obtain ⟨text, rfl, htext⟩ := ih h
    exact ⟨value :: text, by simp, .pair (escaped?_eq_some_iff.mp hvalue) htext⟩
  | case4 => cases h
  | case5 escaped decoded cs hescaped ih =>
    obtain ⟨text, rfl, htext⟩ := ih h
    exact ⟨text, rfl, by simpa [hescaped] using htext⟩
  | case6 escaped decoded c cs hescaped hslash ih =>
    obtain ⟨text, rfl, htext⟩ := ih h
    exact ⟨c :: text, by simp, by simpa [hescaped] using Unescapes.plain hslash htext⟩

theorem decodeBody_of_unescapes {cs text : List Char} (h : Unescapes cs text) (decoded : List Char) :
    decodeBody false decoded cs = .ok (decoded.reverse ++ text) := by
  induction h generalizing decoded with
  | nil => simp [decodeBody]
  | plain hslash _ ih => simp [decodeBody, hslash, ih]
  | pair hpair _ ih => simp [decodeBody, escaped?_eq_some_iff.mpr hpair, ih]

/-- Without a backslash a body stands for itself. -/
theorem unescapes_self {cs : List Char} (h : '\\' ∉ cs) : Unescapes cs cs := by
  induction cs with
  | nil => exact .nil
  | cons c cs ih =>
    rw [List.mem_cons, not_or] at h
    exact .plain (Ne.symm h.1) (ih h.2)

/-- A body without a backslash is decoded as it is read, so all bodies may be decoded. -/
theorem string_eq_decodeBody (lexeme : String) : string lexeme = (decodeBody false [] (body lexeme)).map String.ofList := by
  dsimp only [string]
  split
  case isTrue => rfl
  case isFalse hslash => rw [decodeBody_of_unescapes (unescapes_self hslash), List.reverse_nil, List.nil_append, Except.map]

theorem string_eq_ok_iff {lexeme value : String} : string lexeme = .ok value ↔ Unescapes (body lexeme) value.toList := by
  rw [string_eq_decodeBody]
  constructor
  · intro h
    cases hdecode : decodeBody false [] (body lexeme) with
    | error fault =>
      rw [hdecode] at h
      cases h
    | ok result =>
      rw [hdecode] at h
      cases h
      obtain ⟨text, rfl, htext⟩ := unescapes_of_decodeBody hdecode
      simpa using htext
  · intro h
    rw [decodeBody_of_unescapes h]
    simp [Except.map]

theorem body_of_quoted {lexeme : String} {cs : List Char} (h : lexeme.toList = '"' :: (cs ++ ['"'])) : body lexeme = cs := by
  simp [body, h]

end Literal

/-! ### Words -/

inductive Word where
  /-- A word with only one spelling. -/
  | fixed (kind : TokenKind)
  | name (name : String)
  | int (value : Int64)
  | string (value : String)
  /-- The end of a statement. -/
  | terminator

def Word.Spelled : Word → Token → Prop
  | fixed kind, t => t.kind = kind ∧ kind.spelling? = some t.lexeme
  | name text, t => t.kind = .identifier ∧ t.lexeme = text
  | int value, t => t.kind = .intLiteral ∧ (t.lexeme.toList ≠ [] ∧ ∀ c ∈ t.lexeme.toList, c.isDigit) ∧
      value.toInt = decimalValue t.lexeme.toList
  | string value, t => t.kind = .stringLiteral ∧
      ∃ body, t.lexeme.toList = '"' :: (body ++ ['"']) ∧ Unescapes body value.toList
  | terminator, t => t.kind = .semicolon ∧ t.lexeme = ";"

/-- Tokens spell words in order, each word by one token. The end of a statement may be left out. -/
inductive Spelling : List Word → List Token → Prop
  | nil : Spelling [] []
  | word {w t ws ts} (hword : w.Spelled t) (hrest : Spelling ws ts) : Spelling (w :: ws) (t :: ts)
  | leftOut {ws ts} (hrest : Spelling ws ts) : Spelling (.terminator :: ws) ts

namespace Words

mutual

def ofExpr : Expr → List Word
  | .int value _ => [.int value]
  | .string value _ => [.string value]
  | .bool value _ => [.fixed (boolKind value)]
  | .ident name => [.name name.name]
  | .chain _ first rest _ => ofExpr first ++ ofOperands rest
  | .unary op operand _ => .fixed op.tokenKind :: ofExpr operand
  | .call callee args _ => ofExpr callee ++ .fixed .leftParen :: (ofExprs args ++ [.fixed .rightParen])
  | .index object index _ => ofExpr object ++ .fixed .leftBracket :: (ofExpr index ++ [.fixed .rightBracket])
  | .array elements _ => .fixed .leftBracket :: (ofExprs elements ++ [.fixed .rightBracket])
  | .hash pairs _ _ => .fixed .leftBrace :: (ofPairs pairs ++ [.fixed .rightBrace])
  | .function params body _ =>
    .fixed .kwFn :: .fixed .leftParen :: (ofParams params ++ .fixed .rightParen :: ofBlock body)
  | .ifElse condition thenBlock elseBlock _ =>
    .fixed .kwIf :: .fixed .leftParen :: (ofExpr condition ++ .fixed .rightParen :: (ofBlock thenBlock ++ ofElse elseBlock))
  | .paren inner _ => .fixed .leftParen :: (ofExpr inner ++ [.fixed .rightParen])

def ofOperands : List (BinaryOp × Expr) → List Word
  | [] => []
  | (op, operand) :: rest => .fixed op.tokenKind :: (ofExpr operand ++ ofOperands rest)

def ofExprs : List Expr → List Word
  | [] => []
  | [e] => ofExpr e
  | e :: rest => ofExpr e ++ .fixed .comma :: ofExprs rest

def ofPairs : List (Expr × Expr) → List Word
  | [] => []
  | [(key, value)] => ofExpr key ++ .fixed .colon :: ofExpr value
  | (key, value) :: rest => ofExpr key ++ .fixed .colon :: (ofExpr value ++ .fixed .comma :: ofPairs rest)

def ofParams : List Ident → List Word
  | [] => []
  | [param] => [.name param.name]
  | param :: rest => .name param.name :: .fixed .comma :: ofParams rest

def ofElse : Option Block → List Word
  | none => []
  | some block => .fixed .kwElse :: ofBlock block

def ofStmt : Stmt → List Word
  | .letStmt name value _ => .fixed .kwLet :: .name name.name :: .fixed .equal :: (ofExpr value ++ [.terminator])
  | .returnStmt value _ => .fixed .kwReturn :: (ofExpr value ++ [.terminator])
  | .exprStmt expr _ => ofExpr expr ++ [.terminator]

def ofStmts : List Stmt → List Word
  | [] => []
  | stmt :: rest => ofStmt stmt ++ ofStmts rest

def ofBlock : Block → List Word
  | .mk stmts _ => .fixed .leftBrace :: (ofStmts stmts ++ [.fixed .rightBrace])

end

end Words

def Program.words (program : Program) : List Word := Words.ofStmts program.stmts

def Node.words : Node → List Word
  | .expr e => Words.ofExpr e
  | .operands _ rest => Words.ofOperands rest
  | .exprs es => Words.ofExprs es
  | .pairs ps => Words.ofPairs ps
  | .params ps => Words.ofParams ps
  | .block b => Words.ofBlock b
  | .stmt s => Words.ofStmt s
  | .stmts ss => Words.ofStmts ss

/-! ### The shape of the grammar -/

def isName (text : String) : Bool :=
  isWord text.toList && TokenKind.keywords.all fun kind => kind.spelling? != some text

namespace Shaped

mutual

/-- Whether an expression has the shape of the grammar. Its literals and names can be written, a chain has at least two operands
and operators of its level, and what an operator, a call or an index operation applies to is joined tightly enough. -/
def expr : Expr → Bool
  | .int value _ => decide (0 ≤ value.toInt)
  | .string _ _ | .bool _ _ => true
  | .ident name => isName name.name
  | .chain level first rest _ => decide (level.rank < first.rank) && expr first && !rest.isEmpty && operands level rest
  | .unary _ operand _ => decide (3 ≤ operand.rank) && expr operand
  | .call callee args _ => decide (callee.rank = 4) && expr callee && exprs args
  | .index object index _ => decide (object.rank = 4) && expr object && expr index
  | .array elements _ => exprs elements
  | .hash entries _ _ => pairs entries
  | .function params body _ => params.all (fun param => isName param.name) && block body
  | .ifElse condition thenBlock elseBlock _ => expr condition && block thenBlock && otherwise elseBlock
  | .paren inner _ => expr inner

def operands (level : ChainLevel) : List (BinaryOp × Expr) → Bool
  | [] => true
  | (op, operand) :: rest =>
    decide (op.level = level) && decide (level.rank < operand.rank) && expr operand && operands level rest

def exprs : List Expr → Bool
  | [] => true
  | e :: rest => expr e && exprs rest

def pairs : List (Expr × Expr) → Bool
  | [] => true
  | (key, value) :: rest => expr key && expr value && pairs rest

def otherwise : Option Block → Bool
  | none => true
  | some elseBlock => block elseBlock

def stmt : Stmt → Bool
  | .letStmt name value _ => isName name.name && expr value
  | .returnStmt value _ => expr value
  | .exprStmt e _ => expr e

def stmts : List Stmt → Bool
  | [] => true
  | s :: rest => stmt s && stmts rest

def block : Block → Bool
  | .mk ss _ => stmts ss

end

end Shaped

def Program.shaped (program : Program) : Bool := Shaped.stmts program.stmts

def Node.shaped : Node → Bool
  | .expr e => Shaped.expr e
  | .operands level rest => Shaped.operands level rest
  | .exprs es => Shaped.exprs es
  | .pairs ps => Shaped.pairs ps
  | .params ps => ps.all fun param => isName param.name
  | .block b => Shaped.block b
  | .stmt s => Shaped.stmt s
  | .stmts ss => Shaped.stmts ss

/-! ### What tokens spell -/

/-- The text of a token is one of its kind. -/
def Token.Written (t : Token) : Prop := t.kind.Written t.lexeme.toList

namespace Token.Written

variable {t : Token}

theorem lexeme_eq {text : String} (h : t.Written) (hspelling : t.kind.spelling? = some text) : t.lexeme = text :=
  String.toList_inj.mp (h.eq_of_spelling hspelling)

theorem isName (h : t.Written) (hkind : t.kind = .identifier) : isName t.lexeme := by
  unfold Token.Written at h
  generalize hcs : t.lexeme.toList = cs at h
  rw [hkind] at h
  cases h with
  | word hword hfree =>
    subst hcs
    rw [String.ofList_toList] at hfree
    simpa [MonkeyLang.isName, hword] using hfree
  | fixed hspelling => cases hspelling

theorem digits (h : t.Written) (hkind : t.kind = .intLiteral) :
    t.lexeme.toList ≠ [] ∧ ∀ c ∈ t.lexeme.toList, c.isDigit := by
  unfold Token.Written at h
  generalize t.lexeme.toList = cs at h
  rw [hkind] at h
  cases h with
  | digits hne hdigits => exact ⟨hne, hdigits⟩
  | fixed hspelling => cases hspelling

theorem exists_body (h : t.Written) (hkind : t.kind = .stringLiteral) :
    t.lexeme.toList = '"' :: (Literal.body t.lexeme ++ ['"']) := by
  unfold Token.Written at h
  generalize hcs : t.lexeme.toList = cs at h
  rw [hkind] at h
  cases h with
  | quoted => rw [Literal.body_of_quoted hcs]
  | fixed hspelling => cases hspelling

end Token.Written

namespace Spelling

variable {w : Word} {kind : TokenKind} {t : Token} {ws vs : List Word} {ts us : List Token}

theorem append (h : Spelling ws ts) (h' : Spelling vs us) : Spelling (ws ++ vs) (ts ++ us) := by
  induction h with
  | nil => exact h'
  | word hword _ ih => exact .word hword ih
  | leftOut _ ih => exact .leftOut ih

theorem single (h : w.Spelled t) : Spelling [w] [t] := .word h .nil

theorem fixed (hwritten : t.Written) (hkind : t.kind = kind) (hfixed : kind.spelling?.isSome) (hrest : Spelling ws ts) :
    Spelling (.fixed kind :: ws) (t :: ts) := by
  obtain ⟨text, htext⟩ := Option.isSome_iff_exists.mp hfixed
  subst hkind
  refine .word ⟨rfl, ?_⟩ hrest
  rw [hwritten.lexeme_eq htext, htext]

theorem of_ends (h : Ends ts) (hwritten : ∀ t ∈ ts, t.Written) : Spelling [.terminator] ts := by
  cases h with
  | nothing => exact .leftOut .nil
  | @semicolon t hkind =>
    have hspelling : t.kind.spelling? = some ";" := by rw [hkind]; rfl
    exact .single ⟨hkind, (hwritten t List.mem_cons_self).lexeme_eq hspelling⟩

end Spelling

namespace Spells

variable {node : Node} {ts : List Token}

/-- The tokens that spell a piece of syntax spell its words. -/
theorem spelling (h : Spells node ts) (hwritten : ∀ t ∈ ts, t.Written) : Spelling node.words ts := by
  induction h with
  | int hkind hvalue =>
    have ht := hwritten _ List.mem_cons_self
    have hdigits := ht.digits hkind
    exact .single ⟨hkind, hdigits, (Literal.int?_eq_some_iff hdigits).mp hvalue⟩
  | string hkind hvalue =>
    have ht := hwritten _ List.mem_cons_self
    exact .single ⟨hkind, _, ht.exists_body hkind, Literal.string_eq_ok_iff.mp hvalue⟩
  | @bool t value hkind => exact .fixed (hwritten t List.mem_cons_self) hkind (by cases value <;> rfl) .nil
  | ident hkind => exact .single ⟨hkind, rfl⟩
  | chain _ _ _ _ ihfirst ihrest =>
    simp only [List.forall_mem_append] at hwritten
    exact (ihfirst hwritten.1).append (ihrest hwritten.2)
  | @unary t op operand ts hkind _ _ ih =>
    simp only [List.forall_mem_cons] at hwritten
    exact .fixed hwritten.1 hkind (by cases op <;> rfl) (ih hwritten.2)
  | call _ _ hstart _ hstop ihcallee ihargs =>
    simp only [List.forall_mem_append, List.forall_mem_cons] at hwritten
    obtain ⟨hcallee, hopen, hargs, hclose, -⟩ := hwritten
    exact (ihcallee hcallee).append (.fixed hopen hstart rfl ((ihargs hargs).append (.fixed hclose hstop rfl .nil)))
  | index _ _ hstart _ hstop ihobject ihindex =>
    simp only [List.forall_mem_append, List.forall_mem_cons] at hwritten
    obtain ⟨hobject, hopen, hindex, hclose, -⟩ := hwritten
    exact (ihobject hobject).append (.fixed hopen hstart rfl ((ihindex hindex).append (.fixed hclose hstop rfl .nil)))
  | array hstart _ hstop ih | hash hstart _ hstop ih | paren hstart _ hstop ih | block hstart _ hstop ih =>
    simp only [List.forall_mem_append, List.forall_mem_cons] at hwritten
    obtain ⟨hopen, hinner, hclose, -⟩ := hwritten
    exact .fixed hopen hstart rfl ((ih hinner).append (.fixed hclose hstop rfl .nil))
  | function hkind hstart _ hstop _ ihparams ihbody =>
    simp only [List.forall_mem_append, List.forall_mem_cons] at hwritten
    obtain ⟨ht, hopen, hparams, hclose, hbody⟩ := hwritten
    exact .fixed ht hkind rfl (.fixed hopen hstart rfl ((ihparams hparams).append (.fixed hclose hstop rfl (ihbody hbody))))
  | @ifThen t start stop condition thenBlock us vs hkind hstart _ hstop _ ihcondition ihthen =>
    simp only [List.forall_mem_append, List.forall_mem_cons] at hwritten
    obtain ⟨ht, hopen, hcondition, hclose, hthen⟩ := hwritten
    have hblock : Spelling (Words.ofBlock thenBlock ++ []) vs := by
      rw [List.append_nil]
      exact ihthen hthen
    exact .fixed ht hkind rfl (.fixed hopen hstart rfl
      ((ihcondition hcondition).append (.fixed hclose hstop rfl hblock)))
  | ifElse hkind hstart _ hstop _ hmiddle _ ihcondition ihthen ihelse =>
    simp only [List.forall_mem_append, List.forall_mem_cons] at hwritten
    obtain ⟨ht, hopen, hcondition, hclose, hthen, hbetween, helse⟩ := hwritten
    exact .fixed ht hkind rfl (.fixed hopen hstart rfl ((ihcondition hcondition).append (.fixed hclose hstop rfl
      ((ihthen hthen).append (.fixed hbetween hmiddle rfl (ihelse helse))))))
  | operandsNil | exprsNil | pairsNil | paramsNil | stmtsNil => exact .nil
  | @operandsCons t level op operand rest ts us hkind _ _ _ _ ihoperand ihrest =>
    simp only [List.forall_mem_append, List.forall_mem_cons] at hwritten
    exact .fixed hwritten.1 hkind (by cases op <;> rfl) ((ihoperand hwritten.2.1).append (ihrest hwritten.2.2))
  | exprsLast _ ih => exact ih hwritten
  | exprsCons _ hkind _ hne ihe ihrest =>
    simp only [List.forall_mem_append, List.forall_mem_cons] at hwritten
    rw [Node.words, Words.ofExprs.eq_3 _ _ hne]
    exact (ihe hwritten.1).append (.fixed hwritten.2.1 hkind rfl (ihrest hwritten.2.2))
  | pairsLast _ hcolon _ ihkey ihvalue =>
    simp only [List.forall_mem_append, List.forall_mem_cons] at hwritten
    exact (ihkey hwritten.1).append (.fixed hwritten.2.1 hcolon rfl (ihvalue hwritten.2.2))
  | pairsCons _ hcolon _ hkind _ hne ihkey ihvalue ihrest =>
    simp only [List.forall_mem_append, List.forall_mem_cons] at hwritten
    obtain ⟨hkey, hbetween, hvalue, hcomma, hrest⟩ := hwritten
    rw [Node.words, Words.ofPairs.eq_3 _ _ _ hne]
    exact (ihkey hkey).append (.fixed hbetween hcolon rfl ((ihvalue hvalue).append (.fixed hcomma hkind rfl (ihrest hrest))))
  | paramsLast hkind => exact .single ⟨hkind, rfl⟩
  | paramsCons hkind hcomma _ hne ih =>
    simp only [List.forall_mem_cons] at hwritten
    rw [Node.words, Words.ofParams.eq_3 _ _ hne]
    exact .word ⟨hkind, rfl⟩ (.fixed hwritten.2.1 hcomma rfl (ih hwritten.2.2))
  | letStmt hkind hname hequal _ hends ih =>
    simp only [List.forall_mem_append, List.forall_mem_cons] at hwritten
    obtain ⟨ht, -, hbetween, hvalue, hstop⟩ := hwritten
    exact .fixed ht hkind rfl (.word ⟨hname, rfl⟩ (.fixed hbetween hequal rfl ((ih hvalue).append (.of_ends hends hstop))))
  | returnStmt hkind _ hends ih =>
    simp only [List.forall_mem_append, List.forall_mem_cons] at hwritten
    exact .fixed hwritten.1 hkind rfl ((ih hwritten.2.1).append (.of_ends hends hwritten.2.2))
  | exprStmt _ hends ih =>
    simp only [List.forall_mem_append] at hwritten
    exact (ih hwritten.1).append (.of_ends hends hwritten.2)
  | stmtsCons _ _ ihs ihrest =>
    simp only [List.forall_mem_append] at hwritten
    exact (ihs hwritten.1).append (ihrest hwritten.2)

/-- What tokens spell has the shape of the grammar. -/
theorem shaped (h : Spells node ts) (hwritten : ∀ t ∈ ts, t.Written) : node.shaped := by
  induction h with
  | int hkind hvalue =>
    have hdigits := (hwritten _ List.mem_cons_self).digits hkind
    have hvalue := (Literal.int?_eq_some_iff hdigits).mp hvalue
    simp [Node.shaped, Shaped.expr, hvalue]
  | ident hkind => exact (hwritten _ List.mem_cons_self).isName hkind
  | string | bool | operandsNil | exprsNil | pairsNil | paramsNil | stmtsNil => rfl
  | chain _ hrank _ hne ihfirst ihrest =>
    simp only [List.forall_mem_append] at hwritten
    have hfirst : Shaped.expr _ := ihfirst hwritten.1
    have hrest : Shaped.operands _ _ := ihrest hwritten.2
    simp [Node.shaped, Shaped.expr, hrank, hne, hfirst, hrest]
  | unary _ _ hrank ih =>
    simp only [List.forall_mem_cons] at hwritten
    have hoperand : Shaped.expr _ := ih hwritten.2
    simp [Node.shaped, Shaped.expr, hrank, hoperand]
  | call _ hrank _ _ _ ihcallee ihargs =>
    simp only [List.forall_mem_append, List.forall_mem_cons] at hwritten
    have hcallee : Shaped.expr _ := ihcallee hwritten.1
    have hargs : Shaped.exprs _ := ihargs hwritten.2.2.1
    simp [Node.shaped, Shaped.expr, hrank, hcallee, hargs]
  | index _ hrank _ _ _ ihobject ihindex =>
    simp only [List.forall_mem_append, List.forall_mem_cons] at hwritten
    have hobject : Shaped.expr _ := ihobject hwritten.1
    have hindex : Shaped.expr _ := ihindex hwritten.2.2.1
    simp [Node.shaped, Shaped.expr, hrank, hobject, hindex]
  | array _ _ _ ih | hash _ _ _ ih | paren _ _ _ ih | block _ _ _ ih =>
    simp only [List.forall_mem_append, List.forall_mem_cons] at hwritten
    exact ih hwritten.2.1
  | function _ _ _ _ _ ihparams ihbody =>
    simp only [List.forall_mem_append, List.forall_mem_cons] at hwritten
    exact Bool.and_eq_true_iff.mpr ⟨ihparams hwritten.2.2.1, ihbody hwritten.2.2.2.2⟩
  | ifThen _ _ _ _ _ ihcondition ihthen =>
    simp only [List.forall_mem_append, List.forall_mem_cons] at hwritten
    have hcondition : Shaped.expr _ := ihcondition hwritten.2.2.1
    have hthen : Shaped.block _ := ihthen hwritten.2.2.2.2
    simp [Node.shaped, Shaped.expr, Shaped.otherwise, hcondition, hthen]
  | ifElse _ _ _ _ _ _ _ ihcondition ihthen ihelse =>
    simp only [List.forall_mem_append, List.forall_mem_cons] at hwritten
    obtain ⟨-, -, hcondition, -, hthen, -, helse⟩ := hwritten
    have hcondition : Shaped.expr _ := ihcondition hcondition
    have hthen : Shaped.block _ := ihthen hthen
    have helse : Shaped.block _ := ihelse helse
    simp [Node.shaped, Shaped.expr, Shaped.otherwise, hcondition, hthen, helse]
  | operandsCons _ hlevel _ hrank _ ihoperand ihrest =>
    simp only [List.forall_mem_append, List.forall_mem_cons] at hwritten
    have hoperand : Shaped.expr _ := ihoperand hwritten.2.1
    have hrest : Shaped.operands _ _ := ihrest hwritten.2.2
    simp [Node.shaped, Shaped.operands, hlevel, hrank, hoperand, hrest]
  | exprsLast _ ih => exact Bool.and_eq_true_iff.mpr ⟨ih hwritten, rfl⟩
  | exprsCons _ _ _ _ ihe ihrest =>
    simp only [List.forall_mem_append, List.forall_mem_cons] at hwritten
    exact Bool.and_eq_true_iff.mpr ⟨ihe hwritten.1, ihrest hwritten.2.2⟩
  | pairsLast _ _ _ ihkey ihvalue =>
    simp only [List.forall_mem_append, List.forall_mem_cons] at hwritten
    have hkey : Shaped.expr _ := ihkey hwritten.1
    have hvalue : Shaped.expr _ := ihvalue hwritten.2.2
    simp [Node.shaped, Shaped.pairs, hkey, hvalue]
  | pairsCons _ _ _ _ _ _ ihkey ihvalue ihrest =>
    simp only [List.forall_mem_append, List.forall_mem_cons] at hwritten
    obtain ⟨hkey, -, hvalue, -, hrest⟩ := hwritten
    have hkey : Shaped.expr _ := ihkey hkey
    have hvalue : Shaped.expr _ := ihvalue hvalue
    have hrest : Shaped.pairs _ := ihrest hrest
    simp [Node.shaped, Shaped.pairs, hkey, hvalue, hrest]
  | paramsLast hkind => exact Bool.and_eq_true_iff.mpr ⟨(hwritten _ List.mem_cons_self).isName hkind, rfl⟩
  | paramsCons hkind _ _ _ ih =>
    simp only [List.forall_mem_cons] at hwritten
    exact Bool.and_eq_true_iff.mpr ⟨hwritten.1.isName hkind, ih hwritten.2.2⟩
  | letStmt _ hname _ _ _ ih =>
    simp only [List.forall_mem_append, List.forall_mem_cons] at hwritten
    exact Bool.and_eq_true_iff.mpr ⟨hwritten.2.1.isName hname, ih hwritten.2.2.2.1⟩
  | returnStmt _ _ _ ih =>
    simp only [List.forall_mem_append, List.forall_mem_cons] at hwritten
    exact ih hwritten.2.1
  | exprStmt _ _ ih =>
    simp only [List.forall_mem_append] at hwritten
    exact ih hwritten.1
  | stmtsCons _ _ ihs ihrest =>
    simp only [List.forall_mem_append] at hwritten
    exact Bool.and_eq_true_iff.mpr ⟨ihs hwritten.1, ihrest hwritten.2⟩

end Spells

/-- Where a source is read as a program, its lexemes are all tokens, and these spell the words of the program in order. The program
has the shape of the grammar. -/
theorem spelling_of_parse (source : String) (program : Program) (h : Program.parse source = .ok program) :
    ∃ tokens, (Lexeme.scan source).1 = tokens.map .token ∧ Spelling program.words tokens ∧ program.shaped := by
  obtain ⟨tokens, hscan, hspells⟩ := Program.spells_of_parse h
  have hscans : Lexeme.Scans source.toList .start (tokens.map .token) (Lexeme.scan source).2 := by
    rw [← Lexeme.scan_eq_iff, ← hscan]
  have hwritten : ∀ t ∈ tokens, t.Written := fun t ht => hscans.written (List.mem_map_of_mem ht)
  exact ⟨tokens, hscan, hspells.spelling hwritten, hspells.shaped hwritten⟩

/-- Chains of all levels, a comment, a pair in a string, zeros in front of a number and statements without their ends. -/
def spelledSource : String :=
  "let f = fn(x) \x7b x * -y[007] + 1 < \"a\\n\" \x7d // no end\nreturn f(1, (2));"

theorem spelling_of_spelledSource :
    ∃ program, Program.parse spelledSource = .ok program ∧
      ∃ tokens, (Lexeme.scan spelledSource).1 = tokens.map .token ∧ Spelling program.words tokens ∧ program.shaped := by
  have hok : (Program.parse spelledSource).isOk := by decide +kernel
  cases hparse : Program.parse spelledSource with
  | error errors =>
    rw [hparse] at hok
    cases hok
  | ok program => exact ⟨program, rfl, spelling_of_parse spelledSource program hparse⟩

end MonkeyLang
