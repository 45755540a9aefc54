import MonkeyLang.Proofs.ParserCompleteness
import MonkeyLang.Proofs.Positions
/-!
# Printing programs

A program is printed as its words, with a blank between each two of them. Each word is then a token by itself, so the tokens of
the printed text spell the words that were printed, and the program is read back with the spans that it has in that text.
-/

namespace MonkeyLang

/-! ### Strings and numbers -/

/-- A character of a string as it is written in a literal. -/
def escape (c : Char) : List Char := if c = '"' ∨ c = '\\' then ['\\', c] else [c]

def quote (text : String) : String := String.ofList ('"' :: (text.toList.flatMap escape ++ ['"']))

theorem stringBody_escape (cs : List Char) : StringBody (cs.flatMap escape) := by
  induction cs with
  | nil => exact .nil
  | cons c cs ih =>
    rw [List.flatMap_cons]
    unfold escape
    by_cases hc : c = '"' ∨ c = '\\'
    · rw [if_pos hc]
      exact .pair ih
    · rw [if_neg hc]
      rw [not_or] at hc
      exact .plain hc.1 hc.2 ih

theorem unescapes_escape (cs : List Char) : Unescapes (cs.flatMap escape) cs := by
  induction cs with
  | nil => exact .nil
  | cons c cs ih =>
    rw [List.flatMap_cons]
    unfold escape
    by_cases hc : c = '"' ∨ c = '\\'
    · rw [if_pos hc]
      have hpair : (c, c) ∈ escapes := by
        rcases hc with rfl | rfl <;> decide
      exact .pair hpair ih
    · rw [if_neg hc]
      rw [not_or] at hc
      exact .plain hc.2 ih

theorem decimalValue_toDigits (n : Nat) : decimalValue (Nat.toDigits 10 n) = n := by
  rw [← Literal.decimal_eq_decimalValue, Literal.decimal, ← Nat.ofDigitChars_eq_foldl, Nat.ofDigitChars_ten_toDigits]

theorem toList_toString_of_nonneg {value : Int64} (h : 0 ≤ value.toInt) :
    (toString value).toList = Nat.toDigits 10 value.toInt.toNat := by
  obtain ⟨n, hn⟩ := Int.eq_ofNat_of_zero_le h
  change (toString value.toInt).toList = _
  rw [hn]
  change (toString n).toList = Nat.toDigits 10 n
  rw [Nat.toString_eq_ofList_toDigits, String.toList_ofList]

/-! ### Words -/

namespace Word

def text : Word → String
  | fixed kind => kind.spelling?.getD ""
  | name text => text
  | int value => toString value
  | string value => quote value
  | terminator => ";"

def kind : Word → TokenKind
  | fixed kind => kind
  | name _ => .identifier
  | int _ => .intLiteral
  | string _ => .stringLiteral
  | terminator => .semicolon

/-- Whether there is a token that spells a word. -/
def writable : Word → Bool
  | fixed kind => kind.spelling?.isSome
  | name text => isName text
  | int value => decide (0 ≤ value.toInt)
  | string _ | terminator => true

theorem written_text {w : Word} (h : w.writable) : w.kind.Written w.text.toList := by
  cases w with
  | fixed kind =>
    obtain ⟨text, htext⟩ := Option.isSome_iff_exists.mp h
    have : Word.text (fixed kind) = text := by rw [Word.text, htext, Option.getD_some]
    rw [this]
    exact .fixed htext
  | name text =>
    obtain ⟨hword, hfree⟩ := Bool.and_eq_true_iff.mp h
    refine .word hword fun kind hkind => ?_
    rw [Word.text, String.ofList_toList]
    simpa using List.all_eq_true.mp hfree kind hkind
  | int value =>
    rw [Word.text, toList_toString_of_nonneg (of_decide_eq_true h)]
    exact .digits Nat.toDigits_ne_nil fun c hc => Nat.isDigit_of_mem_toDigits (by decide) (by decide) hc
  | string value =>
    rw [Word.text, quote, String.toList_ofList]
    exact .quoted (stringBody_escape _)
  | terminator => exact .fixed rfl

theorem spelled_text {w : Word} {t : Token} (h : w.writable) (hkind : t.kind = w.kind) (hlexeme : t.lexeme = w.text) :
    w.Spelled t := by
  cases w with
  | fixed kind =>
    obtain ⟨text, htext⟩ := Option.isSome_iff_exists.mp h
    refine ⟨hkind, ?_⟩
    rw [hlexeme, Word.text, htext, Option.getD_some]
  | name text => exact ⟨hkind, hlexeme⟩
  | int value =>
    have hnonneg : 0 ≤ value.toInt := of_decide_eq_true h
    have hdigits : t.lexeme.toList = Nat.toDigits 10 value.toInt.toNat := by
      rw [hlexeme, Word.text, toList_toString_of_nonneg hnonneg]
    refine ⟨hkind, ?_, ?_⟩
    · rw [hdigits]
      exact ⟨Nat.toDigits_ne_nil, fun c hc => Nat.isDigit_of_mem_toDigits (by decide) (by decide) hc⟩
    · rw [hdigits, decimalValue_toDigits, Int.toNat_of_nonneg hnonneg]
  | string value =>
    refine ⟨hkind, value.toList.flatMap escape, ?_, unescapes_escape _⟩
    rw [hlexeme, Word.text, quote, String.toList_ofList]
  | terminator => exact ⟨hkind, hlexeme⟩

end Word

/-! ### Words of syntax -/

namespace Words

def writable (ws : List Word) : Bool := ws.all Word.writable

@[simp] theorem writable_nil : writable [] := rfl

@[simp] theorem writable_cons (w : Word) (ws : List Word) : writable (w :: ws) = (w.writable && writable ws) := rfl

@[simp] theorem writable_append (ws vs : List Word) : writable (ws ++ vs) = (writable ws && writable vs) := List.all_append

@[simp] theorem writable_fixed (kind : TokenKind) : (Word.fixed kind).writable = kind.spelling?.isSome := rfl

theorem spelled_boolKind (value : Bool) : (boolKind value).spelling?.isSome := by cases value <;> rfl

theorem spelled_unaryOp (op : UnaryOp) : op.tokenKind.spelling?.isSome := by cases op <;> rfl

theorem spelled_binaryOp (op : BinaryOp) : op.tokenKind.spelling?.isSome := by cases op <;> rfl

theorem writable_ofParams (params : List Ident) (h : params.all fun param => isName param.name) : writable (ofParams params) := by
  fun_induction ofParams params with
  | case1 => rfl
  | case2 param => simpa [Word.writable] using h
  | case3 param rest hne ih =>
    rw [List.all_cons, Bool.and_eq_true] at h
    simp [Word.writable, TokenKind.spelling?, h.1, ih h.2]

mutual

/-- The words of syntax of the shape of the grammar can be written. -/
theorem writable_ofExpr (e : Expr) (h : Shaped.expr e) : writable (ofExpr e) := by
  cases e with
  | int value => simpa [Shaped.expr, ofExpr, Word.writable] using h
  | string => rfl
  | bool value => simp [ofExpr, spelled_boolKind]
  | ident name => simpa [Shaped.expr, ofExpr, Word.writable] using h
  | chain level first rest =>
    simp only [Shaped.expr, Bool.and_eq_true] at h
    obtain ⟨⟨⟨-, hfirst⟩, -⟩, hrest⟩ := h
    simp [ofExpr, writable_ofExpr first hfirst, writable_ofOperands level rest hrest]
  | unary op operand =>
    simp only [Shaped.expr, Bool.and_eq_true] at h
    simp [ofExpr, spelled_unaryOp, writable_ofExpr operand h.2]
  | call callee args =>
    simp only [Shaped.expr, Bool.and_eq_true] at h
    obtain ⟨⟨-, hcallee⟩, hargs⟩ := h
    simp [ofExpr, TokenKind.spelling?, writable_ofExpr callee hcallee, writable_ofExprs args hargs]
  | index object index =>
    simp only [Shaped.expr, Bool.and_eq_true] at h
    obtain ⟨⟨-, hobject⟩, hindex⟩ := h
    simp [ofExpr, TokenKind.spelling?, writable_ofExpr object hobject, writable_ofExpr index hindex]
  | array elements => simp [ofExpr, TokenKind.spelling?, writable_ofExprs elements h]
  | hash entries => simp [ofExpr, TokenKind.spelling?, writable_ofPairs entries h]
  | function params body =>
    simp only [Shaped.expr, Bool.and_eq_true] at h
    simp [ofExpr, TokenKind.spelling?, writable_ofParams params h.1, writable_ofBlock body h.2]
  | ifElse condition thenBlock elseBlock =>
    simp only [Shaped.expr, Bool.and_eq_true] at h
    obtain ⟨⟨hcondition, hthen⟩, helse⟩ := h
    simp [ofExpr, TokenKind.spelling?, writable_ofExpr condition hcondition, writable_ofBlock thenBlock hthen,
      writable_ofElse elseBlock helse]
  | paren inner => simp [ofExpr, TokenKind.spelling?, writable_ofExpr inner h]

theorem writable_ofOperands (level : ChainLevel) (rest : List (BinaryOp × Expr)) (h : Shaped.operands level rest) :
    writable (ofOperands rest) := by
  match rest with
  | [] => rfl
  | (op, operand) :: rest =>
    simp only [Shaped.operands, Bool.and_eq_true] at h
    obtain ⟨⟨-, hoperand⟩, hrest⟩ := h
    simp [ofOperands, spelled_binaryOp, writable_ofExpr operand hoperand, writable_ofOperands level rest hrest]

theorem writable_ofExprs (es : List Expr) (h : Shaped.exprs es) : writable (ofExprs es) := by
  match es with
  | [] => rfl
  | [e] => exact writable_ofExpr e (Bool.and_eq_true_iff.mp h).1
  | e :: e' :: rest =>
    rw [Shaped.exprs, Bool.and_eq_true] at h
    simp [ofExprs, TokenKind.spelling?, writable_ofExpr e h.1, writable_ofExprs (e' :: rest) h.2]

theorem writable_ofPairs (ps : List (Expr × Expr)) (h : Shaped.pairs ps) : writable (ofPairs ps) := by
  match ps with
  | [] => rfl
  | [(key, value)] =>
    simp only [Shaped.pairs, Bool.and_true, Bool.and_eq_true] at h
    simp [ofPairs, TokenKind.spelling?, writable_ofExpr key h.1, writable_ofExpr value h.2]
  | (key, value) :: pair :: rest =>
    rw [Shaped.pairs, Bool.and_eq_true, Bool.and_eq_true] at h
    obtain ⟨⟨hkey, hvalue⟩, hrest⟩ := h
    simp [ofPairs, TokenKind.spelling?, writable_ofExpr key hkey, writable_ofExpr value hvalue,
      writable_ofPairs (pair :: rest) hrest]

theorem writable_ofElse (b : Option Block) (h : Shaped.otherwise b) : writable (ofElse b) := by
  match b with
  | none => rfl
  | some elseBlock => simp [ofElse, TokenKind.spelling?, writable_ofBlock elseBlock h]

theorem writable_ofStmt (s : Stmt) (h : Shaped.stmt s) : writable (ofStmt s) := by
  cases s with
  | letStmt name value =>
    simp only [Shaped.stmt, Bool.and_eq_true] at h
    simp [ofStmt, TokenKind.spelling?, Word.writable, h.1, writable_ofExpr value h.2]
  | returnStmt value => simp [ofStmt, TokenKind.spelling?, Word.writable, writable_ofExpr value h]
  | exprStmt e => simp [ofStmt, Word.writable, writable_ofExpr e h]

theorem writable_ofStmts (ss : List Stmt) (h : Shaped.stmts ss) : writable (ofStmts ss) := by
  match ss with
  | [] => rfl
  | s :: rest =>
    simp only [Shaped.stmts, Bool.and_eq_true] at h
    simp [ofStmts, writable_ofStmt s h.1, writable_ofStmts rest h.2]

theorem writable_ofBlock (b : Block) (h : Shaped.block b) : writable (ofBlock b) := by
  match b with
  | .mk ss _ => simp [ofBlock, TokenKind.spelling?, writable_ofStmts ss h]

end

end Words

/-! ### Printed texts -/

namespace Words

def print (ws : List Word) : String := " ".intercalate (ws.map Word.text)

theorem toList_print (w : Word) (ws : List Word) :
    (print (w :: ws)).toList = w.text.toList ++ if ws.isEmpty then [] else ' ' :: (print ws).toList := by
  cases ws with
  | nil => simp [print]
  | cons v vs => simp [print, String.toList_intercalate]

theorem scans_print {ws : List Word} (h : writable ws) (p : Position) :
    ∃ ts stop, Lexeme.Scans (print ws).toList p (ts.map .token) stop ∧ Spelled ws ts := by
  induction ws generalizing p with
  | nil => exact ⟨[], p, .stop rfl, .nil⟩
  | cons w ws ih =>
    rw [writable_cons, Bool.and_eq_true] at h
    have hwritten := Word.written_text h.1
    obtain ⟨ts, stop, hscans, hspelled⟩ := ih h.2 ((p.afterAll w.text.toList).after ' ')
    have hspelled' := Word.spelled_text h.1 (rfl : (Lexeme.tokenAt w.kind w.text.toList p).kind = _) String.ofList_toList
    rw [toList_print]
    cases ws with
    | nil =>
      cases hspelled
      exact ⟨[_], p.afterAll w.text.toList, .written_cons hwritten (by rintro d ⟨⟩) (.stop rfl), .cons hspelled' .nil⟩
    | cons v vs =>
      refine ⟨_ :: ts, stop, .written_cons hwritten ?_ (.blank_cons (by decide) hscans), .cons hspelled' hspelled⟩
      rintro d ⟨⟩
      decide

end Words

/-- A program is written with the end of every statement, and one blank between each two words. -/
def Program.print (program : Program) : String := Words.print program.words

/-- What is printed of a program of the shape of the grammar is read as that program, up to its spans, if it is not too long. -/
theorem parse_print (program : Program) (hshaped : program.shaped) (hsize : program.print.utf8ByteSize < 2147483648) :
    (Program.read program.print).fits ∧
      ∃ program', Program.parse program.print = .ok program' ∧ program'.bare = program.bare := by
  obtain ⟨tokens, stop, hscans, hspelled⟩ := Words.scans_print (Words.writable_ofStmts program.stmts hshaped) .start
  have hscan : (Lexeme.scan program.print).1 = tokens.map .token := congrArg Prod.fst (Lexeme.scan_eq_iff.mpr hscans)
  exact ⟨Program.read_fits hsize, Program.parse_of_spelled hshaped hscan hspelled⟩

/-- A function whose body joins chains of all levels, and a call of it on a hash literal with a quote, a backslash and a newline
in its key. -/
def everyLevel : Program :=
  let x : Expr := .ident ⟨"x", default⟩
  let product : Expr := .chain .multiplication (.int 1 default) [(.mul, .unary .neg x default)] default
  let test : Expr := .chain .comparison (.chain .addition x [(.add, product)] default) [(.less, .int 2 default)] default
  let choice : Expr := .ifElse test (.mk [.exprStmt x default] default) (some (.mk [] default)) default
  let key : Expr := .string "\"\\\n" default
  let table : Expr := .hash [(key, .int 9223372036854775807 default), (x, .array [] default)] default default
  let f : Expr := .function [⟨"x", default⟩] (.mk [.returnStmt choice default] default) default
  ⟨[.letStmt ⟨"f", default⟩ f default,
    .exprStmt (.call (.paren f default) [.index table key default, .bool true default] default) default], default⟩

theorem parse_print_everyLevel :
    everyLevel.print =
      "let f = fn ( x ) \x7b return if ( x + 1 * - x < 2 ) \x7b x ; \x7d else \x7b \x7d ; \x7d ; ( fn ( x ) \x7b " ++
      "return if ( x + 1 * - x < 2 ) \x7b x ; \x7d else \x7b \x7d ; \x7d ) ( \x7b \"\\\"\\\\\n\" : 9223372036854775807 , " ++
      "x : [ ] \x7d [ \"\\\"\\\\\n\" ] , true ) ;" ∧
    everyLevel.shaped ∧ everyLevel.print.utf8ByteSize < 2147483648 ∧ (Program.read everyLevel.print).fits ∧
      ∃ program', Program.parse everyLevel.print = .ok program' ∧ program'.bare = everyLevel.bare := by
  have hshaped : everyLevel.shaped := by decide +kernel
  have hsize : everyLevel.print.utf8ByteSize < 2147483648 := by decide +kernel
  exact ⟨by decide +kernel, hshaped, hsize, parse_print everyLevel hshaped hsize⟩

end MonkeyLang
