import MonkeyLang.Proofs.ErrorOrder
/-!
# Parentheses have no meaning of their own

`Program.stripped` is a program with every pair of parentheses taken away and nothing else changed. Analysis and generation look at
the form of an expression in a few places: the value of a `let`, the callee of a call, the keys of a hash literal. There they
look through parentheses, however many there are, so that they do the same with a program and with what is left of it.
-/

namespace MonkeyLang

/-! ### Taking parentheses away -/

mutual

/-- An expression without the parentheses around it and in it. -/
def Expr.stripped : Expr → Expr
  | .int value span => .int value span
  | .string value span => .string value span
  | .bool value span => .bool value span
  | .ident name => .ident name
  | .chain level first rest span => .chain level first.stripped (strippedOperands rest) span
  | .unary op operand span => .unary op operand.stripped span
  | .call callee args span => .call callee.stripped (strippedExprs args) span
  | .index object index span => .index object.stripped index.stripped span
  | .array elements span => .array (strippedExprs elements) span
  | .hash pairs brace span => .hash (strippedPairs pairs) brace span
  | .function params body span => .function params body.stripped span
  | .ifElse condition thenBlock elseBlock span =>
    .ifElse condition.stripped thenBlock.stripped (strippedElse elseBlock) span
  | .paren inner _ => inner.stripped

def strippedOperands : List (BinaryOp × Expr) → List (BinaryOp × Expr)
  | [] => []
  | (op, operand) :: rest => (op, operand.stripped) :: strippedOperands rest

def strippedExprs : List Expr → List Expr
  | [] => []
  | e :: rest => e.stripped :: strippedExprs rest

def strippedPairs : List (Expr × Expr) → List (Expr × Expr)
  | [] => []
  | (key, value) :: rest => (key.stripped, value.stripped) :: strippedPairs rest

def strippedElse : Option Block → Option Block
  | none => none
  | some block => some block.stripped

def Stmt.stripped : Stmt → Stmt
  | .letStmt name value span => .letStmt name value.stripped span
  | .returnStmt value span => .returnStmt value.stripped span
  | .exprStmt e span => .exprStmt e.stripped span

def strippedStmts : List Stmt → List Stmt
  | [] => []
  | s :: rest => s.stripped :: strippedStmts rest

def Block.stripped : Block → Block
  | .mk stmts span => .mk (strippedStmts stmts) span

end

def Program.stripped (program : Program) : Program := ⟨strippedStmts program.stmts, program.span⟩

theorem length_strippedExprs (es : List Expr) : (strippedExprs es).length = es.length := by
  induction es with
  | nil => rfl
  | cons e es ih => rw [strippedExprs, List.length_cons, List.length_cons, ih]

theorem length_strippedPairs (ps : List (Expr × Expr)) : (strippedPairs ps).length = ps.length := by
  induction ps with
  | nil => rfl
  | cons p ps ih => rw [strippedPairs, List.length_cons, List.length_cons, ih]

/-! ### Forms of expressions -/

namespace Expr

theorem stripped_unparen (e : Expr) : e.unparen.stripped = e.stripped := by
  fun_induction unparen e with
  | case1 inner span ih => rw [ih, stripped]
  | case2 => rfl

/-- What is stripped has no parentheses around it. -/
theorem unparen_stripped (e : Expr) : e.stripped.unparen = e.stripped := by
  rw [← stripped_unparen]
  fun_induction unparen e with
  | case1 inner span ih => exact ih
  | case2 e hparen =>
    cases e with
    | paren inner span => exact absurd rfl (hparen inner span)
    | _ => rw [stripped, unparen]; rintro _ _ ⟨⟩

theorem unparen_ne_paren (e inner : Expr) (span : Span) : e.unparen ≠ .paren inner span := by
  fun_induction unparen e with
  | case1 _ _ ih => exact ih
  | case2 e hparen => exact hparen inner span

theorem ident?_stripped (e : Expr) : e.stripped.ident? = e.ident? := by
  have hparen := e.unparen_ne_paren
  unfold ident?
  rw [unparen_stripped, ← stripped_unparen]
  cases he : e.unparen with
  | paren inner span => exact absurd he (hparen inner span)
  | _ => simp only [stripped]

theorem function?_stripped (e : Expr) :
    e.stripped.function? = e.function?.map fun literal => (literal.1, literal.2.1.stripped, literal.2.2) := by
  have hparen := e.unparen_ne_paren
  unfold function?
  rw [unparen_stripped, ← stripped_unparen]
  cases he : e.unparen with
  | paren inner span => exact absurd he (hparen inner span)
  | _ => simp only [stripped, Option.map_some, Option.map_none]

end Expr

namespace Analyzer

theorem keyTypeOf_stripped (key : Expr) : keyTypeOf key.stripped = keyTypeOf key := by
  have hkey := key.unparen_ne_paren
  unfold keyTypeOf
  rw [Expr.unparen_stripped, ← Expr.stripped_unparen]
  cases hform : key.unparen with
  | paren inner span => exact absurd hform (hkey inner span)
  | unary op operand span =>
    have hoperand := operand.unparen_ne_paren
    cases op with
    | not => simp only [Expr.stripped]
    | neg =>
      simp only [Expr.stripped]
      rw [Expr.unparen_stripped, ← Expr.stripped_unparen]
      cases hinner : operand.unparen with
      | paren inner span => exact absurd hinner (hoperand inner span)
      | _ => simp only [Expr.stripped]
  | _ => simp only [Expr.stripped]

theorem checkCall_stripped (callee : Expr) (args : Nat) (span : Span) :
    checkCall callee.stripped args span = checkCall callee args span := by
  unfold checkCall
  rw [Expr.ident?_stripped]

/-! ### Analysis -/

mutual

theorem walkExpr_stripped (e : Expr) : walkExpr e.stripped = walkExpr e := by
  cases e with
  | int | string | bool | ident => rw [Expr.stripped]
  | chain level first rest span =>
    rw [Expr.stripped, walkExpr, walkExpr, walkExpr_stripped first, walkOperands_stripped rest]
  | unary op operand span => rw [Expr.stripped, walkExpr, walkExpr, walkExpr_stripped operand]
  | call callee args span =>
    rw [Expr.stripped, walkExpr, walkExpr, walkExpr_stripped callee, checkCall_stripped, length_strippedExprs,
      walkExprs_stripped args]
  | index object index span => rw [Expr.stripped, walkExpr, walkExpr, walkExpr_stripped object, walkExpr_stripped index]
  | array elements span => rw [Expr.stripped, walkExpr, walkExpr, length_strippedExprs, walkExprs_stripped elements]
  | hash pairs brace span => rw [Expr.stripped, walkExpr, walkExpr, walkPairs_stripped pairs]
  | function params body span => rw [Expr.stripped, walkExpr, walkExpr, walkBody_stripped body]
  | ifElse condition thenBlock elseBlock span =>
    rw [Expr.stripped, walkExpr, walkExpr, walkExpr_stripped condition, walkBlock_stripped thenBlock,
      walkElse_stripped elseBlock]
  | paren inner span => rw [Expr.stripped, walkExpr_stripped inner, walkExpr]

theorem walkOperands_stripped (rest : List (BinaryOp × Expr)) : walkOperands (strippedOperands rest) = walkOperands rest := by
  match rest with
  | [] => rfl
  | (op, operand) :: rest =>
    rw [strippedOperands, walkOperands, walkOperands, walkExpr_stripped operand, walkOperands_stripped rest]

theorem walkExprs_stripped (es : List Expr) : walkExprs (strippedExprs es) = walkExprs es := by
  match es with
  | [] => rfl
  | e :: rest => rw [strippedExprs, walkExprs, walkExprs, walkExpr_stripped e, walkExprs_stripped rest]

theorem walkPairs_stripped (ps : List (Expr × Expr)) : walkPairs (strippedPairs ps) = walkPairs ps := by
  match ps with
  | [] => rfl
  | (key, value) :: rest =>
    rw [strippedPairs, walkPairs, walkPairs, keyTypeOf_stripped, walkExpr_stripped key, walkExpr_stripped value,
      walkPairs_stripped rest]

theorem walkElse_stripped (block : Option Block) : walkElse (strippedElse block) = walkElse block := by
  match block with
  | none => rfl
  | some block => rw [strippedElse, walkElse, walkElse, walkBlock_stripped block]

theorem walkStmt_stripped (s : Stmt) : walkStmt s.stripped = walkStmt s := by
  cases s with
  | letStmt name value span =>
    rw [Stmt.stripped, walkStmt, walkStmt, walkExpr_stripped value, Expr.function?_stripped]
    cases value.function? with
    | none => rfl
    | some literal => rfl
  | returnStmt value span => rw [Stmt.stripped, walkStmt, walkStmt, walkExpr_stripped value]
  | exprStmt e span => rw [Stmt.stripped, walkStmt, walkStmt, walkExpr_stripped e]

theorem walkStmts_stripped (ss : List Stmt) : walkStmts (strippedStmts ss) = walkStmts ss := by
  match ss with
  | [] => rfl
  | s :: rest => rw [strippedStmts, walkStmts, walkStmts, walkStmt_stripped s, walkStmts_stripped rest]

theorem walkBody_stripped (block : Block) : walkBody block.stripped = walkBody block := by
  cases block with
  | mk stmts span => rw [Block.stripped, walkBody, walkBody, walkStmts_stripped stmts]

theorem walkBlock_stripped (block : Block) : walkBlock block.stripped = walkBlock block := by
  cases block with
  | mk stmts span => rw [Block.stripped, walkBlock, walkBlock, walkStmts_stripped stmts]

end

end Analyzer

theorem analyze_stripped (options : AnalysisOptions) (program : Program) :
    analyze options program.stripped = analyze options program := by
  unfold analyze
  rw [Program.stripped, Analyzer.visitStmts_eq, Analyzer.visitStmts_eq, Analyzer.walkStmts_stripped]

/-! ### Generation -/

namespace Phrase

def stripped : Phrase → Phrase
  | expr name e => expr name e.stripped
  | operands rest => operands (strippedOperands rest)
  | exprs es => exprs (strippedExprs es)
  | pairs ps => pairs (strippedPairs ps)
  | otherwise block => otherwise (strippedElse block)
  | stmt s => stmt s.stripped
  | stmts ss => stmts (strippedStmts ss)
  | valueBlock block => valueBlock block.stripped
  | valueStmts ss => valueStmts (strippedStmts ss)
  | functionStmts ss => functionStmts (strippedStmts ss)

theorem generate_stripped (p : Phrase) : p.stripped.generate = p.generate := by
  induction p using Phrase.induction with
  | int | string | bool | ident => simp only [stripped, Expr.stripped]
  | chain name level first rest span ihfirst ihrest =>
    rw [stripped, Expr.stripped, generate_chain, generate_chain, ← ihfirst, ← ihrest, stripped, stripped]
  | call name callee args span ihcallee ihargs =>
    rw [stripped, Expr.stripped, generate_call, generate_call, length_strippedExprs, ← ihcallee, ← ihargs, stripped, stripped]
  | unary name op operand span ih | paren name inner span ih =>
    simp only [stripped, generate] at ih
    simp only [stripped, generate, Expr.stripped, Generator.expr, ih]
  | index name object index span ih ih' =>
    simp only [stripped, generate] at ih ih'
    simp only [stripped, generate, Expr.stripped, Generator.expr, ih, ih']
  | array name elements span ih =>
    simp only [stripped, generate] at ih
    simp only [stripped, generate, Expr.stripped, Generator.expr, ih, length_strippedExprs]
  | hash name ps brace span ih =>
    simp only [stripped, generate] at ih
    simp only [stripped, generate, Expr.stripped, Generator.expr, ih, length_strippedPairs]
  | function name params body blockSpan span ih =>
    simp only [stripped, generate] at ih
    simp only [stripped, generate, Expr.stripped, Block.stripped, Generator.expr, Generator.functionBody, ih]
  | ifElse name condition thenBlock elseBlock span ihcondition ihthen ihelse =>
    simp only [stripped, generate] at ihcondition ihthen ihelse
    simp only [stripped, generate, Expr.stripped, Generator.expr, ihcondition, ihthen, ihelse]
  | operandsNil | exprsNil | pairsNil | otherwiseNone | stmtsNil | valueNil | functionNil => rfl
  | operandsCons op operand rest ih ihrest =>
    rw [stripped, strippedOperands, generate_operands_cons, generate_operands_cons, ← ih, ← ihrest, stripped, stripped]
  | exprsCons e rest ih ihrest =>
    rw [stripped, strippedExprs, generate_exprs_cons, generate_exprs_cons, ← ih, ← ihrest, stripped, stripped]
  | pairsCons key value rest ihkey ihvalue ihrest =>
    rw [stripped, strippedPairs, generate_pairs_cons, generate_pairs_cons, ← ihkey, ← ihvalue, ← ihrest, stripped, stripped,
      stripped]
  | otherwiseSome block ih => exact ih
  | letStmt name value span ih | returnStmt value span ih | exprStmt e span ih =>
    simp only [stripped, generate] at ih
    simp only [stripped, generate, Stmt.stripped, Generator.stmt, ih]
  | stmtsCons s rest ih ihrest =>
    rw [stripped, strippedStmts, generate_stmts_cons, generate_stmts_cons, ← ih, ← ihrest, stripped, stripped]
  | valueBlock body span ih =>
    simp only [stripped, generate] at ih
    simp only [stripped, generate, Block.stripped, Generator.valueBlock, ih]
  | valueLast s ih ihexpr =>
    cases s with
    | exprStmt e span =>
      have he := ihexpr e span rfl
      simp only [stripped, generate] at he
      simp only [stripped, generate, strippedStmts, Stmt.stripped, Generator.valueStmts, he]
    | letStmt | returnStmt =>
      simp only [stripped, generate, Stmt.stripped] at ih
      simp only [stripped, generate, strippedStmts, Stmt.stripped, Generator.valueStmts, ih]
  | functionLast s ih ihexpr =>
    cases s with
    | exprStmt e span =>
      have he := ihexpr e span rfl
      simp only [stripped, generate] at he
      simp only [stripped, generate, strippedStmts, Stmt.stripped, Generator.functionStmts, he]
    | letStmt | returnStmt =>
      simp only [stripped, generate, Stmt.stripped] at ih
      simp only [stripped, generate, strippedStmts, Stmt.stripped, Generator.functionStmts, ih]
  | valueCons s next rest ih ihrest =>
    rw [stripped, strippedStmts, strippedStmts, generate_valueStmts_cons, generate_valueStmts_cons, ← ih, ← ihrest, stripped,
      stripped, strippedStmts]
  | functionCons s next rest ih ihrest =>
    rw [stripped, strippedStmts, strippedStmts, generate_functionStmts_cons, generate_functionStmts_cons, ← ih, ← ihrest,
      stripped, stripped, strippedStmts]

def isParen : Phrase → Bool
  | expr _ (.paren _ _) => true
  | _ => false

theorem isParen_stripped (p : Phrase) : p.stripped.isParen = false := by
  cases p with
  | expr name e =>
    have hparen := e.stripped.unparen_ne_paren
    rw [Expr.unparen_stripped] at hparen
    rw [stripped]
    cases he : e.stripped with
    | paren inner span => exact absurd he (hparen inner span)
    | _ => rfl
  | _ => rfl

theorem exists_eq_paren {p : Phrase} (h : p.isParen) : ∃ name inner span, p = .expr name (.paren inner span) := by
  unfold isParen at h
  split at h
  case h_1 name inner span => exact ⟨name, inner, span, rfl⟩
  case h_2 => cases h

/-- Whatever has no parentheses around it keeps its form. -/
theorem parts_stripped {p : Phrase} (h : p.isParen = false) : p.stripped.parts = p.parts.map stripped := by
  fun_cases parts p
  case case13 => cases h
  case case34 s hlast | case35 s hlast =>
    cases s with
    | exprStmt e span => exact absurd rfl (hlast e span)
    | letStmt | returnStmt => rfl
  all_goals rfl

/-- Nothing in parentheses is left. -/
theorem all_stripped (p : Phrase) : p.stripped.all fun q => !q.isParen := by
  induction p using Phrase.partsInduction with
  | step p ih =>
    by_cases hp : p.isParen
    · obtain ⟨name, inner, span, rfl⟩ := exists_eq_paren hp
      exact ih (.expr name inner) List.mem_cons_self
    · rw [all_eq, isParen_stripped, parts_stripped (Bool.not_eq_true _ ▸ hp), List.all_map]
      exact List.all_eq_true.mpr ih

end Phrase

theorem generate_program_stripped (program : Program) : generate program.stripped = generate program := by
  have hroot := Phrase.generate_stripped program.root
  rw [generate_eq_assemble, generate_eq_assemble, Generator.assemble, Generator.assemble]
  rw [Program.stripped]
  change Generator.stmts #[] (strippedStmts program.stmts) = Generator.stmts #[] program.stmts at hroot
  rw [hroot]

/-- Taking the parentheses of a program away leaves none of them, and changes neither what analysis reports nor what generation
comes to, which is an executable or an error. -/
theorem parentheses_transparent (program : Program) :
    (program.stripped.root.all fun p => !p.isParen) ∧
    (∀ options, ∃ result, analyze options program = .ok result ∧ analyze options program.stripped = .ok result) ∧
    generate program.stripped = generate program := by
  refine ⟨Phrase.all_stripped program.root, ?_, generate_program_stripped program⟩
  intro options
  have hroot : program.phraseAt [] = some program.root := rfl
  obtain ⟨r, a, hrun, -⟩ := Analyzer.Knows.run program.root hroot (.initial program)
  obtain ⟨result, hresult, -⟩ := exists_analyze_of_run options hrun
  exact ⟨result, hresult, by rw [analyze_stripped, hresult]⟩

end MonkeyLang
