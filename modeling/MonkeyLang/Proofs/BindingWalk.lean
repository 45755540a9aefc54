import MonkeyLang.Analysis
import MonkeyLang.Proofs.Phrase
/-!
# Bindings along the way

Analysis visits the value of a `let` in another way than other expressions, because it has to know what the name will be bound
to. The walk here visits all expressions in one way and always gives what a name for the expression would be bound to, so that
one induction over a program has to speak of one kind of visit only. `visitStmts_eq` shows that the two do the same.
-/

namespace MonkeyLang

theorem discard_eq {m : Type → Type} [Monad m] [LawfulMonad m] {β : Type} (x : m β) :
    discard x = x >>= fun _ => pure () := by
  simp only [discard, map_const, Function.comp_apply, map_eq_pure_bind]

namespace Analyzer

/-- Refers to a name, or reports that nothing declares it. Gives what another name for it would be bound to. -/
def refer (name : Ident) : Walk Binding := fun a =>
  match a.table.lookup name.name name.span with
  | .ok d => .ok (d.binding.copied, { a with table := a.table.markUsed name.name })
  | .error e => .ok (.value, { a with errors := a.errors.push e })

mutual

def walkExpr : Expr → Walk Binding
  | .int _ _ | .string _ _ | .bool _ _ => pure .value
  | .ident name => refer name
  | .chain _ first rest _ => do
    discard (walkExpr first)
    walkOperands rest
    pure .value
  | .unary _ operand _ => do
    discard (walkExpr operand)
    pure .value
  | .call callee args span => do
    discard (walkExpr callee)
    checkCall callee args.length span
    walkExprs args
    pure .value
  | .index object index _ => do
    discard (walkExpr object)
    discard (walkExpr index)
    pure .value
  | .array elements _ => do
    walkExprs elements
    pure (.array elements.length)
  | .hash pairs brace span => do
    enterHash brace
    walkPairs pairs
    let frame ← leaveHash
    if frame.keys = .complex then
      report (.inconsistentHashKeys (frame.anchor.getD span))
    pure (.hash frame.keys)
  | .function params body _ => do
    openScope
    declareParams params
    walkBody body
    closeScope
    pure (.function params.length)
  | .ifElse condition thenBlock elseBlock _ => do
    discard (walkExpr condition)
    walkBlock thenBlock
    walkElse elseBlock
    pure .value
  | .paren inner _ => walkExpr inner

def walkOperands : List (BinaryOp × Expr) → Walk Unit
  | [] => pure ()
  | (_, operand) :: rest => do
    discard (walkExpr operand)
    walkOperands rest

def walkExprs : List Expr → Walk Unit
  | [] => pure ()
  | e :: rest => do
    discard (walkExpr e)
    walkExprs rest

def walkPairs : List (Expr × Expr) → Walk Unit
  | [] => pure ()
  | (key, value) :: rest => do
    observeKey (keyTypeOf key)
    discard (walkExpr key)
    discard (walkExpr value)
    walkPairs rest

def walkElse : Option Block → Walk Unit
  | none => pure ()
  | some block => walkBlock block

/-- A function literal is declared before its body is visited, so that it can call itself; the name of any other value
is declared behind it. -/
def walkStmt : Stmt → Walk Unit
  | .letStmt name value _ =>
    match value.function? with
    | some (params, _) => do
      declare name (.function params.length)
      discard (walkExpr value)
    | none => do
      let binding ← walkExpr value
      declare name binding
  | .returnStmt value _ => discard (walkExpr value)
  | .exprStmt e _ => discard (walkExpr e)

def walkStmts : List Stmt → Walk Unit
  | [] => pure ()
  | stmt :: rest => do
    walkStmt stmt
    walkStmts rest

def walkBody : Block → Walk Unit
  | .mk stmts _ => walkStmts stmts

def walkBlock : Block → Walk Unit
  | .mk stmts _ => do
    openScope
    walkStmts stmts
    closeScope

end

/-! ### Both walks do the same -/

/-- A name that is marked as used keeps its binding. -/
theorem lookup_markUsed {t : DeclarationTable} {name : String} {span : Span} {d : Declaration} (h : t.lookup name span = .ok d) :
    (t.markUsed name).lookup name span = .ok { d with used := true } := by
  unfold DeclarationTable.lookup DeclarationTable.find? at h ⊢
  cases hplace : t.place? name with
  | none => simp [hplace] at h
  | some place =>
    have hsame : (t.markUsed name).place? name = some place := by
      rw [DeclarationTable.markUsed, hplace]
      exact hplace
    cases hfound : t.declarations[place]? with
    | none => simp [hplace, hfound] at h
    | some found =>
      simp only [hplace, hfound, Option.bind_some, Except.ok.injEq] at h
      have hmarked : (t.markUsed name).declarations[place]? = some { found with used := true } := by
        rw [DeclarationTable.markUsed, hplace, Array.getElem?_modify, if_pos rfl, hfound]
        rfl
      simp [hsame, hmarked, h]

theorem modify_apply (change : Analyzer → Analyzer) (a : Analyzer) : (modify change : Walk Unit) a = .ok ((), change a) := rfl

theorem get_bind_apply {α : Type} (f : Analyzer → Walk α) (a : Analyzer) : (get >>= f) a = f a a := rfl

section

variable {name : Ident} {a : Analyzer}

theorem visitIdent_of_ok {d : Declaration} (h : a.table.lookup name.name name.span = .ok d) :
    visitIdent name a = .ok ((), { a with table := a.table.markUsed name.name }) := by
  rw [visitIdent, modify_apply, h]

theorem visitIdent_of_error {e : CompilationError} (h : a.table.lookup name.name name.span = .error e) :
    visitIdent name a = .ok ((), { a with errors := a.errors.push e }) := by
  rw [visitIdent, modify_apply, h]

theorem bindingOf_of_ok {d : Declaration} (h : a.table.lookup name.name name.span = .ok d) :
    bindingOf name a = .ok (d.binding.copied, a) := by
  rw [bindingOf, get_bind_apply, h]
  rfl

theorem bindingOf_of_error {e : CompilationError} (h : a.table.lookup name.name name.span = .error e) :
    bindingOf name a = .ok (.value, a) := by
  rw [bindingOf, get_bind_apply, h]
  rfl

end

theorem refer_eq (name : Ident) : refer name = (do visitIdent name; bindingOf name) := by
  funext a
  change refer name a = (visitIdent name a).bind fun r => bindingOf name r.2
  unfold refer
  cases hlookup : a.table.lookup name.name name.span with
  | ok d =>
    rw [visitIdent_of_ok hlookup]
    exact (bindingOf_of_ok (d := { d with used := true }) (lookup_markUsed hlookup)).symm
  | error e =>
    rw [visitIdent_of_error hlookup]
    exact (bindingOf_of_error (a := { a with errors := a.errors.push e }) hlookup).symm

theorem discard_refer (name : Ident) : discard (refer name) = visitIdent name := by
  rw [discard_eq]
  funext a
  change (refer name a).bind (fun r => .ok ((), r.2)) = visitIdent name a
  unfold refer
  cases hlookup : a.table.lookup name.name name.span with
  | ok d => exact (visitIdent_of_ok hlookup).symm
  | error e => exact (visitIdent_of_error hlookup).symm

theorem walkExpr_hash (ps : List (Expr × Expr)) (brace span : Span) :
    walkExpr (.hash ps brace span) = (do return .hash (← inHash brace span (walkPairs ps))) := by
  rw [walkExpr, inHash]
  simp only [bind_assoc]
  refine bind_congr fun _ => bind_congr fun _ => bind_congr fun frame => ?_
  split <;> simp only [bind_assoc, pure_bind]

/-- Both walks visit a phrase in the same way. -/
def Alike : Phrase → Prop
  | .expr _ e => discard (walkExpr e) = visitExpr e ∧ (e.function? = none → walkExpr e = visitBoundValue e)
  | .operands rest => walkOperands rest = visitOperands rest
  | .exprs es => walkExprs es = visitExprs es
  | .pairs ps => walkPairs ps = visitPairs ps
  | .otherwise block => walkElse block = visitElse block
  | .stmt s => walkStmt s = visitStmt s
  | .stmts ss | .valueStmts ss | .functionStmts ss => walkStmts ss = visitStmts ss
  | .valueBlock block => walkBlock block = visitBlock block

theorem alike (p : Phrase) : Alike p := by
  induction p using Phrase.induction with
  | int | string | bool => exact ⟨by simp [walkExpr, visitExpr, discard_eq], fun _ => rfl⟩
  | ident name id =>
    refine ⟨?_, fun _ => ?_⟩
    · rw [walkExpr, visitExpr, discard_refer]
    · rw [walkExpr, visitBoundValue, refer_eq]
  | chain name level first rest span ihfirst ihrest =>
    simp only [Alike, walkExpr, visitExpr, visitBoundValue, ihfirst.1, show walkOperands rest = _ from ihrest, discard_eq,
      bind_assoc, pure_bind, bind_pure_unit, implies_true, and_self]
  | unary name op operand span ih =>
    simp only [Alike, walkExpr, visitExpr, visitBoundValue, ih.1, discard_eq, bind_assoc, pure_bind, bind_pure_unit,
      implies_true, and_self]
  | call name callee args span ihcallee ihargs =>
    simp only [Alike, walkExpr, visitExpr, visitBoundValue, ihcallee.1, show walkExprs args = _ from ihargs, discard_eq,
      bind_assoc, pure_bind, bind_pure_unit, implies_true, and_self]
  | index name object index span ihobject ihindex =>
    simp only [Alike, walkExpr, visitExpr, visitBoundValue, ihobject.1, ihindex.1, discard_eq, bind_assoc, pure_bind,
      bind_pure_unit, implies_true, and_self]
  | array name elements span ih =>
    simp only [Alike, walkExpr, visitExpr, visitBoundValue, show walkExprs elements = _ from ih, discard_eq, bind_assoc,
      pure_bind, bind_pure_unit, implies_true, and_self]
  | hash name ps brace span ih =>
    rw [Alike, walkExpr_hash, visitExpr, visitBoundValue, show walkPairs ps = _ from ih]
    exact ⟨by simp only [discard_eq, bind_assoc, pure_bind], fun _ => rfl⟩
  | function name params body blockSpan span ih =>
    refine ⟨?_, fun h => by cases h⟩
    simp only [walkExpr, visitExpr, inFunction, walkBody, visitBody, show walkStmts body = _ from ih, discard_eq, bind_assoc,
      pure_bind, bind_pure_unit]
  | ifElse name condition thenBlock elseBlock span ihcondition ihthen ihelse =>
    simp only [Alike, walkExpr, visitExpr, visitBoundValue, ihcondition.1, show walkBlock thenBlock = _ from ihthen,
      show walkElse elseBlock = _ from ihelse, discard_eq, bind_assoc, pure_bind, bind_pure_unit, implies_true, and_self]
  | paren name inner span ih =>
    rw [Alike, walkExpr, visitExpr, visitBoundValue]
    exact ih
  | operandsNil | exprsNil | pairsNil | otherwiseNone | stmtsNil | valueNil | functionNil => rfl
  | operandsCons op operand rest ihoperand ihrest =>
    rw [Alike, walkOperands, visitOperands, ihoperand.1, show walkOperands rest = _ from ihrest]
  | exprsCons e rest ihfirst ihrest => rw [Alike, walkExprs, visitExprs, ihfirst.1, show walkExprs rest = _ from ihrest]
  | pairsCons key value rest ihkey ihvalue ihrest =>
    rw [Alike, walkPairs, visitPairs, ihkey.1, ihvalue.1, show walkPairs rest = _ from ihrest]
  | otherwiseSome block ih => rw [Alike, walkElse, visitElse, show walkBlock block = _ from ih]
  | letStmt name value span ih =>
    rw [Alike, walkStmt, visitStmt]
    cases hvalue : value.function? with
    | some function => simp only [ih.1]
    | none => simp only [ih.2 hvalue]
  | returnStmt value span ih | exprStmt value span ih => rw [Alike, walkStmt, visitStmt, ih.1]
  | stmtsCons s rest ihfirst ihrest =>
    rw [Alike, walkStmts, visitStmts, show walkStmt s = _ from ihfirst, show walkStmts rest = _ from ihrest]
  | valueBlock body span ih => rw [Alike, walkBlock, visitBlock, show walkStmts body = _ from ih]
  | valueLast s ih | functionLast s ih => rw [Alike, walkStmts, visitStmts, show walkStmt s = _ from ih, walkStmts, visitStmts]
  | valueCons s next rest ihfirst ihrest | functionCons s next rest ihfirst ihrest =>
    rw [Alike, walkStmts, visitStmts, show walkStmt s = _ from ihfirst, show walkStmts (next :: rest) = _ from ihrest]

theorem visitStmts_eq (ss : List Stmt) : visitStmts ss = walkStmts ss := (alike (.stmts ss)).symm

end Analyzer

end MonkeyLang
