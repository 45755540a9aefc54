import MonkeyLang.Declaration
import MonkeyLang.Syntax
/-!
# Analysis

A walk over a program that finds what is wrong with its meaning: names without a declaration, names declared twice in one
scope, calls with the wrong number of arguments or of things that are no functions, and hash literals with mixed keys.
The walk never stops at an error, so one pass finds everything. What is declared and never used comes last, as warnings
or as errors.

The value of a `let` is visited for what the name will be bound to, too. The scopes and hash literals that the walk enters it
also leaves again; `Imbalance` is the outcome of leaving one too many.
-/

namespace MonkeyLang

structure AnalysisOptions where
  /-- Whether unused declarations are errors rather than warnings. -/
  unusedAsError : Bool := false
deriving DecidableEq, Repr

structure Analysis where
  errors : List CompilationError
  warnings : List CompilationError
deriving DecidableEq, Repr

/-- Whether code may be generated. -/
def Analysis.isOk (a : Analysis) : Bool := a.errors.isEmpty

/-- Leaving something that was not entered. -/
inductive Imbalance where
  | outermostScope
  | noHashLiteral
deriving DecidableEq, Repr

def Imbalance.message : Imbalance → String
  | outermostScope => "cannot close the global scope"
  | noHashLiteral => "HashTypeTracker::close called with no open hash literal"

/-- What a walk knows: the declarations, the hash literals it is in, and the errors found so far. -/
structure Analyzer where
  table : DeclarationTable
  hashes : HashTracker
  errors : Array CompilationError

namespace Analyzer

def initial : Analyzer := ⟨.initial, .empty, #[]⟩

abbrev Walk := StateT Analyzer (Except Imbalance)

def report (e : CompilationError) : Walk Unit :=
  modify fun a => { a with errors := a.errors.push e }

def openScope : Walk Unit :=
  modify fun a => { a with table := a.table.openScope }

def closeScope : Walk Unit := fun a =>
  match a.table.closeScope? with
  | some table => .ok ((), { a with table })
  | none => .error .outermostScope

def enterHash (anchor : Span) : Walk Unit :=
  modify fun a => { a with hashes := a.hashes.enter.setAnchor anchor }

def observeKey (key : KeyType) : Walk Unit :=
  modify fun a => { a with hashes := a.hashes.observe key }

def leaveHash : Walk HashFrame := fun a =>
  match a.hashes.leave? with
  | some (frame, hashes) => .ok (frame, { a with hashes })
  | none => .error .noHashLiteral

def declare (name : Ident) (binding : Binding) : Walk Unit :=
  modify fun a =>
    match a.table.declare name.name binding name.span with
    | (.ok _, table) => { a with table }
    | (.error e, table) => { a with table, errors := a.errors.push e }

def visitIdent (name : Ident) : Walk Unit :=
  modify fun a =>
    match a.table.lookup name.name name.span with
    | .ok _ => { a with table := a.table.markUsed name.name }
    | .error e => { a with errors := a.errors.push e }

def bindingOf (name : Ident) : Walk Binding := do
  let a ← get
  match a.table.lookup name.name name.span with
  | .ok d => return d.binding.copied
  | .error _ => return .value

/-- The error of calling a name with a number of arguments, if it is known to be one. -/
def callError? (name : Ident) (binding : Binding) (args : Nat) (span : Span) : Option CompilationError :=
  match binding with
  | .function arity => if arity = args then none else some (.argumentCountMismatch name.name arity args span)
  | .hash _ => some (.notCallable name.name .hash span)
  | .array _ => some (.notCallable name.name .array span)
  | .parameter | .value => none

def checkCall (callee : Expr) (args : Nat) (span : Span) : Walk Unit := do
  let a ← get
  match callee.ident? with
  | none => pure ()
  | some name =>
    match a.table.find? name.name with
    | none => pure ()
    | some d =>
      match callError? name d.binding args span with
      | none => pure ()
      | some e => report e

/-- The type that a key gives its literal: literals of integers, negated or not, and of strings have one. -/
def keyTypeOf (key : Expr) : KeyType :=
  match key.unparen with
  | .int _ _ => .integer
  | .string _ _ => .string
  | .unary .neg operand _ =>
    match operand.unparen with
    | .int _ _ => .integer
    | _ => .complex
  | _ => .complex

def declareParams : List Ident → Walk Unit
  | [] => pure ()
  | param :: rest => do
    declare param .parameter
    declareParams rest

/-- Visits the keys and values of a hash literal, which gives the type of its keys. -/
def inHash (brace span : Span) (visitPairs : Walk Unit) : Walk KeyType := do
  enterHash brace
  visitPairs
  let frame ← leaveHash
  if frame.keys = .complex then
    report (.inconsistentHashKeys (frame.anchor.getD span))
  return frame.keys

/-- Visits the body of a function in one scope with its parameters. -/
def inFunction (params : List Ident) (visitBody : Walk Unit) : Walk Unit := do
  openScope
  declareParams params
  visitBody
  closeScope

mutual

def visitExpr : Expr → Walk Unit
  | .int _ _ | .string _ _ | .bool _ _ => pure ()
  | .ident name => visitIdent name
  | .chain _ first rest _ => do
    visitExpr first
    visitOperands rest
  | .unary _ operand _ => visitExpr operand
  | .call callee args span => do
    visitExpr callee
    checkCall callee args.length span
    visitExprs args
  | .index object index _ => do
    visitExpr object
    visitExpr index
  | .array elements _ => visitExprs elements
  | .hash pairs brace span => discard (inHash brace span (visitPairs pairs))
  | .function params body _ => inFunction params (visitBody body)
  | .ifElse condition thenBlock elseBlock _ => do
    visitExpr condition
    visitBlock thenBlock
    visitElse elseBlock
  | .paren inner _ => visitExpr inner

/-- Visits the value of a `let`, which gives what the name will be bound to. -/
def visitBoundValue : Expr → Walk Binding
  | .hash pairs brace span => return .hash (← inHash brace span (visitPairs pairs))
  | .array elements _ => do
    visitExprs elements
    return .array elements.length
  | .ident name => do
    visitIdent name
    bindingOf name
  | .paren inner _ => visitBoundValue inner
  -- All other values are visited like any expression, see `visitBoundValue_eq`.
  | .int _ _ | .string _ _ | .bool _ _ => return .value
  | .chain _ first rest _ => do
    visitExpr first
    visitOperands rest
    return .value
  | .unary _ operand _ => do
    visitExpr operand
    return .value
  | .call callee args span => do
    visitExpr callee
    checkCall callee args.length span
    visitExprs args
    return .value
  | .index object index _ => do
    visitExpr object
    visitExpr index
    return .value
  | .function params body _ => do
    inFunction params (visitBody body)
    return .value
  | .ifElse condition thenBlock elseBlock _ => do
    visitExpr condition
    visitBlock thenBlock
    visitElse elseBlock
    return .value

def visitOperands : List (BinaryOp × Expr) → Walk Unit
  | [] => pure ()
  | (_, operand) :: rest => do
    visitExpr operand
    visitOperands rest

def visitExprs : List Expr → Walk Unit
  | [] => pure ()
  | e :: rest => do
    visitExpr e
    visitExprs rest

def visitPairs : List (Expr × Expr) → Walk Unit
  | [] => pure ()
  | (key, value) :: rest => do
    observeKey (keyTypeOf key)
    visitExpr key
    visitExpr value
    visitPairs rest

def visitElse : Option Block → Walk Unit
  | none => pure ()
  | some block => visitBlock block

/-- A function literal is declared before its body is visited, so that it can call itself; the name of any other value
is declared behind it. -/
def visitStmt : Stmt → Walk Unit
  | .letStmt name value _ =>
    match value.function? with
    | some (params, _) => do
      declare name (.function params.length)
      visitExpr value
    | none => do
      let binding ← visitBoundValue value
      declare name binding
  | .returnStmt value _ => visitExpr value
  | .exprStmt e _ => visitExpr e

def visitStmts : List Stmt → Walk Unit
  | [] => pure ()
  | stmt :: rest => do
    visitStmt stmt
    visitStmts rest

def visitBody : Block → Walk Unit
  | .mk stmts _ => visitStmts stmts

def visitBlock : Block → Walk Unit
  | .mk stmts _ => do
    openScope
    visitStmts stmts
    closeScope

end

/-- Hashes, arrays and names are visited in ways of their own, in parentheses or not. -/
theorem visitBoundValue_eq (value : Expr) : visitBoundValue value =
    match value.unparen with
    | .hash pairs brace span => return .hash (← inHash brace span (visitPairs pairs))
    | .array elements _ => do
      visitExprs elements
      return .array elements.length
    | .ident name => do
      visitIdent name
      bindingOf name
    | other => do
      visitExpr other
      return .value := by
  fun_induction Expr.unparen value with
  | case1 inner span ih => rw [visitBoundValue, ih]
  | case2 value hvalue =>
    cases value with
    | paren inner span => exact absurd rfl (hvalue inner span)
    | _ => simp only [visitBoundValue, visitExpr, bind_assoc, pure_bind]

end Analyzer

def Declaration.unusedError (d : Declaration) : CompilationError := .unusedDeclaration d.name d.span

def analyze (options : AnalysisOptions) (program : Program) : Except Imbalance Analysis := do
  let ((), a) ← Analyzer.visitStmts program.stmts Analyzer.initial
  let unused := a.table.unused.map Declaration.unusedError
  if options.unusedAsError then
    pure ⟨a.errors.toList ++ unused, []⟩
  else
    pure ⟨a.errors.toList, unused⟩

end MonkeyLang
