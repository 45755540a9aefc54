import MonkeyLang.Compilation
import MonkeyLang.Proofs.BindingWalk
import MonkeyLang.Proofs.Outlines
import MonkeyLang.Proofs.Patching
/-!
# Positions do not matter

Analysis and generation carry positions along, into declarations, messages and the lines of code, and never decide anything by
them. So leaving positions out commutes with what they do: run on a program without positions, and in a state without positions,
they give what they give otherwise, without its positions. `Erasure.Erases` says this of a step, and it holds of steps in a row
if it holds of each.
-/

namespace MonkeyLang

/-- What is left of the states and of the errors of a computation. -/
structure Erasure (σ ε : Type) where
  state : σ → σ
  error : ε → ε

namespace Erasure

variable {σ ε α β γ δ : Type} {E : Erasure σ ε}

def outcome (E : Erasure σ ε) (f : α → β) : Except ε (α × σ) → Except ε (β × σ)
  | .ok (a, s) => .ok (f a, E.state s)
  | .error e => .error (E.error e)

/-- In what is left of a state, the second computation comes to what is left of the outcome of the first. -/
def Erases (E : Erasure σ ε) (f : α → β) (m : StateT σ (Except ε) α) (m' : StateT σ (Except ε) β) : Prop :=
  ∀ s, m' (E.state s) = E.outcome f (m s)

theorem erases_pure {f : α → β} {a : α} {b : β} (h : b = f a) : E.Erases f (pure a) (pure b) := by
  subst h
  exact fun _ => rfl

theorem Erases.bind {f : α → β} {g : γ → δ} {m : StateT σ (Except ε) α} {m' : StateT σ (Except ε) β}
    {k : α → StateT σ (Except ε) γ} {k' : β → StateT σ (Except ε) δ} (hm : E.Erases f m m')
    (hk : ∀ a, E.Erases g (k a) (k' (f a))) : E.Erases g (m >>= k) (m' >>= k') := by
  intro s
  change (m' (E.state s) >>= fun r => k' r.1 r.2) = E.outcome g (m s >>= fun r => k r.1 r.2)
  rw [hm s]
  cases m s with
  | error e => rfl
  | ok r => exact hk r.1 r.2

theorem Erases.discard {f : α → β} {m : StateT σ (Except ε) α} {m' : StateT σ (Except ε) β} (h : E.Erases f m m') :
    E.Erases id (discard m) (discard m') := by
  intro s
  change ((m' (E.state s)).map fun r => ((), r.2)) = E.outcome id ((m s).map fun r => ((), r.2))
  rw [h s]
  cases m s <;> rfl

theorem erases_modify {change change' : σ → σ} (h : ∀ s, change' (E.state s) = E.state (change s)) :
    E.Erases id (modify change) (modify change') := by
  intro s
  change Except.ok ((), change' (E.state s)) = Except.ok ((), E.state (change s))
  rw [h]

theorem erases_get : E.Erases E.state get get := fun _ => rfl

end Erasure

/-! ### Generation -/

def GenerationError.bare : GenerationError → GenerationError
  | unresolvedName name _ => unresolvedName name default
  | e => e

def Code.bare (code : Code) : Code := code.map fun c => ⟨0, c.instruction⟩

theorem Code.bare_empty : Code.bare #[] = #[] := Array.map_empty

theorem Code.bare_append (code code' : Code) : Code.bare (code ++ code') = Code.bare code ++ Code.bare code' := Array.map_append

namespace Generator

/-- Generation without source lines. -/
def erasure : Erasure Generator GenerationError := ⟨fun g => { g with line := 0 }, GenerationError.bare⟩

open Erasure

theorem erases_setLine (span : Span) : erasure.Erases id (setLine span.line) (setLine (default : Span).line) :=
  erases_modify fun _ => rfl

theorem erases_modifyScope (change : SymbolScope → SymbolScope) :
    erasure.Erases id (modifyScope change) (modifyScope change) :=
  erases_modify fun _ => rfl

theorem erases_reserve (size : Nat) : erasure.Erases (fun _ => 0) (reserve size) (reserve size) := fun _ => rfl

theorem erases_checked {α : Type} {x : Except GenerationError α} (h : ∀ cause, x = .error cause → cause.bare = cause) :
    erasure.Erases id (checked x) (checked x) := by
  intro g
  cases x with
  | ok a => rfl
  | error cause => exact congrArg Except.error (h cause rfl).symm

theorem erases_byteOperand (op : Opcode) (operand : Nat) :
    erasure.Erases id (checked (byteOperand op operand)) (checked (byteOperand op operand)) := by
  refine erases_checked fun cause h => ?_
  unfold byteOperand at h
  split at h <;> cases h
  rfl

theorem erases_wordOperand (op : Opcode) (operand : Nat) :
    erasure.Erases id (checked (wordOperand op operand)) (checked (wordOperand op operand)) := by
  refine erases_checked fun cause h => ?_
  unfold wordOperand at h
  split at h <;> cases h
  rfl

theorem erases_here : erasure.Erases id here here := by
  refine erases_get.bind fun g => erases_checked fun cause h => ?_
  unfold jumpTarget at h
  split at h <;> cases h
  rfl

theorem erases_emit (i : Instruction) : erasure.Erases Code.bare (emit i) (emit i) :=
  (erases_reserve i.size).bind fun _ => erases_pure (by simp [Code.bare])

theorem erases_constant (c : Constant) : erasure.Erases Code.bare (constant c) (constant c) := by
  have hadd : erasure.Erases id (addConstant c) (addConstant c) := fun _ => rfl
  exact hadd.bind fun place => (erases_wordOperand .constant place).bind fun _ => erases_emit _

theorem erases_define (name : String) : erasure.Erases id (define name) (define name) := fun _ => rfl

theorem erases_resolve (name : Ident) : erasure.Erases id (resolve name) (resolve (Bare.ident name)) := by
  intro g
  have hscope : (erasure.state g).scope = g.scope := rfl
  unfold resolve
  rw [hscope, show (Bare.ident name).name = name.name from rfl]
  generalize g.scope.resolve name.name = found
  obtain ⟨_ | symbol, scope⟩ := found <;> rfl

theorem erases_leaveFunction : erasure.Erases id leaveFunction leaveFunction := by
  intro g
  have hscope : (erasure.state g).scope = g.scope := rfl
  unfold leaveFunction
  rw [hscope]
  cases g.scope.leave? <;> rfl

theorem erases_load (symbol : Symbol) : erasure.Erases Code.bare (load symbol) (load symbol) := by
  unfold load
  cases symbol.storage with
  | global slot => exact (erases_wordOperand _ _).bind fun _ => erases_emit _
  | frame slot | builtin slot | captured slot => exact (erases_byteOperand _ _).bind fun _ => erases_emit _
  | running => exact erases_emit _

theorem erases_store (symbol : Symbol) : erasure.Erases Code.bare (store symbol) (store symbol) := by
  unfold store
  cases symbol.storage with
  | global slot => exact (erases_wordOperand _ _).bind fun _ => erases_emit _
  | frame slot => exact (erases_byteOperand _ _).bind fun _ => erases_emit _
  | builtin | captured | running => exact fun _ => rfl

theorem erases_loadAll (code : Code) (symbols : List Symbol) :
    erasure.Erases Code.bare (loadAll code symbols) (loadAll code.bare symbols) := by
  induction symbols generalizing code with
  | nil => exact erases_pure rfl
  | cons symbol symbols ih =>
    refine (erases_load symbol).bind fun c => ?_
    rw [← Code.bare_append]
    exact ih (code ++ c)

theorem erases_defineAll (params : List Ident) :
    erasure.Erases id (defineAll params) (defineAll (params.map Bare.ident)) := by
  induction params with
  | nil => exact erases_pure rfl
  | cons param params ih => exact (erases_define param.name).discard.bind fun _ => ih

theorem erases_enterFunction (name : Option String) (params : List Ident) :
    erasure.Erases id (enterFunction name params) (enterFunction name (params.map Bare.ident)) := by
  refine (erases_modifyScope _).bind fun _ => ?_
  cases name with
  | none => exact erases_defineAll params
  | some name => exact (erases_modifyScope _).bind fun _ => erases_defineAll params

theorem erases_closure (entry : Nat) (params : List Ident) (f : FunctionScope) :
    erasure.Erases Code.bare (closure entry params f) (closure entry (params.map Bare.ident) f) := by
  unfold closure
  rw [List.length_map]
  exact (erases_wordOperand _ _).bind fun _ => (erases_byteOperand _ _).bind fun _ => (erases_byteOperand _ _).bind fun _ =>
    (erases_byteOperand _ _).bind fun _ => erases_emit _

end Generator

namespace Bare

theorem length_exprs (es : List Expr) : (exprs es).length = es.length := by
  induction es with
  | nil => rfl
  | cons e es ih => rw [exprs, List.length_cons, List.length_cons, ih]

theorem length_pairs (ps : List (Expr × Expr)) : (pairs ps).length = ps.length := by
  induction ps with
  | nil => rfl
  | cons p ps ih => rw [pairs, List.length_cons, List.length_cons, ih]

end Bare

namespace Phrase

/-- A phrase with all its spans left out. -/
def bare : Phrase → Phrase
  | expr name e => expr name (Bare.expr e)
  | operands rest => operands (Bare.operands rest)
  | exprs es => exprs (Bare.exprs es)
  | pairs ps => pairs (Bare.pairs ps)
  | otherwise block => otherwise (Bare.otherwise block)
  | stmt s => stmt (Bare.stmt s)
  | stmts ss => stmts (Bare.stmts ss)
  | valueBlock block => valueBlock (Bare.block block)
  | valueStmts ss => valueStmts (Bare.stmts ss)
  | functionStmts ss => functionStmts (Bare.stmts ss)

open Generator Erasure

theorem erases_generate (p : Phrase) : erasure.Erases Code.bare p.generate p.bare.generate := by
  induction p using Phrase.induction with
  | int | string =>
    simp only [bare, generate, Bare.expr, Generator.expr]
    exact erases_constant _
  | bool =>
    simp only [bare, generate, Bare.expr, Generator.expr]
    exact erases_emit _
  | ident name id =>
    simp only [bare, generate, Bare.expr, Generator.expr]
    exact (erases_resolve id).bind fun symbol => erases_load symbol
  | chain name level first rest span ihfirst ihrest =>
    rw [bare, Bare.expr, generate_chain, generate_chain]
    exact ihfirst.bind fun c => ihrest.bind fun d => erases_pure (Code.bare_append c d).symm
  | unary name op operand span ih =>
    simp only [bare, generate, Bare.expr, Generator.expr]
    exact ih.bind fun c => (erases_emit _).bind fun i => erases_pure (Code.bare_append c i).symm
  | call name callee args span ihcallee ihargs =>
    rw [bare, Bare.expr, generate_call, generate_call, Bare.length_exprs]
    refine ihcallee.bind fun c => ihargs.bind fun d => (erases_byteOperand _ _).bind fun n => (erases_emit _).bind fun i => ?_
    exact erases_pure (by simp only [Code.bare_append])
  | index name object index span ih ih' =>
    simp only [bare, generate, Bare.expr, Generator.expr]
    refine ih.bind fun c => ih'.bind fun d => (erases_emit _).bind fun i => ?_
    exact erases_pure (by simp only [Code.bare_append])
  | array name elements span ih =>
    simp only [bare, generate, Bare.expr, Generator.expr, Bare.length_exprs]
    exact ih.bind fun c => (erases_wordOperand _ _).bind fun n => (erases_emit _).bind fun i =>
      erases_pure (Code.bare_append c i).symm
  | hash name ps brace span ih =>
    simp only [bare, generate, Bare.expr, Generator.expr, Bare.length_pairs]
    exact ih.bind fun c => (erases_wordOperand _ _).bind fun n => (erases_emit _).bind fun i =>
      erases_pure (Code.bare_append c i).symm
  | function name params body blockSpan span ih =>
    simp only [bare, generate, Bare.expr, Bare.block, Generator.expr, Generator.functionBody]
    have hloads (f : FunctionScope) := erases_loadAll #[] f.captures
    rw [Code.bare_empty] at hloads
    refine (erases_reserve _).bind fun line => erases_get.bind fun g => (erases_enterFunction name params).bind fun _ =>
      ih.bind fun c => erases_leaveFunction.bind fun f => erases_here.bind fun target => (erases_setLine span).bind fun _ =>
      (hloads f).bind fun loads => (erases_closure _ params f).bind fun make => ?_
    exact erases_pure (by simp [Code.bare])
  | ifElse name condition thenBlock elseBlock span ihcondition ihthen ihelse =>
    simp only [bare, generate, Bare.expr, Generator.expr]
    refine ihcondition.bind fun c => (erases_reserve _).bind fun line => ihthen.bind fun d => (erases_reserve _).bind fun line' =>
      erases_here.bind fun target => ihelse.bind fun e => erases_here.bind fun target' => ?_
    exact erases_pure (by simp [Code.bare])
  | paren name inner span ih =>
    simp only [bare, generate, Bare.expr, Generator.expr]
    exact ih
  | operandsNil | exprsNil | pairsNil | stmtsNil => exact erases_pure Code.bare_empty.symm
  | otherwiseNone => exact erases_emit _
  | operandsCons op operand rest ih ihrest =>
    rw [bare, Bare.operands, generate_operands_cons, generate_operands_cons]
    refine ih.bind fun c => (erases_emit _).bind fun i => ihrest.bind fun d => ?_
    exact erases_pure (by simp only [Code.bare_append])
  | exprsCons e rest ih ihrest =>
    rw [bare, Bare.exprs, generate_exprs_cons, generate_exprs_cons]
    exact ih.bind fun c => ihrest.bind fun d => erases_pure (Code.bare_append c d).symm
  | pairsCons key value rest ihkey ihvalue ihrest =>
    rw [bare, Bare.pairs, generate_pairs_cons, generate_pairs_cons]
    refine ihkey.bind fun c => ihvalue.bind fun d => ihrest.bind fun e => ?_
    exact erases_pure (by simp only [Code.bare_append])
  | otherwiseSome block ih => exact ih
  | letStmt name value span ih =>
    simp only [bare, generate, Bare.stmt, Generator.stmt]
    exact (erases_setLine span).bind fun _ => ih.bind fun c => (erases_define _).bind fun symbol =>
      (erases_store symbol).bind fun i => erases_pure (Code.bare_append c i).symm
  | returnStmt value span ih | exprStmt e span ih =>
    simp only [bare, generate, Bare.stmt, Generator.stmt]
    exact (erases_setLine span).bind fun _ => ih.bind fun c => (erases_emit _).bind fun i =>
      erases_pure (Code.bare_append c i).symm
  | stmtsCons s rest ih ihrest =>
    rw [bare, Bare.stmts, generate_stmts_cons, generate_stmts_cons]
    exact ih.bind fun c => ihrest.bind fun d => erases_pure (Code.bare_append c d).symm
  | valueBlock body span ih =>
    simp only [bare, generate, Bare.block, Generator.valueBlock]
    exact (erases_modifyScope _).bind fun _ => ih.bind fun c => (erases_modifyScope _).bind fun _ => erases_pure rfl
  | valueNil | functionNil => exact (erases_emit _).bind fun i => erases_pure (by simp [Code.bare])
  | valueLast s ih ihexpr =>
    cases s with
    | exprStmt e span =>
      simp only [bare, generate, Bare.stmts, Bare.stmt, Generator.valueStmts]
      exact (erases_setLine span).bind fun _ => (ihexpr e span rfl).bind fun c => erases_pure (by simp)
    | letStmt | returnStmt =>
      simp only [bare, generate, Bare.stmts, Bare.stmt, Generator.valueStmts]
      refine ih.bind fun c => (erases_emit _).bind fun i => ?_
      exact erases_pure (by simp [Code.bare_append])
  | functionLast s ih ihexpr =>
    cases s with
    | exprStmt e span =>
      simp only [bare, generate, Bare.stmts, Bare.stmt, Generator.functionStmts]
      refine (erases_setLine span).bind fun _ => (ihexpr e span rfl).bind fun c => (erases_emit _).bind fun i => ?_
      exact erases_pure (by simp [Code.bare_append])
    | returnStmt value span =>
      simp only [bare, generate, Bare.stmts, Bare.stmt, Generator.functionStmts]
      exact ih.bind fun c => erases_pure (by simp)
    | letStmt name value span =>
      simp only [bare, generate, Bare.stmts, Bare.stmt, Generator.functionStmts]
      refine ih.bind fun c => (erases_emit _).bind fun i => ?_
      exact erases_pure (by simp [Code.bare_append])
  | valueCons s next rest ih ihrest =>
    rw [bare, Bare.stmts, Bare.stmts, generate_valueStmts_cons, generate_valueStmts_cons]
    exact ih.bind fun c => ihrest.bind fun d => erases_pure (Code.bare_append c d).symm
  | functionCons s next rest ih ihrest =>
    rw [bare, Bare.stmts, Bare.stmts, generate_functionStmts_cons, generate_functionStmts_cons]
    exact ih.bind fun c => ihrest.bind fun d => erases_pure (Code.bare_append c d).symm

end Phrase

def Executable.contents (e : Executable) : List UInt8 × List Constant := (e.chunk.code.toList, e.pool.toList)

theorem Code.codeBytes_bare (code : Code) : codeBytes (Code.bare code).toList = codeBytes code.toList := by
  unfold Code.bare codeBytes
  rw [Array.toList_map, List.flatMap_map]

theorem contents_generate {p q : Program} (h : p.bare = q.bare) :
    (generate p).toOption.map Executable.contents = (generate q).toOption.map Executable.contents := by
  -- Both are what is found without positions, from a state that has none.
  have hrun (p : Program) : (generate p).toOption.map Executable.contents =
      (Generator.stmts #[] p.bare.stmts (Generator.erasure.state .initial)).toOption.map fun r =>
        (codeBytes r.1.toList, r.2.pool.toList) := by
    rw [generate_eq_assemble, show Generator.stmts #[] p.bare.stmts _ = _ from (Phrase.stmts p.stmts).erases_generate .initial]
    change (do let r ← Generator.stmts #[] p.stmts .initial; _ : Except _ _).toOption.map _ =
      (Generator.erasure.outcome Code.bare (Generator.stmts #[] p.stmts .initial)).toOption.map _
    cases Generator.stmts #[] p.stmts .initial with
    | error cause => rfl
    | ok r =>
      change some (r.1.toChunk.code.toList, r.2.pool.toList) = some (codeBytes (Code.bare r.1).toList, r.2.pool.toList)
      rw [Code.codeBytes_bare, toList_toChunk_code]
  rw [hrun, hrun, h]

/-! ### Forms of expressions -/

namespace Expr

theorem unparen_bare (e : Expr) : (Bare.expr e).unparen = Bare.expr e.unparen := by
  cases e with
  | paren inner span =>
    rw [Bare.expr, unparen, unparen]
    exact unparen_bare inner
  | _ => rfl

theorem ident?_bare (e : Expr) : (Bare.expr e).ident? = e.ident?.map Bare.ident := by
  unfold ident?
  rw [unparen_bare]
  cases e.unparen <;> rfl

theorem function?_bare (e : Expr) : (Bare.expr e).function? =
    e.function?.map fun literal => (literal.1.map Bare.ident, Bare.block literal.2.1, default) := by
  unfold function?
  rw [unparen_bare]
  cases e.unparen <;> rfl

end Expr

/-! ### Analysis -/

def CompilationError.bare : CompilationError → CompilationError
  | redeclared name _ _ => redeclared name default default
  | undeclared name _ => undeclared name default
  | inconsistentHashKeys _ => inconsistentHashKeys default
  | unusedDeclaration name _ => unusedDeclaration name default
  | argumentCountMismatch name expected found _ => argumentCountMismatch name expected found default
  | notCallable name kind _ => notCallable name kind default
  | internal message => internal message

def Declaration.bare (d : Declaration) : Declaration := { d with span := default }

def HashFrame.bare (frame : HashFrame) : HashFrame := { frame with anchor := frame.anchor.map fun _ => default }

namespace DeclarationTable

def bare (t : DeclarationTable) : DeclarationTable := { t with declarations := t.declarations.map Declaration.bare }

theorem find?_bare (t : DeclarationTable) (name : String) : t.bare.find? name = (t.find? name).map Declaration.bare := by
  change ((t.place? name).bind fun place => (t.declarations.map Declaration.bare)[place]?) = _
  unfold find?
  cases t.place? name with
  | none => rfl
  | some place => exact Array.getElem?_map

theorem add_bare (t : DeclarationTable) (d : Declaration) : t.bare.add d.bare = (t.add d).bare := by
  unfold add bare
  cases t.inner <;> simp [Declaration.bare]

theorem declare_bare (t : DeclarationTable) (name : String) (binding : Binding) (span : Span) :
    t.bare.declare name binding default =
      match t.declare name binding span with
      | (.ok d, t') => (.ok d.bare, t'.bare)
      | (.error e, t') => (.error e.bare, t'.bare) := by
  have hfirst : (t.innermost[name]?.bind fun place => (t.declarations.map Declaration.bare)[place]?) =
      (t.innermost[name]?.bind fun place => t.declarations[place]?).map Declaration.bare := by
    cases t.innermost[name]? with
    | none => rfl
    | some place => exact Array.getElem?_map
  unfold declare
  rw [show t.bare.innermost = t.innermost from rfl, show t.bare.declarations = t.declarations.map Declaration.bare from rfl, hfirst]
  cases t.innermost[name]?.bind fun place => t.declarations[place]? with
  | some first => rfl
  | none => exact congrArg (fun t' => (Except.ok _, t')) (t.add_bare ⟨name, binding, span, false⟩)

theorem markUsed_bare (t : DeclarationTable) (name : String) : t.bare.markUsed name = (t.markUsed name).bare := by
  have hmodify (place : Nat) : (t.declarations.map Declaration.bare).modify place (fun d => { d with used := true }) =
      (t.declarations.modify place fun d => { d with used := true }).map Declaration.bare := by
    apply Array.ext_getElem?
    intro i
    rw [Array.getElem?_modify, Array.getElem?_map, Array.getElem?_map, Array.getElem?_modify]
    split <;> cases t.declarations[i]? <;> rfl
  have hplace : t.bare.place? name = t.place? name := rfl
  unfold markUsed
  rw [hplace]
  cases t.place? name with
  | none => rfl
  | some place => exact congrArg (fun ds => (⟨ds, t.inner, t.outermost⟩ : DeclarationTable)) (hmodify place)

theorem unused_bare (t : DeclarationTable) : t.bare.unused = t.unused.map Declaration.bare := by
  unfold unused bare
  rw [Array.toList_map, List.filter_map]
  rfl

end DeclarationTable

def HashTracker.bare (t : HashTracker) : HashTracker := ⟨t.frames.map HashFrame.bare⟩

namespace Analyzer

/-- Analysis without positions. -/
def erasure : Erasure Analyzer Imbalance :=
  ⟨fun a => ⟨a.table.bare, a.hashes.bare, a.errors.map CompilationError.bare⟩, id⟩

open Erasure

theorem erases_report (e : CompilationError) : erasure.Erases id (report e) (report e.bare) := by
  refine erases_modify fun a => ?_
  unfold erasure
  simp only [Array.map_push]

theorem erases_openScope : erasure.Erases id openScope openScope := erases_modify fun _ => rfl

theorem erases_closeScope : erasure.Erases id closeScope closeScope := by
  rintro ⟨⟨declarations, inner, outermost⟩, hashes, errors⟩
  cases inner <;> rfl

theorem erases_enterHash (anchor : Span) : erasure.Erases id (enterHash anchor) (enterHash default) :=
  erases_modify fun _ => rfl

theorem erases_observeKey (key : KeyType) : erasure.Erases id (observeKey key) (observeKey key) := by
  apply erases_modify
  rintro ⟨table, ⟨frames⟩, errors⟩
  cases frames <;> rfl

theorem erases_leaveHash : erasure.Erases HashFrame.bare leaveHash leaveHash := by
  rintro ⟨table, ⟨frames⟩, errors⟩
  cases frames <;> rfl

theorem erases_declare (name : Ident) (binding : Binding) :
    erasure.Erases id (declare name binding) (declare (Bare.ident name) binding) := by
  apply erases_modify
  rintro ⟨table, hashes, errors⟩
  have hdeclare := table.declare_bare name.name binding name.span
  simp only [erasure, Bare.ident, hdeclare]
  obtain ⟨answer, table'⟩ := table.declare name.name binding name.span
  cases answer with
  | ok d => rfl
  | error e => simp

theorem erases_refer (name : Ident) : erasure.Erases id (refer name) (refer (Bare.ident name)) := by
  rintro ⟨table, hashes, errors⟩
  simp only [refer, erasure, Bare.ident, DeclarationTable.lookup, DeclarationTable.find?_bare,
    DeclarationTable.markUsed_bare]
  cases table.find? name.name with
  | some d => rfl
  | none => simp [outcome, CompilationError.bare]

theorem callError?_bare (name : Ident) (binding : Binding) (args : Nat) (span : Span) :
    callError? (Bare.ident name) binding args default = (callError? name binding args span).map CompilationError.bare := by
  unfold callError?
  cases binding with
  | function arity =>
    by_cases harity : arity = args <;> simp only [harity, if_true, if_false] <;> rfl
  | _ => rfl

theorem erases_checkCall (callee : Expr) (args : Nat) (span : Span) :
    erasure.Erases id (checkCall callee args span) (checkCall (Bare.expr callee) args default) := by
  refine erases_get.bind fun a => ?_
  have hfind (name : Ident) : (erasure.state a).table.find? (Bare.ident name).name = _ := a.table.find?_bare name.name
  rw [Expr.ident?_bare]
  cases callee.ident? with
  | none => exact erases_pure rfl
  | some name =>
    simp only [Option.map_some, hfind]
    cases a.table.find? name.name with
    | none => exact erases_pure rfl
    | some d =>
      simp only [Option.map_some, Declaration.bare, callError?_bare name d.binding args span]
      cases callError? name d.binding args span with
      | none => exact erases_pure rfl
      | some e => exact erases_report e

theorem keyTypeOf_bare (key : Expr) : keyTypeOf (Bare.expr key) = keyTypeOf key := by
  unfold keyTypeOf
  rw [Expr.unparen_bare]
  cases key.unparen with
  | unary op operand span =>
    cases op with
    | not => simp only [Bare.expr]
    | neg =>
      simp only [Bare.expr, Expr.unparen_bare]
      cases operand.unparen <;> simp only [Bare.expr]
  | _ => simp only [Bare.expr]

theorem erases_declareParams (params : List Ident) :
    erasure.Erases id (declareParams params) (declareParams (params.map Bare.ident)) := by
  induction params with
  | nil => exact erases_pure rfl
  | cons param params ih => exact (erases_declare param .parameter).bind fun _ => ih

mutual

theorem erases_walkExpr (e : Expr) : erasure.Erases id (walkExpr e) (walkExpr (Bare.expr e)) := by
  cases e with
  | int | string | bool =>
    rw [Bare.expr, walkExpr, walkExpr]
    exact erases_pure rfl
  | ident name =>
    rw [Bare.expr, walkExpr, walkExpr]
    exact erases_refer name
  | chain level first rest span =>
    rw [Bare.expr, walkExpr, walkExpr]
    exact (erases_walkExpr first).discard.bind fun _ => (erases_walkOperands rest).bind fun _ => erases_pure rfl
  | unary op operand span =>
    rw [Bare.expr, walkExpr, walkExpr]
    exact (erases_walkExpr operand).discard.bind fun _ => erases_pure rfl
  | call callee args span =>
    rw [Bare.expr, walkExpr, walkExpr, Bare.length_exprs]
    exact (erases_walkExpr callee).discard.bind fun _ => (erases_checkCall callee args.length span).bind fun _ =>
      (erases_walkExprs args).bind fun _ => erases_pure rfl
  | index object index span =>
    rw [Bare.expr, walkExpr, walkExpr]
    exact (erases_walkExpr object).discard.bind fun _ => (erases_walkExpr index).discard.bind fun _ => erases_pure rfl
  | array elements span =>
    rw [Bare.expr, walkExpr, walkExpr, Bare.length_exprs]
    exact (erases_walkExprs elements).bind fun _ => erases_pure rfl
  | hash pairs brace span =>
    rw [Bare.expr, walkExpr, walkExpr]
    refine (erases_enterHash brace).bind fun _ => (erases_walkPairs pairs).bind fun _ => erases_leaveHash.bind fun frame => ?_
    have hanchor : (frame.bare.anchor.getD default : Span) = default := by
      unfold HashFrame.bare
      cases frame.anchor <;> rfl
    change erasure.Erases id _ (if frame.keys = .complex then _ else _)
    rw [hanchor]
    by_cases hkeys : frame.keys = .complex
    · rw [if_pos hkeys, if_pos hkeys]
      exact (erases_report _).bind fun _ => erases_pure rfl
    · rw [if_neg hkeys, if_neg hkeys]
      exact erases_pure rfl
  | function params body span =>
    rw [Bare.expr, walkExpr, walkExpr, List.length_map]
    exact erases_openScope.bind fun _ => (erases_declareParams params).bind fun _ => (erases_walkBody body).bind fun _ =>
      erases_closeScope.bind fun _ => erases_pure rfl
  | ifElse condition thenBlock elseBlock span =>
    rw [Bare.expr, walkExpr, walkExpr]
    exact (erases_walkExpr condition).discard.bind fun _ => (erases_walkBlock thenBlock).bind fun _ =>
      (erases_walkElse elseBlock).bind fun _ => erases_pure rfl
  | paren inner span =>
    rw [Bare.expr, walkExpr, walkExpr]
    exact erases_walkExpr inner

theorem erases_walkOperands (rest : List (BinaryOp × Expr)) :
    erasure.Erases id (walkOperands rest) (walkOperands (Bare.operands rest)) := by
  match rest with
  | [] => exact erases_pure rfl
  | (op, operand) :: rest =>
    rw [Bare.operands, walkOperands, walkOperands]
    exact (erases_walkExpr operand).discard.bind fun _ => erases_walkOperands rest

theorem erases_walkExprs (es : List Expr) : erasure.Erases id (walkExprs es) (walkExprs (Bare.exprs es)) := by
  match es with
  | [] => exact erases_pure rfl
  | e :: rest =>
    rw [Bare.exprs, walkExprs, walkExprs]
    exact (erases_walkExpr e).discard.bind fun _ => erases_walkExprs rest

theorem erases_walkPairs (ps : List (Expr × Expr)) : erasure.Erases id (walkPairs ps) (walkPairs (Bare.pairs ps)) := by
  match ps with
  | [] => exact erases_pure rfl
  | (key, value) :: rest =>
    rw [Bare.pairs, walkPairs, walkPairs, keyTypeOf_bare]
    exact (erases_observeKey _).bind fun _ => (erases_walkExpr key).discard.bind fun _ =>
      (erases_walkExpr value).discard.bind fun _ => erases_walkPairs rest

theorem erases_walkElse (elseBlock : Option Block) :
    erasure.Erases id (walkElse elseBlock) (walkElse (Bare.otherwise elseBlock)) := by
  match elseBlock with
  | none => exact erases_pure rfl
  | some block => exact erases_walkBlock block

theorem erases_walkStmt (s : Stmt) : erasure.Erases id (walkStmt s) (walkStmt (Bare.stmt s)) := by
  cases s with
  | letStmt name value span =>
    rw [Bare.stmt, walkStmt, walkStmt, Expr.function?_bare]
    cases value.function? with
    | none => exact (erases_walkExpr value).bind fun binding => erases_declare name binding
    | some literal =>
      simp only [Option.map_some, List.length_map]
      exact (erases_declare name _).bind fun _ => (erases_walkExpr value).discard
  | returnStmt value span =>
    rw [Bare.stmt, walkStmt, walkStmt]
    exact (erases_walkExpr value).discard
  | exprStmt e span =>
    rw [Bare.stmt, walkStmt, walkStmt]
    exact (erases_walkExpr e).discard

theorem erases_walkStmts (ss : List Stmt) : erasure.Erases id (walkStmts ss) (walkStmts (Bare.stmts ss)) := by
  match ss with
  | [] => exact erases_pure rfl
  | s :: rest =>
    rw [Bare.stmts, walkStmts, walkStmts]
    exact (erases_walkStmt s).bind fun _ => erases_walkStmts rest

theorem erases_walkBody (block : Block) : erasure.Erases id (walkBody block) (walkBody (Bare.block block)) := by
  cases block with
  | mk stmts span =>
    rw [Bare.block, walkBody, walkBody]
    exact erases_walkStmts stmts

theorem erases_walkBlock (block : Block) : erasure.Erases id (walkBlock block) (walkBlock (Bare.block block)) := by
  cases block with
  | mk stmts span =>
    rw [Bare.block, walkBlock, walkBlock]
    exact erases_openScope.bind fun _ => (erases_walkStmts stmts).bind fun _ => erases_closeScope

end

theorem state_initial : erasure.state initial = initial := by
  have hbuiltins : DeclarationTable.initial.declarations.map Declaration.bare = DeclarationTable.initial.declarations := by
    decide +kernel
  unfold erasure initial DeclarationTable.bare
  simp only [hbuiltins, Array.map_empty]
  rfl

end Analyzer

def Analysis.bare (a : Analysis) : Analysis := ⟨a.errors.map CompilationError.bare, a.warnings.map CompilationError.bare⟩

theorem analyze_bare (options : AnalysisOptions) (program : Program) :
    analyze options program.bare = (analyze options program).map Analysis.bare := by
  have hwalk := Analyzer.erases_walkStmts program.stmts .initial
  rw [Analyzer.state_initial] at hwalk
  unfold analyze
  rw [Analyzer.visitStmts_eq, Analyzer.visitStmts_eq, show Analyzer.walkStmts program.bare.stmts _ = _ from hwalk]
  cases Analyzer.walkStmts program.stmts .initial with
  | error imbalance => rfl
  | ok r =>
    obtain ⟨⟨⟩, table, hashes, errors⟩ := r
    have hunused : table.bare.unused.map Declaration.unusedError =
        (table.unused.map Declaration.unusedError).map CompilationError.bare := by
      rw [DeclarationTable.unused_bare, List.map_map, List.map_map]
      rfl
    change (if options.unusedAsError then
      Except.ok (Analysis.mk ((errors.map CompilationError.bare).toList ++ table.bare.unused.map Declaration.unusedError) [])
      else Except.ok ⟨(errors.map CompilationError.bare).toList, table.bare.unused.map Declaration.unusedError⟩) =
      Except.map Analysis.bare (if options.unusedAsError then
        Except.ok ⟨errors.toList ++ table.unused.map Declaration.unusedError, []⟩
        else Except.ok ⟨errors.toList, table.unused.map Declaration.unusedError⟩)
    rw [hunused, Array.toList_map]
    split
    · rw [Except.map, Analysis.bare, List.map_append, List.map_nil]
    · rfl

/-! ### Compilation -/

theorem contents_compile {p q : Program} (h : p.bare = q.bare) (options : AnalysisOptions) :
    (compile options p).map (fun c => c.executable.map Executable.contents) =
      (compile options q).map (fun c => c.executable.map Executable.contents) := by
  have hcompile (p : Program) : (compile options p).map (fun c => c.executable.map Executable.contents) =
      (analyze options p.bare).map fun a => if a.isOk then (generate p).toOption.map Executable.contents else none := by
    rw [analyze_bare]
    unfold compile
    cases analyze options p with
    | error imbalance => rfl
    | ok a =>
      have hisOk : a.bare.isOk = a.isOk := List.isEmpty_map
      change Except.map _ (if a.isOk then _ else _) = Except.ok (if a.bare.isOk then _ else _)
      rw [hisOk]
      split
      · cases generate p <;> rfl
      · rfl
  rw [hcompile, hcompile, h, contents_generate h]

/-- Where the outlines of two programs that are read from sources have the same text, the programs are the same apart from
positions. Generation and compilation succeed for both or for neither, with the same code bytes and constants. -/
theorem outline_determines_program {source source' : String} {p q : Program} (hp : Program.parse source = .ok p)
    (hq : Program.parse source' = .ok q) (h : (Outline.ofProgram p).write = (Outline.ofProgram q).write) :
    p.bare = q.bare ∧
    (generate p).toOption.map Executable.contents = (generate q).toOption.map Executable.contents ∧
    ∀ options, (compile options p).map (fun c => c.executable.map Executable.contents) =
      (compile options q).map (fun c => c.executable.map Executable.contents) := by
  have hbare := Program.bare_eq_of_write (Program.shaped_of_parse hp) (Program.shaped_of_parse hq) h
  exact ⟨hbare, contents_generate hbare, contents_compile hbare⟩

/-- A function, a chain and a string that looks like a line of an outline. -/
def outlinedSource : String := "let f = fn(x, y) \x7b x < \"a\n  Int 7\" \x7d; f(007)"

/-- The same program, written differently. -/
def outlinedAgain : String := "let f=fn(x,y)\x7bx<\"a\\n  Int 7\";\x7d // f\nf(\n7 );"

def outlinedText : String :=
  "Program\n  Let f\n    Function(x, y)\n      Body\n        ExprStmt\n          Chain <\n            Ident x\n" ++
  "            String \"a\\n  Int 7\"\n  ExprStmt\n    Call\n      Ident f\n      Int 7\n"

theorem outline_determines_outlinedSource : ∃ p q, Program.parse outlinedSource = .ok p ∧ Program.parse outlinedAgain = .ok q ∧
    (Outline.ofProgram p).write = (Outline.ofProgram q).write ∧ p.bare = q.bare ∧
    (generate p).toOption.map Executable.contents = (generate q).toOption.map Executable.contents ∧
    ∀ options, (compile options p).map (fun c => c.executable.map Executable.contents) =
      (compile options q).map (fun c => c.executable.map Executable.contents) := by
  have htext : (Program.parse outlinedSource).toOption.map (fun p => (Outline.ofProgram p).write) = some outlinedText := by
    decide +kernel
  have htext' : (Program.parse outlinedAgain).toOption.map (fun q => (Outline.ofProgram q).write) = some outlinedText := by
    decide +kernel
  cases hp : Program.parse outlinedSource with
  | error errors =>
    rw [hp] at htext
    cases htext
  | ok p =>
    cases hq : Program.parse outlinedAgain with
    | error errors =>
      rw [hq] at htext'
      cases htext'
    | ok q =>
      rw [hp] at htext
      rw [hq] at htext'
      have hwrite := Option.some.inj (htext.trans htext'.symm)
      exact ⟨p, q, rfl, rfl, hwrite, outline_determines_program hp hq hwrite⟩

end MonkeyLang
