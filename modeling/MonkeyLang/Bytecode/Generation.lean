import MonkeyLang.Bytecode.Emitter
import MonkeyLang.Symbol
import MonkeyLang.Syntax
/-!
# Code generation

The code of an expression leaves one value on the stack, that of a statement none. A program is walked once, and each phrase
emits its code behind that of the phrases in it:

* a chain: the first operand, then each further operand followed by its operator;
* a conditional: the condition, a conditional jump to the other branch, the first branch, a jump to the end, the other
  branch, which is a null if there is none;
* a function: a jump over the body, the body, the loading of what the function captures, the making of the closure.

A jump is emitted before its target is known and patched when the target is reached. Names are taken as they are found: a
program should have been analyzed before.
-/

namespace MonkeyLang

structure CodeGenerator where
  emitter : Emitter
  scope : SymbolScope

namespace CodeGenerator

def initial : CodeGenerator := ⟨.initial, .topLevel⟩

/-- A part of a generation. There is a generator behind it also if it fails. -/
abbrev Run := ExceptT GenerationError (StateM CodeGenerator)

/-- What a part of a generation comes to, a failure included. -/
def attempt {α : Type} (x : Run α) : Run (Except GenerationError α) := fun g =>
  let (answer, g) := x g
  (.ok answer, g)

def answer {α : Type} (x : Except GenerationError α) : Run α := fun g => (x, g)

/-! ### The emitter -/

def callEmitter {α : Type} (call : Emitter → Except GenerationError α × Emitter) : Run α := fun ⟨emitter, scope⟩ =>
  let (answer, emitter) := call emitter
  (answer, ⟨emitter, scope⟩)

def setLine (line : Nat) : Run Unit := callEmitter fun e => (.ok (), e.setLine line)

def offset : Run Nat := callEmitter fun e => (.ok e.offset, e)

def emit (op : Opcode) : Run Unit := callEmitter fun e => (.ok (), e.emit op)

def emitBool (value : Bool) : Run Unit := callEmitter fun e => (.ok (), e.emitBool value)

def emitByte (op : Opcode) (operand : Nat) : Run Unit := callEmitter fun e => e.emitByte op operand

def emitWord (op : Opcode) (operand : Nat) : Run Unit := callEmitter fun e => e.emitWord op operand

def emitConstant (c : Constant) : Run Unit := callEmitter fun e => e.emitConstant c

def emitJump (op : Opcode) : Run JumpLabel := callEmitter fun e =>
  let (label, e) := e.emitJump op
  (.ok label, e)

def patchJump (label : JumpLabel) : Run Unit := callEmitter fun e => e.patchJump label

def emitClosure (entry params locals free : Nat) : Run Unit := callEmitter fun e => e.emitClosure entry params locals free

def emitCall (args : Nat) : Run Unit := callEmitter fun e => e.emitCall args

/-! ### Symbols -/

def modifyScope (change : SymbolScope → SymbolScope) : Run Unit := fun ⟨emitter, scope⟩ => (.ok (), ⟨emitter, change scope⟩)

def define (name : String) : Run Symbol := fun ⟨emitter, scope⟩ =>
  let (symbol, scope) := scope.define name
  (.ok symbol, ⟨emitter, scope⟩)

def resolve (name : Ident) : Run Symbol := fun ⟨emitter, scope⟩ =>
  match scope.resolve name.name with
  | (some symbol, scope) => (.ok symbol, ⟨emitter, scope⟩)
  | (none, scope) => (.error (.unresolvedName name.name name.span), ⟨emitter, scope⟩)

def leaveFunction : Run FunctionScope := fun ⟨emitter, scope⟩ =>
  match scope.leave? with
  | some (f, scope) => (.ok f, ⟨emitter, scope⟩)
  | none => (.error .noEnclosingFunction, ⟨emitter, scope⟩)

/-- Pushes the value of a symbol. -/
def load (symbol : Symbol) : Run Unit :=
  match symbol.storage with
  | .global slot => emitWord .getGlobal slot
  | .frame slot => emitByte .getLocal slot
  | .builtin index => emitByte .getBuiltin index
  | .captured index => emitByte .getFree index
  | .running => emit .currentClosure

/-- Pops a value into a symbol. -/
def store (symbol : Symbol) : Run Unit :=
  match symbol.storage with
  | .global slot => emitWord .setGlobal slot
  | .frame slot => emitByte .setLocal slot
  | .builtin _ => answer (.error (.notAssignable "Builtin" symbol.name))
  | .captured _ => answer (.error (.notAssignable "Free" symbol.name))
  | .running => answer (.error (.notAssignable "Function" symbol.name))

def loadAll : List Symbol → Run Unit
  | [] => pure ()
  | symbol :: rest => do
    load symbol
    loadAll rest

def defineAll : List Ident → Run Unit
  | [] => pure ()
  | name :: rest => do
    discard (define name.name)
    defineAll rest

/-- Enters a function with a name to call itself by, if it has one, and with its parameters. -/
def enterFunction (name : Option String) (params : List Ident) : Run Unit := do
  modifyScope SymbolScope.enter
  match name with
  | some name => modifyScope fun scope => (scope.defineRunning name).2
  | none => pure ()
  defineAll params

/-! ### Phrases -/

mutual

def expr : Expr → Run Unit
  | .int value _ => emitConstant (.int value)
  | .string value _ => emitConstant (.string value)
  | .bool value _ => emitBool value
  | .ident ident => do load (← resolve ident)
  | .chain _ first rest _ => do
    expr first
    operands rest
  | .unary op operand _ => do
    expr operand
    emit op.opcode
  | .call callee args _ => do
    expr callee
    exprs args
    emitCall args.length
  | .index object index _ => do
    expr object
    expr index
    emit .index
  | .array elements _ => do
    exprs elements
    emitWord .array elements.length
  | .hash pairs _ _ => do
    hashPairs pairs
    emitWord .hash pairs.length
  | .function params body span => function none params span body
  | .ifElse condition thenBlock elseBlock _ => do
    expr condition
    let elseJump ← emitJump .jumpIfFalse
    valueBlock thenBlock
    let endJump ← emitJump .jump
    patchJump elseJump
    elseValue elseBlock
    patchJump endJump
  | .paren inner _ => expr inner

/-- A function literal, which may call itself by a name if it has one. -/
def function (name : Option String) (params : List Ident) (span : Span) : Block → Run Unit
  | .mk body _ => do
    let skip ← emitJump .jump
    let entry ← offset
    enterFunction name params
    -- The function is left before its body is asked whether it failed.
    let result ← attempt (functionStmts body)
    let f ← leaveFunction
    answer result
    patchJump skip
    setLine span.line
    loadAll f.captures
    emitClosure entry params.length f.slots f.captures.length

/-- A function literal that is bound to a name, in parentheses or not. Nothing else is asked for. -/
def boundFunction (name : String) : Expr → Run Unit
  | .function params body span => function (some name) params span body
  | .paren inner _ => boundFunction name inner
  | _ => pure ()

/-- The operands of a chain behind the first one, with their operators. -/
def operands : List (BinaryOp × Expr) → Run Unit
  | [] => pure ()
  | (op, operand) :: rest => do
    expr operand
    emit op.opcode
    operands rest

def exprs : List Expr → Run Unit
  | [] => pure ()
  | e :: rest => do
    expr e
    exprs rest

def hashPairs : List (Expr × Expr) → Run Unit
  | [] => pure ()
  | (key, value) :: rest => do
    expr key
    expr value
    hashPairs rest

def elseValue : Option Block → Run Unit
  | none => emit .pushNull
  | some block => valueBlock block

/-- The value of a `let` is asked whether it is a function literal, which may then call itself. -/
def stmt : Stmt → Run Unit
  | .letStmt name value span => do
    setLine span.line
    match value.function? with
    | some _ => boundFunction name.name value
    | none => expr value
    store (← define name.name)
  | .returnStmt value span => do
    setLine span.line
    expr value
    emit .returnValue
  | .exprStmt e span => do
    setLine span.line
    expr e
    emit .pop

def stmts : List Stmt → Run Unit
  | [] => pure ()
  | s :: rest => do
    stmt s
    stmts rest

/-- A block that leaves its value on the stack. It is closed also if it fails. -/
def valueBlock : Block → Run Unit
  | .mk body _ => do
    modifyScope SymbolScope.openBlock
    let result ← attempt (valueStmts body)
    modifyScope SymbolScope.closeBlock
    answer result

/-- Statements of which the last gives the value, or a null if it has none. -/
def valueStmts : List Stmt → Run Unit
  | [] => emit .pushNull
  | [.exprStmt e span] => do
    setLine span.line
    expr e
  | [s] => do
    stmt s
    emit .pushNull
  | s :: next :: rest => do
    stmt s
    valueStmts (next :: rest)

/-- Statements of which the last returns its value, or a null if it has none. -/
def functionStmts : List Stmt → Run Unit
  | [] => emit .returnNull
  | [.exprStmt e span] => do
    setLine span.line
    expr e
    emit .returnValue
  | [.returnStmt value span] => stmt (.returnStmt value span)
  | [.letStmt name value span] => do
    stmt (.letStmt name value span)
    emit .returnNull
  | s :: next :: rest => do
    stmt s
    functionStmts (next :: rest)

end

end CodeGenerator

def generate (program : Program) : Except GenerationError Executable :=
  match CodeGenerator.stmts program.stmts .initial with
  | (.ok (), g) => .ok g.emitter.finish
  | (.error cause, _) => .error cause

end MonkeyLang
