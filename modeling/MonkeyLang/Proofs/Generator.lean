import MonkeyLang.Bytecode.Emitter
import MonkeyLang.Proofs.Instruction
import MonkeyLang.Symbol
import MonkeyLang.Syntax
/-!
# Code from parts

A generator that emits nothing: the code of a phrase is put together from the code of the phrases in it, and a jump is put in
front of what it jumps over once the size of that is known. All it keeps of the code that stands in front is the offset, so what
is known of a phrase can be said of its own code. `Proofs.Patching` shows that emitting and patching comes to the same.
-/

namespace MonkeyLang

structure Generator where
  scope : SymbolScope
  pool : ConstantPool
  /-- The source line of what is generated next. -/
  line : Nat
  /-- The offset of what is generated next. -/
  offset : Nat

namespace Generator

def initial : Generator := ⟨.topLevel, .empty, 1, 0⟩

abbrev Gen := StateT Generator (Except GenerationError)

def checked {α : Type} (x : Except GenerationError α) : Gen α := fun g =>
  match x with
  | .ok a => .ok (a, g)
  | .error cause => .error cause

def setLine (line : Nat) : Gen Unit := modify fun g => { g with line }

def modifyScope (change : SymbolScope → SymbolScope) : Gen Unit :=
  modify fun g => { g with scope := change g.scope }

/-- Leaves room for an instruction and gives its line. -/
def reserve (size : Nat) : Gen Nat := fun g => .ok (g.line, { g with offset := g.offset + size })

def emit (i : Instruction) : Gen Code := do
  let line ← reserve i.size
  return #[⟨line, i⟩]

def here : Gen UInt16 := do
  let g ← get
  checked (jumpTarget g.offset)

def addConstant (c : Constant) : Gen Nat := fun ⟨scope, pool, line, offset⟩ =>
  let (place, pool) := pool.add c
  .ok (place, ⟨scope, pool, line, offset⟩)

def constant (c : Constant) : Gen Code := do
  emit (.constant (← checked (wordOperand .constant (← addConstant c))))

def define (name : String) : Gen Symbol := fun g =>
  let (symbol, scope) := g.scope.define name
  .ok (symbol, { g with scope })

def resolve (name : Ident) : Gen Symbol := fun g =>
  match g.scope.resolve name.name with
  | (some symbol, scope) => .ok (symbol, { g with scope })
  | (none, _) => .error (.unresolvedName name.name name.span)

def leaveFunction : Gen FunctionScope := fun g =>
  match g.scope.leave? with
  | some (f, scope) => .ok (f, { g with scope })
  | none => .error .noEnclosingFunction

def load (symbol : Symbol) : Gen Code := do
  match symbol.storage with
  | .global slot => emit (.getGlobal (← checked (wordOperand .getGlobal slot)))
  | .frame slot => emit (.getLocal (← checked (byteOperand .getLocal slot)))
  | .builtin index => emit (.getBuiltin (← checked (byteOperand .getBuiltin index)))
  | .captured index => emit (.getFree (← checked (byteOperand .getFree index)))
  | .running => emit .currentClosure

def store (symbol : Symbol) : Gen Code := do
  match symbol.storage with
  | .global slot => emit (.setGlobal (← checked (wordOperand .setGlobal slot)))
  | .frame slot => emit (.setLocal (← checked (byteOperand .setLocal slot)))
  | .builtin _ => checked (.error (.notAssignable "Builtin" symbol.name))
  | .captured _ => checked (.error (.notAssignable "Free" symbol.name))
  | .running => checked (.error (.notAssignable "Function" symbol.name))

def loadAll (code : Code) : List Symbol → Gen Code
  | [] => pure code
  | symbol :: rest => do
    let c ← load symbol
    loadAll (code ++ c) rest

def defineAll : List Ident → Gen Unit
  | [] => pure ()
  | name :: rest => do
    discard (define name.name)
    defineAll rest

def enterFunction (name : Option String) (params : List Ident) : Gen Unit := do
  modifyScope SymbolScope.enter
  match name with
  | some name => modifyScope fun scope => (scope.defineRunning name).2
  | none => pure ()
  defineAll params

/-- Makes a closure with a body that starts at an offset, once its captured values are pushed. -/
def closure (entry : Nat) (params : List Ident) (f : FunctionScope) : Gen Code := do
  let entry ← checked (wordOperand .closure entry)
  let params ← checked (byteOperand .closure params.length)
  let locals ← checked (byteOperand .closure f.slots)
  let free ← checked (byteOperand .closure f.captures.length)
  emit (.closure entry params locals free)

def jumpSize : Nat := 1 + Opcode.jump.operandSize

mutual

/-- The code of an expression, which `name` is bound to if it is there. -/
def expr (name : Option String) : Expr → Gen Code
  | .int value _ => constant (.int value)
  | .string value _ => constant (.string value)
  | .bool value _ => emit (.bool value)
  | .ident ident => do load (← resolve ident)
  | .chain _ first rest _ => do operands (← expr none first) rest
  | .unary op operand _ => do
    let code ← expr none operand
    return code ++ (← emit (.unary op))
  | .call callee args _ => do
    let code ← exprs (← expr none callee) args
    return code ++ (← emit (.call (← checked (byteOperand .call args.length))))
  | .index object index _ => do
    let code ← expr none object
    let code := code ++ (← expr none index)
    return code ++ (← emit .index)
  | .array elements _ => do
    let code ← exprs #[] elements
    return code ++ (← emit (.array (← checked (wordOperand .array elements.length))))
  | .hash pairs _ _ => do
    let code ← hashPairs #[] pairs
    return code ++ (← emit (.hash (← checked (wordOperand .hash pairs.length))))
  | .function params body span => do
    let skipLine ← reserve jumpSize
    let entry := (← get).offset
    enterFunction name params
    let code ← functionBody body
    let f ← leaveFunction
    let skip := Instruction.jump (← here)
    setLine span.line
    let loads ← loadAll #[] f.captures
    let make ← closure entry params f
    return #[⟨skipLine, skip⟩] ++ code ++ loads ++ make
  | .ifElse condition thenBlock elseBlock _ => do
    let code ← expr none condition
    let skipLine ← reserve jumpSize
    let thenCode ← valueBlock thenBlock
    let leaveLine ← reserve jumpSize
    let skip := Instruction.jumpIfFalse (← here)
    let elseCode ← elseValue elseBlock
    let leave := Instruction.jump (← here)
    return code ++ #[⟨skipLine, skip⟩] ++ thenCode ++ #[⟨leaveLine, leave⟩] ++ elseCode
  | .paren inner _ => expr name inner

/-- Code, followed by that of the operands of a chain with their operators. -/
def operands (code : Code) : List (BinaryOp × Expr) → Gen Code
  | [] => pure code
  | (op, operand) :: rest => do
    let c ← expr none operand
    operands (code ++ c ++ (← emit (.binary op))) rest

def exprs (code : Code) : List Expr → Gen Code
  | [] => pure code
  | e :: rest => do
    let c ← expr none e
    exprs (code ++ c) rest

def hashPairs (code : Code) : List (Expr × Expr) → Gen Code
  | [] => pure code
  | (key, value) :: rest => do
    let c ← expr none key
    let d ← expr none value
    hashPairs (code ++ c ++ d) rest

def elseValue : Option Block → Gen Code
  | none => emit .null
  | some block => valueBlock block

def stmt : Stmt → Gen Code
  | .letStmt name value span => do
    setLine span.line
    let code ← expr (some name.name) value
    return code ++ (← store (← define name.name))
  | .returnStmt value span => do
    setLine span.line
    let code ← expr none value
    return code ++ (← emit .returnValue)
  | .exprStmt e span => do
    setLine span.line
    let code ← expr none e
    return code ++ (← emit .pop)

def stmts (code : Code) : List Stmt → Gen Code
  | [] => pure code
  | s :: rest => do
    let c ← stmt s
    stmts (code ++ c) rest

/-- The code of a block that leaves its value on the stack. -/
def valueBlock : Block → Gen Code
  | .mk body _ => do
    modifyScope SymbolScope.openBlock
    let code ← valueStmts #[] body
    modifyScope SymbolScope.closeBlock
    return code

/-- Code, followed by that of statements of which the last gives the value, or a null if it has none. -/
def valueStmts (code : Code) : List Stmt → Gen Code
  | [] => return code ++ (← emit .null)
  | [.exprStmt e span] => do
    setLine span.line
    return code ++ (← expr none e)
  | [s] => do
    let c ← stmt s
    return code ++ c ++ (← emit .null)
  | s :: next :: rest => do
    let c ← stmt s
    valueStmts (code ++ c) (next :: rest)

/-- The code of a function's body, which returns. -/
def functionBody : Block → Gen Code
  | .mk body _ => functionStmts #[] body

/-- Code, followed by that of statements of which the last returns its value, or a null if it has none. -/
def functionStmts (code : Code) : List Stmt → Gen Code
  | [] => return code ++ (← emit .returnNull)
  | [.exprStmt e span] => do
    setLine span.line
    let c ← expr none e
    return code ++ c ++ (← emit .returnValue)
  | [.returnStmt value span] => return code ++ (← stmt (.returnStmt value span))
  | [.letStmt name value span] => do
    let c ← stmt (.letStmt name value span)
    return code ++ c ++ (← emit .returnNull)
  | s :: next :: rest => do
    let c ← stmt s
    functionStmts (code ++ c) (next :: rest)

end

def assemble (program : Program) : Except GenerationError Executable := do
  let (code, g) ← stmts #[] program.stmts initial
  return ⟨code.toChunk, g.pool⟩

end Generator

end MonkeyLang
