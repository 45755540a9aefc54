import MonkeyLang.Bytecode.Executable
import MonkeyLang.Span
/-!
# Emitting instructions one by one

An emitter writes instructions at the end of a chunk, all with the line that is current, and keeps the constants they
load. Operands have to fit the bytes they are stored in. A jump is emitted before its target is known, with a placeholder
in place of the target, and patched when the target is reached.
-/

namespace MonkeyLang

/-- Why no code can be generated. -/
inductive GenerationError where
  /-- An operand does not fit one byte. -/
  | exceedsByte (op : Opcode) (operand : Nat)
  /-- An operand does not fit two bytes. -/
  | exceedsWord (op : Opcode) (operand : Nat)
  /-- The target of a jump does not fit two bytes. -/
  | jumpTooFar (target : Nat)
  | unresolvedName (name : String) (span : Span)
  | notAssignable (kind name : String)
  | noEnclosingFunction
deriving DecidableEq, Repr

def GenerationError.message : GenerationError → String
  | exceedsByte op operand => s!"{op.name} operand {operand} exceeds u8::MAX"
  | exceedsWord op operand => s!"{op.name} operand {operand} exceeds u16::MAX"
  | jumpTooFar target => s!"jump target {target} exceeds u16::MAX"
  | unresolvedName name span => s!"unresolved name '{name}' at {span.text}"
  | notAssignable kind name => s!"cannot assign to {kind} symbol '{name}'"
  | noEnclosingFunction => "function scope has no parent"

def byteOperand (op : Opcode) (operand : Nat) : Except GenerationError UInt8 :=
  if operand < 256 then .ok (UInt8.ofNat operand) else .error (.exceedsByte op operand)

def wordOperand (op : Opcode) (operand : Nat) : Except GenerationError UInt16 :=
  if operand < 65536 then .ok (UInt16.ofNat operand) else .error (.exceedsWord op operand)

def jumpTarget (target : Nat) : Except GenerationError UInt16 :=
  if target < 65536 then .ok (UInt16.ofNat target) else .error (.jumpTooFar target)

structure Emitter where
  chunk : Chunk := {}
  pool : ConstantPool := .empty
  /-- The source line of what is emitted next. -/
  line : Nat := 1

structure JumpLabel where
  offset : Nat
deriving DecidableEq, Repr

namespace Emitter

def initial : Emitter := {}

def offset (e : Emitter) : Nat := e.chunk.size

def setLine (e : Emitter) (line : Nat) : Emitter := { e with line }

def finish (e : Emitter) : Executable := ⟨e.chunk, e.pool⟩

def writeByte (e : Emitter) (byte : UInt8) : Emitter := { e with chunk := e.chunk.writeByte byte e.line }

def writeU16 (e : Emitter) (value : UInt16) : Emitter := { e with chunk := e.chunk.writeU16 value e.line }

def emit (e : Emitter) (op : Opcode) : Emitter := { e with chunk := e.chunk.writeOp op e.line }

def emitBool (e : Emitter) (value : Bool) : Emitter := e.emit (if value then .pushTrue else .pushFalse)

def emitByte (e : Emitter) (op : Opcode) (operand : Nat) : Except GenerationError Unit × Emitter :=
  match byteOperand op operand with
  | .ok byte => (.ok (), (e.emit op).writeByte byte)
  | .error cause => (.error cause, e)

def emitWord (e : Emitter) (op : Opcode) (operand : Nat) : Except GenerationError Unit × Emitter :=
  match wordOperand op operand with
  | .ok value => (.ok (), (e.emit op).writeU16 value)
  | .error cause => (.error cause, e)

/-- Emits the loading of a constant, which the pool keeps even if its place does not fit. -/
def emitConstant : Emitter → Constant → Except GenerationError Unit × Emitter
  | ⟨chunk, pool, line⟩, c =>
    let (place, pool) := pool.add c
    emitWord ⟨chunk, pool, line⟩ .constant place

/-- What stands in place of the target of a jump that is not patched yet. -/
def placeholder : UInt16 := 0xFFFF

/-- Emits a jump whose target is not known yet. -/
def emitJump (e : Emitter) (op : Opcode) : JumpLabel × Emitter :=
  let e := e.emit op
  (⟨e.offset⟩, e.writeU16 placeholder)

/-- Lets a jump go to where the next instruction will be. -/
def patchJump (e : Emitter) (label : JumpLabel) : Except GenerationError Unit × Emitter :=
  match jumpTarget e.offset with
  | .error cause => (.error cause, e)
  | .ok target =>
    match e.chunk.patchU16? label.offset target with
    | some chunk => (.ok (), { e with chunk })
    | none => (.ok (), e)

/-- Emits the making of a closure, whose captured values are on the stack. -/
def emitClosure (e : Emitter) (entry params locals free : Nat) : Except GenerationError Unit × Emitter :=
  let operands : Except GenerationError (UInt16 × UInt8 × UInt8 × UInt8) := do
    let entry ← wordOperand .closure entry
    let params ← byteOperand .closure params
    let locals ← byteOperand .closure locals
    let free ← byteOperand .closure free
    return (entry, params, locals, free)
  match operands with
  | .ok (entry, params, locals, free) =>
    (.ok (), ((((e.emit .closure).writeU16 entry).writeByte params).writeByte locals).writeByte free)
  | .error cause => (.error cause, e)

def emitCall (e : Emitter) (args : Nat) : Except GenerationError Unit × Emitter := e.emitByte .call args

end Emitter

end MonkeyLang
