import MonkeyLang.Bytecode.Chunk
/-!
# Instructions

An instruction with its operands, each of the width it is stored in. Code is a sequence of instructions with their source
lines; its bytes are those of its instructions, one behind the other.
-/

namespace MonkeyLang

inductive Instruction where
  | constant (place : UInt16)
  | bool (value : Bool)
  | null
  | pop
  | binary (op : BinaryOp)
  | unary (op : UnaryOp)
  | jump (target : UInt16)
  | jumpIfFalse (target : UInt16)
  | getGlobal (slot : UInt16)
  | setGlobal (slot : UInt16)
  | getLocal (slot : UInt8)
  | setLocal (slot : UInt8)
  | getBuiltin (index : UInt8)
  | getFree (index : UInt8)
  | currentClosure
  | closure (entry : UInt16) (params locals free : UInt8)
  | array (size : UInt16)
  | hash (pairs : UInt16)
  | index
  | call (args : UInt8)
  | returnValue
  | returnNull
deriving Repr

namespace Instruction

def opcode : Instruction → Opcode
  | constant _ => .constant
  | bool value => if value then .pushTrue else .pushFalse
  | null => .pushNull
  | pop => .pop
  | binary op => op.opcode
  | unary op => op.opcode
  | jump _ => .jump
  | jumpIfFalse _ => .jumpIfFalse
  | getGlobal _ => .getGlobal
  | setGlobal _ => .setGlobal
  | getLocal _ => .getLocal
  | setLocal _ => .setLocal
  | getBuiltin _ => .getBuiltin
  | getFree _ => .getFree
  | currentClosure => .currentClosure
  | closure .. => .closure
  | array _ => .array
  | hash _ => .hash
  | index => .index
  | call _ => .call
  | returnValue => .returnValue
  | returnNull => .returnNull

def wordBytes (value : UInt16) : List UInt8 := [Chunk.highByte value, Chunk.lowByte value]

def operandBytes : Instruction → List UInt8
  | constant n | jump n | jumpIfFalse n | getGlobal n | setGlobal n | array n | hash n => wordBytes n
  | getLocal n | setLocal n | getBuiltin n | getFree n | call n => [n]
  | closure entry params locals free => wordBytes entry ++ [params, locals, free]
  | bool _ | null | pop | binary _ | unary _ | currentClosure | index | returnValue | returnNull => []

def bytes (i : Instruction) : List UInt8 := i.opcode.toByte :: i.operandBytes

def size (i : Instruction) : Nat := 1 + i.opcode.operandSize

theorem length_bytes (i : Instruction) : i.bytes.length = i.size := by
  cases i with
  | bool value => cases value <;> rfl
  | binary op => cases op <;> rfl
  | unary op => cases op <;> rfl
  | _ => rfl

end Instruction

namespace Opcode

/-- The instruction with an opcode and operands, where those that are missing are zero. -/
def instruction (op : Opcode) (operands : List Nat) : Instruction :=
  let word (k : Nat) : UInt16 := .ofNat (operands.getD k 0)
  let byte (k : Nat) : UInt8 := .ofNat (operands.getD k 0)
  match op with
  | constant => .constant (word 0)
  | pushTrue => .bool true
  | pushFalse => .bool false
  | pushNull => .null
  | pop => .pop
  | add => .binary .add
  | sub => .binary .sub
  | mul => .binary .mul
  | div => .binary .div
  | equal => .binary .equal
  | notEqual => .binary .notEqual
  | greaterThan => .binary .greater
  | lessThan => .binary .less
  | greaterEqual => .binary .greaterEqual
  | lessEqual => .binary .lessEqual
  | minus => .unary .neg
  | bang => .unary .not
  | jump => .jump (word 0)
  | jumpIfFalse => .jumpIfFalse (word 0)
  | getGlobal => .getGlobal (word 0)
  | setGlobal => .setGlobal (word 0)
  | getLocal => .getLocal (byte 0)
  | setLocal => .setLocal (byte 0)
  | getBuiltin => .getBuiltin (byte 0)
  | getFree => .getFree (byte 0)
  | currentClosure => .currentClosure
  | closure => .closure (word 0) (byte 1) (byte 2) (byte 3)
  | array => .array (word 0)
  | hash => .hash (word 0)
  | index => .index
  | call => .call (byte 0)
  | returnValue => .returnValue
  | returnNull => .returnNull

theorem opcode_instruction (op : Opcode) (operands : List Nat) : (op.instruction operands).opcode = op := by
  cases op <;> rfl

theorem size_instruction (op : Opcode) (operands : List Nat) : (op.instruction operands).size = 1 + op.operandSize := by
  rw [Instruction.size, opcode_instruction]

end Opcode

structure CodeLine where
  line : Nat
  instruction : Instruction
deriving Repr

abbrev Code := Array CodeLine

namespace Code

def writeTo (chunk : Chunk) (c : CodeLine) : Chunk :=
  c.instruction.bytes.foldl (fun chunk byte => chunk.writeByte byte c.line) chunk

/-- The bytes of code, with their lines. -/
def toChunk (code : Code) : Chunk := code.foldl writeTo {}

theorem writeTo_plain {op : Opcode} (h : op.operandWidths = []) (c : Chunk) (line : Nat) :
    c.writeOp op line = writeTo c ⟨line, op.instruction []⟩ := by
  cases op with
  | constant | jump | jumpIfFalse | getGlobal | setGlobal | array | hash | getLocal | setLocal | getBuiltin | getFree | call
  | closure => cases h
  | _ => rfl

theorem writeTo_byte {op : Opcode} (h : op.operandWidths = [1]) (c : Chunk) (line operand : Nat) :
    (c.writeOp op line).writeByte (.ofNat operand) line = writeTo c ⟨line, op.instruction [operand]⟩ := by
  cases op with
  | getLocal | setLocal | getBuiltin | getFree | call => rfl
  | _ => cases h

theorem writeTo_word {op : Opcode} (h : op.operandWidths = [2]) (c : Chunk) (line operand : Nat) :
    (c.writeOp op line).writeU16 (.ofNat operand) line = writeTo c ⟨line, op.instruction [operand]⟩ := by
  cases op with
  | constant | jump | jumpIfFalse | getGlobal | setGlobal | array | hash => rfl
  | _ => cases h

end Code

end MonkeyLang
