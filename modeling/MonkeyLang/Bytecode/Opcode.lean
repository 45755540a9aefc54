import MonkeyLang.Operator
/-!
# Opcodes

Each instruction of the machine starts with one byte that says what to do. Operands follow inline, most significant byte
first; `Opcode.operandWidths` gives the number of bytes of each.
-/

namespace MonkeyLang

inductive Opcode where
  | constant
  | pushTrue
  | pushFalse
  | pushNull
  | pop
  | add
  | sub
  | mul
  | div
  | equal
  | notEqual
  | greaterThan
  | lessThan
  | greaterEqual
  | lessEqual
  | minus
  | bang
  | jump
  | jumpIfFalse
  | getGlobal
  | setGlobal
  | getLocal
  | setLocal
  | getBuiltin
  | getFree
  | currentClosure
  | closure
  | array
  | hash
  | index
  | call
  | returnValue
  | returnNull
deriving DecidableEq, Repr

namespace Opcode

/-- All opcodes in the order of their bytes. -/
def all : Array Opcode :=
  #[constant, pushTrue, pushFalse, pushNull, pop, add, sub, mul, div, equal, notEqual, greaterThan, lessThan,
    greaterEqual, lessEqual, minus, bang, jump, jumpIfFalse, getGlobal, setGlobal, getLocal, setLocal, getBuiltin,
    getFree, currentClosure, closure, array, hash, index, call, returnValue, returnNull]

def toByte : Opcode → UInt8
  | constant => 0
  | pushTrue => 1
  | pushFalse => 2
  | pushNull => 3
  | pop => 4
  | add => 5
  | sub => 6
  | mul => 7
  | div => 8
  | equal => 9
  | notEqual => 10
  | greaterThan => 11
  | lessThan => 12
  | greaterEqual => 13
  | lessEqual => 14
  | minus => 15
  | bang => 16
  | jump => 17
  | jumpIfFalse => 18
  | getGlobal => 19
  | setGlobal => 20
  | getLocal => 21
  | setLocal => 22
  | getBuiltin => 23
  | getFree => 24
  | currentClosure => 25
  | closure => 26
  | array => 27
  | hash => 28
  | index => 29
  | call => 30
  | returnValue => 31
  | returnNull => 32

def ofByte? (b : UInt8) : Option Opcode := all[b.toNat]?

/-- The widths of the operands in bytes, in order. -/
def operandWidths : Opcode → List Nat
  | constant | jump | jumpIfFalse | getGlobal | setGlobal | array | hash => [2]
  | getLocal | setLocal | getBuiltin | getFree | call => [1]
  | closure => [2, 1, 1, 1]
  | _ => []

def operandSize (op : Opcode) : Nat := op.operandWidths.foldr Nat.add 0

def name : Opcode → String
  | constant => "CONSTANT"
  | pushTrue => "TRUE"
  | pushFalse => "FALSE"
  | pushNull => "NULL"
  | pop => "POP"
  | add => "ADD"
  | sub => "SUB"
  | mul => "MUL"
  | div => "DIV"
  | equal => "EQUAL"
  | notEqual => "NOT_EQUAL"
  | greaterThan => "GREATER_THAN"
  | lessThan => "LESS_THAN"
  | greaterEqual => "GREATER_EQUAL"
  | lessEqual => "LESS_EQUAL"
  | minus => "MINUS"
  | bang => "BANG"
  | jump => "JUMP"
  | jumpIfFalse => "JUMP_IF_FALSE"
  | getGlobal => "GET_GLOBAL"
  | setGlobal => "SET_GLOBAL"
  | getLocal => "GET_LOCAL"
  | setLocal => "SET_LOCAL"
  | getBuiltin => "GET_BUILTIN"
  | getFree => "GET_FREE"
  | currentClosure => "CURRENT_CLOSURE"
  | closure => "CLOSURE"
  | array => "ARRAY"
  | hash => "HASH"
  | index => "INDEX"
  | call => "CALL"
  | returnValue => "RETURN_VALUE"
  | returnNull => "RETURN"

@[simp] theorem ofByte?_toByte (op : Opcode) : ofByte? op.toByte = some op := by
  cases op <;> rfl

end Opcode

/-! ### Operators -/

def BinaryOp.opcode : BinaryOp → Opcode
  | less => .lessThan
  | greater => .greaterThan
  | lessEqual => .lessEqual
  | greaterEqual => .greaterEqual
  | equal => .equal
  | notEqual => .notEqual
  | add => .add
  | sub => .sub
  | mul => .mul
  | div => .div

def UnaryOp.opcode : UnaryOp → Opcode
  | neg => .minus
  | not => .bang

end MonkeyLang
