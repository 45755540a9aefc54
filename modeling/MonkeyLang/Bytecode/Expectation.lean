import MonkeyLang.Bytecode.Chunk
/-!
# Expected opcodes

Checks that the opcodes of a chunk are the ones expected, or that the ones expected occur among them in order. A check
that fails says what was expected and what is there.
-/

namespace MonkeyLang

namespace Opcode

/-- The name of an opcode in capitalized words. -/
def label : Opcode → String
  | constant => "Constant"
  | pushTrue => "True"
  | pushFalse => "False"
  | pushNull => "Null"
  | pop => "Pop"
  | add => "Add"
  | sub => "Sub"
  | mul => "Mul"
  | div => "Div"
  | equal => "Equal"
  | notEqual => "NotEqual"
  | greaterThan => "GreaterThan"
  | lessThan => "LessThan"
  | greaterEqual => "GreaterEqual"
  | lessEqual => "LessEqual"
  | minus => "Minus"
  | bang => "Bang"
  | jump => "Jump"
  | jumpIfFalse => "JumpIfFalse"
  | getGlobal => "GetGlobal"
  | setGlobal => "SetGlobal"
  | getLocal => "GetLocal"
  | setLocal => "SetLocal"
  | getBuiltin => "GetBuiltin"
  | getFree => "GetFree"
  | currentClosure => "CurrentClosure"
  | closure => "Closure"
  | array => "Array"
  | hash => "Hash"
  | index => "Index"
  | call => "Call"
  | returnValue => "ReturnValue"
  | returnNull => "Return"

def labels (ops : List Opcode) : String := "[" ++ ", ".intercalate (ops.map label) ++ "]"

def quotedNames (ops : List Opcode) : String :=
  "[" ++ ", ".intercalate (ops.map fun op => "\"" ++ op.name ++ "\"") ++ "]"

end Opcode

/-- A check that failed, with the opcodes expected and those there. -/
inductive OpcodeMismatch where
  /-- The opcodes differ from those expected. -/
  | different (expected actual : List Opcode)
  /-- Of the expected opcodes these are not found in order. -/
  | missing (missing actual : List Opcode)
deriving DecidableEq, Repr

def OpcodeMismatch.message : OpcodeMismatch → String
  | different expected actual =>
    "assertion `left == right` failed: Bytecode mismatch.\nExpected: " ++ Opcode.quotedNames expected ++
      "\nActual:   " ++ Opcode.quotedNames actual ++
      "\n  left: " ++ Opcode.labels actual ++ "\n right: " ++ Opcode.labels expected
  | missing ops actual =>
    "Missing opcodes in sequence.\nExpected to find: " ++ Opcode.quotedNames ops ++
      "\nActual bytecode:  " ++ Opcode.quotedNames actual

namespace Chunk

/-- What is left of the expected opcodes when those that occur, in order and perhaps with others between, are struck. -/
def missingOpcodes : List Opcode → List Opcode → List Opcode
  | expected, [] => expected
  | [], _ :: _ => []
  | e :: expected, a :: actual =>
    if e = a then missingOpcodes expected actual else missingOpcodes (e :: expected) actual

def expectOpcodes (c : Chunk) (expected : List Opcode) : Except OpcodeMismatch Unit :=
  if c.opcodes = expected then .ok () else .error (.different expected c.opcodes)

/-- Checks that the expected opcodes occur in a chunk in order. -/
def expectOpcodesWithin (c : Chunk) (expected : List Opcode) : Except OpcodeMismatch Unit :=
  match missingOpcodes expected c.opcodes with
  | [] => .ok ()
  | missing => .error (.missing missing c.opcodes)

end Chunk

end MonkeyLang
