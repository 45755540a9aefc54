import MonkeyLang.Bytecode.Executable
/-!
# Disassembly

Code as text, one line for each step: the offset, the source line, and the instruction with its operands. An instruction
that loads a constant is followed by the constant.
-/

namespace MonkeyLang.Executable

def padLeft (width : Nat) (fill : Char) (text : String) : String :=
  "".pushn fill (width - text.length) ++ text

def hexByte (b : UInt8) : String := padLeft 2 '0' (String.ofList (Nat.toDigits 16 b.toNat))

def loadedConstant? (e : Executable) (op : Opcode) (operands : List Nat) : Option Constant :=
  if op = .constant then operands.head?.bind e.pool.get? else none

def stepText (e : Executable) : Step → String
  | .complete op operands =>
    let loaded := match e.loadedConstant? op operands with
      | some c => " ; " ++ c.text
      | none => ""
    operands.foldl (fun text operand => text ++ " " ++ toString operand) op.name ++ loaded
  | .truncated op => op.name ++ " <truncated>"
  | .unknown byte => "<unknown 0x" ++ hexByte byte ++ ">"

def stepLine (e : Executable) (offset : Nat) (step : Step) : String :=
  let line := (e.chunk.lineAt? offset).getD 0
  padLeft 4 '0' (toString offset) ++ " " ++ padLeft 4 ' ' (toString line) ++ " " ++ e.stepText step

def disassemblyLines (e : Executable) : List String :=
  e.chunk.steps.map fun s => e.stepLine s.1 s.2

/-- The code as text, each line ended by a newline. -/
def disassemble (e : Executable) : String :=
  e.disassemblyLines.foldl (fun text line => text ++ line ++ "\n") ""

end MonkeyLang.Executable
