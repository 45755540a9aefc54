import MonkeyLang.Bytecode.Opcode
import MonkeyLang.Place
/-!
# Chunks of code

A chunk is a sequence of bytes with the source line of each. Reading a chunk from the front goes from step to step: a
step is an instruction with its operands, an instruction whose operands run past the end of the code, or a byte that is
no opcode.
-/

namespace MonkeyLang

structure Chunk where
  code : Array UInt8 := #[]
  /-- The source line of each byte. -/
  lines : Array Nat := #[]
deriving DecidableEq, Repr

/-- What is found at a place in the code. -/
inductive Step where
  | complete (op : Opcode) (operands : List Nat)
  | truncated (op : Opcode)
  | unknown (byte : UInt8)
deriving DecidableEq, Repr

namespace Step

/-- The bytes a step takes up, those it runs past the end included. -/
def size : Step → Nat
  | complete op _ | truncated op => 1 + op.operandSize
  | unknown _ => 1

def opcode? : Step → Option Opcode
  | complete op _ | truncated op => some op
  | unknown _ => none

theorem size_eq (step : Step) : step.size = 1 + (step.opcode?.map Opcode.operandSize).getD 0 := by
  cases step <;> rfl

theorem size_pos (step : Step) : 0 < step.size := by
  cases step <;> simp only [size] <;> omega

end Step

namespace Chunk

/-- A chunk of code of unknown origin: every byte has line zero. -/
def ofCode (code : Array UInt8) : Chunk := ⟨code, Array.replicate code.size 0⟩

def size (c : Chunk) : Nat := c.code.size

/-! ### Writing -/

def writeByte (c : Chunk) (byte : UInt8) (line : Nat) : Chunk :=
  ⟨c.code.push byte, c.lines.push line⟩

def writeOp (c : Chunk) (op : Opcode) (line : Nat) : Chunk := c.writeByte op.toByte line

def highByte (value : UInt16) : UInt8 := (value >>> 8).toUInt8

def lowByte (value : UInt16) : UInt8 := value.toUInt8

def writeU16 (c : Chunk) (value : UInt16) (line : Nat) : Chunk :=
  (c.writeByte (highByte value) line).writeByte (lowByte value) line

/-- Overwrites two bytes, if they lie in the code. -/
def patchU16? (c : Chunk) (offset : Nat) (value : UInt16) : Option Chunk :=
  if offset + 1 < c.code.size then
    some { c with code := (c.code.setIfInBounds offset (highByte value)).setIfInBounds (offset + 1) (lowByte value) }
  else
    none

/-! ### Reading -/

def lineAt? (c : Chunk) (offset : Nat) : Option Nat := c.lines[offset]?

def readByte? (c : Chunk) (offset : Nat) : Option UInt8 := c.code[offset]?

def readU16? (c : Chunk) (offset : Nat) : Option Nat := do
  let high ← c.code[offset]?
  let low ← c.code[offset + 1]?
  return 256 * high.toNat + low.toNat

/-- Reads a two-byte number at a place, if there is a place right behind it. -/
def fetchU16? (c : Chunk) (offset : Nat) : Option (Option Nat) :=
  (Place.after? offset 2).map fun _ => c.readU16? offset

def readOp? (c : Chunk) (offset : Nat) : Option Opcode := c.code[offset]?.bind Opcode.ofByte?

/-- Reads numbers of the given widths, one behind the other. -/
def readNumbers? (c : Chunk) : Nat → List Nat → Option (List Nat)
  | _, [] => some []
  | offset, width :: widths => do
    let value ← if width = 1 then (c.readByte? offset).map UInt8.toNat else c.readU16? offset
    let values ← readNumbers? c (offset + width) widths
    return value :: values

/-- The operands of the instruction at a place, if there is one and they are all there. -/
def readOperands? (c : Chunk) (offset : Nat) : Option (List Nat) := do
  let op ← c.readOp? offset
  c.readNumbers? (offset + 1) op.operandWidths

/-- The step that starts with a byte at a place. -/
def stepAt (c : Chunk) (offset : Nat) (byte : UInt8) : Step :=
  match Opcode.ofByte? byte with
  | none => .unknown byte
  | some op =>
    match c.readNumbers? (offset + 1) op.operandWidths with
    | some operands => .complete op operands
    | none => .truncated op

/-- The steps from a place on, with their places, behind those already found. -/
def stepsFrom (c : Chunk) (found : Array (Nat × Step)) (offset : Nat) : Array (Nat × Step) :=
  if h : offset < c.code.size then
    let step := c.stepAt offset c.code[offset]
    stepsFrom c (found.push (offset, step)) (offset + step.size)
  else
    found
termination_by c.code.size - offset
decreasing_by
  have := (c.stepAt offset c.code[offset]).size_pos
  omega

def steps (c : Chunk) : List (Nat × Step) := (c.stepsFrom #[] 0).toList

/-- The opcodes from a place on, behind those already found. Operands are not read, and a byte that is no opcode is passed over. -/
def opcodesFrom (c : Chunk) (found : Array Opcode) (offset : Nat) : Array Opcode :=
  if offset < c.code.size then
    match c.readOp? offset with
    | some op => opcodesFrom c (found.push op) (offset + (1 + op.operandSize))
    | none => opcodesFrom c found (offset + 1)
  else
    found
termination_by c.code.size - offset

def opcodes (c : Chunk) : List Opcode := (c.opcodesFrom #[] 0).toList

theorem opcode?_stepAt (c : Chunk) (offset : Nat) (byte : UInt8) : (c.stepAt offset byte).opcode? = Opcode.ofByte? byte := by
  unfold stepAt
  split
  case h_1 hbyte => rw [hbyte, Step.opcode?]
  case h_2 op hbyte =>
    rw [hbyte]
    split <;> rfl

theorem toList_opcodesFrom (c : Chunk) {ops : Array Opcode} {found : Array (Nat × Step)}
    (h : ops.toList = found.toList.filterMap fun s => s.2.opcode?) (offset : Nat) :
    (c.opcodesFrom ops offset).toList = (c.stepsFrom found offset).toList.filterMap fun s => s.2.opcode? := by
  generalize hrest : c.code.size - offset = rest
  induction rest using Nat.strongRecOn generalizing offset ops found with
  | ind rest ih =>
    rw [opcodesFrom, stepsFrom]
    by_cases hlt : offset < c.code.size
    · have hread : c.readOp? offset = (c.stepAt offset c.code[offset]).opcode? := by simp [readOp?, hlt, opcode?_stepAt]
      rw [if_pos hlt, dif_pos hlt, hread]
      simp only [Step.size_eq]
      cases hop : (c.stepAt offset c.code[offset]).opcode? with
      | none => exact ih _ (by omega) (by simp [h, hop]) _ rfl
      | some op => exact ih _ (by omega) (by simp [h, hop]) _ rfl
    · rw [if_neg hlt, dif_neg hlt, h]

/-- The opcodes of a chunk are those of its steps. -/
theorem opcodes_eq (c : Chunk) : c.opcodes = c.steps.filterMap fun s => s.2.opcode? := by
  have hempty : (#[] : Array Opcode).toList = (#[] : Array (Nat × Step)).toList.filterMap fun s => s.2.opcode? := rfl
  exact c.toList_opcodesFrom hempty 0

end Chunk

end MonkeyLang
