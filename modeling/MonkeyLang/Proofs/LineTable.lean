import MonkeyLang.Proofs.Decoding
/-!
# The lines of code

A chunk has a line for each of its bytes, and all bytes of an instruction have the line of the instruction. `Chunk.Holds` says
that a chunk is that of some code: writing an instruction adds it at the end, and a patch replaces the operand of one.
-/

namespace MonkeyLang

def codeLines (code : List CodeLine) : List Nat := code.flatMap fun c => List.replicate c.instruction.size c.line

theorem codeLines_cons (c : CodeLine) (code : List CodeLine) :
    codeLines (c :: code) = List.replicate c.instruction.size c.line ++ codeLines code := rfl

theorem codeLines_append (code rest : List CodeLine) : codeLines (code ++ rest) = codeLines code ++ codeLines rest :=
  List.flatMap_append

theorem length_codeLines (code : List CodeLine) : (codeLines code).length = codeSize code := by
  induction code with
  | nil => rfl
  | cons c code ih => rw [codeLines_cons, List.length_append, List.length_replicate, ih, codeSize_cons]

theorem lines_foldl_writeByte (chunk : Chunk) (bytes : List UInt8) (line : Nat) :
    (bytes.foldl (fun chunk byte => chunk.writeByte byte line) chunk).lines.toList =
      chunk.lines.toList ++ List.replicate bytes.length line := by
  induction bytes generalizing chunk with
  | nil => simp
  | cons byte bytes ih =>
    rw [List.foldl_cons, ih]
    simp [Chunk.writeByte, List.replicate_succ]

theorem lines_writeTo (chunk : Chunk) (c : CodeLine) :
    (Code.writeTo chunk c).lines.toList = chunk.lines.toList ++ codeLines [c] := by
  rw [Code.writeTo, lines_foldl_writeByte, Instruction.length_bytes, codeLines_cons]
  exact congrArg _ (List.append_nil _).symm

theorem toList_toChunk_lines (code : Code) : code.toChunk.lines.toList = codeLines code.toList := by
  have hfold : ∀ (chunk : Chunk) (code : List CodeLine),
      (code.foldl Code.writeTo chunk).lines.toList = chunk.lines.toList ++ codeLines code := by
    intro chunk code
    induction code generalizing chunk with
    | nil => exact (List.append_nil _).symm
    | cons c code ih => rw [List.foldl_cons, ih, lines_writeTo, List.append_assoc, ← codeLines_append, List.singleton_append]
  rw [Code.toChunk, ← Array.foldl_toList, hfold]
  exact List.nil_append _

/-! ### Chunks of code -/

namespace Chunk

theorem size_writeTo (c : Chunk) (l : CodeLine) : (Code.writeTo c l).size = c.size + l.instruction.size := by
  rw [size, size, ← Array.length_toList, Code.writeTo, code_foldl_writeByte, List.length_append, Instruction.length_bytes,
    Array.length_toList]

theorem size_patchU16? (c : Chunk) (offset : Nat) (value : UInt16) : ((c.patchU16? offset value).getD c).size = c.size := by
  unfold patchU16?
  split
  · simp [size]
  · rfl

/-- The bytes and the lines of a chunk are those of some code. -/
structure Holds (c : Chunk) (code : List CodeLine) : Prop where
  bytes : c.code.toList = codeBytes code
  lines : c.lines.toList = codeLines code

namespace Holds

variable {c : Chunk} {code front back : List CodeLine} {l : CodeLine}

/-- There is one line for each byte. -/
theorem size_lines (h : c.Holds code) : c.lines.size = c.code.size := by
  rw [← Array.length_toList, ← Array.length_toList, h.lines, h.bytes, length_codeLines, length_codeBytes]

/-- Every byte of an instruction has its line. -/
theorem lineAt? (h : c.Holds (front ++ l :: back)) {k : Nat} (hk : k < l.instruction.size) :
    c.lineAt? (codeSize front + k) = some l.line := by
  rw [Chunk.lineAt?, ← Array.getElem?_toList, h.lines, codeLines_append, codeLines_cons, ← length_codeLines,
    List.getElem?_append_right (Nat.le_add_right _ _), Nat.add_sub_cancel_left,
    List.getElem?_append_left (by simpa using hk), List.getElem?_replicate, if_pos hk]

/-- A chunk is known by the code that it holds. -/
theorem eq {c' : Chunk} (h : c.Holds code) (h' : c'.Holds code) : c = c' := by
  obtain ⟨bytes, lines⟩ := c
  obtain ⟨bytes', lines'⟩ := c'
  rw [Chunk.mk.injEq]
  exact ⟨Array.toList_inj.mp (h.bytes.trans h'.bytes.symm), Array.toList_inj.mp (h.lines.trans h'.lines.symm)⟩

theorem size_eq (h : c.Holds code) : c.size = codeSize code := by
  rw [size, ← Array.length_toList, h.bytes, length_codeBytes]

theorem write (h : c.Holds code) (l : CodeLine) : (Code.writeTo c l).Holds (code ++ [l]) where
  bytes := by
    rw [Code.writeTo, code_foldl_writeByte, h.bytes]
    simp [codeBytes]
  lines := by rw [lines_writeTo, h.lines, codeLines_append]

/-- A patch replaces the operand of an instruction and leaves all else as it is. -/
theorem patch {op : Opcode} {line old : Nat} (h : c.Holds (front ++ ⟨line, op.instruction [old]⟩ :: back))
    (hwidths : op.operandWidths = [2]) (new : Nat) :
    ((c.patchU16? (codeSize front + 1) (.ofNat new)).getD c).Holds (front ++ ⟨line, op.instruction [new]⟩ :: back) := by
  have hbytes : ∀ operand, (op.instruction [operand]).bytes =
      [op.toByte, highByte (.ofNat operand), lowByte (.ofNat operand)] := by
    intro operand
    cases op with
    | constant | jump | jumpIfFalse | getGlobal | setGlobal | array | hash => rfl
    | _ => cases hwidths
  have hsplit : ∀ operand, codeBytes (front ++ ⟨line, op.instruction [operand]⟩ :: back) = codeBytes front ++
      op.toByte :: highByte (.ofNat operand) :: lowByte (.ofNat operand) :: codeBytes back := by
    intro operand
    simp [codeBytes, hbytes]
  have hinside : codeSize front + 1 + 1 < c.code.size := by
    rw [← Array.length_toList, h.bytes, hsplit, List.length_append, length_codeBytes]
    simp only [List.length_cons]
    omega
  rw [patchU16?, if_pos hinside, Option.getD_some]
  constructor
  · simp only [Array.toList_setIfInBounds, h.bytes, hsplit, ← length_codeBytes]
    rw [List.set_append_right _ _ (by omega), List.set_append_right _ _ (by omega)]
    simp [Nat.add_assoc]
  · rw [h.lines, codeLines_append, codeLines_append, codeLines_cons, codeLines_cons, Opcode.size_instruction,
      Opcode.size_instruction]

end Holds

end Chunk

theorem Code.holds_toChunk (code : Code) : code.toChunk.Holds code.toList :=
  ⟨toList_toChunk_code code, toList_toChunk_lines code⟩

end MonkeyLang
