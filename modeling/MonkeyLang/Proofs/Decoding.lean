import MonkeyLang.Proofs.Instruction
/-!
# Decoding code

Code is a sequence of instructions, and a chunk a sequence of bytes. Reading the chunk of some code from the front gives
back the instructions of the code, each at its offset and with its operands: no step is cut off by the end, and none is
a byte without a meaning. What is known of instructions at offsets is therefore known of the steps of a chunk, which is
how the rest of the theory speaks of bytes.
-/

namespace MonkeyLang

theorem toNat_ofNat_word {n : Nat} (h : n < 65536) : (UInt16.ofNat n).toNat = n :=
  UInt16.toNat_ofNat_of_lt' h

theorem toNat_ofNat_byte {n : Nat} (h : n < 256) : (UInt8.ofNat n).toNat = n :=
  UInt8.toNat_ofNat_of_lt' h

/-! ### Numbers in bytes -/

theorem word_of_bytes (value : UInt16) :
    256 * (Chunk.highByte value).toNat + (Chunk.lowByte value).toNat = value.toNat := by
  have hlt := value.toNat_lt
  simp only [Chunk.highByte, Chunk.lowByte, UInt16.toNat_toUInt8, UInt16.toNat_shiftRight]
  have hshift : value.toNat >>> (UInt16.toNat 8 % 16) = value.toNat / 256 := by
    rw [Nat.shiftRight_eq_div_pow]
    rfl
  rw [hshift]
  omega

namespace Instruction

/-- The operands in the order in which they are stored. -/
def operands : Instruction → List Nat
  | constant n | jump n | jumpIfFalse n | getGlobal n | setGlobal n | array n | hash n => [n.toNat]
  | getLocal n | setLocal n | getBuiltin n | getFree n | call n => [n.toNat]
  | closure entry params locals free => [entry.toNat, params.toNat, locals.toNat, free.toNat]
  | bool _ | null | pop | binary _ | unary _ | currentClosure | index | returnValue | returnNull => []

theorem size_eq (i : Instruction) : i.size =
    match i with
    | constant _ | jump _ | jumpIfFalse _ | getGlobal _ | setGlobal _ | array _ | hash _ => 3
    | getLocal _ | setLocal _ | getBuiltin _ | getFree _ | call _ => 2
    | closure .. => 6
    | bool _ | null | pop | binary _ | unary _ | currentClosure | index | returnValue | returnNull => 1 := by
  cases i with
  | bool value => cases value <;> rfl
  | binary op => cases op <;> rfl
  | unary op => cases op <;> rfl
  | _ => rfl

theorem size_pos (i : Instruction) : 0 < i.size := by
  simp only [size]
  omega

end Instruction

/-! ### Code at offsets -/

def codeSize : List CodeLine → Nat
  | [] => 0
  | c :: rest => c.instruction.size + codeSize rest

@[simp] theorem codeSize_nil : codeSize [] = 0 := rfl

@[simp] theorem codeSize_cons (c : CodeLine) (rest : List CodeLine) :
    codeSize (c :: rest) = c.instruction.size + codeSize rest := rfl

@[simp] theorem codeSize_append (code rest : List CodeLine) :
    codeSize (code ++ rest) = codeSize code + codeSize rest := by
  induction code with
  | nil => simp
  | cons c code ih => simp [ih, Nat.add_assoc]

/-- The instructions of code that starts at an offset, each with its own offset. -/
def located (offset : Nat) : List CodeLine → List (Nat × Instruction)
  | [] => []
  | c :: rest => (offset, c.instruction) :: located (offset + c.instruction.size) rest

@[simp] theorem located_nil (offset : Nat) : located offset [] = [] := rfl

@[simp] theorem located_cons (offset : Nat) (c : CodeLine) (rest : List CodeLine) :
    located offset (c :: rest) = (offset, c.instruction) :: located (offset + c.instruction.size) rest := rfl

theorem located_append (offset : Nat) (code rest : List CodeLine) :
    located offset (code ++ rest) = located offset code ++ located (offset + codeSize code) rest := by
  induction code generalizing offset with
  | nil => simp
  | cons c code ih => simp [ih, Nat.add_assoc]

/-- An instruction lies in the code it belongs to. -/
theorem exists_split_of_mem_located {offset place : Nat} {code : List CodeLine} {i : Instruction}
    (h : (place, i) ∈ located offset code) :
    ∃ front line back, code = front ++ ⟨line, i⟩ :: back ∧ place = offset + codeSize front := by
  induction code generalizing offset with
  | nil => simp at h
  | cons c code ih =>
    rw [located_cons, List.mem_cons] at h
    rcases h with h | h
    · obtain ⟨rfl, rfl⟩ := Prod.mk.inj h
      exact ⟨[], c.line, code, rfl, rfl⟩
    · obtain ⟨front, line, back, rfl, hplace⟩ := ih h
      exact ⟨c :: front, line, back, rfl, by rw [hplace, codeSize_cons, Nat.add_assoc]⟩

theorem exists_line_of_mem_located {offset place : Nat} {code : List CodeLine} {i : Instruction}
    (h : (place, i) ∈ located offset code) : ∃ l ∈ code, i = l.instruction := by
  obtain ⟨front, line, back, rfl, -⟩ := exists_split_of_mem_located h
  exact ⟨⟨line, i⟩, by simp, rfl⟩

theorem bounds_of_mem_located {offset place : Nat} {code : List CodeLine} {i : Instruction}
    (h : (place, i) ∈ located offset code) : offset ≤ place ∧ place + i.size ≤ offset + codeSize code := by
  obtain ⟨front, line, back, rfl, hplace⟩ := exists_split_of_mem_located h
  rw [codeSize_append, codeSize_cons]
  dsimp only
  omega

/-- There is one instruction at an offset. -/
theorem located_inj {offset place : Nat} {code : List CodeLine} {i j : Instruction}
    (hi : (place, i) ∈ located offset code) (hj : (place, j) ∈ located offset code) : i = j := by
  induction code generalizing offset with
  | nil => simp at hi
  | cons c code ih =>
    have hpos := c.instruction.size_pos
    rw [located_cons, List.mem_cons] at hi hj
    rcases hi with hi | hi <;> rcases hj with hj | hj
    · exact (Prod.mk.inj hi).2.trans (Prod.mk.inj hj).2.symm
    · have := (bounds_of_mem_located hj).1
      have := (Prod.mk.inj hi).1
      omega
    · have := (bounds_of_mem_located hi).1
      have := (Prod.mk.inj hj).1
      omega
    · exact ih hi hj

/-! ### Pieces of code -/

/-- Some code is at an offset of the whole. -/
def CodeAt (whole : List CodeLine) (offset : Nat) (code : List CodeLine) : Prop :=
  ∃ front back, whole = front ++ code ++ back ∧ offset = codeSize front

namespace CodeAt

variable {whole c d : List CodeLine} {offset middle : Nat}

theorem left (h : CodeAt whole offset (c ++ d)) : CodeAt whole offset c := by
  obtain ⟨front, back, rfl, hoffset⟩ := h
  exact ⟨front, d ++ back, by simp, hoffset⟩

theorem right (h : CodeAt whole offset (c ++ d)) (hmiddle : middle = offset + codeSize c) : CodeAt whole middle d := by
  obtain ⟨front, back, rfl, hoffset⟩ := h
  exact ⟨front ++ c, back, by simp, by rw [hmiddle, hoffset, codeSize_append]⟩

theorem located_eq (h : CodeAt whole offset c) : ∃ before behind,
    located 0 whole = located 0 before ++ located offset c ++ located (offset + codeSize c) behind ∧
      offset = codeSize before := by
  obtain ⟨front, back, rfl, hoffset⟩ := h
  refine ⟨front, back, ?_, hoffset⟩
  rw [located_append, located_append, Nat.zero_add, codeSize_append, Nat.zero_add, hoffset]

theorem mem_located (h : CodeAt whole offset c) {place : Nat} {i : Instruction} (hi : (place, i) ∈ located offset c) :
    (place, i) ∈ located 0 whole := by
  obtain ⟨before, behind, heq, -⟩ := h.located_eq
  rw [heq]
  exact List.mem_append_left _ (List.mem_append_right _ hi)

/-- What is located in the range of some code belongs to it. -/
theorem mem_of_bounds (h : CodeAt whole offset c) {place : Nat} {i : Instruction} (hi : (place, i) ∈ located 0 whole)
    (hle : offset ≤ place) (hlt : place < offset + codeSize c) : (place, i) ∈ located offset c := by
  obtain ⟨before, behind, heq, hoffset⟩ := h.located_eq
  have hpos := i.size_pos
  rw [heq, List.mem_append, List.mem_append] at hi
  rcases hi with (hi | hi) | hi
  · have := bounds_of_mem_located hi
    omega
  · exact hi
  · have := bounds_of_mem_located hi
    omega

end CodeAt

/-! ### The bytes of code -/

def codeBytes (code : List CodeLine) : List UInt8 := code.flatMap fun c => c.instruction.bytes

theorem length_codeBytes (code : List CodeLine) : (codeBytes code).length = codeSize code := by
  induction code with
  | nil => rfl
  | cons c code ih =>
    rw [codeBytes, List.flatMap_cons, List.length_append, Instruction.length_bytes, codeSize_cons]
    exact congrArg _ ih

theorem code_foldl_writeByte (chunk : Chunk) (bytes : List UInt8) (line : Nat) :
    (bytes.foldl (fun chunk byte => chunk.writeByte byte line) chunk).code.toList = chunk.code.toList ++ bytes := by
  induction bytes generalizing chunk with
  | nil => simp
  | cons byte bytes ih =>
    rw [List.foldl_cons, ih]
    simp [Chunk.writeByte]

theorem code_foldl_writeTo (chunk : Chunk) (code : List CodeLine) :
    (code.foldl Code.writeTo chunk).code.toList = chunk.code.toList ++ codeBytes code := by
  induction code generalizing chunk with
  | nil => simp [codeBytes]
  | cons c code ih =>
    rw [List.foldl_cons, ih, Code.writeTo, code_foldl_writeByte]
    simp [codeBytes]

theorem toList_toChunk_code (code : Code) : code.toChunk.code.toList = codeBytes code.toList := by
  rw [Code.toChunk, ← Array.foldl_toList, code_foldl_writeTo]
  simp

theorem size_toChunk (code : Code) : code.toChunk.size = codeSize code.toList := by
  rw [Chunk.size, ← Array.length_toList, toList_toChunk_code, length_codeBytes]

/-! ### Reading an instruction back -/

theorem Chunk.getElem?_of_bytes {c : Chunk} {offset : Nat} (front : List UInt8) (byte : UInt8) (back : List UInt8)
    (hcode : c.code.toList = front ++ byte :: back) (hoffset : offset = front.length) :
    c.code[offset]? = some byte := by
  rw [← Array.getElem?_toList, hcode, hoffset]
  simp

theorem Chunk.readU16?_of_bytes {c : Chunk} {offset : Nat} (front : List UInt8) (value : UInt16) (back : List UInt8)
    (hcode : c.code.toList = front ++ Instruction.wordBytes value ++ back) (hoffset : offset = front.length) :
    c.readU16? offset = some value.toNat := by
  have hhigh : c.code[offset]? = some (highByte value) :=
    getElem?_of_bytes front (highByte value) (lowByte value :: back)
      (by simpa [Instruction.wordBytes] using hcode) hoffset
  have hlow : c.code[offset + 1]? = some (lowByte value) :=
    getElem?_of_bytes (front ++ [highByte value]) (lowByte value) back
      (by simpa [Instruction.wordBytes] using hcode) (by simp [hoffset])
  simp only [readU16?, hhigh, hlow, Option.bind_eq_bind, Option.bind_some, Option.pure_def, word_of_bytes]

/-- The operands of an instruction are read back from its bytes. -/
theorem Chunk.readNumbers?_of_bytes {c : Chunk} {front back : List UInt8} (i : Instruction)
    (hcode : c.code.toList = front ++ i.bytes ++ back) :
    c.readNumbers? (front.length + 1) i.opcode.operandWidths = some i.operands := by
  -- An instruction with one operand of two bytes, and one with one operand of one byte.
  have hword {n : UInt16} (hbytes : i.operandBytes = Instruction.wordBytes n) :
      c.readNumbers? (front.length + 1) [2] = some [n.toNat] := by
    have hread : c.readU16? (front.length + 1) = some n.toNat :=
      readU16?_of_bytes (front ++ [i.opcode.toByte]) n back
        (by simpa [Instruction.bytes, hbytes] using hcode) (by simp)
    simp [readNumbers?, hread]
  have hbyte {n : UInt8} (hbytes : i.operandBytes = [n]) :
      c.readNumbers? (front.length + 1) [1] = some [n.toNat] := by
    have hread : c.code[front.length + 1]? = some n :=
      getElem?_of_bytes (front ++ [i.opcode.toByte]) n back
        (by simpa [Instruction.bytes, hbytes] using hcode) (by simp)
    simp [readNumbers?, readByte?, hread]
  cases i with
  | constant n | jump n | jumpIfFalse n | getGlobal n | setGlobal n | array n | hash n => exact hword rfl
  | getLocal n | setLocal n | getBuiltin n | getFree n | call n => exact hbyte rfl
  | bool value => cases value <;> rfl
  | binary op => cases op <;> rfl
  | unary op => cases op <;> rfl
  | null | pop | currentClosure | index | returnValue | returnNull => rfl
  | closure entry params locals free =>
    have hbytes : (Instruction.closure entry params locals free).bytes =
        Opcode.closure.toByte :: (Instruction.wordBytes entry ++ [params, locals, free]) := rfl
    rw [hbytes] at hcode
    have hentry : c.readU16? (front.length + 1) = some entry.toNat :=
      readU16?_of_bytes (front ++ [Opcode.closure.toByte]) entry ([params, locals, free] ++ back)
        (by simpa using hcode) (by simp)
    have hparams : c.code[front.length + 1 + 2]? = some params :=
      getElem?_of_bytes (front ++ [Opcode.closure.toByte] ++ Instruction.wordBytes entry) params
        ([locals, free] ++ back) (by simpa using hcode) (by simp [Instruction.wordBytes])
    have hlocals : c.code[front.length + 1 + 2 + 1]? = some locals :=
      getElem?_of_bytes (front ++ [Opcode.closure.toByte] ++ Instruction.wordBytes entry ++ [params]) locals
        (free :: back) (by simpa using hcode) (by simp [Instruction.wordBytes])
    have hfree : c.code[front.length + 1 + 2 + 1 + 1]? = some free :=
      getElem?_of_bytes (front ++ [Opcode.closure.toByte] ++ Instruction.wordBytes entry ++ [params, locals]) free
        back (by simpa using hcode) (by simp [Instruction.wordBytes])
    simp [Instruction.opcode, Opcode.operandWidths, Instruction.operands, readNumbers?, readByte?, hentry, hparams,
      hlocals, hfree]

def Instruction.step (i : Instruction) : Step := .complete i.opcode i.operands

theorem Instruction.size_step (i : Instruction) : i.step.size = i.size := rfl

theorem Chunk.readOp?_of_bytes {c : Chunk} {front back : List UInt8} (i : Instruction)
    (hcode : c.code.toList = front ++ i.bytes ++ back) : c.readOp? front.length = some i.opcode := by
  have hbyte : c.code[front.length]? = some i.opcode.toByte :=
    getElem?_of_bytes front i.opcode.toByte (i.operandBytes ++ back) (by simpa [Instruction.bytes] using hcode) rfl
  rw [readOp?, hbyte, Option.bind_some, Opcode.ofByte?_toByte]

theorem Chunk.readOperands?_of_bytes {c : Chunk} {front back : List UInt8} (i : Instruction)
    (hcode : c.code.toList = front ++ i.bytes ++ back) : c.readOperands? front.length = some i.operands := by
  rw [readOperands?, readOp?_of_bytes i hcode]
  exact readNumbers?_of_bytes i hcode

theorem Chunk.stepAt_of_bytes {c : Chunk} {front back : List UInt8} (i : Instruction)
    (hcode : c.code.toList = front ++ i.bytes ++ back) : c.stepAt front.length i.opcode.toByte = i.step := by
  rw [stepAt, Opcode.ofByte?_toByte]
  simp only [readNumbers?_of_bytes i hcode, Instruction.step]

/-! ### Reading code back -/

theorem Chunk.stepsFrom_of_bytes {c : Chunk} (found : Array (Nat × Step)) (front : List UInt8) (code : List CodeLine)
    (hcode : c.code.toList = front ++ codeBytes code) :
    (c.stepsFrom found front.length).toList =
      found.toList ++ (located front.length code).map fun s => (s.1, s.2.step) := by
  induction code generalizing front found with
  | nil =>
    have hsize : c.code.size = front.length := by
      rw [← Array.length_toList, hcode]
      simp [codeBytes]
    rw [stepsFrom, dif_neg (by omega)]
    simp
  | cons line code ih =>
    have hsplit : c.code.toList = front ++ line.instruction.bytes ++ codeBytes code := by
      simpa [codeBytes] using hcode
    have hfirst : c.code[front.length]? = some line.instruction.opcode.toByte :=
      getElem?_of_bytes front line.instruction.opcode.toByte (line.instruction.operandBytes ++ codeBytes code)
        (by simpa [Instruction.bytes] using hsplit) rfl
    obtain ⟨hlt, hbyte⟩ := Array.getElem?_eq_some_iff.mp hfirst
    rw [stepsFrom, dif_pos hlt]
    simp only [hbyte, stepAt_of_bytes line.instruction hsplit, Instruction.size_step]
    have hlength : (front ++ line.instruction.bytes).length = front.length + line.instruction.size := by
      rw [List.length_append, Instruction.length_bytes]
    rw [← hlength, ih _ _ hsplit, located_cons]
    simp [hlength]

/-- The steps of a chunk are the instructions of its code. -/
theorem steps_toChunk (code : Code) :
    code.toChunk.steps = (located 0 code.toList).map fun s => (s.1, s.2.step) := by
  have h := Chunk.stepsFrom_of_bytes #[] [] code.toList (by simpa using toList_toChunk_code code)
  simpa [Chunk.steps] using h

theorem mem_steps_toChunk {code : Code} {offset : Nat} {step : Step} :
    (offset, step) ∈ code.toChunk.steps ↔ ∃ i, (offset, i) ∈ located 0 code.toList ∧ step = i.step := by
  rw [steps_toChunk, List.mem_map]
  constructor
  · rintro ⟨⟨place, i⟩, hmem, heq⟩
    obtain ⟨rfl, rfl⟩ := Prod.mk.inj heq
    exact ⟨i, hmem, rfl⟩
  · rintro ⟨i, hmem, rfl⟩
    exact ⟨(offset, i), hmem, rfl⟩

/-- The instructions of code are read where they are located. -/
theorem read_toChunk {code : Code} {offset : Nat} {i : Instruction} (h : (offset, i) ∈ located 0 code.toList) :
    code.toChunk.readOp? offset = some i.opcode ∧ code.toChunk.readOperands? offset = some i.operands := by
  obtain ⟨front, line, back, hcode, hoffset⟩ := exists_split_of_mem_located h
  have hbytes : code.toChunk.code.toList = codeBytes front ++ i.bytes ++ codeBytes back := by
    rw [toList_toChunk_code, hcode]
    simp [codeBytes]
  rw [Nat.zero_add, ← length_codeBytes] at hoffset
  rw [hoffset]
  exact ⟨Chunk.readOp?_of_bytes i hbytes, Chunk.readOperands?_of_bytes i hbytes⟩

theorem place_lt_of_mem_located {code : Code} {offset : Nat} {i : Instruction}
    (h : (offset, i) ∈ located 0 code.toList) : offset < code.toChunk.size := by
  have hbounds := bounds_of_mem_located h
  have hpos := i.size_pos
  rw [size_toChunk]
  omega

end MonkeyLang
