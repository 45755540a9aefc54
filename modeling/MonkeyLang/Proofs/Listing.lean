import Mathlib.Data.List.Forall2
import MonkeyLang.Bytecode.Disassembly
import MonkeyLang.Proofs.Rendering
/-!
# Listings of code

A listing has one line for each step of the code. It is taken apart here as a reader would: into lines at the newlines, each line
into a statement and a remark at the first semicolon, and the statement into words at the blanks. What comes out is what reading
the code step by step gives, whatever the bytes are and whatever the constants are that show up in the remarks.
-/

namespace MonkeyLang

/-! ### Reading code step by step -/

namespace Chunk

/-- The steps from an offset to the end of the code, each with its offset. -/
inductive Decodes (c : Chunk) : Nat → List (Nat × Step) → Prop
  | done {offset} (hend : c.size ≤ offset) : Decodes c offset []
  | unknown {offset byte rest} (hbyte : c.readByte? offset = some byte) (hop : c.readOp? offset = none)
      (hrest : Decodes c (offset + 1) rest) : Decodes c offset ((offset, .unknown byte) :: rest)
  | complete {offset op operands rest} (hop : c.readOp? offset = some op)
      (hoperands : c.readOperands? offset = some operands) (hrest : Decodes c (offset + 1 + op.operandSize) rest) :
      Decodes c offset ((offset, .complete op operands) :: rest)
  | truncated {offset op rest} (hop : c.readOp? offset = some op) (hoperands : c.readOperands? offset = none)
      (hrest : Decodes c (offset + 1 + op.operandSize) rest) : Decodes c offset ((offset, .truncated op) :: rest)

variable {c : Chunk} {offset : Nat}

theorem decodes_stepAt {rest : List (Nat × Step)} (h : offset < c.code.size)
    (hrest : c.Decodes (offset + (c.stepAt offset c.code[offset]).size) rest) :
    c.Decodes offset ((offset, c.stepAt offset c.code[offset]) :: rest) := by
  have hbyte : c.readByte? offset = some c.code[offset] := Array.getElem?_eq_getElem h
  have hop : c.readOp? offset = Opcode.ofByte? c.code[offset] := by rw [readOp?, Array.getElem?_eq_getElem h, Option.bind_some]
  revert hrest
  unfold stepAt
  cases hknown : Opcode.ofByte? c.code[offset] with
  | none => exact fun hrest => .unknown hbyte (hop.trans hknown) hrest
  | some op =>
    have hread : c.readOperands? offset = c.readNumbers? (offset + 1) op.operandWidths := by
      rw [readOperands?, hop, hknown]
      rfl
    cases hoperands : c.readNumbers? (offset + 1) op.operandWidths with
    | none =>
      simp only [hoperands, Step.size, ← Nat.add_assoc]
      exact fun hrest => .truncated (hop.trans hknown) (hread.trans hoperands) hrest
    | some operands =>
      simp only [hoperands, Step.size, ← Nat.add_assoc]
      exact fun hrest => .complete (hop.trans hknown) (hread.trans hoperands) hrest

theorem exists_decodes_stepsFrom (c : Chunk) (found : Array (Nat × Step)) (offset : Nat) :
    ∃ steps, (c.stepsFrom found offset).toList = found.toList ++ steps ∧ c.Decodes offset steps := by
  rw [stepsFrom]
  split
  case isTrue h =>
    obtain ⟨rest, hfound, hrest⟩ := exists_decodes_stepsFrom c (found.push (offset, c.stepAt offset c.code[offset]))
      (offset + (c.stepAt offset c.code[offset]).size)
    refine ⟨(offset, c.stepAt offset c.code[offset]) :: rest, ?_, decodes_stepAt h hrest⟩
    rw [hfound, Array.toList_push, List.append_assoc, List.singleton_append]
  case isFalse h => exact ⟨[], (List.append_nil _).symm, .done (Nat.le_of_not_lt h)⟩
termination_by c.code.size - offset
decreasing_by
  have := (c.stepAt offset c.code[offset]).size_pos
  omega

/-- The steps of a chunk are found by reading opcodes and operands from its start to its end. -/
theorem decodes_steps (c : Chunk) : c.Decodes 0 c.steps := by
  obtain ⟨found, hfound, hdecodes⟩ := c.exists_decodes_stepsFrom #[] 0
  rw [steps, hfound]
  exact hdecodes

theorem readByte?_eq_none_iff : c.readByte? offset = none ↔ c.size < offset + 1 := by
  rw [readByte?, Array.getElem?_eq_none_iff, size]
  omega

theorem readU16?_eq_none_iff : c.readU16? offset = none ↔ c.size < offset + 2 := by
  unfold readU16? size
  by_cases hlow : offset + 1 < c.code.size
  · have hhigh : offset < c.code.size := by omega
    simp only [Array.getElem?_eq_getElem hhigh, Array.getElem?_eq_getElem hlow, Option.bind_eq_bind, Option.bind_some,
      Option.pure_def, reduceCtorEq, false_iff]
    omega
  · have hnone : c.code[offset + 1]? = none := Array.getElem?_eq_none (by omega)
    simp only [hnone, Option.bind_eq_bind, Option.bind_none, Option.bind_fun_none, true_iff]
    omega

theorem readNumbers?_eq_none_iff {widths : List Nat} (hwidths : ∀ width ∈ widths, width = 1 ∨ width = 2)
    (hoffset : offset ≤ c.size) : c.readNumbers? offset widths = none ↔ c.size < offset + widths.foldr Nat.add 0 := by
  induction widths generalizing offset with
  | nil => simp [readNumbers?, hoffset]
  | cons width widths ih =>
    rw [List.forall_mem_cons] at hwidths
    have hbind {first : Option Nat} (hfirst : first = none ↔ c.size < offset + width) :
        (do let value ← first
            let values ← c.readNumbers? (offset + width) widths
            return value :: values) = none ↔ c.size < offset + (width :: widths).foldr Nat.add 0 := by
      rw [List.foldr_cons, Nat.add_eq, ← Nat.add_assoc]
      cases first with
      | none =>
        have hmissing := hfirst.mp rfl
        simp only [Option.bind_eq_bind, Option.bind_none, true_iff]
        omega
      | some value =>
        have hthere : ¬ c.size < offset + width := fun h => Option.some_ne_none _ (hfirst.mpr h)
        rw [← ih hwidths.2 (by omega)]
        cases c.readNumbers? (offset + width) widths <;> simp
    rcases hwidths.1 with rfl | rfl
    · rw [readNumbers?, if_pos rfl]
      exact hbind (by rw [Option.map_eq_none_iff, readByte?_eq_none_iff])
    · rw [readNumbers?, if_neg (by decide)]
      exact hbind readU16?_eq_none_iff

/-- The operands of an instruction are missing if they run past the end of the code. -/
theorem readOperands?_eq_none_iff {op : Opcode} (h : c.readOp? offset = some op) :
    c.readOperands? offset = none ↔ c.size < offset + 1 + op.operandSize := by
  have hwidths : ∀ width ∈ op.operandWidths, width = 1 ∨ width = 2 := by cases op <;> decide
  obtain ⟨byte, hbyte, -⟩ := Option.bind_eq_some_iff.mp h
  obtain ⟨hlt, -⟩ := Array.getElem?_eq_some_iff.mp hbyte
  rw [readOperands?, h]
  exact readNumbers?_eq_none_iff hwidths hlt

end Chunk

/-! ### Lines and words -/

namespace Listing

/-- A line up to the remark in it. -/
def statement (line : List Char) : List Char := line.takeWhile (· != ';')

def remark (line : List Char) : List Char := line.dropWhile (· != ';')

def words (text : List Char) : List (List Char) := (text.splitOn ' ').filter fun word => !word.isEmpty

/-- The words of a line that are not in its remark. -/
def fields (line : List Char) : List (List Char) := words (statement line)

/-- The number that a word stands for, if it has digits only. -/
def number? (word : List Char) : Option Nat :=
  if word.all Char.isDigit then some (Nat.ofDigitChars 10 word 0) else none

/-- The word behind the offset and the source line, unless it is set off as a mark. -/
def name? (line : List Char) : Option (List Char) := (fields line)[2]?.filter fun word => word.head? != some '<'

theorem words_append_blank (xs ys : List Char) : words (xs ++ ' ' :: ys) = words xs ++ words ys := by
  simp only [words, List.splitOn_append_cons_self, List.filter_append]

theorem words_blanks (n : Nat) (xs : List Char) : words (List.replicate n ' ' ++ xs) = words xs := by
  induction n with
  | zero => rfl
  | succ n ih =>
    rw [List.replicate_succ, List.cons_append, ← ih]
    exact words_append_blank [] _

theorem words_of_blank_not_mem {word : List Char} (hne : word ≠ []) (h : ' ' ∉ word) : words word = [word] := by
  simp [words, List.splitOn_eq_singleton h, hne]

theorem number?_padded (n k : Nat) : number? (List.replicate k '0' ++ Nat.toDigits 10 n) = some n := by
  have hdigits : (List.replicate k '0' ++ Nat.toDigits 10 n).all Char.isDigit := by
    rw [List.all_append, Bool.and_eq_true, List.all_eq_true, List.all_eq_true]
    refine ⟨fun c hc => ?_, fun c hc => Nat.isDigit_of_mem_toDigits (by decide) (by decide) hc⟩
    rw [List.eq_of_mem_replicate hc]
    rfl
  rw [number?, if_pos hdigits, Nat.ofDigitChars_append, Nat.ofDigitChars_replicate_zero, Nat.mul_zero,
    Nat.ofDigitChars_ten_toDigits]

theorem number?_toDigits (n : Nat) : number? (Nat.toDigits 10 n) = some n := number?_padded n 0

end Listing

/-! ### What is written for a step -/

theorem digit_of_mem_toDigits {n : Nat} {c : Char} (h : c ∈ Nat.toDigits 10 n) :
    Text.Quoted.isPlain c ∧ c ≠ ';' ∧ c ≠ ' ' := by
  obtain ⟨digit, hlt, rfl⟩ := exists_digit_of_mem_toDigits (by decide) h
  exact ⟨Text.Quoted.isPlain_digitChar (by omega), Nat.digitChar_ne ';' rfl, Nat.digitChar_ne ' ' rfl⟩

theorem Opcode.plain_name (op : Opcode) : op.name.toList ≠ [] ∧ ∀ c ∈ op.name.toList,
    Text.Quoted.isPlain c ∧ c ≠ ';' ∧ c ≠ ' ' ∧ c ≠ '<' := by
  rw [← List.all_iff_forall_prop]
  cases op <;> decide

namespace Step

/-- The mark of a byte that is no opcode, with the byte in two hexadecimal digits. -/
def unknownMark (byte : UInt8) : List Char :=
  ['0', 'x', (byte.toNat / 16).digitChar, (byte.toNat % 16).digitChar, '>']

/-- What is written for a step, a remark apart. -/
def chars : Step → List Char
  | complete op operands => op.name.toList ++ operands.flatMap fun operand => ' ' :: Nat.toDigits 10 operand
  | truncated op => op.name.toList ++ ' ' :: "<truncated>".toList
  | unknown byte => "<unknown".toList ++ ' ' :: unknownMark byte

theorem chars_complete (op : Opcode) (operands : List Nat) : (complete op operands).chars =
    op.name.toList ++ operands.flatMap fun operand => ' ' :: Nat.toDigits 10 operand := rfl

theorem chars_truncated (op : Opcode) : (truncated op).chars = op.name.toList ++ ' ' :: "<truncated>".toList := rfl

theorem chars_unknown (byte : UInt8) : (unknown byte).chars = "<unknown".toList ++ ' ' :: unknownMark byte := rfl

def constant? (pool : ConstantPool) : Step → Option Constant
  | complete .constant (place :: _) => pool.get? place
  | _ => none

/-- Some words say what a step is: the name of the opcode and the operands in decimal, or the name and a mark in place of operands
that run past the end, or a mark with the byte. -/
def Told : Step → List (List Char) → Prop
  | complete op operands, words =>
    ∃ numerals, words = op.name.toList :: numerals ∧ numerals.map Listing.number? = operands.map some
  | truncated op, words => words = [op.name.toList, "<truncated>".toList]
  | unknown byte, words => words = ["<unknown".toList, unknownMark byte]

theorem plain_unknownMark (byte : UInt8) : ∀ c ∈ unknownMark byte, Text.Quoted.isPlain c ∧ c ≠ ';' ∧ c ≠ ' ' := by
  have hlt := byte.toNat_lt
  have hdigit {digit : Nat} (h : digit < 16) :
      Text.Quoted.isPlain digit.digitChar ∧ digit.digitChar ≠ ';' ∧ digit.digitChar ≠ ' ' :=
    ⟨Text.Quoted.isPlain_digitChar h, Nat.digitChar_ne ';' rfl, Nat.digitChar_ne ' ' rfl⟩
  simp only [unknownMark, List.forall_mem_cons, List.not_mem_nil, false_implies, implies_true, and_true]
  exact ⟨by decide, by decide, hdigit (by omega), hdigit (by omega), by decide⟩

theorem plain_chars (step : Step) : ∀ c ∈ step.chars, Text.Quoted.isPlain c ∧ c ≠ ';' := by
  have hname (op : Opcode) {c : Char} (hc : c ∈ op.name.toList) : Text.Quoted.isPlain c ∧ c ≠ ';' :=
    have h := op.plain_name.2 c hc
    ⟨h.1, h.2.1⟩
  have hmarks : ∀ c ∈ ' ' :: "<truncated>".toList ++ "<unknown".toList, Text.Quoted.isPlain c ∧ c ≠ ';' :=
    List.all_iff_forall_prop.mp (by decide)
  intro c hc
  cases step with
  | complete op operands =>
    rcases List.mem_append.mp hc with hc | hc
    · exact hname op hc
    · obtain ⟨operand, -, hc⟩ := List.mem_flatMap.mp hc
      rcases List.mem_cons.mp hc with rfl | hc
      · decide
      · exact ⟨(digit_of_mem_toDigits hc).1, (digit_of_mem_toDigits hc).2.1⟩
  | truncated op =>
    rcases List.mem_append.mp hc with hc | hc
    · exact hname op hc
    · exact hmarks c (List.mem_append_left _ hc)
  | unknown byte =>
    rcases List.mem_append.mp hc with hc | hc
    · exact hmarks c (List.mem_append_right _ hc)
    · rcases List.mem_cons.mp hc with rfl | hc
      · decide
      · exact ⟨(plain_unknownMark byte c hc).1, (plain_unknownMark byte c hc).2.1⟩

theorem words_operands (operands : List Nat) (word : List Char) (hne : word ≠ []) (h : ' ' ∉ word) :
    Listing.words (word ++ operands.flatMap fun operand => ' ' :: Nat.toDigits 10 operand) =
      word :: operands.map (Nat.toDigits 10) := by
  induction operands generalizing word with
  | nil => rw [List.flatMap_nil, List.append_nil, Listing.words_of_blank_not_mem hne h, List.map_nil]
  | cons operand operands ih =>
    rw [List.flatMap_cons, List.cons_append, Listing.words_append_blank, Listing.words_of_blank_not_mem hne h,
      ih _ Nat.toDigits_ne_nil fun hblank => (digit_of_mem_toDigits hblank).2.2 rfl]
    rfl

/-- The words that are written for a step say what it is. -/
theorem told_words_chars (step : Step) : step.Told (Listing.words step.chars) := by
  have hname (op : Opcode) : Listing.words op.name.toList = [op.name.toList] :=
    Listing.words_of_blank_not_mem op.plain_name.1 fun hblank => (op.plain_name.2 _ hblank).2.2.1 rfl
  cases step with
  | complete op operands =>
    have hblank : ' ' ∉ op.name.toList := fun hblank => (op.plain_name.2 _ hblank).2.2.1 rfl
    refine ⟨_, words_operands operands _ op.plain_name.1 hblank, ?_⟩
    rw [List.map_map]
    exact List.map_congr_left fun operand _ => Listing.number?_toDigits operand
  | truncated op =>
    rw [chars_truncated, Listing.words_append_blank, hname]
    rfl
  | unknown byte =>
    have hmark : Listing.words (unknownMark byte) = [unknownMark byte] :=
      Listing.words_of_blank_not_mem (List.cons_ne_nil _ _) fun hblank => (plain_unknownMark byte _ hblank).2.2 rfl
    rw [chars_unknown, Listing.words_append_blank, hmark]
    rfl

namespace Told

variable {step : Step} {words : List (List Char)}

/-- The first word names the opcode, or else is a mark. -/
theorem name (h : step.Told words) :
    (words[0]?.filter fun word => word.head? != some '<') = step.opcode?.map fun op => op.name.toList := by
  have hname (op : Opcode) : (op.name.toList.head? != some '<') = true := by cases op <;> decide
  cases step with
  | complete op operands =>
    obtain ⟨numerals, rfl, -⟩ := h
    exact Option.filter_some_pos (hname op)
  | truncated op =>
    cases h
    exact Option.filter_some_pos (hname op)
  | unknown byte =>
    cases h
    rfl

/-- The second word is the mark of a cut exactly for an instruction that is cut off. -/
theorem cut (h : step.Told words) : words[1]? = some "<truncated>".toList ↔ ∃ op, step = .truncated op := by
  cases step with
  | complete op operands =>
    obtain ⟨numerals, rfl, hnumerals⟩ := h
    -- What follows the name is a numeral, if anything does, and the mark is none.
    refine ⟨fun hmark => ?_, fun ⟨_, hcut⟩ => by cases hcut⟩
    have hnumber := congrArg (·[0]?) hnumerals
    rw [List.getElem?_map, ← List.getElem?_cons_succ (a := op.name.toList), hmark, List.getElem?_map] at hnumber
    have hmark : Listing.number? "<truncated>".toList = none := by decide
    obtain ⟨operand, -, hoperand⟩ := Option.map_eq_some_iff.mp hnumber.symm
    rw [hmark] at hoperand
    cases hoperand
  | truncated op =>
    cases h
    exact ⟨fun _ => ⟨op, rfl⟩, fun _ => rfl⟩
  | unknown byte =>
    cases h
    refine ⟨fun hmark => ?_, fun ⟨_, hcut⟩ => by cases hcut⟩
    exact absurd (List.cons.inj (Option.some.inj hmark)).1 (by decide)

end Told

end Step

/-! ### What is written for an executable -/

namespace Executable

theorem toList_padLeft (width : Nat) (fill : Char) (text : String) :
    (padLeft width fill text).toList = List.replicate (width - text.length) fill ++ text.toList := by
  rw [padLeft, String.toList_append, toList_pushn]
  rfl

theorem toList_decimal (n : Nat) : (toString n).toList = Nat.toDigits 10 n := by
  rw [Nat.toString_eq_ofList_toDigits, String.toList_ofList]

theorem toList_hexByte (byte : UInt8) :
    (hexByte byte).toList = [(byte.toNat / 16).digitChar, (byte.toNat % 16).digitChar] := by
  have hlt := byte.toNat_lt
  rw [hexByte, toList_padLeft, String.toList_ofList, String.length_ofList, Nat.toDigits_eq_if (by decide)]
  by_cases hsmall : byte.toNat < 16
  · rw [if_pos hsmall, Nat.div_eq_of_lt hsmall, Nat.mod_eq_of_lt hsmall]
    rfl
  · rw [if_neg hsmall, Nat.toDigits_of_lt_base (by omega)]
    rfl

/-- What is written behind a step that loads a constant. -/
def remarkChars : Option Constant → List Char
  | some c => ' ' :: ';' :: ' ' :: c.text.toList
  | none => []

theorem toList_foldl_operands (operands : List Nat) (text : String) :
    (operands.foldl (fun text operand => text ++ " " ++ toString operand) text).toList =
      text.toList ++ operands.flatMap fun operand => ' ' :: Nat.toDigits 10 operand := by
  induction operands generalizing text with
  | nil => exact (List.append_nil _).symm
  | cons operand operands ih =>
    rw [List.foldl_cons, ih, String.toList_append, String.toList_append, toList_decimal, List.flatMap_cons]
    simp

theorem loadedConstant?_eq (e : Executable) (op : Opcode) (operands : List Nat) :
    e.loadedConstant? op operands = (Step.complete op operands).constant? e.pool := by
  unfold loadedConstant?
  by_cases hop : op = .constant
  · subst hop
    cases operands <;> rfl
  · rw [if_neg hop]
    cases op with
    | constant => exact absurd rfl hop
    | _ => rfl

theorem toList_stepText (e : Executable) (step : Step) :
    (e.stepText step).toList = step.chars ++ remarkChars (step.constant? e.pool) := by
  cases step with
  | complete op operands =>
    rw [Step.chars_complete, ← toList_foldl_operands]
    simp only [stepText, loadedConstant?_eq, String.toList_append]
    cases (Step.complete op operands).constant? e.pool with
    | none => rfl
    | some c => simp [remarkChars]
  | truncated op => simp [stepText, Step.chars_truncated, Step.constant?, remarkChars]
  | unknown byte => simp [stepText, Step.chars_unknown, Step.constant?, remarkChars, Step.unknownMark, toList_hexByte]

def frontChars (e : Executable) (offset : Nat) : List Char :=
  let line := (e.chunk.lineAt? offset).getD 0
  List.replicate (4 - (toString offset).length) '0' ++ Nat.toDigits 10 offset ++
    ' ' :: (List.replicate (4 - (toString line).length) ' ' ++ Nat.toDigits 10 line)

theorem toList_stepLine (e : Executable) (offset : Nat) (step : Step) : (e.stepLine offset step).toList =
    e.frontChars offset ++ ' ' :: step.chars ++ remarkChars (step.constant? e.pool) := by
  simp only [stepLine, String.toList_append, toList_padLeft, toList_decimal, toList_stepText, frontChars]
  simp

theorem plain_frontChars (e : Executable) (offset : Nat) : ∀ c ∈ e.frontChars offset, Text.Quoted.isPlain c ∧ c ≠ ';' := by
  intro c hc
  have hfill {n : Nat} {fill : Char} (hfill : Text.Quoted.isPlain fill ∧ fill ≠ ';') (hc : c ∈ List.replicate n fill) :
      Text.Quoted.isPlain c ∧ c ≠ ';' := List.eq_of_mem_replicate hc ▸ hfill
  have hdigit {n : Nat} (hc : c ∈ Nat.toDigits 10 n) : Text.Quoted.isPlain c ∧ c ≠ ';' :=
    ⟨(digit_of_mem_toDigits hc).1, (digit_of_mem_toDigits hc).2.1⟩
  simp only [frontChars, List.mem_append, List.mem_cons] at hc
  rcases hc with (hc | hc) | rfl | hc | hc
  · exact hfill (by decide) hc
  · exact hdigit hc
  · decide
  · exact hfill (by decide) hc
  · exact hdigit hc

theorem words_frontChars (e : Executable) (offset : Nat) : Listing.words (e.frontChars offset) =
    [List.replicate (4 - (toString offset).length) '0' ++ Nat.toDigits 10 offset,
      Nat.toDigits 10 ((e.chunk.lineAt? offset).getD 0)] := by
  have hdigits (n : Nat) : ' ' ∉ Nat.toDigits 10 n := fun hblank => (digit_of_mem_toDigits hblank).2.2 rfl
  have hpadded (k n : Nat) : ' ' ∉ List.replicate k '0' ++ Nat.toDigits 10 n := by
    intro hblank
    rcases List.mem_append.mp hblank with hblank | hblank
    · exact absurd (List.eq_of_mem_replicate hblank) (by decide)
    · exact hdigits n hblank
  have hne (k n : Nat) : List.replicate k '0' ++ Nat.toDigits 10 n ≠ [] :=
    List.append_ne_nil_of_right_ne_nil _ Nat.toDigits_ne_nil
  rw [frontChars, Listing.words_append_blank, Listing.words_blanks, Listing.words_of_blank_not_mem (hne _ _) (hpadded _ _),
    Listing.words_of_blank_not_mem Nat.toDigits_ne_nil (hdigits _)]
  rfl

section

variable (e : Executable) (offset : Nat) (step : Step)

theorem statement_not_mem : ∀ c ∈ e.frontChars offset ++ ' ' :: step.chars, (c != ';') = true := by
  intro c hc
  rcases List.mem_append.mp hc with hc | hc
  · simpa using (e.plain_frontChars offset c hc).2
  · rcases List.mem_cons.mp hc with rfl | hc
    · rfl
    · simpa using (step.plain_chars c hc).2

theorem fields_stepLine :
    Listing.fields (e.stepLine offset step).toList = Listing.words (e.frontChars offset) ++ Listing.words step.chars := by
  -- There is no semicolon in front of the remark, and the blank between them makes no word.
  rw [Listing.fields, Listing.statement, toList_stepLine, List.takeWhile_append_of_pos (e.statement_not_mem offset step),
    ← Listing.words_append_blank]
  cases step.constant? e.pool with
  | none => exact congrArg _ (List.append_nil _)
  | some c => exact (Listing.words_append_blank _ []).trans (List.append_nil _)

theorem remark_stepLine : Listing.remark (e.stepLine offset step).toList =
    match step.constant? e.pool with
    | some c => ';' :: ' ' :: c.text.toList
    | none => [] := by
  rw [Listing.remark, toList_stepLine, List.dropWhile_append_of_pos (e.statement_not_mem offset step)]
  cases step.constant? e.pool <;> rfl

/-- The constants have no influence on what a line has in front of its remark. -/
theorem fields_stepLine_pool (pool : ConstantPool) :
    Listing.fields ((⟨e.chunk, pool⟩ : Executable).stepLine offset step).toList =
      Listing.fields (e.stepLine offset step).toList := by
  rw [fields_stepLine, fields_stepLine]
  rfl

end

end Executable

theorem Constant.plain_text (c : Constant) : ∀ d ∈ c.text.toList, Text.Quoted.isPlain d := by
  intro d hd
  cases c with
  | string value => exact Text.Quoted.isPlain_of_mem_encode hd
  | int value =>
    have hnat {n : Nat} (hd : d ∈ n.repr.toList) : Text.Quoted.isPlain d := by
      rw [Nat.repr_eq_ofList_toDigits, String.toList_ofList] at hd
      exact (digit_of_mem_toDigits hd).1
    change d ∈ (toString value.toInt).toList at hd
    cases hvalue : value.toInt with
    | ofNat n =>
      rw [hvalue] at hd
      exact hnat hd
    | negSucc n =>
      rw [hvalue] at hd
      change d ∈ ("-" ++ (n + 1).repr).toList at hd
      rw [String.toList_append, List.mem_append] at hd
      rcases hd with hd | hd
      · exact List.mem_singleton.mp hd ▸ by decide
      · exact hnat hd

/-! ### Listings -/

theorem Chunk.Decodes.truncated_iff {c : Chunk} {offset : Nat} {steps : List (Nat × Step)} (h : c.Decodes offset steps) :
    ∀ s ∈ steps, (∃ op, s.2 = .truncated op) ↔
      ∃ op, c.readOp? s.1 = some op ∧ c.size < s.1 + 1 + op.operandSize := by
  induction h with
  | done => exact fun s hs => absurd hs List.not_mem_nil
  | unknown _ hop _ ih =>
    refine List.forall_mem_cons.mpr ⟨⟨fun ⟨_, hcut⟩ => (by cases hcut), ?_⟩, ih⟩
    rintro ⟨op, hop', -⟩
    cases hop.symm.trans hop'
  | complete hop hoperands _ ih =>
    refine List.forall_mem_cons.mpr ⟨⟨fun ⟨_, hcut⟩ => (by cases hcut), ?_⟩, ih⟩
    rintro ⟨op, hop', hpast⟩
    rw [← readOperands?_eq_none_iff hop', hoperands] at hpast
    cases hpast
  | truncated hop hoperands _ ih =>
    exact List.forall_mem_cons.mpr
      ⟨⟨fun _ => ⟨_, hop, (readOperands?_eq_none_iff hop).mp hoperands⟩, fun _ => ⟨_, rfl⟩⟩, ih⟩

namespace Executable

/-- A line shows a step: its offset, its source line, what it is, and the constant that it loads as a remark. There is a mark in
place of the operands if these run past the end of the code. -/
structure Shows (e : Executable) (s : Nat × Step) (line : List Char) : Prop where
  offset : (Listing.fields line)[0]?.bind Listing.number? = some s.1
  sourceLine : (Listing.fields line)[1]?.bind Listing.number? = some ((e.chunk.lineAt? s.1).getD 0)
  step : s.2.Told ((Listing.fields line).drop 2)
  cut : (Listing.fields line)[3]? = some "<truncated>".toList ↔
    ∃ op, e.chunk.readOp? s.1 = some op ∧ e.chunk.size < s.1 + 1 + op.operandSize
  remark : Listing.remark line =
    match s.2.constant? e.pool with
    | some c => ';' :: ' ' :: c.text.toList
    | none => []

theorem shows_stepLine {e : Executable} {s : Nat × Step} (hs : s ∈ e.chunk.steps) : e.Shows s (e.stepLine s.1 s.2).toList := by
  have hfields := e.fields_stepLine s.1 s.2
  rw [words_frontChars] at hfields
  have htold : s.2.Told ((Listing.fields (e.stepLine s.1 s.2).toList).drop 2) := by
    rw [hfields]
    exact s.2.told_words_chars
  constructor
  · rw [hfields, List.cons_append, List.getElem?_cons_zero, Option.bind_some, Listing.number?_padded]
  · rw [hfields, List.cons_append, List.cons_append, List.getElem?_cons_succ, List.getElem?_cons_zero, Option.bind_some,
      Listing.number?_toDigits]
  · exact htold
  · rw [← e.chunk.decodes_steps.truncated_iff s hs, ← htold.cut, List.getElem?_drop]
  · exact e.remark_stepLine s.1 s.2

theorem Shows.name?_eq {e : Executable} {s : Nat × Step} {line : List Char} (h : e.Shows s line) :
    Listing.name? line = s.2.opcode?.map fun op => op.name.toList := by
  rw [← h.step.name, List.getElem?_drop, Nat.add_zero, Listing.name?]

theorem plain_stepLine (e : Executable) (offset : Nat) (step : Step) :
    ∀ c ∈ (e.stepLine offset step).toList, Text.Quoted.isPlain c := by
  intro c hc
  rw [toList_stepLine, List.mem_append, List.mem_append, List.mem_cons] at hc
  rcases hc with (hc | rfl | hc) | hc
  · exact (e.plain_frontChars offset c hc).1
  · decide
  · exact (step.plain_chars c hc).1
  · cases hconstant : step.constant? e.pool with
    | none =>
      rw [hconstant] at hc
      cases hc
    | some constant =>
      have hremark : ∀ d ∈ [' ', ';', ' '], Text.Quoted.isPlain d := List.all_eq_true.mp (by decide)
      rw [hconstant] at hc
      rcases List.mem_append.mp (show c ∈ [' ', ';', ' '] ++ constant.text.toList from hc) with hc | hc
      · exact hremark c hc
      · exact constant.plain_text c hc

theorem toList_disassemble (e : Executable) :
    e.disassemble.toList = (e.disassemblyLines.map String.toList).flatMap (· ++ ['\n']) := by
  have hfold (lines : List String) (text : String) : (lines.foldl (fun text line => text ++ line ++ "\n") text).toList =
      text.toList ++ (lines.map String.toList).flatMap (· ++ ['\n']) := by
    induction lines generalizing text with
    | nil => exact (List.append_nil _).symm
    | cons line lines ih =>
      rw [List.foldl_cons, ih, String.toList_append, String.toList_append, List.map_cons, List.flatMap_cons]
      simp
  exact hfold e.disassemblyLines ""

/-- The text of a listing is split at its newlines into the lines of the steps. -/
theorem splitOn_disassemble (e : Executable) :
    e.disassemble.toList.splitOn '\n' = e.chunk.steps.map (fun s => (e.stepLine s.1 s.2).toList) ++ [[]] := by
  rw [toList_disassemble, disassemblyLines, List.map_map, splitOn_lines]
  · rfl
  · intro line hline
    obtain ⟨s, -, rfl⟩ := List.mem_map.mp hline
    exact Text.Quoted.newline_not_mem (e.plain_stepLine s.1 s.2)

end Executable

/-- The listing of any code with any constants has one line for each step of reading the code, in order, each ended by a newline,
and each line shows its step. The names in it are those of the opcodes of the code. No constant breaks a line, in whatever way
lines may be broken, and with other constants a listing differs in the remarks only. -/
theorem disassembly_faithful (e : Executable) : ∃ steps lines,
    e.chunk.Decodes 0 steps ∧ e.disassemble.toList.splitOn '\n' = lines ++ [[]] ∧ List.Forall₂ e.Shows steps lines ∧
      lines.filterMap Listing.name? = e.chunk.opcodes.map (fun op => op.name.toList) ∧
      (∀ line ∈ lines, ∀ c ∈ line, c ∉ Text.Quoted.lineBreaks) ∧
      ∀ pool, ((⟨e.chunk, pool⟩ : Executable).disassemble.toList.splitOn '\n').map Listing.fields =
        (lines ++ [[]]).map Listing.fields := by
  refine ⟨e.chunk.steps, _, e.chunk.decodes_steps, e.splitOn_disassemble, ?_, ?_, ?_, fun pool => ?_⟩
  · rw [List.forall₂_map_right_iff, List.forall₂_same]
    exact fun s hs => Executable.shows_stepLine hs
  · rw [List.filterMap_map, Chunk.opcodes_eq, List.map_filterMap]
    refine List.filterMap_congr fun s hs => ?_
    rw [Function.comp_apply, (Executable.shows_stepLine hs).name?_eq]
  · intro line hline c hc
    obtain ⟨s, -, rfl⟩ := List.mem_map.mp hline
    exact Text.Quoted.not_mem_lineBreaks (e.plain_stepLine s.1 s.2 c hc)
  · rw [Executable.splitOn_disassemble, List.map_append, List.map_append, List.append_cancel_right_eq, List.map_map,
      List.map_map]
    refine List.map_congr_left fun s _ => ?_
    rw [Function.comp_apply, Function.comp_apply, e.fields_stepLine_pool]

example : (⟨.ofCode #[0, 0, 0, 99, 17, 0], .ofList [.string "a\n; b"]⟩ : Executable).disassemblyLines =
    ["0000    0 CONSTANT 0 ; \"a\\n; b\"", "0003    0 <unknown 0x63>", "0004    0 JUMP <truncated>"] := by
  decide +kernel

end MonkeyLang
