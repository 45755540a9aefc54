import Mathlib.Data.List.Forall2
import MonkeyLang.Proofs.Resources
/-!
# Emission

An emitter is called again and again: each call asks for an instruction, patches a jump or sets the line, and may be refused.
`Emission` is a run of such calls, and `emitted` says which instructions were asked for in it, at which offset, with which
operands and on which line. A jump has the target that it was patched with last. Reading the finished chunk gives back exactly
these instructions.

`Turn.effect` says what a call can do. That a patch changes one instruction and no other rests on the offsets, which only grow.
-/

namespace MonkeyLang

/-! ### Instructions by opcode and operands -/

namespace Opcode

/-- Operands fit an opcode: there is one for each width, and it fits that many bytes. -/
def Takes (op : Opcode) (operands : List Nat) : Prop :=
  List.Forall₂ (fun width operand => operand < Nat.pow 256 width) op.operandWidths operands

theorem takes_nil {op : Opcode} (h : op.operandWidths = []) : op.Takes [] := by
  rw [Takes, h]
  exact .nil

theorem takes_byte {op : Opcode} {operand : Nat} (h : op.operandWidths = [1]) (hoperand : operand < 256) :
    op.Takes [operand] := by
  rw [Takes, h]
  exact .cons hoperand .nil

theorem takes_word {op : Opcode} {operand : Nat} (h : op.operandWidths = [2]) (hoperand : operand < 65536) :
    op.Takes [operand] := by
  rw [Takes, h]
  exact .cons hoperand .nil

/-- Operands that fit are kept as they are. -/
theorem operands_instruction {op : Opcode} {operands : List Nat} (h : op.Takes operands) :
    (op.instruction operands).operands = operands := by
  cases op with
  | constant | jump | jumpIfFalse | getGlobal | setGlobal | array | hash =>
    obtain _ | ⟨hoperand, _ | _⟩ := h
    exact congrArg (· :: []) (toNat_ofNat_word hoperand)
  | getLocal | setLocal | getBuiltin | getFree | call =>
    obtain _ | ⟨hoperand, _ | _⟩ := h
    exact congrArg (· :: []) (toNat_ofNat_byte hoperand)
  | closure =>
    obtain _ | ⟨hentry, _ | ⟨hparams, _ | ⟨hlocals, _ | ⟨hfree, _ | _⟩⟩⟩⟩ := h
    simp only [instruction, Instruction.operands, List.getD_cons_zero, List.getD_cons_succ]
    rw [toNat_ofNat_word hentry, toNat_ofNat_byte hparams, toNat_ofNat_byte hlocals, toNat_ofNat_byte hfree]
  | _ =>
    obtain _ | _ := h
    rfl

end Opcode

/-! ### Calls -/

inductive EmitterCall where
  | setLine (line : Nat)
  | emit (op : Opcode)
  | emitBool (value : Bool)
  | emitByte (op : Opcode) (operand : Nat)
  | emitWord (op : Opcode) (operand : Nat)
  | emitConstant (c : Constant)
  | emitJump (op : Opcode)
  | patchJump (label : JumpLabel)
  | emitClosure (entry params locals free : Nat)
  | emitCall (args : Nat)
deriving DecidableEq

namespace EmitterCall

/-- The answer of an emitter to a call, which is a label if a jump was asked for, and the emitter behind it. -/
def run (e : Emitter) : EmitterCall → Except GenerationError (Option JumpLabel) × Emitter
  | setLine line => (.ok none, e.setLine line)
  | emit op => (.ok none, e.emit op)
  | emitBool value => (.ok none, e.emitBool value)
  | emitByte op operand => noLabel (e.emitByte op operand)
  | emitWord op operand => noLabel (e.emitWord op operand)
  | emitConstant c => noLabel (e.emitConstant c)
  | emitJump op => (.ok (some (e.emitJump op).1), (e.emitJump op).2)
  | patchJump label => noLabel (e.patchJump label)
  | emitClosure entry params locals free => noLabel (e.emitClosure entry params locals free)
  | emitCall args => noLabel (e.emitCall args)
where
  noLabel (r : Except GenerationError Unit × Emitter) : Except GenerationError (Option JumpLabel) × Emitter :=
    (r.1.map fun _ => none, r.2)

/-- What is asked of those who call: an opcode has the operands that it is emitted with, and a label comes from this emitter. -/
def Allowed (issued : List JumpLabel) : EmitterCall → Prop
  | emit op => op.operandWidths = []
  | emitByte op _ => op.operandWidths = [1]
  | emitWord op _ | emitJump op => op.operandWidths = [2]
  | patchJump label => label ∈ issued
  | setLine _ | emitBool _ | emitConstant _ | emitClosure .. | emitCall _ => True

/-- The opcode and the operands that a call asks for. A jump has the target that is given for its label. -/
def asks? (target : JumpLabel → Nat) (e : Emitter) : EmitterCall → Option (Opcode × List Nat)
  | setLine _ | patchJump _ => none
  | emit op => some (op, [])
  | emitBool value => some (if value then .pushTrue else .pushFalse, [])
  | emitByte op operand | emitWord op operand => some (op, [operand])
  | emitConstant c => some (.constant, [(e.pool.add c).1])
  | emitJump op => some (op, [target (e.emitJump op).1])
  | emitClosure entry params locals free => some (.closure, [entry, params, locals, free])
  | emitCall args => some (.call, [args])

end EmitterCall

structure Emitted where
  offset : Nat
  op : Opcode
  operands : List Nat
  line : Nat
deriving DecidableEq

def Emitted.codeLine (i : Emitted) : CodeLine := ⟨i.line, i.op.instruction i.operands⟩

/-- A call, with the emitter that it is made to. -/
structure Turn where
  before : Emitter
  call : EmitterCall

namespace Turn

def answer (t : Turn) : Except GenerationError (Option JumpLabel) := (t.call.run t.before).1

def after (t : Turn) : Emitter := (t.call.run t.before).2

def label? (t : Turn) : Option JumpLabel := t.answer.toOption.join

/-- The instruction that is emitted in a turn, where the targets of labels are given. -/
def emitted? (target : JumpLabel → Nat) (t : Turn) : Option Emitted :=
  if t.answer.isOk then
    (t.call.asks? target t.before).map fun i => ⟨t.before.offset, i.1, i.2, t.before.line⟩
  else
    none

/-- The target that a label gets in a turn. -/
def patched? (label : JumpLabel) (t : Turn) : Option Nat :=
  if t.call = .patchJump label ∧ t.answer.isOk then some t.before.offset else none

section

variable {t : Turn} {label : Option JumpLabel} {cause : GenerationError}

theorem label?_of_ok (h : t.answer = .ok label) : t.label? = label := by
  rw [label?, h]
  rfl

theorem label?_of_error (h : t.answer = .error cause) : t.label? = none := by
  rw [label?, h]
  rfl

theorem emitted?_of_ok (h : t.answer = .ok label) (target : JumpLabel → Nat) : t.emitted? target =
    (t.call.asks? target t.before).map fun i => ⟨t.before.offset, i.1, i.2, t.before.line⟩ := by
  rw [emitted?, h]
  rfl

theorem emitted?_of_error (h : t.answer = .error cause) (target : JumpLabel → Nat) : t.emitted? target = none := by
  rw [emitted?, h]
  rfl

theorem patched?_of_error (h : t.answer = .error cause) (label : JumpLabel) : t.patched? label = none := by
  rw [patched?, h]
  exact if_neg fun hok => Bool.false_ne_true hok.2

end

end Turn

/-- A run of calls to a new emitter, each made as it should be. -/
inductive Emission : List Turn → Emitter → Prop
  | start : Emission [] .initial
  | call {turns e call} (h : Emission turns e) (hallowed : call.Allowed (turns.filterMap Turn.label?)) :
      Emission (turns ++ [⟨e, call⟩]) (call.run e).2

/-- The target that a label has in the end, which is the placeholder if it was not patched. -/
def finalTarget (turns : List Turn) (label : JumpLabel) : Nat := (turns.filterMap (Turn.patched? label)).getLastD 0xFFFF

/-- The instructions that are emitted in some turns, where the targets of labels are given. -/
def emittedWith (target : JumpLabel → Nat) (turns : List Turn) : List Emitted := turns.filterMap (Turn.emitted? target)

def emitted (turns : List Turn) : List Emitted := emittedWith (finalTarget turns) turns

/-! ### What a call does -/

namespace Emitter

theorem emitClosure_cases (e : Emitter) (entry params locals free : Nat) :
    (Opcode.closure.Takes [entry, params, locals, free] ∧ ∃ e', e.emitClosure entry params locals free = (.ok (), e') ∧
      e'.chunk = Code.writeTo e.chunk ⟨e.line, Opcode.closure.instruction [entry, params, locals, free]⟩) ∨
    ∃ cause, e.emitClosure entry params locals free = (.error cause, e) := by
  unfold emitClosure wordOperand byteOperand
  by_cases hentry : entry < 65536
  case neg => exact .inr ⟨.exceedsWord .closure entry, by simp only [if_neg hentry, bind, Except.bind]⟩
  by_cases hparams : params < 256
  case neg => exact .inr ⟨.exceedsByte .closure params, by simp only [if_pos hentry, if_neg hparams, bind, Except.bind]⟩
  by_cases hlocals : locals < 256
  case neg =>
    exact .inr ⟨.exceedsByte .closure locals, by simp only [if_pos hentry, if_pos hparams, if_neg hlocals, bind, Except.bind]⟩
  by_cases hfree : free < 256
  case neg =>
    exact .inr ⟨.exceedsByte .closure free,
      by simp only [if_pos hentry, if_pos hparams, if_pos hlocals, if_neg hfree, bind, Except.bind]⟩
  refine .inl ⟨.cons hentry (.cons hparams (.cons hlocals (.cons hfree .nil))), ?_⟩
  simp only [if_pos hentry, if_pos hparams, if_pos hlocals, if_pos hfree, bind, Except.bind, pure, Except.pure]
  exact ⟨_, rfl, rfl⟩

end Emitter

namespace Turn

/-- What can happen in a turn. -/
inductive Effect (issued : List JumpLabel) (t : Turn) : Prop
  /-- No code is written, since the call is refused or sets the line. -/
  | none (hemitted : ∀ target, t.emitted? target = none) (hpatched : ∀ label, t.patched? label = none)
      (hlabel : t.label? = none) (hchunk : t.after.chunk = t.before.chunk)
  /-- An instruction is written. -/
  | write (op : Opcode) (operands : List Nat) (htakes : op.Takes operands)
      (hemitted : ∀ target, t.emitted? target = some ⟨t.before.offset, op, operands, t.before.line⟩)
      (hpatched : ∀ label, t.patched? label = none) (hlabel : t.label? = none)
      (hchunk : t.after.chunk = Code.writeTo t.before.chunk ⟨t.before.line, op.instruction operands⟩)
  /-- A jump is written, with a placeholder behind its opcode. -/
  | jump (op : Opcode) (hwidths : op.operandWidths = [2])
      (hemitted : ∀ target, t.emitted? target =
        some ⟨t.before.offset, op, [target ⟨t.before.offset + 1⟩], t.before.line⟩)
      (hpatched : ∀ label, t.patched? label = none) (hlabel : t.label? = some ⟨t.before.offset + 1⟩)
      (hchunk : t.after.chunk = Code.writeTo t.before.chunk ⟨t.before.line, op.instruction [0xFFFF]⟩)
  /-- A jump is patched. -/
  | patch (label : JumpLabel) (hissued : label ∈ issued) (hfits : t.before.offset < 65536)
      (hemitted : ∀ target, t.emitted? target = none)
      (hpatched : ∀ label', t.patched? label' = if label' = label then some t.before.offset else none) (hlabel : t.label? = none)
      (hchunk : t.after.chunk = (t.before.chunk.patchU16? label.offset (.ofNat t.before.offset)).getD t.before.chunk)

section

variable {issued : List JumpLabel} {t : Turn} {e : Emitter}

theorem effect_of_error {cause : GenerationError} (hrun : t.call.run t.before = (.error cause, e))
    (hchunk : e.chunk = t.before.chunk) : t.Effect issued := by
  have hanswer : t.answer = .error cause := congrArg Prod.fst hrun
  have hafter : t.after = e := congrArg Prod.snd hrun
  exact .none (emitted?_of_error hanswer) (patched?_of_error hanswer) (label?_of_error hanswer) (hafter ▸ hchunk)

theorem effect_of_ok {op : Opcode} {operands : List Nat} (hrun : t.call.run t.before = (.ok none, e))
    (hasks : ∀ target, t.call.asks? target t.before = some (op, operands)) (htakes : op.Takes operands)
    (hchunk : e.chunk = Code.writeTo t.before.chunk ⟨t.before.line, op.instruction operands⟩) : t.Effect issued := by
  have hanswer : t.answer = .ok none := congrArg Prod.fst hrun
  have hafter : t.after = e := congrArg Prod.snd hrun
  have hpatch : ∀ label, t.call ≠ .patchJump label := by
    intro label hcall
    have hnone := hasks fun _ => 0
    rw [hcall] at hnone
    cases hnone
  refine .write op operands htakes (fun target => ?_) (fun label => ?_) (label?_of_ok hanswer) (hafter ▸ hchunk)
  · rw [emitted?_of_ok hanswer, hasks]
    rfl
  · exact if_neg fun hcall => hpatch label hcall.1

theorem effect_emitByte {op : Opcode} {operand : Nat} (hwidths : op.operandWidths = [1])
    (hasks : ∀ target, t.call.asks? target t.before = some (op, [operand]))
    (hrun : t.call.run t.before = EmitterCall.run.noLabel (t.before.emitByte op operand)) : t.Effect issued := by
  by_cases hoperand : operand < 256
  · have hdone : t.call.run t.before = (.ok none, (t.before.emit op).writeByte (.ofNat operand)) := by
      rw [hrun, Emitter.emitByte, byteOperand, if_pos hoperand]
      rfl
    exact effect_of_ok hdone hasks (Opcode.takes_byte hwidths hoperand) (Code.writeTo_byte hwidths _ _ operand)
  · have hrefused : t.call.run t.before = (.error (.exceedsByte op operand), t.before) := by
      rw [hrun, Emitter.emitByte, byteOperand, if_neg hoperand]
      rfl
    exact effect_of_error hrefused rfl

/-- The emitter may have got a constant before the operand was checked. -/
theorem effect_emitWord {op : Opcode} {operand : Nat} (hwidths : op.operandWidths = [2])
    (hasks : ∀ target, t.call.asks? target t.before = some (op, [operand])) (hchunk : e.chunk = t.before.chunk)
    (hline : e.line = t.before.line) (hrun : t.call.run t.before = EmitterCall.run.noLabel (e.emitWord op operand)) :
    t.Effect issued := by
  by_cases hoperand : operand < 65536
  · have hdone : t.call.run t.before = (.ok none, (e.emit op).writeU16 (.ofNat operand)) := by
      rw [hrun, Emitter.emitWord, wordOperand, if_pos hoperand]
      rfl
    refine effect_of_ok hdone hasks (Opcode.takes_word hwidths hoperand) ?_
    rw [← hchunk, ← hline]
    exact Code.writeTo_word hwidths _ _ operand
  · have hrefused : t.call.run t.before = (.error (.exceedsWord op operand), e) := by
      rw [hrun, Emitter.emitWord, wordOperand, if_neg hoperand]
      rfl
    exact effect_of_error hrefused hchunk

theorem effect_emitClosure {entry params locals free : Nat} (hcall : t.call = .emitClosure entry params locals free) :
    t.Effect issued := by
  have hrun : t.call.run t.before = EmitterCall.run.noLabel (t.before.emitClosure entry params locals free) := by
    rw [hcall]
    rfl
  obtain ⟨htakes, e, hclosure, hchunk⟩ | ⟨cause, hclosure⟩ := t.before.emitClosure_cases entry params locals free <;>
    rw [hclosure] at hrun
  · exact effect_of_ok hrun (fun _ => by rw [hcall]; rfl) htakes hchunk
  · exact effect_of_error hrun rfl

end

theorem effect {issued : List JumpLabel} {t : Turn} (h : t.call.Allowed issued) : t.Effect issued := by
  obtain ⟨e, call⟩ := t
  cases call with
  | setLine line => exact .none (fun _ => rfl) (fun _ => rfl) rfl rfl
  | emit op => exact .write op [] (Opcode.takes_nil h) (fun _ => rfl) (fun _ => rfl) rfl (Code.writeTo_plain h _ _)
  | emitBool value =>
    have hwidths : (if value then Opcode.pushTrue else Opcode.pushFalse).operandWidths = [] := by cases value <;> rfl
    exact .write _ [] (Opcode.takes_nil hwidths) (fun _ => rfl) (fun _ => rfl) rfl (Code.writeTo_plain hwidths _ _)
  | emitByte op operand => exact effect_emitByte h (fun _ => rfl) rfl
  | emitWord op operand => exact effect_emitWord h (fun _ => rfl) rfl rfl rfl
  | emitConstant c => exact effect_emitWord (e := { e with pool := (e.pool.add c).2 }) rfl (fun _ => rfl) rfl rfl rfl
  | emitCall args => exact effect_emitByte rfl (fun _ => rfl) rfl
  | emitJump op =>
    have hlabel := e.label_emitJump op
    have hanswer : (Turn.mk e (.emitJump op)).answer = .ok (some ⟨e.offset + 1⟩) := by rw [← hlabel]; rfl
    refine .jump op h (fun target => ?_) (fun _ => rfl) (label?_of_ok hanswer) (Code.writeTo_word h _ _ _)
    rw [emitted?_of_ok hanswer, EmitterCall.asks?, hlabel]
    rfl
  | patchJump label =>
    by_cases hfits : e.offset < 65536
    · have hrun : EmitterCall.run e (.patchJump label) =
          (.ok none, { e with chunk := (e.chunk.patchU16? label.offset (.ofNat e.offset)).getD e.chunk }) := by
        rw [EmitterCall.run, Emitter.patchJump_of_lt hfits]
        rfl
      have hanswer : (Turn.mk e (.patchJump label)).answer = .ok none := congrArg Prod.fst hrun
      refine .patch label h hfits (emitted?_of_ok hanswer) (fun label' => ?_) (label?_of_ok hanswer)
        (congrArg (fun r => r.2.chunk) hrun)
      simp [patched?, hanswer, Except.isOk, Except.toBool, eq_comm]
    · have hrun : EmitterCall.run e (.patchJump label) = (.error (.jumpTooFar e.offset), e) := by
        rw [EmitterCall.run, Emitter.patchJump, jumpTarget, if_neg hfits]
        rfl
      exact effect_of_error hrun rfl
  | emitClosure entry params locals free => exact effect_emitClosure rfl

end Turn

/-! ### The code of a chunk -/

namespace Chunk

namespace Holds

variable {c : Chunk} {code front back : List CodeLine} {l : CodeLine}

theorem steps_eq (h : c.Holds code) : c.steps = (located 0 code).map fun s => (s.1, s.2.step) := by
  simpa [steps] using stepsFrom_of_bytes #[] [] code h.bytes

/-- An instruction is read where it stands, and its line is that of each of its bytes. -/
theorem read (h : c.Holds (front ++ l :: back)) :
    c.readOp? (codeSize front) = some l.instruction.opcode ∧ c.readOperands? (codeSize front) = some l.instruction.operands ∧
      ∀ k < l.instruction.size, c.lineAt? (codeSize front + k) = some l.line := by
  have hbytes : c.code.toList = codeBytes front ++ l.instruction.bytes ++ codeBytes back := by
    rw [h.bytes]
    simp [codeBytes]
  refine ⟨?_, ?_, fun k hk => h.lineAt? hk⟩
  · rw [← length_codeBytes]
    exact readOp?_of_bytes l.instruction hbytes
  · rw [← length_codeBytes]
    exact readOperands?_of_bytes l.instruction hbytes

end Holds

end Chunk

/-! ### Offsets -/

def codeWith (target : JumpLabel → Nat) (turns : List Turn) : List CodeLine := (emittedWith target turns).map Emitted.codeLine

section

variable (target : JumpLabel → Nat)

@[simp] theorem emittedWith_append (turns rest : List Turn) :
    emittedWith target (turns ++ rest) = emittedWith target turns ++ emittedWith target rest :=
  List.filterMap_append

theorem emittedWith_singleton (t : Turn) : emittedWith target [t] = (t.emitted? target).toList := by
  rw [emittedWith, List.filterMap_cons]
  cases t.emitted? target <;> rfl

@[simp] theorem codeWith_append (turns rest : List Turn) :
    codeWith target (turns ++ rest) = codeWith target turns ++ codeWith target rest := by
  simp [codeWith]

theorem codeWith_singleton (t : Turn) : codeWith target [t] = (t.emitted? target).toList.map Emitted.codeLine := by
  rw [codeWith, emittedWith_singleton]

end

theorem Turn.offset_of_emitted? {target : JumpLabel → Nat} {t : Turn} {i : Emitted} (h : t.emitted? target = some i) :
    i.offset = t.before.offset := by
  unfold emitted? at h
  split at h
  · obtain ⟨-, -, rfl⟩ := Option.map_eq_some_iff.mp h
    rfl
  · cases h

/-- In a turn, an emitter moves on by the code that is emitted. -/
theorem Turn.Effect.offset_after {issued : List JumpLabel} {t : Turn} (h : t.Effect issued) (target : JumpLabel → Nat) :
    t.after.offset = t.before.offset + codeSize (codeWith target [t]) := by
  rw [codeWith_singleton]
  cases h with
  | none hemitted _ _ hchunk =>
    rw [hemitted]
    exact congrArg Chunk.size hchunk
  | write op operands _ hemitted _ _ hchunk =>
    rw [hemitted]
    exact (congrArg Chunk.size hchunk).trans (Chunk.size_writeTo _ _)
  | jump op _ hemitted _ _ hchunk =>
    rw [hemitted]
    refine (congrArg Chunk.size hchunk).trans ((Chunk.size_writeTo _ _).trans ?_)
    rw [Opcode.size_instruction]
    exact congrArg _ (Opcode.size_instruction op _).symm
  | patch label _ _ hemitted _ _ hchunk =>
    rw [hemitted]
    exact (congrArg Chunk.size hchunk).trans (Chunk.size_patchU16? _ _ _)

namespace Emission

variable {turns front back : List Turn} {e : Emitter} {t : Turn} {label : JumpLabel}

/-- Before each turn, a run of calls was made. -/
theorem before (h : Emission turns e) (hturns : turns = front ++ t :: back) :
    Emission front t.before ∧ t.Effect (front.filterMap Turn.label?) := by
  induction h generalizing back with
  | start => simp at hturns
  | @call turns e call h hallowed ih =>
    obtain rfl | ⟨rest, last, rfl⟩ := List.eq_nil_or_concat' back
    · obtain ⟨rfl, hlast⟩ := List.append_inj' hturns rfl
      cases hlast
      exact ⟨h, Turn.effect hallowed⟩
    · obtain ⟨rfl, -⟩ := List.append_inj' (hturns.trans (List.append_assoc front (t :: rest) [last]).symm) rfl
      exact ih rfl

theorem effect (h : Emission turns e) (ht : t ∈ turns) : ∃ issued, t.Effect issued := by
  obtain ⟨front, back, hturns⟩ := List.append_of_mem ht
  exact ⟨_, (h.before hturns).2⟩

theorem offset_le (h : Emission turns e) (ht : t ∈ turns) : t.after.offset ≤ e.offset := by
  induction h with
  | start => cases ht
  | @call turns e call h hallowed ih =>
    rcases List.mem_append.mp ht with ht | ht
    · have hmoves := (Turn.effect (t := ⟨e, call⟩) hallowed).offset_after fun _ => 0
      have hle := ih ht
      change _ ≤ (Turn.mk e call).after.offset
      change (Turn.mk e call).after.offset = e.offset + _ at hmoves
      omega
    · rw [List.mem_singleton.mp ht]
      exact Nat.le_refl _

/-- Each instruction stands at the offset at which the emitter was. -/
theorem located_codeWith (h : Emission turns e) (target : JumpLabel → Nat) :
    located 0 (codeWith target turns) = (emittedWith target turns).map (fun i => (i.offset, i.codeLine.instruction)) ∧
      codeSize (codeWith target turns) = e.offset := by
  induction h with
  | start => exact ⟨rfl, rfl⟩
  | @call turns e call h hallowed ih =>
    obtain ⟨hlocated, hsize⟩ := ih
    have hmoves := (Turn.effect (t := ⟨e, call⟩) hallowed).offset_after target
    rw [codeWith_append, emittedWith_append, located_append, codeSize_append, hlocated, hsize, List.map_append]
    refine ⟨congrArg _ ?_, hmoves.symm⟩
    rw [codeWith_singleton, emittedWith_singleton]
    cases hemitted : (Turn.mk e call).emitted? target with
    | none => rfl
    | some i =>
      have hoffset := Turn.offset_of_emitted? hemitted
      simp [hoffset]

/-! ### Labels -/

/-- The label of a jump is the place of its operand. -/
theorem offset_label (h : Emission turns e) (ht : t ∈ turns) (hlabel : t.label? = some label) :
    label.offset = t.before.offset + 1 ∧ t.before.offset + 3 ≤ e.offset := by
  obtain ⟨issued, heffect⟩ := h.effect ht
  have hmoves := heffect.offset_after fun _ => 0
  have hle := h.offset_le ht
  cases heffect with
  | none _ _ hnone | write _ _ _ _ _ hnone | patch _ _ _ _ _ hnone =>
    rw [hnone] at hlabel
    cases hlabel
  | jump op hwidths hemitted _ hjump _ =>
    rw [hjump] at hlabel
    cases hlabel
    have hsize : codeSize (codeWith (fun _ => 0) [t]) = 3 := by
      rw [codeWith_singleton, hemitted]
      simp [Emitted.codeLine, Opcode.size_instruction, Opcode.operandSize, hwidths]
    exact ⟨rfl, by omega⟩

/-- No two turns have the same label. -/
theorem label_ne (h : Emission turns e) (hturns : turns = front ++ t :: back) (hlabel : t.label? = some label) {u : Turn}
    (hu : u ∈ front ∨ u ∈ back) : u.label? ≠ some label := by
  -- Between two turns with one label the emitter would have to move on by three bytes and stay where it is.
  intro hsame
  rcases hu with hu | hu
  · have ht : t ∈ turns := by simp [hturns]
    have hplace := (h.offset_label ht hlabel).1
    have hbefore := (h.before hturns).1.offset_label hu hsame
    omega
  · obtain ⟨middle, rest, rfl⟩ := List.append_of_mem hu
    have hturns' : turns = front ++ t :: middle ++ u :: rest := by simp [hturns]
    have hplace := (h.offset_label (by simp [hturns']) hsame).1
    have hbefore := (h.before hturns').1.offset_label (by simp) hlabel
    omega

/-- A label is patched behind its jump, and with an offset that fits. -/
theorem patched_spec (h : Emission turns e) (ht : t ∈ turns) {place : Nat} (hpatched : t.patched? label = some place) :
    place < 65536 ∧ label.offset < e.offset := by
  obtain ⟨front, back, hturns⟩ := List.append_of_mem ht
  obtain ⟨hfront, heffect⟩ := h.before hturns
  have hmoves := heffect.offset_after fun _ => 0
  have hle := h.offset_le ht
  cases heffect with
  | none _ hnone | write _ _ _ _ hnone | jump _ _ _ hnone =>
    rw [hnone] at hpatched
    cases hpatched
  | patch label' hissued hfits _ hlabels _ _ =>
    rw [hlabels] at hpatched
    obtain ⟨rfl, heq⟩ := Option.ite_none_right_eq_some.mp hpatched
    cases heq
    obtain ⟨u, hu, hlabel⟩ := List.mem_filterMap.mp hissued
    have hplace := hfront.offset_label hu hlabel
    exact ⟨hfits, by omega⟩

theorem finalTarget_lt (h : Emission turns e) (label : JumpLabel) : finalTarget turns label < 65536 := by
  rw [finalTarget, List.getLastD_eq_getLast?]
  cases hlast : (turns.filterMap (Turn.patched? label)).getLast? with
  | none => decide
  | some place =>
    obtain ⟨t, ht, hpatched⟩ := List.mem_filterMap.mp (List.mem_of_getLast? hlast)
    exact (h.patched_spec ht hpatched).1

theorem finalTarget_of_le (h : Emission turns e) (hle : e.offset ≤ label.offset) : finalTarget turns label = 0xFFFF := by
  have hnone : turns.filterMap (Turn.patched? label) = [] := by
    refine List.filterMap_eq_nil_iff.mpr fun t ht => ?_
    cases hpatched : t.patched? label with
    | none => rfl
    | some place => exact absurd (h.patched_spec ht hpatched).2 (Nat.not_lt.mpr hle)
  rw [finalTarget, hnone]
  rfl

end Emission

theorem finalTarget_concat (turns : List Turn) (t : Turn) (label : JumpLabel) :
    finalTarget (turns ++ [t]) label = (t.patched? label).getD (finalTarget turns label) := by
  rw [finalTarget, List.filterMap_append, List.filterMap_cons]
  cases t.patched? label with
  | none => simp [finalTarget]
  | some place => exact List.getLastD_concat

theorem finalTarget_concat_of_none {t : Turn} (h : ∀ label, t.patched? label = none) (turns : List Turn) :
    finalTarget (turns ++ [t]) = finalTarget turns := by
  funext label
  rw [finalTarget_concat, h]
  rfl

/-! ### The code that is written -/

/-- What is emitted in a turn depends on the target of no label but its own. -/
theorem Turn.Effect.emitted?_congr {issued : List JumpLabel} {t : Turn} (h : t.Effect issued) {target target' : JumpLabel → Nat}
    (heq : ∀ label, t.label? = some label → target label = target' label) : t.emitted? target = t.emitted? target' := by
  cases h with
  | none hemitted | write _ _ _ hemitted | patch _ _ _ hemitted => rw [hemitted, hemitted]
  | jump op _ hemitted _ hlabel _ => rw [hemitted, hemitted, heq _ hlabel]

namespace Emission

variable {turns front back : List Turn} {e : Emitter} {t : Turn} {label : JumpLabel}

theorem emittedWith_congr (h : Emission turns e) {target target' : JumpLabel → Nat} {rest : List Turn} (hrest : rest ⊆ turns)
    (heq : ∀ t ∈ rest, ∀ label, t.label? = some label → target label = target' label) :
    emittedWith target rest = emittedWith target' rest := by
  refine List.filterMap_congr fun t ht => ?_
  obtain ⟨issued, heffect⟩ := h.effect (hrest ht)
  exact heffect.emitted?_congr (heq t ht)

theorem holds_patch (h : Emission turns e) {target target' : JumpLabel → Nat} (hholds : e.chunk.Holds (codeWith target turns))
    (hissued : label ∈ turns.filterMap Turn.label?) (hothers : ∀ label', label' ≠ label → target' label' = target label') :
    ((e.chunk.patchU16? label.offset (.ofNat (target' label))).getD e.chunk).Holds (codeWith target' turns) := by
  -- The turn that the label comes from is the only one whose code depends on its target.
  obtain ⟨t, ht, hlabel⟩ := List.mem_filterMap.mp hissued
  obtain ⟨front, back, rfl⟩ := List.append_of_mem ht
  obtain ⟨hfront, heffect⟩ := h.before rfl
  have hsame : ∀ rest : List Turn, rest ⊆ front ++ t :: back → (∀ u ∈ rest, u ∈ front ∨ u ∈ back) →
      codeWith target' rest = codeWith target rest := by
    intro rest hrest hapart
    refine congrArg _ (h.emittedWith_congr hrest fun u hu label' hlabel' => hothers label' ?_)
    rintro rfl
    exact h.label_ne rfl hlabel (hapart u hu) hlabel'
  have hfrontSame := hsame front (by simp) fun u hu => .inl hu
  have hbackSame := hsame back (by simp) fun u hu => .inr hu
  cases heffect with
  | none _ _ hnone | write _ _ _ _ _ hnone | patch _ _ _ _ _ hnone =>
    rw [hnone] at hlabel
    cases hlabel
  | jump op hwidths hemitted _ hjump _ =>
    rw [hjump] at hlabel
    cases hlabel
    have hsplit : ∀ target, codeWith target (front ++ t :: back) = codeWith target front ++
        ⟨t.before.line, op.instruction [target ⟨t.before.offset + 1⟩]⟩ :: codeWith target back := by
      intro target
      rw [List.append_cons, codeWith_append, codeWith_append, codeWith_singleton, hemitted]
      simp [Emitted.codeLine]
    rw [hsplit] at hholds ⊢
    rw [hfrontSame, hbackSame]
    have hpatch := hholds.patch hwidths (target' ⟨t.before.offset + 1⟩)
    rwa [(hfront.located_codeWith target).2] at hpatch

/-- The code of an emitter is what has been emitted, with each label at its last target. -/
theorem holds (h : Emission turns e) : e.chunk.Holds (codeWith (finalTarget turns) turns) := by
  induction h with
  | start => exact ⟨rfl, rfl⟩
  | @call turns e call h hallowed ih =>
    rw [codeWith_append, codeWith_singleton]
    change (Turn.mk e call).after.chunk.Holds _
    cases Turn.effect (t := ⟨e, call⟩) hallowed with
    | none hemitted hpatched _ hchunk =>
      rw [hemitted, finalTarget_concat_of_none hpatched, hchunk]
      simpa using ih
    | write op operands _ hemitted hpatched _ hchunk =>
      rw [hemitted, finalTarget_concat_of_none hpatched, hchunk]
      exact ih.write _
    | jump op _ hemitted hpatched _ hchunk =>
      -- No call before this one can have patched the label, since it lies behind all code.
      have hnew : finalTarget turns ⟨e.offset + 1⟩ = 0xFFFF := h.finalTarget_of_le (Nat.le_succ _)
      rw [hemitted, finalTarget_concat_of_none hpatched, hchunk, hnew]
      exact ih.write _
    | patch label hissued _ hemitted hpatched _ hchunk =>
      have htarget : ∀ label', finalTarget (turns ++ [⟨e, call⟩]) label' =
          if label' = label then e.offset else finalTarget turns label' := by
        intro label'
        rw [finalTarget_concat, hpatched]
        split <;> rfl
      have hholds := h.holds_patch ih hissued (fun label' hne => (htarget label').trans (if_neg hne))
      rw [htarget, if_pos rfl] at hholds
      rw [hemitted, hchunk]
      simpa using hholds

theorem takes (h : Emission turns e) {i : Emitted} (hi : i ∈ emitted turns) : i.op.Takes i.operands := by
  obtain ⟨t, ht, hemitted⟩ := List.mem_filterMap.mp hi
  obtain ⟨issued, heffect⟩ := h.effect ht
  cases heffect with
  | none hnone | patch _ _ _ hnone =>
    rw [hnone] at hemitted
    cases hemitted
  | write op operands htakes hwritten =>
    rw [hwritten] at hemitted
    cases hemitted
    exact htakes
  | jump op hwidths hjump =>
    rw [hjump] at hemitted
    cases hemitted
    exact Opcode.takes_word hwidths (h.finalTarget_lt _)

theorem exists_split (h : Emission turns e) {i : Emitted} (hi : i ∈ emitted turns) : ∃ before behind,
    codeWith (finalTarget turns) turns = before ++ i.codeLine :: behind ∧ i.offset = codeSize before := by
  obtain ⟨t, ht, hemitted⟩ := List.mem_filterMap.mp hi
  obtain ⟨front, back, hturns⟩ := List.append_of_mem ht
  have hsize := ((h.before hturns).1.located_codeWith (finalTarget turns)).2
  refine ⟨codeWith (finalTarget turns) front, codeWith (finalTarget turns) back, ?_, ?_⟩
  · have hsplit : codeWith (finalTarget turns) turns = codeWith (finalTarget turns) (front ++ [t] ++ back) := by
      rw [List.append_assoc]
      exact congrArg _ hturns
    rw [hsplit, codeWith_append, codeWith_append, codeWith_singleton, hemitted]
    simp
  · rw [hsize]
    exact Turn.offset_of_emitted? hemitted

end Emission

/-! ### Constants and refusals -/

theorem ConstantPool.toList_add (p : ConstantPool) (c : Constant) :
    (p.add c).2.toList = p.toList ∨ (p.add c).2.toList = p.toList ++ [c] := by
  unfold add
  split
  · exact .inl rfl
  · exact .inr (Array.toList_push ..)

namespace Emitter

theorem pool_emitByte (e : Emitter) (op : Opcode) (operand : Nat) : (e.emitByte op operand).2.pool = e.pool := by
  unfold emitByte
  split <;> rfl

theorem pool_emitWord (e : Emitter) (op : Opcode) (operand : Nat) : (e.emitWord op operand).2.pool = e.pool := by
  unfold emitWord
  split <;> rfl

theorem pool_emitConstant (e : Emitter) (c : Constant) : (e.emitConstant c).2.pool = (e.pool.add c).2 :=
  pool_emitWord { e with pool := (e.pool.add c).2 } .constant (e.pool.add c).1

theorem pool_patchJump (e : Emitter) (label : JumpLabel) : (e.patchJump label).2.pool = e.pool := by
  unfold patchJump
  split
  · rfl
  · split <;> rfl

theorem pool_emitClosure (e : Emitter) (entry params locals free : Nat) :
    (e.emitClosure entry params locals free).2.pool = e.pool := by
  unfold emitClosure
  dsimp only
  split <;> rfl

end Emitter

namespace Turn

/-- A call adds a constant to the pool if it is given one. -/
theorem pool_after (t : Turn) :
    t.after.pool = t.before.pool ∨ ∃ c, t.call = .emitConstant c ∧ t.after.pool = (t.before.pool.add c).2 := by
  obtain ⟨e, call⟩ := t
  cases call with
  | emitConstant c => exact .inr ⟨c, rfl, e.pool_emitConstant c⟩
  | setLine | emit | emitBool | emitJump => exact .inl rfl
  | emitByte op operand => exact .inl (e.pool_emitByte op operand)
  | emitCall args => exact .inl (e.pool_emitByte .call args)
  | emitWord op operand => exact .inl (e.pool_emitWord op operand)
  | patchJump label => exact .inl (e.pool_patchJump label)
  | emitClosure entry params locals free => exact .inl (e.pool_emitClosure entry params locals free)

theorem grows_pool (t : Turn) : t.before.pool.Grows t.after.pool := by
  obtain hsame | ⟨c, -, hadd⟩ := t.pool_after
  · rw [hsame]
    exact .refl _
  · rw [hadd]
    exact t.before.pool.grows_add c

theorem sound_pool {t : Turn} (h : t.before.pool.Sound) (hsize : t.after.pool.size ≤ 4294967296) : t.after.pool.Sound := by
  obtain hsame | ⟨c, -, hadd⟩ := t.pool_after
  · rwa [hsame]
  · rw [hadd] at hsize ⊢
    exact (ConstantPool.add_spec h hsize).1

theorem toList_pool_after (t : Turn) :
    t.after.pool.toList = t.before.pool.toList ∨ ∃ c, t.after.pool.toList = t.before.pool.toList ++ [c] := by
  obtain hsame | ⟨c, -, hadd⟩ := t.pool_after
  · exact .inl (congrArg ConstantPool.toList hsame)
  · rw [hadd]
    exact (t.before.pool.toList_add c).imp_right fun hpush => ⟨c, hpush⟩

theorem Effect.chunk_of_error {issued : List JumpLabel} {t : Turn} (h : t.Effect issued) {cause : GenerationError}
    (hanswer : t.answer = .error cause) : t.after.chunk = t.before.chunk := by
  cases h with
  | none _ _ _ hchunk => exact hchunk
  | write _ _ _ hemitted | jump _ _ hemitted =>
    have hnone := emitted?_of_error hanswer fun _ => 0
    rw [hemitted] at hnone
    cases hnone
  | patch label _ _ _ hpatched =>
    have hnone := patched?_of_error hanswer label
    rw [hpatched, if_pos rfl] at hnone
    cases hnone

end Turn

namespace Emission

variable {turns : List Turn} {e : Emitter} {t : Turn}

theorem sound (h : Emission turns e) (hsize : e.pool.size ≤ 4294967296) : e.pool.Sound := by
  induction h with
  | start => exact ConstantPool.sound_empty
  | @call turns e call h hallowed ih =>
    have hle := ConstantPool.size_le_of_grows (Turn.mk e call).grows_pool
    exact Turn.sound_pool (t := ⟨e, call⟩) (ih (Nat.le_trans hle hsize)) hsize

theorem grows (h : Emission turns e) (ht : t ∈ turns) : t.after.pool.Grows e.pool := by
  induction h with
  | start => cases ht
  | @call turns e call h hallowed ih =>
    rcases List.mem_append.mp ht with ht | ht
    · exact (ih ht).trans (Turn.mk e call).grows_pool
    · rw [List.mem_singleton.mp ht]
      exact .refl _

/-- A constant that got its place before places ran out keeps it, however many come behind it. -/
theorem get?_constant (h : Emission turns e) (ht : t ∈ turns) {c : Constant} (hcall : t.call = .emitConstant c)
    (hsize : t.after.pool.size ≤ 4294967296) : e.pool.get? (t.before.pool.add c).1 = some c := by
  obtain ⟨front, back, hturns⟩ := List.append_of_mem ht
  have hafter : t.after.pool = (t.before.pool.add c).2 := by
    rw [Turn.after, hcall]
    exact t.before.pool_emitConstant c
  have hgrows := h.grows ht
  have hle := ConstantPool.size_le_of_grows t.grows_pool
  have hsound := (h.before hturns).1.sound (Nat.le_trans hle hsize)
  rw [hafter] at hgrows hsize
  exact hgrows _ _ (ConstantPool.add_spec hsound hsize).2

end Emission

/-- Reading what an emitter has written gives back the instructions of the calls that were not refused, in order, at the offsets
where the emitter was, with the operands that were passed, and with each jump at the target that it was patched with last. Each
byte has the line that was set when it was written. A constant is where the instruction that loads it looks for it, if places
had not run out when it was added. A call that is refused writes nothing, and leaves at most a constant. -/
theorem emission_decodes {turns : List Turn} {e : Emitter} (h : Emission turns e) :
    e.finish.chunk.steps = (emitted turns).map (fun i => (i.offset, .complete i.op i.operands)) ∧
      e.finish.chunk.opcodes = (emitted turns).map Emitted.op ∧
      e.finish.chunk.lines.size = e.finish.chunk.code.size ∧
      (∀ i ∈ emitted turns, e.finish.chunk.readOp? i.offset = some i.op ∧
        e.finish.chunk.readOperands? i.offset = some i.operands ∧
        ∀ k < 1 + i.op.operandSize, e.finish.chunk.lineAt? (i.offset + k) = some i.line) ∧
      (∀ t ∈ turns, ∀ c, t.call = .emitConstant c → t.after.pool.size ≤ 4294967296 →
        e.finish.pool.get? (t.before.pool.add c).1 = some c) ∧
      ∀ t ∈ turns, ∀ cause, t.answer = .error cause → t.after.chunk = t.before.chunk ∧
        (t.after.pool.toList = t.before.pool.toList ∨ ∃ c, t.after.pool.toList = t.before.pool.toList ++ [c]) := by
  have hstep : ∀ i ∈ emitted turns, i.codeLine.instruction.opcode = i.op ∧ i.codeLine.instruction.operands = i.operands :=
    fun i hi => ⟨Opcode.opcode_instruction _ _, Opcode.operands_instruction (h.takes hi)⟩
  have hsteps : e.chunk.steps = (emitted turns).map (fun i => (i.offset, .complete i.op i.operands)) := by
    rw [h.holds.steps_eq, (h.located_codeWith _).1, List.map_map]
    refine List.map_congr_left fun i hi => ?_
    obtain ⟨hop, hoperands⟩ := hstep i hi
    simp only [Function.comp_apply, Instruction.step, hop, hoperands]
  refine ⟨hsteps, ?_, h.holds.size_lines, fun i hi => ?_, fun t ht c => h.get?_constant ht, fun t ht cause hanswer => ?_⟩
  · change e.chunk.opcodes = _
    rw [Chunk.opcodes_eq, hsteps, List.filterMap_map]
    exact congrFun (List.filterMap_eq_map (f := Emitted.op)) (emitted turns)
  · obtain ⟨before, behind, hcode, hoffset⟩ := h.exists_split hi
    obtain ⟨hop, hoperands⟩ := hstep i hi
    have hread := (hcode ▸ h.holds).read
    rw [hop, hoperands, ← hoffset] at hread
    refine ⟨hread.1, hread.2.1, fun k hk => hread.2.2 k ?_⟩
    rwa [Instruction.size, hop]
  · obtain ⟨issued, heffect⟩ := h.effect ht
    exact ⟨heffect.chunk_of_error hanswer, t.toList_pool_after⟩

/-- A jump that is patched twice, a call that is refused, instructions on two lines, and a jump that is never patched. -/
def patchedTwice : List EmitterCall :=
  [.setLine 7, .emitJump .jumpIfFalse, .emitConstant (.int 5), .patchJump ⟨1⟩, .emitByte .getLocal 300, .setLine 8,
    .emitClosure 3 1 0 2, .patchJump ⟨1⟩, .emit .pop, .emitJump .jump]

theorem emission_decodes_patchedTwice : ∃ turns e, Emission turns e ∧ turns.map Turn.call = patchedTwice ∧
    e.finish.chunk.steps = [(0, .complete .jumpIfFalse [12]), (3, .complete .constant [0]), (6, .complete .closure [3, 1, 0, 2]),
      (12, .complete .pop []), (13, .complete .jump [65535])] ∧
    (∀ k < 6, e.finish.chunk.lineAt? (6 + k) = some 8) ∧ e.finish.pool.get? 0 = some (.int 5) ∧
    ∃ t ∈ turns, t.answer = .error (.exceedsByte .getLocal 300) ∧ t.after.chunk = t.before.chunk := by
  have hline := @Emission.call _ _ (.setLine 7) .start trivial
  have hjump := @Emission.call _ _ (.emitJump .jumpIfFalse) hline rfl
  have hconstant := @Emission.call _ _ (.emitConstant (.int 5)) hjump trivial
  have hpatch := @Emission.call _ _ (.patchJump ⟨1⟩) hconstant (.head _)
  have hrefused := @Emission.call _ _ (.emitByte .getLocal 300) hpatch rfl
  have hline := @Emission.call _ _ (.setLine 8) hrefused trivial
  have hclosure := @Emission.call _ _ (.emitClosure 3 1 0 2) hline trivial
  have hpatch := @Emission.call _ _ (.patchJump ⟨1⟩) hclosure (.head _)
  have hpop := @Emission.call _ _ (.emit .pop) hpatch rfl
  have hemission := @Emission.call _ _ (.emitJump .jump) hpop rfl
  obtain ⟨hsteps, -, -, hread, hconstants, herrors⟩ := emission_decodes hemission
  refine ⟨_, _, hemission, rfl, hsteps.trans (by decide +kernel), ?_, ?_, ?_⟩
  · exact (hread ⟨6, .closure, [3, 1, 0, 2], 8⟩ (by decide +kernel)).2.2
  · exact hconstants _ (List.mem_of_getElem? (i := 2) rfl) _ rfl (by decide +kernel)
  · exact ⟨_, List.mem_of_getElem? (i := 4) rfl, rfl, (herrors _ (List.mem_of_getElem? (i := 4) rfl) _ rfl).1⟩

end MonkeyLang
