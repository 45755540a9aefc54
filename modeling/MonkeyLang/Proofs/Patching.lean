import MonkeyLang.Bytecode.Generation
import MonkeyLang.Proofs.LineTable
import MonkeyLang.Proofs.Phrase
/-!
# Emitting and patching

Code is generated by calls to an emitter, which writes placeholders for the targets of jumps and patches them later, in a state
that goes on also if a part fails. It comes to the same as putting the code together from parts. `Follows` says so of a phrase:
behind the code that was there, the chunk has the code of the phrase, with all jumps patched, and a failure is the same failure.
The functions that are open are as many as before either way, so leaving a function after its body has failed does not hide why.
-/

namespace MonkeyLang

namespace Emitter

theorem label_emitJump (e : Emitter) (op : Opcode) : (e.emitJump op).1 = ⟨e.offset + 1⟩ := by
  simp [emitJump, emit, offset, Chunk.writeOp, Chunk.writeByte, Chunk.size]

theorem patchJump_of_lt {e : Emitter} (h : e.offset < 65536) (label : JumpLabel) : e.patchJump label =
    (.ok (), { e with chunk := (e.chunk.patchU16? label.offset (.ofNat e.offset)).getD e.chunk }) := by
  rw [patchJump, jumpTarget, if_pos h]
  cases hpatch : e.chunk.patchU16? label.offset (.ofNat e.offset) <;> simp only [hpatch, Option.getD]

theorem patchJump_of_not_lt {e : Emitter} (h : ¬ e.offset < 65536) (label : JumpLabel) :
    e.patchJump label = (.error (.jumpTooFar e.offset), e) := by
  rw [patchJump, jumpTarget, if_neg h]

end Emitter

namespace CodeGenerator

open Generator (Gen)

variable {α β γ δ : Type}

/-! ### Runs -/

theorem bind_of_ok {x : Run α} {a : α} {g g' : CodeGenerator} (h : x g = (.ok a, g')) (k : α → Run β) :
    (x >>= k) g = k a g' := by
  change ExceptT.bindCont k (x g).1 (x g).2 = _
  rw [h]
  rfl

theorem bind_of_error {x : Run α} {cause : GenerationError} {g g' : CodeGenerator} (h : x g = (.error cause, g'))
    (k : α → Run β) : (x >>= k) g = (.error cause, g') := by
  change ExceptT.bindCont k (x g).1 (x g).2 = _
  rw [h]
  rfl

theorem answer_ok_bind (a : α) (k : α → Run β) (g : CodeGenerator) : (answer (.ok a) >>= k) g = k a g := rfl

theorem answer_error_bind (cause : GenerationError) (k : α → Run β) (g : CodeGenerator) :
    (answer (.error cause) >>= k) g = (.error cause, g) := rfl

theorem gen_bind_of_ok {y : Gen α} {a : α} {g g' : Generator} (h : y g = .ok (a, g')) (k : α → Gen β) :
    (y >>= k) g = k a g' := by
  change (y g).bind (fun r => k r.1 r.2) = _
  rw [h]
  rfl

theorem gen_bind_of_error {y : Gen α} {cause : GenerationError} {g : Generator} (h : y g = .error cause)
    (k : α → Gen β) : (y >>= k) g = .error cause := by
  change (y g).bind (fun r => k r.1 r.2) = _
  rw [h]
  rfl

/-- What a generator from parts has to know of the code that is there. -/
def toGenerator (g : CodeGenerator) : Generator := ⟨g.scope, g.emitter.pool, g.emitter.line, g.emitter.offset⟩

def nesting (g : CodeGenerator) : Nat := g.scope.enclosing.length

def write (g : CodeGenerator) (i : Instruction) : CodeGenerator :=
  { g with emitter := { g.emitter with chunk := Code.writeTo g.emitter.chunk ⟨g.emitter.line, i⟩ } }

theorem toGenerator_write (g : CodeGenerator) (i : Instruction) :
    (g.write i).toGenerator = { g.toGenerator with offset := g.toGenerator.offset + i.size } := by
  simp [toGenerator, write, Emitter.offset, Chunk.size_writeTo]

/-- A run that was started in a generator answers like a run from parts. If both are done, what they give and the generator
that is left are related. -/
inductive Agrees (g : CodeGenerator) (related : α → β → CodeGenerator → Prop) :
    Except GenerationError (β × Generator) → Except GenerationError α × CodeGenerator → Prop
  | done {a b g'} (hnesting : g'.nesting = g.nesting) (hrelated : related a b g') :
      Agrees g related (.ok (b, g'.toGenerator)) (.ok a, g')
  | failed {cause g'} (hnesting : g'.nesting = g.nesting) : Agrees g related (.error cause) (.error cause, g')

namespace Agrees

variable {g g₀ : CodeGenerator} {related : α → β → CodeGenerator → Prop} {related' : γ → δ → CodeGenerator → Prop}
  {y : Gen β} {x : Run α} {z : Except GenerationError (β × Generator)} {r : Except GenerationError α × CodeGenerator}

theorem of_nesting (h : Agrees g related z r) (hnesting : g.nesting = g₀.nesting) : Agrees g₀ related z r := by
  cases h with
  | done hsame hrelated => exact .done (hsame.trans hnesting) hrelated
  | failed hsame => exact .failed (hsame.trans hnesting)

/-- Runs that agree go on with runs that agree. -/
theorem bind {k : β → Gen δ} {k' : α → Run γ} (h : Agrees g related (y g.toGenerator) (x g))
    (hrest : ∀ a b g', related a b g' → Agrees g' related' (k b g'.toGenerator) (k' a g')) :
    Agrees g related' ((y >>= k) g.toGenerator) ((x >>= k') g) := by
  generalize hz : y g.toGenerator = z, hr : x g = r at h
  cases h with
  | @done a b g' hnesting hrelated =>
    rw [gen_bind_of_ok hz, bind_of_ok hr]
    exact (hrest a b g' hrelated).of_nesting hnesting
  | failed hnesting =>
    rw [gen_bind_of_error hz, bind_of_error hr]
    exact .failed hnesting

/-- A run from parts may put together what it gives in the end. -/
theorem map {f : β → δ} {related' : α → δ → CodeGenerator → Prop} (h : Agrees g related (y g.toGenerator) (x g))
    (hrelated : ∀ a b g', related a b g' → related' a (f b) g') :
    Agrees g related' ((do return f (← y)) g.toGenerator) (x g) := by
  generalize hz : y g.toGenerator = z, hr : x g = r at h
  cases h with
  | done hnesting hdone =>
    rw [gen_bind_of_ok hz]
    exact .done hnesting (hrelated _ _ _ hdone)
  | failed hnesting =>
    rw [gen_bind_of_error hz]
    exact .failed hnesting

end Agrees

/-! ### Steps without code -/

/-- A step writes no code and gives what a step from parts gives. -/
def Keeps (x : Run α) (y : Gen α) : Prop :=
  ∀ g, Agrees g (fun a b g' => a = b ∧ g'.emitter.chunk = g.emitter.chunk) (y g.toGenerator) (x g)

theorem keeps_setLine (line : Nat) : Keeps (setLine line) (Generator.setLine line) :=
  fun g => .done (show CodeGenerator.nesting { g with emitter := g.emitter.setLine line } = g.nesting from rfl) ⟨rfl, rfl⟩

theorem keeps_modifyScope (change : SymbolScope → SymbolScope) (h : ∀ s, (change s).enclosing = s.enclosing) :
    Keeps (modifyScope change) (Generator.modifyScope change) := by
  intro g
  have hnesting : CodeGenerator.nesting { g with scope := change g.scope } = g.nesting := congrArg List.length (h g.scope)
  exact .done hnesting ⟨rfl, rfl⟩

theorem keeps_define (name : String) : Keeps (define name) (Generator.define name) :=
  fun g => .done (show CodeGenerator.nesting { g with scope := (g.scope.define name).2 } = g.nesting from rfl) ⟨rfl, rfl⟩

end CodeGenerator

theorem SymbolScope.length_resolveFrom (name : String) (f : FunctionScope) (fs : List FunctionScope) :
    (resolveFrom name f fs).2.2.length = fs.length := by
  induction fs generalizing f with
  | nil => rfl
  | cons outer rest ih =>
    have hrest := ih outer
    rw [resolveFrom]
    split
    · rfl
    · generalize resolveFrom name outer rest = found at hrest
      obtain ⟨_ | entry, outer', rest'⟩ := found
      · exact congrArg (· + 1) hrest
      · dsimp only
        split <;> exact congrArg (· + 1) hrest

namespace CodeGenerator

open Generator (Gen)

theorem keeps_resolve (name : Ident) : Keeps (resolve name) (Generator.resolve name) := by
  intro ⟨emitter, scope⟩
  have hlength : (scope.resolve name.name).2.enclosing.length = scope.enclosing.length :=
    SymbolScope.length_resolveFrom name.name scope.current scope.enclosing
  unfold resolve Generator.resolve
  dsimp only [toGenerator]
  generalize scope.resolve name.name = found at hlength
  obtain ⟨_ | symbol, scope'⟩ := found
  · exact .failed hlength
  · exact .done (show nesting ⟨emitter, scope'⟩ = nesting ⟨emitter, scope⟩ from hlength) ⟨rfl, rfl⟩

/-! ### Steps with code -/

/-- Behind the code that is there, a run puts the code of a run from parts. -/
def Follows (x : Run Unit) (y : Gen Code) : Prop :=
  ∀ g front, g.emitter.chunk.Holds front →
    Agrees g (fun _ code g' => g'.emitter.chunk.Holds (front ++ code.toList)) (y g.toGenerator) (x g)

/-- An instruction is written whose operands have been checked. -/
theorem follows_checked {α : Type} (operands : Except GenerationError α) {i : α → Instruction} {x : Run Unit}
    (hok : ∀ a g, operands = .ok a → x g = (.ok (), g.write (i a)))
    (herror : ∀ cause g, operands = .error cause → x g = (.error cause, g)) :
    Follows x (do Generator.emit (i (← Generator.checked operands))) := by
  intro g front hfront
  cases hoperands : operands with
  | error cause =>
    rw [herror cause g hoperands]
    exact .failed rfl
  | ok a =>
    rw [hok a g hoperands]
    have hemit : (do Generator.emit (i (← Generator.checked (.ok a)))) g.toGenerator =
        .ok (#[⟨g.emitter.line, i a⟩], (g.write (i a)).toGenerator) := by
      rw [toGenerator_write]
      rfl
    rw [hemit]
    exact .done rfl (hfront.write ⟨g.emitter.line, i a⟩)

theorem follows_write {i : Instruction} {x : Run Unit} (h : ∀ g, x g = (.ok (), g.write i)) :
    Follows x (Generator.emit i) :=
  follows_checked (.ok ()) (fun _ g _ => h g) (fun _ _ herror => by cases herror)

theorem follows_emit (op : Opcode) (h : op.operandWidths = []) : Follows (emit op) (Generator.emit (op.instruction [])) := by
  refine follows_write fun g => ?_
  rw [write, ← Code.writeTo_plain h]
  rfl

theorem follows_emitByte (op : Opcode) (h : op.operandWidths = [1]) {i : UInt8 → Instruction}
    (hi : ∀ n, op.instruction [n] = i (.ofNat n)) (operand : Nat) :
    Follows (emitByte op operand) (do Generator.emit (i (← Generator.checked (byteOperand op operand)))) := by
  refine follows_checked _ (fun byte g hbyte => ?_) (fun cause g hcause => ?_)
  · have hwrite := Code.writeTo_byte h g.emitter.chunk g.emitter.line operand
    obtain rfl : byte = .ofNat operand := by
      unfold byteOperand at hbyte
      split at hbyte <;> cases hbyte
      rfl
    rw [hi] at hwrite
    simp only [emitByte, callEmitter, Emitter.emitByte, hbyte, write, ← hwrite]
    rfl
  · simp only [emitByte, callEmitter, Emitter.emitByte, hcause]

theorem follows_emitWord (op : Opcode) (h : op.operandWidths = [2]) {i : UInt16 → Instruction}
    (hi : ∀ n, op.instruction [n] = i (.ofNat n)) (operand : Nat) :
    Follows (emitWord op operand) (do Generator.emit (i (← Generator.checked (wordOperand op operand)))) := by
  refine follows_checked _ (fun word g hword => ?_) (fun cause g hcause => ?_)
  · have hwrite := Code.writeTo_word h g.emitter.chunk g.emitter.line operand
    obtain rfl : word = .ofNat operand := by
      unfold wordOperand at hword
      split at hword <;> cases hword
      rfl
    rw [hi] at hwrite
    simp only [emitWord, callEmitter, Emitter.emitWord, hword, write, ← hwrite]
    rfl
  · simp only [emitWord, callEmitter, Emitter.emitWord, hcause]

/-- A constant is added before its place is checked. -/
theorem follows_emitConstant (c : Constant) : Follows (emitConstant c) (Generator.constant c) := by
  intro g front hfront
  let g' : CodeGenerator := { g with emitter := { g.emitter with pool := (g.emitter.pool.add c).2 } }
  exact (follows_emitWord .constant rfl (fun _ => rfl) (g.emitter.pool.add c).1 g' front hfront).of_nesting rfl

theorem follows_emitBool (value : Bool) : Follows (emitBool value) (Generator.emit (.bool value)) := by
  cases value with
  | true => exact follows_emit .pushTrue rfl
  | false => exact follows_emit .pushFalse rfl

theorem follows_load (symbol : Symbol) : Follows (load symbol) (Generator.load symbol) := by
  unfold load Generator.load
  cases symbol.storage with
  | global slot => exact follows_emitWord .getGlobal rfl (fun _ => rfl) slot
  | frame slot => exact follows_emitByte .getLocal rfl (fun _ => rfl) slot
  | builtin index => exact follows_emitByte .getBuiltin rfl (fun _ => rfl) index
  | captured index => exact follows_emitByte .getFree rfl (fun _ => rfl) index
  | running => exact follows_emit .currentClosure rfl

theorem follows_store (symbol : Symbol) : Follows (store symbol) (Generator.store symbol) := by
  unfold store Generator.store
  cases symbol.storage with
  | global slot => exact follows_emitWord .setGlobal rfl (fun _ => rfl) slot
  | frame slot => exact follows_emitByte .setLocal rfl (fun _ => rfl) slot
  | builtin | captured | running => exact fun g front _ => .failed rfl

/-- The operands of a closure are checked one after the other. -/
theorem follows_emitClosure (entry : Nat) (params : List Ident) (f : FunctionScope) :
    Follows (emitClosure entry params.length f.slots f.captures.length) (Generator.closure entry params f) := by
  intro g front hfront
  simp only [emitClosure, callEmitter, Emitter.emitClosure, Generator.closure]
  cases wordOperand .closure entry with
  | error cause => exact .failed rfl
  | ok entry =>
  cases byteOperand .closure params.length with
  | error cause => exact .failed rfl
  | ok params =>
  cases byteOperand .closure f.slots with
  | error cause => exact .failed rfl
  | ok locals =>
  cases byteOperand .closure f.captures.length with
  | error cause => exact .failed rfl
  | ok free => exact follows_write (x := fun g => (.ok (), g.write (.closure entry params locals free))) (fun _ => rfl) g front hfront

/-- Captured values are loaded one behind the other. -/
theorem follows_loadAll (symbols : List Symbol) {g : CodeGenerator} {front : List CodeLine} (code : Code)
    (h : g.emitter.chunk.Holds (front ++ code.toList)) :
    Agrees g (fun _ code g' => g'.emitter.chunk.Holds (front ++ code.toList)) (Generator.loadAll code symbols g.toGenerator)
      (loadAll symbols g) := by
  induction symbols generalizing g code with
  | nil => exact .done rfl h
  | cons symbol symbols ih =>
    refine (follows_load symbol g _ h).bind fun _ c g' hc => ih _ ?_
    simpa using hc

/-! ### Jumps -/

theorem emitJump_eq {op : Opcode} (h : op.operandWidths = [2]) (g : CodeGenerator) :
    emitJump op g = (.ok ⟨g.emitter.offset + 1⟩, g.write (op.instruction [0xFFFF])) := by
  rw [write, ← Code.writeTo_word h, ← Emitter.label_emitJump g.emitter op]
  rfl

/-- A jump is emitted where a generator from parts leaves room for it. -/
theorem agrees_emitJump (op : Opcode) (h : op.operandWidths = [2]) {g : CodeGenerator} {front : List CodeLine}
    (hfront : g.emitter.chunk.Holds front) :
    Agrees g (fun label line g' => label = ⟨codeSize front + 1⟩ ∧ line = g.emitter.line ∧
        g'.emitter.chunk.Holds (front ++ [⟨line, op.instruction [0xFFFF]⟩]) ∧
        g'.scope = g.scope ∧ g'.emitter.line = g.emitter.line)
      (Generator.reserve Generator.jumpSize g.toGenerator) (emitJump op g) := by
  have hreserve : Generator.reserve Generator.jumpSize g.toGenerator =
      .ok (g.emitter.line, (g.write (op.instruction [0xFFFF])).toGenerator) := by
    rw [toGenerator_write, Opcode.size_instruction, Opcode.operandSize, h]
    rfl
  rw [hreserve, emitJump_eq h]
  refine .done rfl ⟨?_, rfl, hfront.write _, rfl, rfl⟩
  rw [Emitter.offset, hfront.size_eq]

/-- A jump is patched where a generator from parts knows its target. -/
theorem agrees_patchJump (op : Opcode) (h : op.operandWidths = [2]) {g : CodeGenerator} {front back : List CodeLine}
    {line old : Nat} (hholds : g.emitter.chunk.Holds (front ++ ⟨line, op.instruction [old]⟩ :: back)) :
    Agrees g (fun _ target g' => ∃ offset, target = .ofNat offset ∧
        g'.emitter.chunk.Holds (front ++ ⟨line, op.instruction [offset]⟩ :: back))
      (Generator.here g.toGenerator) (patchJump ⟨codeSize front + 1⟩ g) := by
  have hhere : Generator.here g.toGenerator = Generator.checked (jumpTarget g.emitter.offset) g.toGenerator := rfl
  have hpatch : patchJump ⟨codeSize front + 1⟩ g =
      ((g.emitter.patchJump ⟨codeSize front + 1⟩).1, { g with emitter := (g.emitter.patchJump ⟨codeSize front + 1⟩).2 }) := rfl
  rw [hhere, hpatch, jumpTarget]
  by_cases hfits : g.emitter.offset < 65536
  · rw [if_pos hfits, Emitter.patchJump_of_lt hfits]
    have hsize := g.emitter.chunk.size_patchU16? (codeSize front + 1) (.ofNat g.emitter.offset)
    have hafter : g.toGenerator = toGenerator { g with emitter := { g.emitter with
        chunk := (g.emitter.chunk.patchU16? (codeSize front + 1) (.ofNat g.emitter.offset)).getD g.emitter.chunk } } := by
      simp only [toGenerator, Emitter.offset] at hsize ⊢
      rw [hsize]
    rw [hafter]
    exact .done rfl ⟨_, rfl, hholds.patch h _⟩
  · rw [if_neg hfits, Emitter.patchJump_of_not_lt hfits]
    exact .failed rfl

/-! ### Functions -/

theorem defineAll_spec (params : List Ident) (g : CodeGenerator) : ∃ scope, scope.enclosing = g.scope.enclosing ∧
    defineAll params g = (.ok (), { g with scope }) ∧
    Generator.defineAll params g.toGenerator = .ok ((), toGenerator { g with scope }) := by
  induction params generalizing g with
  | nil => exact ⟨g.scope, rfl, rfl, rfl⟩
  | cons param params ih => exact ih { g with scope := (g.scope.define param.name).2 }

theorem enterFunction_spec (name : Option String) (params : List Ident) (g : CodeGenerator) :
    ∃ scope, scope.enclosing.length = g.nesting + 1 ∧ enterFunction name params g = (.ok (), { g with scope }) ∧
      Generator.enterFunction name params g.toGenerator = .ok ((), toGenerator { g with scope }) := by
  cases name with
  | none =>
    obtain ⟨scope, henclosing, hrun, hgen⟩ := defineAll_spec params { g with scope := g.scope.enter }
    exact ⟨scope, congrArg List.length henclosing, hrun, hgen⟩
  | some name =>
    obtain ⟨scope, henclosing, hrun, hgen⟩ := defineAll_spec params { g with scope := (g.scope.enter.defineRunning name).2 }
    exact ⟨scope, congrArg List.length henclosing, hrun, hgen⟩

theorem leaveFunction_spec {g : CodeGenerator} {count : Nat} (h : g.nesting = count + 1) :
    ∃ f scope, scope.enclosing.length = count ∧ leaveFunction g = (.ok f, { g with scope }) ∧
      Generator.leaveFunction g.toGenerator = .ok (f, toGenerator { g with scope }) := by
  obtain ⟨emitter, current, _ | ⟨outer, rest⟩⟩ := g
  · cases h
  · exact ⟨current, ⟨outer, rest⟩, Nat.succ.inj h, rfl, rfl⟩

theorem follows_function {body : List Stmt} (hbody : Follows (functionStmts body) (Generator.functionStmts #[] body))
    (name : Option String) (params : List Ident) (blockSpan span : Span) :
    Follows (function name params span (.mk body blockSpan)) (Generator.expr name (.function params (.mk body blockSpan) span)) := by
  intro g front hfront
  rw [function, Generator.expr]
  refine (agrees_emitJump .jump rfl hfront).bind ?_
  rintro _ _ g₁ ⟨rfl, rfl, hjump, -⟩
  have hentry : Agrees g₁ (fun entry g g' => entry = g.offset ∧ g₁ = g') ((get : Gen Generator) g₁.toGenerator) (offset g₁) :=
    .done rfl ⟨rfl, rfl⟩
  refine hentry.bind ?_
  rintro _ entry _ ⟨rfl, rfl⟩
  obtain ⟨scope, hinside, hrun, hgen⟩ := enterFunction_spec name params g₁
  rw [gen_bind_of_ok hgen, bind_of_ok hrun, Generator.functionBody]
  have hcode := hbody { g₁ with scope } _ hjump
  generalize hz : Generator.functionStmts #[] body (toGenerator { g₁ with scope }) = z,
    hr : functionStmts body { g₁ with scope } = r at hcode
  cases hcode with
  | @failed cause g' hnesting =>
    -- The function is left although its body has failed, and then the failure of the body is given.
    have hattempt : attempt (functionStmts body) { g₁ with scope } = (.ok (.error cause), g') := by simp only [attempt, hr]
    obtain ⟨f, outside, houtside, hleave, -⟩ := leaveFunction_spec (hnesting.trans hinside)
    rw [gen_bind_of_error hz, bind_of_ok hattempt, bind_of_ok hleave, answer_error_bind]
    exact .failed houtside
  | @done _ code g' hnesting hholds =>
    have hattempt : attempt (functionStmts body) { g₁ with scope } = (.ok (.ok ()), g') := by simp only [attempt, hr]
    obtain ⟨f, outside, houtside, hleave, hleave'⟩ := leaveFunction_spec (hnesting.trans hinside)
    rw [gen_bind_of_ok hz, gen_bind_of_ok hleave', bind_of_ok hattempt, bind_of_ok hleave, answer_ok_bind]
    refine Agrees.of_nesting (g := { g' with scope := outside }) ?_ houtside
    refine (agrees_patchJump .jump rfl (by simpa using hholds)).bind ?_
    rintro _ _ g₂ ⟨target, rfl, hpatched⟩
    refine (keeps_setLine span.line g₂).bind ?_
    rintro _ _ g₃ ⟨-, hchunk⟩
    rw [← hchunk] at hpatched
    refine (follows_loadAll f.captures #[] (by simpa using hpatched)).bind fun _ loads g₄ hloads => ?_
    refine (follows_emitClosure entry.offset params f g₄ _ hloads).map fun _ make g₅ hmake => ?_
    simpa [Opcode.instruction] using hmake

theorem follows_ifElse {condition : Expr} {thenBlock : Block} {elseBlock : Option Block}
    (hcondition : Follows (expr condition) (Generator.expr none condition))
    (hthen : Follows (valueBlock thenBlock) (Generator.valueBlock thenBlock))
    (helse : Follows (elseValue elseBlock) (Generator.elseValue elseBlock)) (name : Option String) (span : Span) :
    Follows (expr (.ifElse condition thenBlock elseBlock span)) (Generator.expr name (.ifElse condition thenBlock elseBlock span)) := by
  intro g front hfront
  rw [expr, Generator.expr]
  refine (hcondition g front hfront).bind fun _ code g₁ hcode => ?_
  refine (agrees_emitJump .jumpIfFalse rfl hcode).bind ?_
  rintro _ skipLine g₂ ⟨rfl, -, hskip, -⟩
  refine (hthen g₂ _ hskip).bind fun _ thenCode g₃ hthenCode => ?_
  refine (agrees_emitJump .jump rfl hthenCode).bind ?_
  rintro _ leaveLine g₄ ⟨rfl, -, hleave, -⟩
  refine (agrees_patchJump .jumpIfFalse rfl (by simpa using hleave)).bind ?_
  rintro _ _ g₅ ⟨skip, rfl, hpatched⟩
  refine (helse g₅ _ hpatched).bind fun _ elseCode g₆ helseCode => ?_
  -- The patch has not moved the jump to the end.
  have hlabel : codeSize (front ++ code.toList ++ [⟨skipLine, Opcode.jumpIfFalse.instruction [0xFFFF]⟩] ++ thenCode.toList) =
      codeSize (front ++ code.toList ++ [⟨skipLine, Opcode.jumpIfFalse.instruction [skip]⟩] ++ thenCode.toList) := by
    simp [Opcode.size_instruction]
  rw [hlabel]
  refine (agrees_patchJump .jump rfl (by simpa using helseCode)).map ?_
  rintro _ _ g₇ ⟨leave, rfl, hpatched⟩
  simpa [Opcode.instruction] using hpatched

theorem follows_valueBlock {body : List Stmt} (hbody : Follows (valueStmts body) (Generator.valueStmts #[] body)) (span : Span) :
    Follows (valueBlock (.mk body span)) (Generator.valueBlock (.mk body span)) := by
  intro g front hfront
  rw [valueBlock, Generator.valueBlock]
  refine (keeps_modifyScope SymbolScope.openBlock (fun _ => rfl) g).bind ?_
  rintro _ _ g₁ ⟨-, hchunk⟩
  rw [← hchunk] at hfront
  have hcode := hbody g₁ front hfront
  generalize hz : Generator.valueStmts #[] body g₁.toGenerator = z, hr : valueStmts body g₁ = r at hcode
  cases hcode with
  | @failed cause g' hnesting =>
    have hattempt : attempt (valueStmts body) g₁ = (.ok (.error cause), g') := by simp only [attempt, hr]
    rw [gen_bind_of_error hz, bind_of_ok hattempt]
    exact .failed (show nesting { g' with scope := g'.scope.closeBlock } = g₁.nesting from hnesting)
  | @done _ code g' hnesting hholds =>
    have hattempt : attempt (valueStmts body) g₁ = (.ok (.ok ()), g') := by simp only [attempt, hr]
    rw [gen_bind_of_ok hz, bind_of_ok hattempt]
    exact .done (show nesting { g' with scope := g'.scope.closeBlock } = g₁.nesting from hnesting) hholds

theorem follows_pure : Follows (pure ()) (pure #[]) :=
  fun g front hfront => .done rfl (by simpa using hfront)

theorem Follows.congr {x : Run Unit} {y y' : Gen Code} (h : Follows x y) (heq : y' = y) : Follows x y' := heq ▸ h

/-- Code behind code. -/
theorem Follows.seq {x x' : Run Unit} {y y' : Gen Code} (h : Follows x y) (h' : Follows x' y') :
    Follows (do x; x') (do let c ← y; let d ← y'; return c ++ d) := by
  intro g front hfront
  refine (h g front hfront).bind fun _ c g' hc => (h' g' _ hc).map fun _ d g'' hd => ?_
  simpa using hd

/-- A step without code in front of code. -/
theorem Follows.after {α : Type} {x : Run α} {y : Gen α} {x' : α → Run Unit} {y' : α → Gen Code} (h : Keeps x y)
    (h' : ∀ a, Follows (x' a) (y' a)) : Follows (x >>= x') (y >>= y') := by
  intro g front hfront
  refine (h g).bind ?_
  rintro a _ g' ⟨rfl, hchunk⟩
  exact h' a g' front (hchunk ▸ hfront)

end CodeGenerator

/-! ### Phrases -/

open CodeGenerator

def Phrase.emit : Phrase → Run Unit
  | expr none e => CodeGenerator.expr e
  | expr (some name) e =>
    match e.function? with
    | some _ => boundFunction name e
    | none => CodeGenerator.expr e
  | operands rest => CodeGenerator.operands rest
  | exprs es => CodeGenerator.exprs es
  | pairs ps => CodeGenerator.hashPairs ps
  | otherwise block => CodeGenerator.elseValue block
  | stmt s => CodeGenerator.stmt s
  | stmts ss => CodeGenerator.stmts ss
  | valueBlock block => CodeGenerator.valueBlock block
  | valueStmts ss => CodeGenerator.valueStmts ss
  | functionStmts ss => CodeGenerator.functionStmts ss

namespace Phrase

theorem emit_of_function? {e : Expr} (h : e.function? = none) (name : Option String) :
    (expr name e).emit = CodeGenerator.expr e := by
  cases name with
  | none => rfl
  | some name => rw [emit, h]

theorem emit_function (name : Option String) (params : List Ident) (body : Block) (span : Span) :
    (expr name (.function params body span)).emit = CodeGenerator.function name params span body := by
  cases name with
  | none => rw [emit, CodeGenerator.expr]
  | some name =>
    have hfunction : (Expr.function params body span).function? = some (params, body, span) := rfl
    rw [emit, hfunction, boundFunction]

theorem emit_paren (name : Option String) (inner : Expr) (span : Span) :
    (expr name (.paren inner span)).emit = (expr name inner).emit := by
  cases name with
  | none => rw [emit, emit, CodeGenerator.expr]
  | some name =>
    have hfunction : (Expr.paren inner span).function? = inner.function? := rfl
    rw [emit, emit, hfunction, boundFunction, CodeGenerator.expr]

/-- Emitting a phrase puts its code behind the code that is there. -/
theorem follows (p : Phrase) : Follows p.emit p.generate := by
  induction p using Phrase.induction with
  | int name value span =>
    rw [emit_of_function? rfl, generate, CodeGenerator.expr, Generator.expr]
    exact follows_emitConstant _
  | string name value span =>
    rw [emit_of_function? rfl, generate, CodeGenerator.expr, Generator.expr]
    exact follows_emitConstant _
  | bool name value span =>
    rw [emit_of_function? rfl, generate, CodeGenerator.expr, Generator.expr]
    exact follows_emitBool value
  | ident name id =>
    rw [emit_of_function? rfl, generate, CodeGenerator.expr, Generator.expr]
    exact .after (keeps_resolve id) follows_load
  | chain name level first rest span ihfirst ihrest =>
    rw [emit_of_function? rfl, generate_chain, CodeGenerator.expr]
    exact ihfirst.seq ihrest
  | unary name op operand span ih =>
    rw [emit_of_function? rfl, generate, CodeGenerator.expr, Generator.expr]
    cases op with
    | neg => exact ih.seq (follows_emit .minus rfl)
    | not => exact ih.seq (follows_emit .bang rfl)
  | call name callee args span ihcallee ihargs =>
    rw [emit_of_function? rfl, generate_call, CodeGenerator.expr]
    have hcall := follows_emitByte .call rfl (fun _ => rfl) args.length
    exact (ihcallee.seq (ihargs.seq hcall)).congr (by simp)
  | index name object index span ihobject ihindex =>
    rw [emit_of_function? rfl, generate, CodeGenerator.expr, Generator.expr]
    have hindex : Follows (CodeGenerator.emit .index) (Generator.emit .index) := follows_emit _ rfl
    exact (ihobject.seq (ihindex.seq hindex)).congr (by simp [generate])
  | array name elements span ih =>
    rw [emit_of_function? rfl, generate, CodeGenerator.expr, Generator.expr]
    have harray := follows_emitWord .array rfl (fun _ => rfl) elements.length
    exact (ih.seq harray).congr (by simp [generate])
  | hash name ps brace span ih =>
    rw [emit_of_function? rfl, generate, CodeGenerator.expr, Generator.expr]
    have hhash := follows_emitWord .hash rfl (fun _ => rfl) ps.length
    exact (ih.seq hhash).congr (by simp [generate])
  | function name params body blockSpan span ih =>
    rw [emit_function]
    exact follows_function ih name params blockSpan span
  | ifElse name condition thenBlock elseBlock span ihcondition ihthen ihelse =>
    rw [emit_of_function? rfl]
    exact follows_ifElse ihcondition ihthen ihelse name span
  | paren name inner span ih =>
    rw [emit_paren, generate, Generator.expr]
    exact ih
  | operandsNil | exprsNil | pairsNil | stmtsNil => exact follows_pure
  | operandsCons op operand rest ihoperand ihrest =>
    rw [emit, generate_operands_cons, CodeGenerator.operands]
    have hoperator : Follows (CodeGenerator.emit op.opcode) (Generator.emit (.binary op)) := by
      cases op <;> exact follows_emit _ rfl
    exact (ihoperand.seq (hoperator.seq ihrest)).congr (by simp)
  | exprsCons e rest ihfirst ihrest =>
    rw [emit, generate_exprs_cons, CodeGenerator.exprs]
    exact ihfirst.seq ihrest
  | pairsCons key value rest ihkey ihvalue ihrest =>
    rw [emit, generate_pairs_cons, CodeGenerator.hashPairs]
    exact (ihkey.seq (ihvalue.seq ihrest)).congr (by simp)
  | otherwiseNone => exact follows_emit .pushNull rfl
  | otherwiseSome block ih => exact ih
  | letStmt name value span ih =>
    have hlet : (stmt (.letStmt name value span)).emit = (do
        CodeGenerator.setLine span.line
        (expr (some name.name) value).emit
        CodeGenerator.store (← CodeGenerator.define name.name)) := by
      change CodeGenerator.stmt (.letStmt name value span) = _
      rw [CodeGenerator.stmt, emit]
      cases value.function? <;> rfl
    rw [hlet, generate, Generator.stmt]
    refine .after (keeps_setLine span.line) fun _ => ?_
    exact (ih.seq (.after (keeps_define name.name) follows_store)).congr (by simp [generate])
  | returnStmt value span ih =>
    rw [emit, generate, CodeGenerator.stmt, Generator.stmt]
    exact .after (keeps_setLine span.line) fun _ => ih.seq (follows_emit .returnValue rfl)
  | exprStmt e span ih =>
    rw [emit, generate, CodeGenerator.stmt, Generator.stmt]
    exact .after (keeps_setLine span.line) fun _ => ih.seq (follows_emit .pop rfl)
  | stmtsCons s rest ihfirst ihrest =>
    rw [emit, generate_stmts_cons, CodeGenerator.stmts]
    exact ihfirst.seq ihrest
  | valueBlock body span ih => exact follows_valueBlock ih span
  | valueNil => exact follows_emit .pushNull rfl
  | valueLast s ih ihexpr =>
    have hnull : Follows (CodeGenerator.emit .pushNull) (Generator.emit .null) := follows_emit _ rfl
    cases s with
    | exprStmt e span =>
      rw [emit, generate, CodeGenerator.valueStmts, Generator.valueStmts]
      exact .after (keeps_setLine span.line) fun _ => (ihexpr e span rfl).congr (by simp [generate])
    | letStmt | returnStmt =>
      rw [emit, generate, CodeGenerator.valueStmts, Generator.valueStmts]
      · exact (ih.seq hnull).congr (by simp [generate])
      all_goals simp
  | valueCons s next rest ihfirst ihrest =>
    rw [emit, generate_valueStmts_cons, CodeGenerator.valueStmts]
    exact ihfirst.seq ihrest
  | functionNil => exact follows_emit .returnNull rfl
  | functionLast s ih ihexpr =>
    cases s with
    | exprStmt e span =>
      have hreturn : Follows (CodeGenerator.emit .returnValue) (Generator.emit .returnValue) := follows_emit _ rfl
      rw [emit, generate, CodeGenerator.functionStmts, Generator.functionStmts]
      exact .after (keeps_setLine span.line) fun _ => ((ihexpr e span rfl).seq hreturn).congr (by simp [generate])
    | letStmt name value span =>
      have hnull : Follows (CodeGenerator.emit .returnNull) (Generator.emit .returnNull) := follows_emit _ rfl
      rw [emit, generate, CodeGenerator.functionStmts, Generator.functionStmts]
      exact (ih.seq hnull).congr (by simp [generate])
    | returnStmt value span =>
      rw [emit, generate, CodeGenerator.functionStmts, Generator.functionStmts]
      exact ih.congr (by simp [generate])
  | functionCons s next rest ihfirst ihrest =>
    rw [emit, generate_functionStmts_cons, CodeGenerator.functionStmts]
    exact ihfirst.seq ihrest

end Phrase

/-- Emitting and patching gives the code of a program that is put together from parts, and fails for the same reasons. -/
theorem generate_eq_assemble (program : Program) : generate program = Generator.assemble program := by
  have hinitial : CodeGenerator.initial.emitter.chunk.Holds [] := ⟨rfl, rfl⟩
  have hrun := (Phrase.stmts program.stmts).follows .initial [] hinitial
  unfold generate Generator.assemble
  change Agrees _ _ (Generator.stmts #[] program.stmts Generator.initial) (CodeGenerator.stmts program.stmts .initial) at hrun
  generalize hz : Generator.stmts #[] program.stmts Generator.initial = z,
    hr : CodeGenerator.stmts program.stmts .initial = r at hrun
  cases hrun with
  | @done _ code g _ hholds =>
    have hchunk : g.emitter.chunk = code.toChunk := hholds.eq code.holds_toChunk
    exact congrArg (fun chunk => Except.ok (Executable.mk chunk g.emitter.pool)) hchunk
  | failed => rfl

end MonkeyLang
