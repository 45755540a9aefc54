import MonkeyLang.Proofs.ControlFlow
import MonkeyLang.Proofs.Derivation
/-!
# The height of the stack

Whatever path the machine takes through generated code, it comes to an instruction with the same number of values on the
stack of the function it is in. The code of an expression leaves one value more than it finds, that of a statement as
many, and that of a function's body starts with none and only ever returns. So a height can be assigned to every
instruction, and none takes more values than there are.
-/

namespace MonkeyLang

namespace Opcode

def pops (op : Opcode) (operands : List Nat) : Nat :=
  match op, operands with
  | pop, _ | minus, _ | bang, _ | jumpIfFalse, _ | setGlobal, _ | setLocal, _ | returnValue, _ => 1
  | add, _ | sub, _ | mul, _ | div, _ | equal, _ | notEqual, _ | greaterThan, _ | lessThan, _ | greaterEqual, _
  | lessEqual, _ | index, _ => 2
  | closure, [_, _, _, free] => free
  | array, [size] => size
  | hash, [pairs] => 2 * pairs
  | call, [args] => args + 1
  | _, _ => 0

def pushes : Opcode → Nat
  | pop | jump | jumpIfFalse | setGlobal | setLocal | returnValue | returnNull => 0
  | _ => 1

end Opcode

namespace Instruction

def pops (i : Instruction) : Nat := i.opcode.pops i.operands

def pushes (i : Instruction) : Nat := i.opcode.pushes

end Instruction

/-- A height of the stack for each offset of a chunk that all paths through its code agree on. -/
structure Chunk.Balanced (c : Chunk) (height : Nat → Nat) : Prop where
  decodes : ∀ offset step, (offset, step) ∈ c.steps → ∃ op operands, step = .complete op operands
  starts : height 0 = 0
  ends : height c.size = 0
  /-- Bodies of functions start with an empty stack. -/
  enters : ∀ offset op operands, (offset, .complete op operands) ∈ c.steps →
    ∀ entry ∈ op.entries operands, ((∃ step, (entry, step) ∈ c.steps) ∨ entry = c.size) ∧ height entry = 0
  /-- No instruction takes more values than there are. -/
  enough : ∀ offset op operands, (offset, .complete op operands) ∈ c.steps → op.pops operands ≤ height offset
  /-- Each way on leads to an instruction or to the end, and the height is what the instruction makes it. -/
  leads : ∀ offset op operands, (offset, .complete op operands) ∈ c.steps →
    ∀ target ∈ op.successors operands (offset + 1 + op.operandSize),
      ((∃ step, (target, step) ∈ c.steps) ∨ target = c.size) ∧
        height target + op.pops operands = height offset + op.pushes
  returns : ∀ offset operands, (offset, .complete .returnValue operands) ∈ c.steps → 1 ≤ height offset

/-- Annotations with the height of the stack. The body of a closure starts with an empty one. -/
def stackHeight : Transfer Nat where
  allows i height := i.pops ≤ height
  leads i height next := next = height - i.pops + i.pushes
  enters _ _ next := next = 0

namespace Phrase

/-- The number of values that the code of a phrase leaves on the stack. -/
def growth : Phrase → Nat
  | expr _ _ | otherwise _ | valueBlock _ | valueStmts _ => 1
  | operands _ | stmt _ | stmts _ | functionStmts _ => 0
  | exprs es => es.length
  | pairs ps => 2 * ps.length

/-- The number of values that the code of a phrase finds on the stack and works with. -/
def needs : Phrase → Nat
  | operands _ => 1
  | _ => 0

/-- Where the code of a phrase is left, if it ends at an offset and starts with a height: that of a function's body only
returns. -/
def exits (p : Phrase) (offset height : Nat) : List (Nat × Nat) :=
  match p with
  | functionStmts _ => []
  | p => [(offset, height + p.growth)]

end Phrase

theorem plain_of_load? {storage : Storage} {i : Instruction} (h : storage.load? = some i) :
    i.Plain ∧ i.pops = 0 ∧ i.pushes = 1 := by
  cases storage with
  | running =>
    cases h
    exact ⟨⟨fun _ => rfl, rfl⟩, rfl, rfl⟩
  | global slot | frame slot | builtin slot | captured slot =>
    simp only [Storage.load?, Option.ite_none_right_eq_some, Option.some.injEq] at h
    obtain ⟨-, rfl⟩ := h
    exact ⟨⟨fun _ => rfl, rfl⟩, rfl, rfl⟩

theorem plain_of_store? {storage : Storage} {i : Instruction} (h : storage.store? = some i) :
    i.Plain ∧ i.pops = 1 ∧ i.pushes = 0 := by
  cases storage with
  | builtin _ | captured _ | running => cases h
  | global slot | frame slot =>
    simp only [Storage.store?, Option.ite_none_right_eq_some, Option.some.injEq] at h
    obtain ⟨-, rfl⟩ := h
    exact ⟨⟨fun _ => rfl, rfl⟩, rfl, rfl⟩

theorem plain_binary (op : BinaryOp) : (Instruction.binary op).Plain := by
  cases op <;> exact ⟨fun _ => rfl, rfl⟩

theorem plain_unary (op : UnaryOp) : (Instruction.unary op).Plain := by
  cases op <;> exact ⟨fun _ => rfl, rfl⟩

theorem size_unary (op : UnaryOp) : (Instruction.unary op).size = 1 := by cases op <;> rfl

theorem size_binary (op : BinaryOp) : (Instruction.binary op).size = 1 := by cases op <;> rfl

/-- A piece of code and a plain instruction behind it. -/
theorem Flow.andThen {offset middle stop line height height' next : Nat} {c : List CodeLine} {i : Instruction}
    (hc : Flow stackHeight offset c height [(middle, height')]) (hmiddle : middle = offset + codeSize c)
    (hplain : i.Plain) (hstop : stop = middle + i.size) (hpops : i.pops ≤ height')
    (hnext : next = height' - i.pops + i.pushes) :
    Flow stackHeight offset (c ++ [⟨line, i⟩]) height [(stop, next)] :=
  hstop ▸ hc.append (.plain hplain hpops hnext) hmiddle

/-- A piece of code and a return behind it, which is left nowhere. -/
theorem Flow.andReturn {offset middle line height height' : Nat} {c : List CodeLine} {i : Instruction}
    {exits : List (Nat × Nat)} (hc : Flow stackHeight offset c height [(middle, height')])
    (hmiddle : middle = offset + codeSize c) (hreturn : i = .returnValue ∨ i = .returnNull) (hpops : i.pops ≤ height') :
    Flow stackHeight offset (c ++ [⟨line, i⟩]) height exits := by
  refine hc.append (.instruction ⟨hpops, ?_, ?_⟩) hmiddle
  · rcases hreturn with rfl | rfl <;> intro target htarget <;> cases htarget
  · rcases hreturn with rfl | rfl <;> intro target htarget <;> cases htarget

theorem flow_load {storage : Storage} {i : Instruction} (h : storage.load? = some i) (line offset height : Nat) :
    Flow stackHeight offset [⟨line, i⟩] height [(offset + i.size, height + 1)] := by
  obtain ⟨hplain, hpops, hpushes⟩ := plain_of_load? h
  refine .plain hplain ?_ ?_
  · change i.pops ≤ height
    rw [hpops]
    exact Nat.zero_le height
  · change height + 1 = height - i.pops + i.pushes
    rw [hpops, hpushes, Nat.sub_zero]

/-- Loading values one behind the other. -/
theorem flow_loads {symbols : List Symbol} {loads : List Instruction}
    (h : List.Forall₂ (fun symbol i => symbol.storage.load? = some i) symbols loads) (line offset height : Nat) :
    Flow stackHeight offset (loads.map fun i => ⟨line, i⟩) height
      [(offset + codeSize (loads.map fun i => ⟨line, i⟩), height + symbols.length)] := by
  induction h generalizing offset height with
  | nil => exact .nil offset height
  | @cons symbol i symbols loads hload hrest ih =>
    have hjoined := (flow_load hload line offset height).append (ih (offset + i.size) (height + 1)) (by simp)
    simpa [Nat.add_assoc, Nat.add_comm 1] using hjoined

/-- The code of every phrase has a height at every instruction, whatever height it starts with. -/
theorem Generates.balanced {p : Phrase} {g g' : Generator} {code : List CodeLine} (h : Generates p g code g')
    (height : Nat) (hneeds : p.needs ≤ height) : Flow stackHeight g.offset code height (p.exits g'.offset height) := by
  induction h generalizing height with
  | constant hconstant hadd hplace => exact .plain ⟨fun _ => rfl, rfl⟩ (Nat.zero_le _) rfl
  | @bool name value span g =>
    cases value <;> exact .plain ⟨fun _ => rfl, rfl⟩ (Nat.zero_le _) rfl
  | ident hresolve hload =>
    exact flow_load hload _ _ height
  | chain hfirst hrest ihfirst ihrest =>
    exact (ihfirst height (Nat.zero_le _)).append (ihrest (height + 1) (Nat.le_add_left 1 _)) hfirst.offset_eq
  | @unary name op operand span g c g₁ hoperand ih =>
    refine (ih height (Nat.zero_le _)).andThen hoperand.offset_eq (plain_unary op) ?_ ?_ ?_
    · rw [size_unary, Generator.offset_skip]
    · cases op <;> exact Nat.le_add_left 1 _
    · cases op <;> rfl
  | @call name callee args span g c g₁ d g₂ hcallee hargs hcount ihcallee ihargs =>
    have hboth := (ihcallee height (Nat.zero_le _)).append (ihargs (height + 1) (Nat.zero_le _)) hcallee.offset_eq
    have hsize : g₂.offset = g.offset + codeSize (c ++ d) := by
      rw [hargs.offset_eq, hcallee.offset_eq, codeSize_append, Nat.add_assoc]
    have hpops : (Instruction.call (.ofNat args.length)).pops = args.length + 1 :=
      congrArg (· + 1) (toNat_ofNat_byte hcount)
    refine hboth.andThen hsize ⟨fun _ => rfl, rfl⟩ rfl ?_ ?_
    · rw [hpops, Phrase.growth]
      omega
    · rw [hpops, Phrase.growth, Phrase.growth]
      change height + 1 = height + 1 + args.length - (args.length + 1) + 1
      omega
  | @index name object index span g c g₁ d g₂ hobject hindex ihobject ihindex =>
    have hboth := (ihobject height (Nat.zero_le _)).append (ihindex (height + 1) (Nat.zero_le _)) hobject.offset_eq
    have hsize : g₂.offset = g.offset + codeSize (c ++ d) := by
      rw [hindex.offset_eq, hobject.offset_eq, codeSize_append, Nat.add_assoc]
    exact hboth.andThen hsize ⟨fun _ => rfl, rfl⟩ rfl (Nat.le_add_left 2 height) rfl
  | @array name elements span g c g₁ helements hcount ih =>
    have hpops : (Instruction.array (.ofNat elements.length)).pops = elements.length := toNat_ofNat_word hcount
    refine (ih height (Nat.zero_le _)).andThen helements.offset_eq ⟨fun _ => rfl, rfl⟩ rfl ?_ ?_
    · rw [hpops]
      exact Nat.le_add_left _ _
    · rw [hpops]
      change height + 1 = height + elements.length - elements.length + 1
      omega
  | @hash name ps brace span g c g₁ hpairs hcount ih =>
    have hpops : (Instruction.hash (.ofNat ps.length)).pops = 2 * ps.length :=
      congrArg (2 * ·) (toNat_ofNat_word hcount)
    refine (ih height (Nat.zero_le _)).andThen hpairs.offset_eq ⟨fun _ => rfl, rfl⟩ rfl ?_ ?_
    · rw [hpops]
      exact Nat.le_add_left _ _
    · rw [hpops]
      change height + 1 = height + 2 * ps.length - 2 * ps.length + 1
      omega
  | @function name params body blockSpan span g c g₁ f scope loads hbody hleave htarget hloads hentry hparams hlocals
      hfree ih =>
    have hafter := toNat_ofNat_word htarget
    let make := Instruction.closure (.ofNat (g.offset + 3)) (.ofNat params.length) (.ofNat f.slots)
      (.ofNat f.captures.length)
    have hpops : make.pops = f.captures.length := toNat_ofNat_byte hfree
    have hallows : make.pops ≤ height + f.captures.length := hpops ▸ Nat.le_add_left _ height
    have hleads : height + 1 = height + f.captures.length - make.pops + make.pushes := by
      rw [hpops, Nat.add_sub_cancel]
      rfl
    have hall := Flow.function (T := stackHeight) g.line span.line (Nat.zero_le height) rfl (ih 0 (Nat.zero_le 0))
      (hafter.trans hbody.offset_eq) (flow_loads hloads span.line _ height) rfl hallows hleads rfl
      (toNat_ofNat_word hentry)
    rw [hafter, Nat.add_assoc] at hall
    exact hall
  | @ifElse name condition thenBlock elseBlock span g c g₁ d g₂ e g₃ hcondition hthen hskip helse hleave ihcondition
      ihthen ihelse =>
    have hleave := toNat_ofNat_word hleave
    have hall := Flow.branch (T := stackHeight) g₁.line g₂.line (ihcondition height (Nat.zero_le _)) hcondition.offset_eq
      (Nat.le_add_left 1 height) rfl (ihthen height (Nat.zero_le _)) hthen.offset_eq (toNat_ofNat_word hskip)
      (Nat.zero_le _) rfl (hleave.symm ▸ ihelse height (Nat.zero_le _))
    rw [hleave] at hall
    exact hall
  | paren hinner ih => exact ih height (Nat.zero_le _)
  | operandsNil => exact .nil _ height
  | @operandsCons op operand rest g c g₁ d g₂ hoperand hrest ihoperand ihrest =>
    have hfolded : Flow stackHeight g.offset (c ++ [⟨g₁.line, .binary op⟩]) height [(g₁.offset + 1, height)] := by
      refine (ihoperand height (Nat.zero_le _)).andThen hoperand.offset_eq (plain_binary op) ?_ ?_ ?_
      · rw [size_binary]
      · cases op <;> exact Nat.succ_le_succ hneeds
      · cases op <;> exact (Nat.sub_add_cancel hneeds).symm
    have hall := hfolded.append (ihrest height hneeds) (by simp [size_binary, hoperand.offset_eq, Nat.add_assoc])
    simpa [Phrase.exits, Phrase.growth] using hall
  | exprsNil => exact .nil _ height
  | exprsCons hfirst hrest ihfirst ihrest =>
    have hall := (ihfirst height (Nat.zero_le _)).append (ihrest (height + 1) (Nat.zero_le _)) hfirst.offset_eq
    simpa [Phrase.exits, Phrase.growth, Nat.add_assoc, Nat.add_comm 1] using hall
  | pairsNil => exact .nil _ height
  | @pairsCons key value rest g c g₁ d g₂ e g₃ hkey hvalue hrest ihkey ihvalue ihrest =>
    have hboth := (ihkey height (Nat.zero_le _)).append (ihvalue (height + 1) (Nat.zero_le _)) hkey.offset_eq
    have hsize : g₂.offset = g.offset + codeSize (c ++ d) := by
      rw [hvalue.offset_eq, hkey.offset_eq, codeSize_append, Nat.add_assoc]
    have hall := hboth.append (ihrest (height + 2) (Nat.zero_le _)) hsize
    have hgrowth : height + 2 + 2 * rest.length = height + 2 * (rest.length + 1) := by omega
    simpa [Phrase.exits, Phrase.growth, hgrowth] using hall
  | otherwiseNone => exact .plain ⟨fun _ => rfl, rfl⟩ (Nat.zero_le _) rfl
  | otherwiseSome hblock ih => exact ih height (Nat.zero_le _)
  | letStmt hvalue hstore ih =>
    obtain ⟨hplain, hpops, hpushes⟩ := plain_of_store? hstore
    refine (ih height (Nat.zero_le _)).andThen hvalue.offset_eq hplain rfl ?_ ?_
    · rw [hpops]
      exact Nat.le_add_left 1 height
    · rw [hpops, hpushes]
      rfl
  | returnStmt hvalue ih =>
    exact (ih height (Nat.zero_le _)).andReturn hvalue.offset_eq (.inl rfl) (Nat.le_add_left 1 height)
  | exprStmt hexpr ih =>
    exact (ih height (Nat.zero_le _)).andThen hexpr.offset_eq ⟨fun _ => rfl, rfl⟩ rfl (Nat.le_add_left 1 height) rfl
  | stmtsNil => exact .nil _ height
  | stmtsCons hfirst hrest ihfirst ihrest =>
    exact (ihfirst height (Nat.zero_le _)).append (ihrest height (Nat.zero_le _)) hfirst.offset_eq
  | valueBlock hbody ih => exact ih height (Nat.zero_le _)
  | valueNil => exact .plain ⟨fun _ => rfl, rfl⟩ (Nat.zero_le _) rfl
  | valueExpr hexpr ih => exact ih height (Nat.zero_le _)
  | valueLast hkind hlast ih =>
    exact (ih height (Nat.zero_le _)).andThen hlast.offset_eq ⟨fun _ => rfl, rfl⟩ rfl (Nat.zero_le _) rfl
  | valueCons hfirst hrest ihfirst ihrest =>
    exact (ihfirst height (Nat.zero_le _)).append (ihrest height (Nat.zero_le _)) hfirst.offset_eq
  | functionNil => exact (Flow.nil _ height).andReturn rfl (.inr rfl) (Nat.zero_le _)
  | functionExpr hexpr ih =>
    exact (ih height (Nat.zero_le _)).andReturn hexpr.offset_eq (.inl rfl) (Nat.le_add_left 1 height)
  | functionReturn hvalue ih =>
    exact (ih height (Nat.zero_le _)).andReturn hvalue.offset_eq (.inl rfl) (Nat.le_add_left 1 height)
  | functionLet hlast ih =>
    exact (ih height (Nat.zero_le _)).andReturn hlast.offset_eq (.inr rfl) (Nat.zero_le _)
  | functionCons hfirst hrest ihfirst ihrest =>
    exact (ihfirst height (Nat.zero_le _)).append (ihrest height (Nat.zero_le _)) hfirst.offset_eq

/-- An annotation of all the code of a chunk gives a height for each offset. -/
theorem balanced_of_annotates {code : Code} {points : List (Point Nat)}
    (h : Annotates stackHeight points 0 code.toList 0 [(codeSize code.toList, 0)]) :
    ∃ height, code.toChunk.Balanced height := by
  have hend : codeSize code.toList = 0 + codeSize code.toList := (Nat.zero_add _).symm
  obtain ⟨height, hheight⟩ := Annotates.exists_assignment (hend ▸ h)
  rw [← hend] at hheight
  -- Each step is the instruction of a point, which leads to known heights only.
  have hstep : ∀ offset op operands, (offset, Step.complete op operands) ∈ code.toChunk.steps →
      ∃ a ∈ points, a.offset = offset ∧ a.instruction.opcode = op ∧ a.instruction.operands = operands := by
    intro offset op operands hmem
    obtain ⟨i, hi, heq⟩ := mem_steps_toChunk.mp hmem
    obtain ⟨a, ha, hoffset, rfl⟩ := exists_point h hi
    injection heq with hop hoperands
    exact ⟨a, ha, hoffset, hop.symm, hoperands.symm⟩
  have hknown : ∀ target s, (target, s) ∈ known points [(codeSize code.toList, 0)] →
      (∃ step, (target, step) ∈ code.toChunk.steps) ∨ target = code.toChunk.size := by
    intro target s hs
    rcases mem_known.mp hs with ⟨a, ha, heq⟩ | hs
    · refine .inl ⟨a.instruction.step, mem_steps_toChunk.mpr ⟨a.instruction, ?_, rfl⟩⟩
      rw [← (Prod.mk.inj heq).1]
      exact fst_mem_located h ha
    · rw [List.mem_singleton] at hs
      rw [size_toChunk]
      exact .inr (Prod.mk.inj hs).1
  have henough : ∀ offset op operands, (offset, Step.complete op operands) ∈ code.toChunk.steps →
      op.pops operands ≤ height offset := by
    intro offset op operands hmem
    obtain ⟨a, ha, rfl, rfl, rfl⟩ := hstep offset op operands hmem
    rw [hheight (a.offset, a.state) (mem_known.mpr (.inl ⟨a, ha, rfl⟩))]
    exact (h.sound a ha).allows
  refine ⟨height, ?_, hheight (0, 0) h.starts, ?_, ?_, henough, ?_, ?_⟩
  · intro offset step hmem
    obtain ⟨i, -, rfl⟩ := mem_steps_toChunk.mp hmem
    exact ⟨i.opcode, i.operands, rfl⟩
  · rw [size_toChunk]
    exact hheight (codeSize code.toList, 0) (mem_known.mpr (.inr List.mem_cons_self))
  · intro offset op operands hmem entry hentry
    obtain ⟨a, ha, rfl, rfl, rfl⟩ := hstep offset op operands hmem
    obtain ⟨s, hs, rfl⟩ := (h.sound a ha).enters entry hentry
    exact ⟨hknown entry 0 hs, hheight _ hs⟩
  · intro offset op operands hmem target htarget
    obtain ⟨a, ha, rfl, rfl, rfl⟩ := hstep offset op operands hmem
    have hsize : a.offset + 1 + a.instruction.opcode.operandSize = a.offset + a.instruction.size := Nat.add_assoc ..
    obtain ⟨s, hs, hleads⟩ := (h.sound a ha).leads target (hsize ▸ htarget)
    refine ⟨hknown target s hs, ?_⟩
    have hpops := henough _ _ _ hmem
    have hstate := hheight (a.offset, a.state) (mem_known.mpr (.inl ⟨a, ha, rfl⟩))
    have htarget := hheight (target, s) hs
    simp only [stackHeight, Instruction.pops, Instruction.pushes] at hleads hstate htarget
    omega
  · intro offset operands hmem
    exact henough offset .returnValue operands hmem

/-- Generated code is balanced: a height of the stack can be assigned to every offset. -/
theorem exists_balanced_of_generate (program : Program) (exe : Executable) (h : generate program = .ok exe) :
    ∃ height, exe.chunk.Balanced height := by
  obtain ⟨code, g, hcode, rfl⟩ := generates_of_generate_eq_ok h
  obtain ⟨points, hpoints⟩ := hcode.balanced 0 (Nat.zero_le 0)
  have hoffset : g.offset = codeSize code.toList := hcode.offset_eq.trans (Nat.zero_add _)
  change Annotates stackHeight points 0 code.toList 0 [(g.offset, 0)] at hpoints
  rw [hoffset] at hpoints
  exact balanced_of_annotates hpoints

theorem exists_balanced_earlyReturn :
    ∃ exe, generate earlyReturn = .ok exe ∧ ∃ height, exe.chunk.Balanced height := by
  obtain ⟨exe, hexe⟩ : ∃ exe, generate earlyReturn = .ok exe := exists_ok_of_isOk (by decide +kernel)
  exact ⟨exe, hexe, exists_balanced_of_generate earlyReturn exe hexe⟩

end MonkeyLang
