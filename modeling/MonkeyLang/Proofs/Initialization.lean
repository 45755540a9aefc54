import Mathlib.Data.Set.Insert
import MonkeyLang.Proofs.Captures
import MonkeyLang.Proofs.StackBalance
import MonkeyLang.Proofs.ValidCode
/-!
# Slots are filled before they are read

A slot is read only where a name stands for it, and a name stands for it only behind the instruction that fills it. So the
code is annotated with sets of slots that are filled, each of which has at least the slots of the names in scope. The names
of a block are gone behind it, which is why it does not matter that only one branch of a conditional fills theirs.

A function may be called at any time after its closure has been made. The slots of the top level that its body reads, on
whatever path, are therefore asked for where the closure is made.
-/

namespace MonkeyLang

/-- The machine comes from one offset to another inside of a function, with some steps passed on the way. -/
inductive Chunk.Passes (c : Chunk) : Nat → List (Nat × Step) → Nat → Prop
  | nil {place} : Passes c place [] place
  | cons {offset op operands next passed place} (hstep : (offset, .complete op operands) ∈ c.steps)
      (hnext : next ∈ op.successors operands (offset + 1 + op.operandSize)) (hrest : Passes c next passed place) :
      Passes c offset ((offset, .complete op operands) :: passed) place

/-- No slot is read before it is filled, where the regions are those of the functions. -/
structure Chunk.Initialized (c : Chunk) (regions : List Region) : Prop where
  lies : ∀ r ∈ regions, r.LiesIn c
  closures : ∀ offset operands, (offset, .complete .closure operands) ∈ c.steps → ∃ r ∈ regions, r.closureAt = offset
  locals : ∀ r ∈ regions, ∀ passed place slot, c.Passes r.start passed place →
    (place, .complete .getLocal [slot]) ∈ c.steps → r.params ≤ slot →
      ∃ offset, (offset, .complete .setLocal [slot]) ∈ passed
  globals : ∀ passed place slot, c.Passes 0 passed place → (place, .complete .getGlobal [slot]) ∈ c.steps →
    ∃ offset, (offset, .complete .setGlobal [slot]) ∈ passed
  /-- What the body of a function reads, also where no path leads to, is filled before the closure is made. -/
  bodies : ∀ r ∈ regions, ∀ place slot, (place, .complete .getGlobal [slot]) ∈ c.steps → r.Contains place →
    ∀ passed, c.Passes 0 passed r.closureAt → ∃ offset, (offset, .complete .setGlobal [slot]) ∈ passed

/-! ### Slots that names stand for -/

namespace SymbolScope

/-- A slot of the current function or of the top level that some name stands for. -/
def Readable (s : SymbolScope) : Storage → Prop
  | .global slot => ∃ f ∈ s.functions, ∃ m ∈ f.maps, ∃ name : String, m[name]? = some (.global slot)
  | .frame slot => ∃ m ∈ s.current.maps, ∃ name : String, m[name]? = some (.frame slot)
  | .builtin _ | .captured _ | .running => False

variable {s s' : SymbolScope} {name : String} {storage : Storage}

theorem readable_of_keep (hkeep : ScopesKeep s.functions s'.functions) (h : s'.Readable storage) :
    s.Readable storage := by
  cases storage with
  | global slot =>
    obtain ⟨f', hf', m, hm, name, hfound⟩ := h
    obtain ⟨index, hindex, rfl⟩ := List.mem_iff_getElem.mp hf'
    have hindex' : index < s.functions.length := hkeep.length_eq ▸ hindex
    obtain ⟨m', hm', hfound'⟩ := (hkeep.get hindex' hindex).exists_map hm hfound (by simp)
    exact ⟨_, List.getElem_mem hindex', m', hm', name, hfound'⟩
  | frame slot =>
    obtain ⟨m, hm, name, hfound⟩ := h
    cases hkeep with
    | cons hcurrent _ =>
      obtain ⟨m', hm', hfound'⟩ := hcurrent.exists_map hm hfound (by simp)
      exact ⟨m', hm', name, hfound'⟩
  | builtin _ | captured _ | running => exact h

/-- Another state of the current function with no names that stand for more slots. -/
theorem readable_of_current {current : FunctionScope}
    (hmaps : ∀ m ∈ current.maps, ∀ name : String, m[name]? = some storage →
      ∃ m ∈ s.current.maps, ∃ name : String, m[name]? = some storage)
    (h : Readable { s with current } storage) : s.Readable storage := by
  cases storage with
  | global slot =>
    obtain ⟨f, hf, m, hm, name, hfound⟩ := h
    rcases List.mem_cons.mp hf with rfl | hf
    · obtain ⟨m', hm', name', hfound'⟩ := hmaps m hm name hfound
      exact ⟨_, List.mem_cons_self, m', hm', name', hfound'⟩
    · exact ⟨f, List.mem_cons_of_mem _ hf, m, hm, name, hfound⟩
  | frame slot =>
    obtain ⟨m, hm, name, hfound⟩ := h
    exact hmaps m hm name hfound
  | builtin _ | captured _ | running => exact h

theorem readable_of_openBlock (h : s.openBlock.Readable storage) : s.Readable storage := by
  refine readable_of_current ?_ h
  intro m hm name hfound
  rcases List.mem_cons.mp (s.current.maps_openBlock ▸ hm) with rfl | hm
  · simp at hfound
  · exact ⟨m, hm, name, hfound⟩

theorem readable_of_closeBlock (h : s.closeBlock.Readable storage) : s.Readable storage := by
  refine readable_of_current ?_ h
  intro m hm name hfound
  rcases FunctionScope.mem_maps_closeBlock hm with hm | rfl
  · exact ⟨m, hm, name, hfound⟩
  · simp at hfound

theorem readable_of_define (h : (s.define name).2.Readable storage) :
    s.Readable storage ∨ storage = (s.define name).1.storage := by
  by_cases hnew : storage = (s.define name).1.storage
  · exact .inr hnew
  · refine .inl (readable_of_current ?_ h)
    intro m hm other hfound
    rcases FunctionScope.mem_maps_insert hm with hm | ⟨m', hm', rfl⟩
    · exact ⟨m, hm, other, hfound⟩
    · rw [SymbolMap.getElem?_insert] at hfound
      split at hfound
      · exact absurd (Option.some.inj hfound).symm hnew
      · exact ⟨m', hm', other, hfound⟩

/-- In a function that is entered, names stand for parameters, or for what they stood for outside. -/
theorem readable_of_enterFunction {self : Option String} {params : List Ident}
    (h : (s.enterFunction self params).Readable storage) :
    (∃ slot < params.length, storage = .frame slot) ∨ ∃ slot, storage = .global slot ∧ s.Readable storage := by
  obtain ⟨-, -, hnames⟩ := s.enterFunction_names self params
  cases storage with
  | global slot =>
    obtain ⟨f, hf, m, hm, name, hfound⟩ := h
    rw [functions, enclosing_enterFunction] at hf
    rcases List.mem_cons.mp hf with rfl | hf
    · rcases hnames m hm name _ hfound with hstorage | ⟨_, _, hstorage⟩ <;> cases hstorage
    · exact .inr ⟨slot, rfl, f, hf, m, hm, name, hfound⟩
  | frame slot =>
    obtain ⟨m, hm, name, hfound⟩ := h
    rcases hnames m hm name _ hfound with hstorage | hstorage
    · cases hstorage
    · exact .inl hstorage
  | builtin _ | captured _ | running => exact h.elim

theorem exists_find?_of_resolves {f f' : FunctionScope} {outer outer' : List FunctionScope} {found : Option Entry}
    (hresolves : Resolves name f outer found f' outer') {entry : Entry} (hentry : found = some entry) {slot : Nat}
    (hglobal : entry.storage = .global slot) : ∃ f₁ ∈ f :: outer, f₁.find? name = some (.global slot) := by
  induction hresolves with
  | here hfind =>
    cases hentry
    exact ⟨_, List.mem_cons_self, hglobal ▸ FunctionScope.find?_of_getElem?_entries hfind⟩
  | nowhere | unknown => cases hentry
  | shared _ _ _ ih =>
    obtain ⟨f₁, hf₁, hfind⟩ := ih hentry
    exact ⟨f₁, List.mem_cons_of_mem _ hf₁, hfind⟩
  | capture =>
    cases hentry
    cases hglobal

/-- A name that stands for a slot makes it readable. -/
theorem readable_of_find? (h : s.current.find? name = some storage) (hslot : ∃ slot, storage = .frame slot) :
    s.Readable storage := by
  obtain ⟨slot, rfl⟩ := hslot
  obtain ⟨m, hm, hfound⟩ := FunctionScope.exists_map_of_find? h
  exact ⟨m, hm, name, hfound⟩

theorem readable_of_resolve (hwired : ScopesWired s.functions) {symbol : Symbol}
    (hresolve : s.resolve name = (some symbol, s'))
    (hslot : (∃ slot, symbol.storage = .global slot) ∨ ∃ slot, symbol.storage = .frame slot) :
    s.Readable symbol.storage := by
  rcases hslot with ⟨slot, hglobal⟩ | ⟨slot, hframe⟩
  · obtain ⟨f, hf, hfind⟩ := exists_find?_of_resolves (resolves_of_resolve hresolve).2 rfl hglobal
    obtain ⟨m, hm, hfound⟩ := FunctionScope.exists_map_of_find? hfind
    rw [hglobal]
    exact ⟨f, hf, m, hm, name, hfound⟩
  · obtain ⟨-, hkeep, -, hfind⟩ := resolve_wired hwired hresolve
    refine readable_of_keep hkeep (readable_of_find? (FunctionScope.find?_of_getElem?_entries (hfind ?_)) ⟨slot, hframe⟩)
    rw [hframe]
    trivial

/-- The top level has no slots. -/
theorem not_readable_topLevel : ¬ topLevel.Readable storage := by
  have hbuiltin (m : SymbolMap) (hm : m ∈ topLevel.current.maps) (name : String) (hfound : m[name]? = some storage) :
      ∃ index, storage = .builtin index := by
    obtain rfl := List.mem_singleton.mp (FunctionScope.maps_of_depth_eq_zero (f := topLevel.current) rfl ▸ hm)
    rw [topLevel_base] at hfound
    obtain ⟨index, -, rfl⟩ := Option.map_eq_some_iff.mp hfound
    exact ⟨index, rfl⟩
  intro h
  cases storage with
  | global slot =>
    obtain ⟨f, hf, m, hm, name, hfound⟩ := h
    obtain rfl := List.mem_singleton.mp hf
    obtain ⟨index, hstorage⟩ := hbuiltin m hm name hfound
    cases hstorage
  | frame slot =>
    obtain ⟨m, hm, name, hfound⟩ := h
    obtain ⟨index, hstorage⟩ := hbuiltin m hm name hfound
    cases hstorage
  | builtin _ | captured _ | running => exact h

end SymbolScope

open SymbolScope

/-! ### What instructions do to slots -/

namespace Opcode

def reads? (op : Opcode) (operands : List Nat) : Option Storage :=
  match op, operands with
  | getGlobal, [slot] => some (.global slot)
  | getLocal, [slot] => some (.frame slot)
  | _, _ => none

def fills? (op : Opcode) (operands : List Nat) : Option Storage :=
  match op, operands with
  | setGlobal, [slot] => some (.global slot)
  | setLocal, [slot] => some (.frame slot)
  | _, _ => none

end Opcode

namespace Instruction

def reads? (i : Instruction) : Option Storage := i.opcode.reads? i.operands

def fills? (i : Instruction) : Option Storage := i.opcode.fills? i.operands

theorem exists_of_reads? {i : Instruction} {storage : Storage} (h : i.reads? = some storage) :
    (∃ slot, storage = .global slot) ∨ ∃ slot, storage = .frame slot := by
  unfold reads? Opcode.reads? at h
  split at h
  · exact .inl ⟨_, (Option.some.inj h).symm⟩
  · exact .inr ⟨_, (Option.some.inj h).symm⟩
  · cases h

theorem reads?_bool (value : Bool) : (bool value).reads? = none := by cases value <;> rfl

theorem reads?_binary (op : BinaryOp) : (binary op).reads? = none := by cases op <;> rfl

theorem reads?_unary (op : UnaryOp) : (unary op).reads? = none := by cases op <;> rfl

/-- The number of parameters of the closure that an instruction makes. -/
def params : Instruction → Nat
  | closure _ params _ _ => params.toNat
  | _ => 0

/-- Somewhere in the body of the closure that an instruction makes, a slot of the top level is read. -/
def BodyReads (whole : List CodeLine) (i : Instruction) (slot : Nat) : Prop :=
  match i with
  | closure entry _ _ _ => ∃ skipAt after place j, entry.toNat = skipAt + 3 ∧ (skipAt, jump after) ∈ located 0 whole ∧
      (place, j) ∈ located 0 whole ∧ entry.toNat ≤ place ∧ place < after.toNat ∧ j.reads? = some (.global slot)
  | _ => False

theorem not_bodyReads {whole : List CodeLine} {i : Instruction} {slot : Nat} (h : i.entries = []) :
    ¬ i.BodyReads whole slot := by
  cases i with
  | closure => cases h
  | _ => exact id

end Instruction

theorem reads?_of_load? {storage : Storage} {i : Instruction} (hload : storage.load? = some i) :
    ∀ slot ∈ i.reads?, slot = storage := by
  cases storage with
  | global place =>
    simp only [Storage.load?, Option.ite_none_right_eq_some, Option.some.injEq] at hload
    obtain ⟨hlt, rfl⟩ := hload
    rintro _ ⟨⟩
    exact congrArg Storage.global (toNat_ofNat_word hlt)
  | frame place =>
    simp only [Storage.load?, Option.ite_none_right_eq_some, Option.some.injEq] at hload
    obtain ⟨hlt, rfl⟩ := hload
    rintro _ ⟨⟩
    exact congrArg Storage.frame (toNat_ofNat_byte hlt)
  | builtin place | captured place =>
    simp only [Storage.load?, Option.ite_none_right_eq_some, Option.some.injEq] at hload
    obtain ⟨hlt, rfl⟩ := hload
    rintro _ ⟨⟩
  | running =>
    cases hload
    rintro _ ⟨⟩

theorem fills?_of_store? {storage : Storage} {i : Instruction} (hstore : storage.store? = some i) :
    i.fills? = some storage ∧ i.reads? = none := by
  cases storage with
  | global place =>
    simp only [Storage.store?, Option.ite_none_right_eq_some, Option.some.injEq] at hstore
    obtain ⟨hlt, rfl⟩ := hstore
    exact ⟨congrArg (some ∘ Storage.global) (toNat_ofNat_word hlt), rfl⟩
  | frame place =>
    simp only [Storage.store?, Option.ite_none_right_eq_some, Option.some.injEq] at hstore
    obtain ⟨hlt, rfl⟩ := hstore
    exact ⟨congrArg (some ∘ Storage.frame) (toNat_ofNat_byte hlt), rfl⟩
  | builtin _ | captured _ | running => cases hstore

/-! ### Slots of the top level in the body of a function -/

structure SymbolScope.Inside (s : SymbolScope) : Prop where
  wired : ScopesWired s.functions
  enclosing : s.enclosing ≠ []

theorem Generates.inside {p : Phrase} {g g' : Generator} {code : List CodeLine} (h : Generates p g code g')
    (hinside : g.scope.Inside) : g'.scope.Inside := by
  have hpreserves := h.wired hinside.wired
  refine ⟨hpreserves.wired, ?_⟩
  rw [← List.length_pos_iff, ← hpreserves.around.length_eq, List.length_pos_iff]
  exact hinside.enclosing

/-- Code reads slots of the top level only if names stand for them where it begins, and no more names do so behind it. -/
structure Confined (s : SymbolScope) (code : List CodeLine) (s' : SymbolScope) : Prop where
  reads : ∀ l ∈ code, ∀ slot, l.instruction.reads? = some (.global slot) → s.Readable (.global slot)
  names : ∀ slot, s'.Readable (.global slot) → s.Readable (.global slot)

namespace Confined

variable {s s₁ s' : SymbolScope} {c d : List CodeLine} {line : Nat} {i : Instruction}

theorem nil : Confined s [] s := ⟨fun _ hl => absurd hl List.not_mem_nil, fun _ h => h⟩

theorem append (hc : Confined s c s₁) (hd : Confined s₁ d s') : Confined s (c ++ d) s' := by
  refine ⟨?_, fun slot h => hc.names slot (hd.names slot h)⟩
  intro l hl slot hslot
  rcases List.mem_append.mp hl with hl | hl
  · exact hc.reads l hl slot hslot
  · exact hc.names _ (hd.reads l hl slot hslot)

theorem single (hi : ∀ slot, i.reads? = some (.global slot) → s.Readable (.global slot))
    (hnames : ∀ slot, s'.Readable (.global slot) → s.Readable (.global slot)) : Confined s [⟨line, i⟩] s' := by
  refine ⟨?_, hnames⟩
  intro l hl
  rw [List.mem_singleton.mp hl]
  exact hi

/-- An instruction that does not read a slot of the top level. -/
theorem other (hi : ∀ slot, i.reads? ≠ some (.global slot)) : Confined s [⟨line, i⟩] s :=
  single (fun slot hslot => absurd hslot (hi slot)) fun _ h => h

theorem andThen (hc : Confined s c s') (hi : ∀ slot, i.reads? ≠ some (.global slot)) : Confined s (c ++ [⟨line, i⟩]) s' :=
  hc.append (other hi)

theorem cons (hi : ∀ slot, i.reads? ≠ some (.global slot)) (hc : Confined s c s') : Confined s (⟨line, i⟩ :: c) s' :=
  append (c := [_]) (other hi) hc

end Confined

theorem reads?_ne_global {storage : Storage} {i : Instruction} (hload : storage.load? = some i) (hcall : storage.OfCall)
    (slot : Nat) : i.reads? ≠ some (.global slot) := by
  intro hreads
  obtain rfl := reads?_of_load? hload _ hreads
  exact hcall

/-- Code inside of a function is confined, whether or not it is ever reached: a name of the top level that it uses has been
introduced before. -/
theorem Generates.confined {p : Phrase} {g g' : Generator} {code : List CodeLine} (h : Generates p g code g')
    (hinside : g.scope.Inside) : Confined g.scope code g'.scope := by
  induction h with
  | constant | otherwiseNone | valueNil | functionNil => exact .other (by rintro _ ⟨⟩)
  | @bool name value span g => exact .other fun _ => by simp [Instruction.reads?_bool]
  | operandsNil | exprsNil | pairsNil | stmtsNil => exact .nil
  | @ident name id g symbol scope i hresolve hload =>
    obtain ⟨-, hkeep, -⟩ := SymbolScope.resolve_wired hinside.wired hresolve
    refine .single ?_ fun _ hread => readable_of_keep hkeep hread
    intro slot hreads
    have hstorage := reads?_of_load? hload _ hreads
    rw [hstorage]
    exact readable_of_resolve hinside.wired hresolve (.inl ⟨_, hstorage.symm⟩)
  | chain hfirst hrest ihfirst ihrest | exprsCons hfirst hrest ihfirst ihrest | stmtsCons hfirst hrest ihfirst ihrest
  | valueCons hfirst hrest ihfirst ihrest | functionCons hfirst hrest ihfirst ihrest =>
    exact (ihfirst hinside).append (ihrest (hfirst.inside hinside))
  | call hfirst hrest _ ihfirst ihrest | index hfirst hrest ihfirst ihrest =>
    exact ((ihfirst hinside).append (ihrest (hfirst.inside hinside))).andThen (by rintro _ ⟨⟩)
  | @unary name op operand span g c g₁ hoperand ih =>
    exact (ih hinside).andThen fun _ => by simp [Instruction.reads?_unary]
  | array _ _ ih | hash _ _ ih | returnStmt _ ih | exprStmt _ ih | valueLast _ _ ih | functionExpr _ ih
  | functionReturn _ ih | functionLet _ ih => exact (ih hinside).andThen (by rintro _ ⟨⟩)
  | paren _ ih | otherwiseSome _ ih | valueExpr _ ih => exact ih hinside
  | @operandsCons op operand rest g c g₁ d g₂ hoperand hrest ihoperand ihrest =>
    exact (ihoperand hinside).append
      (.cons (fun _ => by simp [Instruction.reads?_binary]) (ihrest (hoperand.inside hinside)))
  | @function name params body blockSpan span g c g₁ f scope loads hbody hleave htarget hloads hentry hparams hlocals
      hfree ih =>
    have hentered : (g.scope.enterFunction name params).Inside :=
      ⟨enterFunction_wired name params hinside.wired, by rw [enclosing_enterFunction]; exact List.cons_ne_nil _ _⟩
    have hbody' := ih hentered
    obtain ⟨-, hkeep, -, hcaptures⟩ :=
      keep_of_leave? (hbody.wired hentered.wired) (enclosing_enterFunction g.scope name params) hleave
    have hreads : Confined g.scope c g.scope := by
      refine ⟨fun l hl slot hslot => ?_, fun _ hread => hread⟩
      rcases readable_of_enterFunction (hbody'.reads l hl slot hslot) with ⟨_, _, hstorage⟩ | ⟨_, _, hread⟩
      · cases hstorage
      · exact hread
    have hcaptured : Confined g.scope (loads.map fun i => ⟨span.line, i⟩) g.scope := by
      refine ⟨fun l hl slot hslot => ?_, fun _ hread => hread⟩
      obtain ⟨i, hi, rfl⟩ := List.mem_map.mp hl
      obtain ⟨symbol, hsymbol, hload⟩ := exists_of_mem_loads hloads hi
      exact absurd hslot (reads?_ne_global hload (hcaptures symbol hsymbol).1 slot)
    have hmade : Confined g.scope [⟨span.line, .closure (.ofNat (g.offset + 3)) (.ofNat params.length) (.ofNat f.slots)
        (.ofNat f.captures.length)⟩] scope :=
      .single (by rintro _ ⟨⟩) fun _ hread => readable_of_keep hkeep hread
    exact .cons (by rintro _ ⟨⟩) ((hreads.append hcaptured).append hmade)
  | ifElse hcondition hthen hskip helse hleave ihcondition ihthen ihelse =>
    have hsecond := hcondition.inside hinside
    have hthird := hthen.inside hsecond
    refine (ihcondition hinside).append (.cons (by rintro _ ⟨⟩) ((ihthen hsecond).append ?_))
    exact .cons (by rintro _ ⟨⟩) (ihelse hthird)
  | pairsCons hkey hvalue hrest ihkey ihvalue ihrest =>
    have hsecond := hkey.inside hinside
    exact ((ihkey hinside).append (ihvalue hsecond)).append (ihrest (hvalue.inside hsecond))
  | @letStmt name value span g c g₁ i hvalue hstore ih =>
    have hsecond := hvalue.inside hinside
    refine (ih hinside).append (.single ?_ ?_)
    · intro slot hreads
      rw [(fills?_of_store? hstore).2] at hreads
      cases hreads
    · intro slot hread
      rcases readable_of_define hread with hread | hnew
      · exact hread
      · -- A name that is introduced inside of a function has a slot in its frame.
        have htop : g₁.scope.isTopLevel = false := by
          rw [isTopLevel, List.isEmpty_eq_false_iff]
          exact hsecond.enclosing
        rw [define, htop] at hnew
        cases hnew
  | @valueBlock body span g c g₁ hbody ih =>
    have hopened : g.scope.openBlock.Inside :=
      ⟨hinside.wired.update hinside.wired.capturesNamed.openBlock rfl, hinside.enclosing⟩
    have hbody' := ih hopened
    refine ⟨fun l hl slot hslot => readable_of_openBlock (hbody'.reads l hl slot hslot), fun slot hread => ?_⟩
    exact readable_of_openBlock (hbody'.names slot (readable_of_closeBlock hread))

/-! ### Annotations with filled slots -/

/-- Annotations with slots that are filled. The body of a closure starts with its parameters filled, and the slots of the
top level that it reads are filled where the closure is made. -/
def filledSlots (whole : List CodeLine) : Transfer (Set Storage) where
  allows i filled :=
    (∀ slot ∈ i.reads?, slot ∈ filled) ∧ ∀ slot, i.BodyReads whole slot → Storage.global slot ∈ filled
  leads i filled next := ∀ slot ∈ next, slot ∈ filled ∨ i.fills? = some slot
  enters i _ next := ∀ slot, Storage.frame slot ∈ next → slot < i.params

/-- From some filled slots, code leads to its end, where those are filled as well that names stand for. -/
def Fills (whole : List CodeLine) (offset : Nat) (code : List CodeLine) (filled : Set Storage) (stop : Nat)
    (s : SymbolScope) : Prop :=
  ∃ next : Set Storage, filled ⊆ next ∧ (∀ slot, s.Readable slot → slot ∈ next) ∧
    Flow (filledSlots whole) offset code filled [(stop, next)]

section

variable {whole c d : List CodeLine} {offset middle stop line : Nat} {filled : Set Storage} {s s' : SymbolScope}
  {i : Instruction}

theorem flow_quiet (hplain : i.Plain) (hreads : ∀ slot ∈ i.reads?, slot ∈ filled) :
    Flow (filledSlots whole) offset [⟨line, i⟩] filled [(offset + i.size, filled)] :=
  .plain hplain ⟨hreads, fun _ hbody => absurd hbody (Instruction.not_bodyReads hplain.2)⟩ fun _ hslot => .inl hslot

namespace Fills

theorem nil (hfilled : ∀ slot, s.Readable slot → slot ∈ filled) : Fills whole offset [] filled offset s :=
  ⟨filled, Set.Subset.rfl, hfilled, .nil offset filled⟩

theorem quiet (hfilled : ∀ slot, s.Readable slot → slot ∈ filled) (hplain : i.Plain)
    (hreads : ∀ slot ∈ i.reads?, slot ∈ filled) : Fills whole offset [⟨line, i⟩] filled (offset + i.size) s :=
  ⟨filled, Set.Subset.rfl, hfilled, flow_quiet hplain hreads⟩

theorem append (hc : Fills whole offset c filled middle s) (hmiddle : middle = offset + codeSize c)
    (hd : ∀ next, filled ⊆ next → (∀ slot, s.Readable slot → slot ∈ next) → Fills whole middle d next stop s') :
    Fills whole offset (c ++ d) filled stop s' := by
  obtain ⟨next, hsub, hnext, hflow⟩ := hc
  obtain ⟨last, hsub', hlast, hflow'⟩ := hd next hsub hnext
  exact ⟨last, hsub.trans hsub', hlast, hflow.append hflow' hmiddle⟩

theorem andQuiet (hc : Fills whole offset c filled middle s) (hmiddle : middle = offset + codeSize c)
    (hplain : i.Plain) (hreads : i.reads? = none) (hstop : stop = middle + i.size) :
    Fills whole offset (c ++ [⟨line, i⟩]) filled stop s := by
  subst hstop
  exact hc.append hmiddle fun next _ hnext => .quiet hnext hplain (by simp [hreads])

/-- A return behind some code, which is left nowhere. -/
theorem andReturn (hc : Fills whole offset c filled middle s) (hmiddle : middle = offset + codeSize c)
    (hreturn : i = .returnValue ∨ i = .returnNull) : ∃ next : Set Storage, filled ⊆ next ∧
      (∀ slot, s.Readable slot → slot ∈ next) ∧
      ∀ exits, Flow (filledSlots whole) offset (c ++ [⟨line, i⟩]) filled exits := by
  obtain ⟨next, hsub, hnext, hflow⟩ := hc
  refine ⟨next, hsub, hnext, fun exits => hflow.append (.instruction ?_) hmiddle⟩
  rcases hreturn with rfl | rfl
  · exact ⟨⟨fun _ hslot => (by cases hslot), fun _ hbody => hbody.elim⟩, fun _ htarget => (by cases htarget),
      fun _ hentry => (by cases hentry)⟩
  · exact ⟨⟨fun _ hslot => (by cases hslot), fun _ hbody => hbody.elim⟩, fun _ htarget => (by cases htarget),
      fun _ hentry => (by cases hentry)⟩

end Fills

/-- Captured values are read from slots that names stand for. -/
theorem flow_captures (line : Nat) {symbols : List Symbol} {loads : List Instruction}
    (hloads : List.Forall₂ (fun symbol i => symbol.storage.load? = some i) symbols loads)
    (hcaptures : ∀ symbol ∈ symbols, symbol.storage.OfCall ∧ s.current.names.entries[symbol.name]? = some symbol.toEntry)
    (hfilled : ∀ slot, s.Readable slot → slot ∈ filled) :
    Flow (filledSlots whole) offset (loads.map fun i => ⟨line, i⟩) filled
      [(offset + codeSize (loads.map fun i => ⟨line, i⟩), filled)] := by
  induction hloads generalizing offset with
  | nil => exact .nil offset filled
  | @cons symbol i symbols loads hload hrest ih =>
    obtain ⟨hcall, hfind⟩ := hcaptures symbol List.mem_cons_self
    have hreads : ∀ slot ∈ i.reads?, slot ∈ filled := by
      intro slot hslot
      obtain rfl := reads?_of_load? hload slot hslot
      refine hfilled _ (readable_of_find? (FunctionScope.find?_of_getElem?_entries hfind) ?_)
      rcases Instruction.exists_of_reads? hslot with ⟨place, hstorage⟩ | hstorage
      · exact absurd (hstorage ▸ hslot) (reads?_ne_global hload hcall place)
      · exact hstorage
    have hfirst : Flow (filledSlots whole) offset [⟨line, i⟩] filled [(offset + i.size, filled)] :=
      flow_quiet (plain_of_load? hload).1 hreads
    have hboth := hfirst.append
      (ih fun symbol hsymbol => hcaptures symbol (List.mem_cons_of_mem _ hsymbol)) (by simp)
    simpa [Nat.add_assoc] using hboth

end

/-- What the code of a phrase does to filled slots. That of a function's body only returns. -/
def Phrase.Fills (p : Phrase) (whole : List CodeLine) (g : Generator) (code : List CodeLine) (filled : Set Storage)
    (g' : Generator) : Prop :=
  match p with
  | functionStmts _ => Flow (filledSlots whole) g.offset code filled []
  | _ => MonkeyLang.Fills whole g.offset code filled g'.offset g'.scope

/-- The value of a conditional takes code, since it leaves a value on the stack. -/
theorem Generates.offset_lt_otherwise {block : Option Block} {g g' : Generator} {code : List CodeLine}
    (h : Generates (.otherwise block) g code g') : g.offset < g'.offset := by
  obtain ⟨points, hpoints⟩ := h.balanced 0 (Nat.zero_le 0)
  have hoffset := h.offset_eq
  cases code with
  | nil =>
    have hnone : points = [] := List.map_eq_nil_iff.mp hpoints.covers
    have hstarts := hpoints.starts
    simp [hnone, known, Phrase.exits, Phrase.growth] at hstarts
  | cons l code =>
    have := l.instruction.size_pos
    rw [codeSize_cons] at hoffset
    omega

/-- The code of every phrase can be annotated with filled slots, if those are filled at its start that names stand for. -/
theorem Generates.fills {p : Phrase} {g g' : Generator} {code whole : List CodeLine} (h : Generates p g code g')
    (hwired : ScopesWired g.scope.functions) (hat : CodeAt whole g.offset code) {filled : Set Storage}
    (hfilled : ∀ slot, g.scope.Readable slot → slot ∈ filled) : p.Fills whole g code filled g' := by
  induction h generalizing filled with
  | constant | otherwiseNone | valueNil =>
    exact Fills.quiet hfilled ⟨fun _ => rfl, rfl⟩ fun _ hslot => (by cases hslot)
  | @bool name value span g =>
    cases value <;> exact Fills.quiet hfilled ⟨fun _ => rfl, rfl⟩ fun _ hslot => (by cases hslot)
  | @ident name id g symbol scope i hresolve hload =>
    obtain ⟨-, hkeep, -⟩ := SymbolScope.resolve_wired hwired hresolve
    refine Fills.quiet (fun slot hread => hfilled slot (readable_of_keep hkeep hread)) (plain_of_load? hload).1 ?_
    intro slot hslot
    have hstorage := reads?_of_load? hload slot hslot
    rw [hstorage]
    exact hfilled _ (readable_of_resolve hwired hresolve (Instruction.exists_of_reads? (hstorage ▸ hslot)))
  | operandsNil | exprsNil | pairsNil | stmtsNil => exact Fills.nil hfilled
  | chain hfirst hrest ihfirst ihrest | exprsCons hfirst hrest ihfirst ihrest | stmtsCons hfirst hrest ihfirst ihrest
  | valueCons hfirst hrest ihfirst ihrest =>
    have hfirst' := ihfirst hwired hat.left hfilled
    exact Fills.append hfirst' hfirst.offset_eq fun next _ hnext =>
      ihrest (hfirst.wired hwired).wired (hat.right hfirst.offset_eq) hnext
  | functionCons hfirst hrest ihfirst ihrest =>
    obtain ⟨next, -, hnext, hflow⟩ := ihfirst hwired hat.left hfilled
    exact hflow.append (ihrest (hfirst.wired hwired).wired (hat.right hfirst.offset_eq) hnext) hfirst.offset_eq
  | @unary name op operand span g c g₁ hoperand ih =>
    refine Fills.andQuiet (ih hwired hat.left hfilled) hoperand.offset_eq (plain_unary op) (Instruction.reads?_unary op) ?_
    rw [size_unary, Generator.offset_skip]
  | @call name callee args span g c g₁ d g₂ hfirst hrest _ ihfirst ihrest
  | @index name callee args span g c g₁ d g₂ hfirst hrest ihfirst ihrest =>
    have hboth : Fills whole g.offset (c ++ d) filled g₂.offset g₂.scope :=
      Fills.append (ihfirst hwired hat.left.left hfilled) hfirst.offset_eq fun next _ hnext =>
        ihrest (hfirst.wired hwired).wired (hat.left.right hfirst.offset_eq) hnext
    refine hboth.andQuiet ?_ ⟨fun _ => rfl, rfl⟩ rfl rfl
    rw [hrest.offset_eq, hfirst.offset_eq, codeSize_append, Nat.add_assoc]
  | array helements _ ih | hash helements _ ih | exprStmt helements ih | valueLast _ helements ih =>
    exact Fills.andQuiet (ih hwired hat.left hfilled) helements.offset_eq ⟨fun _ => rfl, rfl⟩ rfl rfl
  | paren hinner ih | otherwiseSome hinner ih | valueExpr hinner ih => exact ih hwired hat hfilled
  | @operandsCons op operand rest g c g₁ d g₂ hoperand hrest ihoperand ihrest =>
    have hsize : g₁.offset + 1 = g.offset + codeSize (c ++ [⟨g₁.line, .binary op⟩]) := by
      simp [size_binary, hoperand.offset_eq, Nat.add_assoc]
    rw [List.append_cons] at hat ⊢
    have hfolded : Fills whole g.offset (c ++ [⟨g₁.line, .binary op⟩]) filled (g₁.offset + 1) g₁.scope := by
      refine Fills.andQuiet (ihoperand hwired hat.left.left hfilled) hoperand.offset_eq (plain_binary op) ?_ ?_
      · exact Instruction.reads?_binary op
      · rw [size_binary]
    exact hfolded.append hsize fun next _ hnext => ihrest (hoperand.wired hwired).wired (hat.right hsize) hnext
  | @pairsCons key value rest g c g₁ d g₂ e g₃ hkey hvalue hrest ihkey ihvalue ihrest =>
    have hsize : g₂.offset = g.offset + codeSize (c ++ d) := by
      rw [hvalue.offset_eq, hkey.offset_eq, codeSize_append, Nat.add_assoc]
    have hsecond := (hkey.wired hwired).wired
    have hboth : Fills whole g.offset (c ++ d) filled g₂.offset g₂.scope :=
      Fills.append (ihkey hwired hat.left.left hfilled) hkey.offset_eq fun next _ hnext =>
        ihvalue hsecond (hat.left.right hkey.offset_eq) hnext
    exact hboth.append hsize fun next _ hnext => ihrest (hvalue.wired hsecond).wired (hat.right hsize) hnext
  | @ifElse name condition thenBlock elseBlock span g c g₁ d g₂ e g₃ hcondition hthen hskip helse hleave ihcondition
      ihthen ihelse =>
    have hthenAt : CodeAt whole (g₁.offset + 3) (d ++ ⟨g₂.line, .jump (.ofNat g₃.offset)⟩ :: e) :=
      (hat.right hcondition.offset_eq).right (c := [_]) rfl
    have helseAt : CodeAt whole (g₂.offset + 3) e := (hthenAt.right hthen.offset_eq).right (c := [_]) rfl
    have hsecond := (hcondition.wired hwired).wired
    have hthird := (hthen.wired hsecond).wired
    -- Behind the branches, the names in scope are those that were so in front of them.
    have hthenKeep := (hthen.wired hsecond).keep rfl
    have helseKeep := (helse.wired hthird).keep rfl
    obtain ⟨tested, hsub, htested, hflow⟩ := ihcondition hwired hat.left hfilled
    obtain ⟨left, hleft, -, hthenFlow⟩ := ihthen hsecond hthenAt.left htested
    obtain ⟨right, hright, -, helseFlow⟩ := ihelse hthird helseAt fun slot hread =>
      htested slot (readable_of_keep hthenKeep hread)
    have hexit : Flow (filledSlots whole) (g₂.offset + 3) e tested [(g₃.offset, tested)] :=
      helseFlow.exit helse.offset_lt_otherwise (fun _ _ hleads slot hslot => hleads slot (hright hslot))
        fun _ _ henters slot hslot => henters slot (hright hslot)
    have hleave := toNat_ofNat_word hleave
    have hall := Flow.branch (T := filledSlots whole) g₁.line g₂.line hflow hcondition.offset_eq
      ⟨fun _ hslot => (by cases hslot), fun _ hbody => hbody.elim⟩ (fun _ hslot => .inl hslot) hthenFlow hthen.offset_eq
      (toNat_ofNat_word hskip) ⟨fun _ hslot => (by cases hslot), fun _ hbody => hbody.elim⟩
      (fun _ hslot => .inl (hleft hslot)) (hleave.symm ▸ hexit)
    rw [hleave] at hall
    exact ⟨tested, hsub, fun slot hread => htested slot (readable_of_keep hthenKeep (readable_of_keep helseKeep hread)),
      hall⟩
  | @function name params body blockSpan span g c g₁ f scope loads hbody hleave htarget hloads hentry hparams hlocals
      hfree ih =>
    have hentered := enterFunction_wired name params hwired
    have hinside : (g.scope.enterFunction name params).Inside :=
      ⟨hentered, by rw [enclosing_enterFunction]; exact List.cons_ne_nil _ _⟩
    have hbodyAt : CodeAt whole (g.offset + 3) c := (hat.right (c := [_]) rfl).left.left
    obtain ⟨-, hkeep, -, hcaptures⟩ :=
      keep_of_leave? (hbody.wired hentered) (enclosing_enterFunction g.scope name params) hleave
    have hscope : ∀ slot, scope.Readable slot → slot ∈ filled := fun slot hread =>
      hfilled slot (readable_of_keep hkeep hread)
    have hbodyReads (slot : Nat) (hreads : (Instruction.closure (.ofNat (g.offset + 3)) (.ofNat params.length)
        (.ofNat f.slots) (.ofNat f.captures.length)).BodyReads whole slot) : Storage.global slot ∈ filled := by
      obtain ⟨skipAt, after, place, j, hskipAt, hskip, hj, hle, hlt, hreads⟩ := hreads
      rw [toNat_ofNat_word hentry] at hskipAt hle
      obtain rfl : skipAt = g.offset := by omega
      -- What lies between the entry and the target of the jump in front of it is the body.
      cases located_inj hskip (hat.mem_located List.mem_cons_self)
      rw [toNat_ofNat_word htarget, hbody.offset_eq] at hlt
      obtain ⟨l, hl, rfl⟩ := exists_line_of_mem_located (hbodyAt.mem_of_bounds hj hle hlt)
      rcases readable_of_enterFunction ((hbody.confined hinside).reads l hl slot hreads) with
        ⟨_, _, hstorage⟩ | ⟨_, _, hread⟩
      · cases hstorage
      · exact hfilled _ hread
    have hframe (slot : Nat) (hread : (g.scope.enterFunction name params).Readable (.frame slot)) :
        slot < (UInt8.ofNat params.length).toNat := by
      rw [toNat_ofNat_byte hparams]
      rcases readable_of_enterFunction hread with ⟨_, hlt, hstorage⟩ | ⟨_, hstorage, -⟩
      · cases hstorage
        exact hlt
      · cases hstorage
    have hafter := toNat_ofNat_word htarget
    have hbodyFlow : Flow (filledSlots whole) (g.offset + 3) c { slot | (g.scope.enterFunction name params).Readable slot }
      [] := ih hentered hbodyAt fun _ hread => hread
    have hall := Flow.function (T := filledSlots whole) g.line span.line
      ⟨fun _ hslot => (by cases hslot), fun _ hbody => hbody.elim⟩ (fun _ hslot => .inl hslot) hbodyFlow
      (hafter.trans hbody.offset_eq) (flow_captures span.line hloads hcaptures hscope) rfl
      ⟨fun _ hslot => (by cases hslot), hbodyReads⟩ (fun _ hslot => .inl hslot) hframe (toNat_ofNat_word hentry)
    rw [hafter, Nat.add_assoc] at hall
    exact ⟨filled, Set.Subset.rfl, hscope, hall⟩
  | @letStmt name value span g c g₁ i hvalue hstore ih =>
    obtain ⟨next, hsub, hnext, hflow⟩ := ih hwired hat.left hfilled
    obtain ⟨hfills, hreads⟩ := fills?_of_store? hstore
    have hplain := (plain_of_store? hstore).1
    refine ⟨insert (g₁.scope.define name.name).1.storage next, hsub.trans (Set.subset_insert _ _), ?_, ?_⟩
    · intro slot hread
      rcases readable_of_define hread with hread | rfl
      · exact Set.mem_insert_of_mem _ (hnext slot hread)
      · exact Set.mem_insert _ _
    · refine hflow.append (.plain hplain ⟨by simp [hreads], fun _ hbody => ?_⟩ ?_) hvalue.offset_eq
      · exact absurd hbody (Instruction.not_bodyReads hplain.2)
      · rintro slot (rfl | hslot)
        · exact .inr hfills
        · exact .inl hslot
  | returnStmt hvalue ih =>
    obtain ⟨next, hsub, hnext, hflow⟩ := Fills.andReturn (ih hwired hat.left hfilled) hvalue.offset_eq (.inl rfl)
    exact ⟨next, hsub, hnext, hflow _⟩
  | functionExpr hexpr ih | functionReturn hexpr ih =>
    obtain ⟨_, -, -, hflow⟩ := Fills.andReturn (ih hwired hat.left hfilled) hexpr.offset_eq (.inl rfl)
    exact hflow []
  | functionLet hexpr ih =>
    obtain ⟨_, -, -, hflow⟩ := Fills.andReturn (ih hwired hat.left hfilled) hexpr.offset_eq (.inr rfl)
    exact hflow []
  | functionNil =>
    obtain ⟨_, -, -, hflow⟩ := Fills.andReturn (Fills.nil hfilled) rfl (.inr rfl)
    exact hflow []
  | @valueBlock body span g c g₁ hbody ih =>
    have hopened := hwired.update hwired.capturesNamed.openBlock rfl
    obtain ⟨next, hsub, hnext, hflow⟩ := ih hopened hat fun slot hread => hfilled slot (readable_of_openBlock hread)
    exact ⟨next, hsub, fun slot hread => hnext slot (readable_of_closeBlock hread), hflow⟩

/-! ### Paths -/

/-- A slot is filled by one of some steps. -/
def Storage.FilledBy (passed : List (Nat × Step)) : Storage → Prop
  | .global slot => ∃ offset, (offset, .complete .setGlobal [slot]) ∈ passed
  | .frame slot => ∃ offset, (offset, .complete .setLocal [slot]) ∈ passed
  | .builtin _ | .captured _ | .running => False

theorem Storage.FilledBy.mono {passed passed' : List (Nat × Step)} {storage : Storage} (h : storage.FilledBy passed)
    (hsub : passed ⊆ passed') : storage.FilledBy passed' := by
  cases storage with
  | global slot | frame slot =>
    obtain ⟨offset, hmem⟩ := h
    exact ⟨offset, hsub hmem⟩
  | builtin _ | captured _ | running => exact h

theorem filledBy_of_fills? {op : Opcode} {operands : List Nat} {storage : Storage}
    (h : op.fills? operands = some storage) (offset : Nat) : storage.FilledBy [(offset, .complete op operands)] := by
  unfold Opcode.fills? at h
  split at h
  · cases h
    exact ⟨offset, List.mem_cons_self⟩
  · cases h
    exact ⟨offset, List.mem_cons_self⟩
  · cases h

section

variable {code : Code} {points : List (Point (Set Storage))} {state last : Set Storage}
  (hpoints : Annotates (filledSlots code.toList) points 0 code.toList state [(codeSize code.toList, last)])

include hpoints

/-- The slots that are filled where a path ends have been filled at its start or on the way. -/
theorem Chunk.Passes.filled {start place : Nat} {passed : List (Nat × Step)}
    (hpasses : code.toChunk.Passes start passed place) {filled : Set Storage}
    (hstart : (start, filled) ∈ known points [(codeSize code.toList, last)]) :
    ∃ filled', (place, filled') ∈ known points [(codeSize code.toList, last)] ∧
      ∀ slot ∈ filled', slot ∈ filled ∨ slot.FilledBy passed := by
  induction hpasses generalizing filled with
  | nil => exact ⟨filled, hstart, fun _ hslot => .inl hslot⟩
  | @cons offset op operands next passed place hstep hnext _ ih =>
    obtain ⟨i, hi, rfl, rfl⟩ := mem_located_of_mem_steps hstep
    obtain ⟨a, ha, rfl, rfl⟩ := exists_point hpoints hi
    obtain rfl := hpoints.state_unique hstart (mem_known.mpr (.inl ⟨a, ha, rfl⟩))
    obtain ⟨middle, hmiddle, hleads⟩ := (hpoints.sound a ha).leads next (Nat.add_assoc .. ▸ hnext)
    obtain ⟨filled', hplace, hfilled'⟩ := ih hmiddle
    refine ⟨filled', hplace, ?_⟩
    intro slot hslot
    rcases hfilled' slot hslot with hslot | hlater
    · rcases hleads slot hslot with hslot | hfills
      · exact .inl hslot
      · exact .inr ((filledBy_of_fills? hfills a.offset).mono (by simp))
    · exact .inr (hlater.mono (List.subset_cons_self _ _))

/-- What an instruction needs to have filled has been filled at the start of a path to it or on the way. -/
theorem Chunk.Passes.filledBy {start place : Nat} {passed : List (Nat × Step)}
    (hpasses : code.toChunk.Passes start passed place) {filled : Set Storage}
    (hstart : (start, filled) ∈ known points [(codeSize code.toList, last)]) {i : Instruction}
    (hi : (place, i) ∈ located 0 code.toList) {slot : Storage}
    (hslot : ∀ filled', (filledSlots code.toList).allows i filled' → slot ∈ filled') :
    slot ∈ filled ∨ slot.FilledBy passed := by
  obtain ⟨filled', hplace, hfilled'⟩ := hpasses.filled hpoints hstart
  obtain ⟨a, ha, rfl, rfl⟩ := exists_point hpoints hi
  obtain rfl := hpoints.state_unique hplace (mem_known.mpr (.inl ⟨a, ha, rfl⟩))
  exact hfilled' slot (hslot _ (hpoints.sound a ha).allows)

/-- The body of a closure is entered with no slots of its frame filled but the parameters. -/
theorem exists_entered {place : Nat} {entry : UInt16} {params locals free : UInt8}
    (hmakes : (place, .closure entry params locals free) ∈ located 0 code.toList) :
    ∃ filled, (entry.toNat, filled) ∈ known points [(codeSize code.toList, last)] ∧
      ∀ slot, Storage.frame slot ∈ filled → slot < params.toNat := by
  obtain ⟨a, ha, -, hclosure⟩ := exists_point hpoints hmakes
  have hentry : entry.toNat ∈ a.instruction.entries := by
    rw [hclosure]
    exact List.mem_cons_self
  obtain ⟨filled, hknown, henters⟩ := (hpoints.sound a ha).enters _ hentry
  rw [hclosure] at henters
  exact ⟨filled, hknown, henters⟩

end

theorem reads?_of_mem_steps {code : Code} {place : Nat} {op : Opcode} {operands : List Nat} {storage : Storage}
    (h : (place, .complete op operands) ∈ code.toChunk.steps) (hreads : op.reads? operands = some storage) :
    ∃ i, (place, i) ∈ located 0 code.toList ∧ i.reads? = some storage := by
  obtain ⟨i, hi, rfl, rfl⟩ := mem_located_of_mem_steps h
  exact ⟨i, hi, hreads⟩

/-- No slot of generated code is read before it is filled. -/
theorem exists_initialized_of_generate (program : Program) (exe : Executable) (h : generate program = .ok exe) :
    ∃ regions, exe.chunk.Initialized regions := by
  obtain ⟨code, g, hcode, rfl⟩ := generates_of_generate_eq_ok h
  obtain ⟨regions, hlaid, -⟩ := hcode.exists_laid
  have hfills : Fills code.toList 0 code.toList ∅ g.offset g.scope :=
    hcode.fills topLevel_wired ⟨[], [], by simp, rfl⟩ fun _ hread => absurd hread not_readable_topLevel
  obtain ⟨last, -, -, points, hpoints⟩ := hfills
  have hoffset : g.offset = codeSize code.toList := hcode.offset_eq.trans (Nat.zero_add _)
  rw [hoffset] at hpoints
  have hlies : ∀ r ∈ regions, r.LiesIn code.toChunk := fun r hr => hlaid.liesIn hr
  refine ⟨regions, hlies, ?_, ?_, ?_, ?_⟩
  · intro offset operands hmem
    obtain ⟨i, hi, hop, -⟩ := mem_located_of_mem_steps hmem
    exact hlaid.closures offset i hi hop
  · intro r hr passed place slot hpasses hget hparams
    obtain ⟨site⟩ := hlaid.formed r hr
    obtain ⟨i, hi, hreads⟩ := reads?_of_mem_steps hget rfl
    obtain ⟨filled, hentered, hframe⟩ := exists_entered hpoints site.closure_mem_located
    rw [site.entry_eq] at hentered
    rcases hpasses.filledBy hpoints hentered hi fun _ hallows => hallows.1 _ hreads with hslot | hfilled
    · have hlt := hframe slot hslot
      rw [site.params_eq] at hlt
      omega
    · exact hfilled
  · intro passed place slot hpasses hget
    obtain ⟨i, hi, hreads⟩ := reads?_of_mem_steps hget rfl
    rcases hpasses.filledBy hpoints hpoints.starts hi fun _ hallows => hallows.1 _ hreads with hslot | hfilled
    · exact absurd hslot (Set.notMem_empty _)
    · exact hfilled
  · intro r hr place slot hget hcontains passed hpasses
    obtain ⟨site⟩ := hlaid.formed r hr
    obtain ⟨i, hi, hreads⟩ := reads?_of_mem_steps hget rfl
    have hbody : (Instruction.closure site.entry site.params site.locals site.free).BodyReads code.toList slot :=
      ⟨r.skipAt, site.after, place, i, site.entry_eq, site.skip_mem_located, hi, site.entry_eq ▸ hcontains.1,
        site.after_eq ▸ hcontains.2, hreads⟩
    rcases hpasses.filledBy hpoints hpoints.starts site.closure_mem_located fun _ hallows => hallows.2 _ hbody with
      hslot | hfilled
    · exact absurd hslot (Set.notMem_empty _)
    · exact hfilled

/-- A function that fills a slot of its own in each branch, and reads one of the top level and itself. -/
def slotsInBranches : Program :=
  let a : Ident := ⟨"a", default⟩
  let f : Ident := ⟨"f", default⟩
  let n : Ident := ⟨"n", default⟩
  let x : Ident := ⟨"x", default⟩
  let first : Block := .mk [.letStmt x (.ident a) default, .returnStmt (.ident x) default] default
  let second : Block := .mk [.letStmt x (.ident n) default,
    .exprStmt (.call (.ident f) [.ident x] default) default] default
  ⟨[.letStmt a (.int 1 default) default,
    .letStmt f (.function [n] (.mk [.exprStmt (.ifElse (.ident n) first (some second) default) default] default)
      default) default,
    .exprStmt (.call (.ident f) [.ident a] default) default], default⟩

theorem exists_initialized_slotsInBranches :
    ∃ exe, generate slotsInBranches = .ok exe ∧ ∃ regions, exe.chunk.Initialized regions := by
  obtain ⟨exe, hexe⟩ : ∃ exe, generate slotsInBranches = .ok exe := exists_ok_of_isOk (by decide +kernel)
  exact ⟨exe, hexe, exists_initialized_of_generate slotsInBranches exe hexe⟩

end MonkeyLang
