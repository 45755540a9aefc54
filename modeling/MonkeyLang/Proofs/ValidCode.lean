import Mathlib.Data.List.Nodup
import MonkeyLang.Proofs.CodeLayout
/-!
# Generated code is valid

Read from its start, generated code is a sequence of instructions without gaps. Jumps go forward, to instructions of the
function they are in, operands name constants, built-in functions, slots and captured values that there are, and there is
one region of code for each function literal.
-/

namespace MonkeyLang

namespace Phrase

def literal? : Phrase → Option (List Ident)
  | expr _ (.function params _ _) => some params
  | _ => none

/-- The parameters of the function literals in a phrase, in the order of the source. -/
def literals (p : Phrase) : List (List Ident) :=
  p.literal?.toList ++ p.parts.attach.flatMap fun q => literals q.1
termination_by p.size
decreasing_by exact size_lt_of_mem_parts q.2

theorem literals_eq (p : Phrase) : p.literals = p.literal?.toList ++ p.parts.flatMap literals := by
  rw [literals, List.flatMap_subtype (g := literals) (fun _ _ => rfl), List.unattach_attach]

theorem literals_of_part {p q : Phrase} (hnone : p.literal? = none) (hparts : p.parts = [q]) :
    p.literals = q.literals := by
  simp [literals_eq p, hnone, hparts]

theorem literals_of_two_parts {p q q' : Phrase} (hnone : p.literal? = none) (hparts : p.parts = [q, q']) :
    p.literals = q.literals ++ q'.literals := by
  simp [literals_eq p, hnone, hparts]

theorem literals_of_three_parts {p q q' q'' : Phrase} (hnone : p.literal? = none) (hparts : p.parts = [q, q', q'']) :
    p.literals = q.literals ++ q'.literals ++ q''.literals := by
  simp [literals_eq p, hnone, hparts]

/-- Where the jumps of a phrase may leave it, if its code ends at an offset: statements end with an instruction that jumps
may still go to. -/
def ways (p : Phrase) (stop : Nat) : List Nat :=
  match p with
  | stmt _ | stmts _ | functionStmts _ => []
  | _ => [stop]

theorem eq_of_mem_ways {p : Phrase} {stop target : Nat} (h : target ∈ p.ways stop) : target = stop := by
  unfold ways at h
  split at h <;> simp at h
  exact h

end Phrase

/-! ### Operands -/

namespace Limits

/-- Whether there is room for something in a function. -/
def Admits (limits : Limits) : Storage → Prop
  | .frame slot => slot < limits.locals
  | .captured index => index < limits.free
  | .builtin index => index < builtins.length
  | .global _ | .running => True

/-- There is room for all constants of a pool and for all that names of the first of some functions may stand for. -/
structure Holds (limits : Limits) (fs : List FunctionScope) (pool : ConstantPool) : Prop where
  storages : ∀ storage, storage.In fs → limits.Admits storage
  constants : ∀ place c, pool.get? place = some c → place < limits.constants

theorem Holds.of_grow {limits : Limits} {fs fs' : List FunctionScope} {pool pool' : ConstantPool}
    (h : limits.Holds fs' pool') (hscopes : ScopesGrow fs fs') (hpool : pool.Grows pool') : limits.Holds fs pool where
  storages storage hstorage := h.storages storage (hstorage.grow hscopes)
  constants place c hc := h.constants place c (hpool place c hc)

/-- A function has room for its own slots and captured values. -/
theorem Holds.inside {limits : Limits} {f : FunctionScope} {outer : List FunctionScope} {pool : ConstantPool}
    (h : limits.Holds outer pool) : Limits.Holds ⟨f.slots, f.captures.length, limits.constants⟩ (f :: outer) pool where
  storages storage hstorage := by
    cases storage with
    | frame slot =>
      obtain ⟨-, f', hf', hslot⟩ := hstorage
      cases hf'
      exact hslot
    | captured index =>
      obtain ⟨f', hf', hindex⟩ := hstorage
      cases hf'
      exact hindex
    | builtin index => exact hstorage
    | global _ | running => trivial
  constants := h.constants

/-- The top level has neither slots of its own nor captured values. -/
theorem holds_topLevel {f : FunctionScope} (hcaptures : f.captures = []) (pool : ConstantPool) :
    Limits.Holds ⟨0, 0, pool.size⟩ [f] pool where
  storages storage hstorage := by
    cases storage with
    | frame slot => exact absurd hstorage.1 (by simp)
    | captured index =>
      obtain ⟨f', hf', hindex⟩ := hstorage
      cases hf'
      rw [hcaptures] at hindex
      exact hindex
    | builtin index => exact hstorage
    | global _ | running => trivial
  constants _ _ hc := ConstantPool.lt_size_of_get? hc

end Limits

theorem settled_of_load? {storage : Storage} {i : Instruction} {limits : Limits} (hload : storage.load? = some i)
    (hadmits : limits.Admits storage) : i.Settled limits := by
  cases storage with
  | running =>
    cases hload
    exact ⟨trivial, rfl, by simp [Instruction.opcode]⟩
  | global slot =>
    simp only [Storage.load?, Option.ite_none_right_eq_some, Option.some.injEq] at hload
    obtain ⟨-, rfl⟩ := hload
    exact ⟨trivial, rfl, by simp [Instruction.opcode]⟩
  | frame slot | captured slot | builtin slot =>
    simp only [Storage.load?, Option.ite_none_right_eq_some, Option.some.injEq] at hload
    obtain ⟨hlt, rfl⟩ := hload
    refine ⟨?_, rfl, by simp [Instruction.opcode]⟩
    intro place hplace
    rw [List.mem_singleton.mp hplace, toNat_ofNat_byte hlt]
    exact hadmits

theorem settled_of_store? {storage : Storage} {i : Instruction} {limits : Limits} (hstore : storage.store? = some i)
    (hadmits : limits.Admits storage) : i.Settled limits := by
  cases storage with
  | builtin _ | captured _ | running => cases hstore
  | global slot =>
    simp only [Storage.store?, Option.ite_none_right_eq_some, Option.some.injEq] at hstore
    obtain ⟨-, rfl⟩ := hstore
    exact ⟨trivial, rfl, by simp [Instruction.opcode]⟩
  | frame slot =>
    simp only [Storage.store?, Option.ite_none_right_eq_some, Option.some.injEq] at hstore
    obtain ⟨hlt, rfl⟩ := hstore
    refine ⟨?_, rfl, by simp [Instruction.opcode]⟩
    intro place hplace
    rw [List.mem_singleton.mp hplace, toNat_ofNat_byte hlt]
    exact hadmits

theorem exists_of_mem_loads {symbols : List Symbol} {loads : List Instruction}
    (h : List.Forall₂ (fun symbol i => symbol.storage.load? = some i) symbols loads) {i : Instruction} (hi : i ∈ loads) :
    ∃ symbol ∈ symbols, symbol.storage.load? = some i := by
  induction h with
  | nil => cases hi
  | @cons symbol j symbols loads hload _ ih =>
    rcases List.mem_cons.mp hi with rfl | hi
    · exact ⟨symbol, List.mem_cons_self, hload⟩
    · obtain ⟨symbol', hsymbol, hload'⟩ := ih hi
      exact ⟨symbol', List.mem_cons_of_mem _ hsymbol, hload'⟩

theorem loadsCapture_of_load? {storage : Storage} {i : Instruction} (hload : storage.load? = some i)
    (hcall : storage.OfCall) : i.opcode.LoadsCapture := by
  cases storage with
  | global _ | builtin _ => cases hcall
  | running =>
    cases hload
    exact .inr (.inr rfl)
  | frame slot =>
    simp only [Storage.load?, Option.ite_none_right_eq_some, Option.some.injEq] at hload
    obtain ⟨-, rfl⟩ := hload
    exact .inl rfl
  | captured slot =>
    simp only [Storage.load?, Option.ite_none_right_eq_some, Option.some.injEq] at hload
    obtain ⟨-, rfl⟩ := hload
    exact .inr (.inl rfl)

/-! ### Along a derivation -/

/-- The body of a function ends with a return. -/
theorem Generates.returns {ss : List Stmt} {g g' : Generator} {code : List CodeLine}
    (h : Generates (.functionStmts ss) g code g') :
    ∃ (body : List CodeLine) (line : Nat) (last : Instruction), code = body ++ [⟨line, last⟩] ∧ (last = .returnValue ∨ last = .returnNull) := by
  induction ss generalizing g code with
  | nil =>
    cases h
    exact ⟨[], _, _, rfl, .inr rfl⟩
  | cons s rest ih =>
    cases h with
    | functionExpr _ | functionReturn _ => exact ⟨_, _, _, rfl, .inl rfl⟩
    | functionLet _ => exact ⟨_, _, _, rfl, .inr rfl⟩
    | functionCons _ hrest =>
      obtain ⟨body, line, last, rfl, hlast⟩ := ih hrest
      exact ⟨_, line, last, (List.append_assoc ..).symm, hlast⟩

/-- The code at an offset can be laid out, with one region for each of some function literals. -/
def Spread (limits : Limits) (offset : Nat) (code : List CodeLine) (literals : List (List Ident)) (exits : List Nat) :
    Prop :=
  ∃ regions, Laid limits offset code regions exits ∧ regions.map Region.params = literals.map List.length

namespace Spread

variable {limits : Limits} {offset middle : Nat} {c d : List CodeLine} {literals literals' : List (List Ident)}
  {E exits : List Nat}

theorem settled {line : Nat} {i : Instruction} (hi : i.Settled limits) : Spread limits offset [⟨line, i⟩] [] exits :=
  ⟨[], .single hi.fits hi.closure (by simp [hi.targets]), rfl⟩

theorem append (hc : Spread limits offset c literals E) (hd : Spread limits middle d literals' exits)
    (hmiddle : middle = offset + codeSize c) (hE : ∀ target ∈ E, target = middle ∧ (d = [] → middle ∈ exits)) :
    Spread limits offset (c ++ d) (literals ++ literals') exits := by
  obtain ⟨R, hR, hcount⟩ := hc
  obtain ⟨R', hR', hcount'⟩ := hd
  refine ⟨R ++ R', hR.andThen hR' hmiddle (fun target ht => (hE target ht).1) ?_, ?_⟩
  · intro hd target htarget
    rw [(hE target htarget).1]
    exact (hE target htarget).2 hd
  · rw [List.map_append, List.map_append, hcount, hcount']

theorem andSettled {line : Nat} {i : Instruction} (hc : Spread limits offset c literals E)
    (hmiddle : middle = offset + codeSize c) (hE : ∀ target ∈ E, target = middle) (hi : i.Settled limits) :
    Spread limits offset (c ++ [⟨line, i⟩]) literals exits := by
  obtain ⟨R, hR, hcount⟩ := hc
  exact ⟨R, hR.andSettled hmiddle hE hi, hcount⟩

end Spread

theorem Generates.mem_of_eq_nil {p : Phrase} {g g' : Generator} {code : List CodeLine} (h : Generates p g code g')
    (hcode : code = []) : g.offset ∈ [g'.offset] := by
  rw [h.offset_eq, hcode]
  exact List.mem_cons_self

/-- The code of a phrase is laid out with one region for each of its function literals. -/
theorem Generates.spread {p : Phrase} {g g' : Generator} {code : List CodeLine} (h : Generates p g code g')
    (hsound : g.Sound) {limits : Limits} (hlimits : limits.Holds g'.scope.functions g'.pool) :
    Spread limits g.offset code p.literals (p.ways g'.offset) := by
  induction h generalizing limits with
  | @constant name e c g place pool hconstant hadd hplace =>
    cases e with
    | int _ _ | string _ _ =>
      obtain ⟨-, -, hget⟩ := hsound.pool.add hadd hplace
      have hfits : (Instruction.constant (.ofNat place)).Fits limits := by
        intro operand hoperand
        rw [List.mem_singleton.mp hoperand, toNat_ofNat_word hplace]
        exact hlimits.constants place c hget
      rw [Phrase.literals_eq]
      exact .settled ⟨hfits, rfl, by simp [Instruction.opcode]⟩
    | _ => cases hconstant
  | bool =>
    rw [Phrase.literals_eq]
    exact .settled (Instruction.settled_bool _ _)
  | otherwiseNone | valueNil =>
    rw [Phrase.literals_eq]
    exact .settled ⟨trivial, rfl, by simp [Instruction.opcode]⟩
  | functionNil =>
    rw [Phrase.literals_eq]
    exact .settled ⟨trivial, rfl, by simp [Instruction.opcode]⟩
  | @ident name id g symbol scope i hresolve hload =>
    obtain ⟨-, -, hstorage⟩ := SymbolScope.resolve_spec hsound.scopes hresolve
    rw [Phrase.literals_eq]
    exact .settled (settled_of_load? hload (hlimits.storages _ hstorage))
  | operandsNil | exprsNil | pairsNil | stmtsNil =>
    rw [Phrase.literals_eq]
    exact ⟨[], .nil, rfl⟩
  | chain hfirst hrest ihfirst ihrest | exprsCons hfirst hrest ihfirst ihrest =>
    obtain ⟨hsound₁, -⟩ := hfirst.sound hsound
    obtain ⟨-, hgrows⟩ := hrest.sound hsound₁
    rw [Phrase.literals_of_two_parts rfl rfl]
    exact (ihfirst hsound (hlimits.of_grow hgrows.scopes hgrows.pool)).append (ihrest hsound₁ hlimits) hfirst.offset_eq
      (by simpa [Phrase.ways] using hrest.mem_of_eq_nil)
  | unary hoperand ih =>
    rw [Phrase.literals_of_part rfl rfl]
    exact (ih hsound hlimits).andSettled hoperand.offset_eq (fun _ => Phrase.eq_of_mem_ways)
      (Instruction.settled_unary _ _)
  | array hoperand _ ih | hash hoperand _ ih =>
    rw [Phrase.literals_of_part rfl rfl]
    exact (ih hsound hlimits).andSettled hoperand.offset_eq (fun _ => Phrase.eq_of_mem_ways) ⟨trivial, rfl, by simp [Instruction.opcode]⟩
  | call hfirst hrest _ ihfirst ihrest | index hfirst hrest ihfirst ihrest =>
    obtain ⟨hsound₁, -⟩ := hfirst.sound hsound
    obtain ⟨-, hgrows⟩ := hrest.sound hsound₁
    rw [Phrase.literals_of_two_parts rfl rfl]
    refine Spread.andSettled ((ihfirst hsound (hlimits.of_grow hgrows.scopes hgrows.pool)).append (ihrest hsound₁ hlimits)
      hfirst.offset_eq ?_) ?_ (fun _ => Phrase.eq_of_mem_ways) ⟨trivial, rfl, by simp [Instruction.opcode]⟩
    · simpa [Phrase.ways] using hrest.mem_of_eq_nil
    · rw [hrest.offset_eq, hfirst.offset_eq, codeSize_append, Nat.add_assoc]
  | @function name params body blockSpan span g c g₁ f scope loads hbody hleave htarget hloads hentry hparams hlocals
      hfree ih =>
    obtain ⟨code, returnLine, last, rfl, hreturns⟩ := hbody.returns
    obtain ⟨hentered, -, hslots⟩ := SymbolScope.enterFunction_spec name params hsound.scopes
    obtain ⟨hsound₁, hgrows₁⟩ := hbody.sound ⟨hentered, hsound.pool⟩
    obtain ⟨-, -, hgrows, hcaptures⟩ := SymbolScope.leave?_spec hsound₁.scopes hleave hgrows₁.scopes
    have hinner : Limits.Holds ⟨f.slots, f.captures.length, limits.constants⟩ g₁.scope.functions g₁.pool := by
      rw [SymbolScope.functions_of_leave? hleave]
      exact hlimits.inside
    obtain ⟨R, hR, hcount⟩ := ih ⟨hentered, hsound.pool⟩ hinner
    have hparamsLe : params.length ≤ f.slots := hslots ▸ hgrows.slots
    let r : Region :=
      ⟨g.offset, g₁.offset, g₁.offset + codeSize (loads.map fun i => ⟨span.line, i⟩), params.length,
        ⟨f.slots, f.captures.length, limits.constants⟩⟩
    let site : r.Site g.offset _ :=
      { front := [], skipLine := g.line, after := .ofNat g₁.offset, body := code, returnLine, last
        loads := loads.map fun i => ⟨span.line, i⟩, line := span.line, entry := .ofNat (g.offset + 3)
        params := .ofNat params.length, locals := .ofNat f.slots, free := .ofNat f.captures.length, back := []
        split := rfl, skipAt := rfl, stop := hbody.offset_eq, closureAt := rfl
        after_eq := toNat_ofNat_word htarget, entry_eq := toNat_ofNat_word hentry
        params_eq := toNat_ofNat_byte hparams, locals_eq := toNat_ofNat_byte hlocals
        free_eq := toNat_ofNat_byte hfree, params_le := hparamsLe, returns := hreturns
        loads_length := (List.length_map _).trans hloads.length_eq.symm
        loads_capture := by
          intro l hl
          obtain ⟨i, hi, rfl⟩ := List.mem_map.mp hl
          obtain ⟨symbol, hsymbol, hload⟩ := exists_of_mem_loads hloads hi
          exact loadsCapture_of_load? hload (hcaptures symbol hsymbol).1 }
    refine ⟨r :: R, Laid.function site rfl rfl rfl hR ?_, ?_⟩
    · intro l hl
      obtain ⟨i, hi, rfl⟩ := List.mem_map.mp hl
      obtain ⟨symbol, hsymbol, hload⟩ := exists_of_mem_loads hloads hi
      exact (settled_of_load? hload (hlimits.storages _ (hcaptures symbol hsymbol).2)).fits
    · rw [Phrase.literals_eq]
      simp [Phrase.literal?, Phrase.parts, hcount, r]
  | @ifElse name condition thenBlock elseBlock span g c g₁ d g₂ e g₃ hcondition hthen hskip helse hleave ihcondition
      ihthen ihelse =>
    obtain ⟨hsound₁, -⟩ := hcondition.sound hsound
    obtain ⟨hsound₂, hgrows₂⟩ := hthen.sound ⟨hsound₁.scopes, hsound₁.pool⟩
    obtain ⟨-, hgrows₃⟩ := helse.sound ⟨hsound₂.scopes, hsound₂.pool⟩
    have hlimits₂ := hlimits.of_grow hgrows₃.scopes hgrows₃.pool
    obtain ⟨R, hR, hcount⟩ := ihcondition hsound (hlimits₂.of_grow hgrows₂.scopes hgrows₂.pool)
    obtain ⟨R', hR', hcount'⟩ := ihthen ⟨hsound₁.scopes, hsound₁.pool⟩ hlimits₂
    obtain ⟨R'', hR'', hcount''⟩ := ihelse ⟨hsound₂.scopes, hsound₂.pool⟩ hlimits
    have hleave := toNat_ofNat_word hleave
    have hall := Laid.branch g₁.line g₂.line hR hcondition.offset_eq hR' hthen.offset_eq (hleave.symm ▸ hR'')
      (hleave.trans helse.offset_eq) (toNat_ofNat_word hskip)
    rw [hleave] at hall
    refine ⟨R ++ (R' ++ R''), hall, ?_⟩
    rw [Phrase.literals_of_three_parts rfl rfl]
    simp [hcount, hcount', hcount'']
  | paren hinner ih | otherwiseSome hinner ih =>
    rw [Phrase.literals_of_part rfl rfl]
    exact ih hsound hlimits
  | @operandsCons op operand rest g c g₁ d g₂ hoperand hrest ihoperand ihrest =>
    obtain ⟨hsound₁, -⟩ := hoperand.sound hsound
    obtain ⟨-, hgrows⟩ := hrest.sound ⟨hsound₁.scopes, hsound₁.pool⟩
    have hfirst : Spread limits g.offset (c ++ [⟨g₁.line, .binary op⟩]) (Phrase.expr none operand).literals [] :=
      (ihoperand hsound (hlimits.of_grow hgrows.scopes hgrows.pool)).andSettled hoperand.offset_eq (fun _ => Phrase.eq_of_mem_ways)
        (Instruction.settled_binary op limits)
    have hsize : g₁.offset + 1 = g.offset + codeSize (c ++ [⟨g₁.line, .binary op⟩]) := by
      rw [hoperand.offset_eq, codeSize_append, codeSize_cons, Instruction.size_eq, codeSize_nil, Nat.add_assoc]
    rw [Phrase.literals_of_two_parts rfl rfl, List.append_cons]
    exact hfirst.append (ihrest ⟨hsound₁.scopes, hsound₁.pool⟩ hlimits) hsize (by simp)
  | @pairsCons key value rest g c g₁ d g₂ e g₃ hkey hvalue hrest ihkey ihvalue ihrest =>
    obtain ⟨hsound₁, -⟩ := hkey.sound hsound
    obtain ⟨hsound₂, hgrows₂⟩ := hvalue.sound hsound₁
    obtain ⟨-, hgrows₃⟩ := hrest.sound hsound₂
    have hlimits₂ := hlimits.of_grow hgrows₃.scopes hgrows₃.pool
    have hboth := (ihkey hsound (hlimits₂.of_grow hgrows₂.scopes hgrows₂.pool)).append (ihvalue hsound₁ hlimits₂) hkey.offset_eq
      (by simpa [Phrase.ways] using hvalue.mem_of_eq_nil)
    have hsize : g₂.offset = g.offset + codeSize (c ++ d) := by
      rw [hvalue.offset_eq, hkey.offset_eq, codeSize_append, Nat.add_assoc]
    rw [Phrase.literals_of_three_parts rfl rfl]
    exact hboth.append (ihrest hsound₂ hlimits) hsize (by simpa [Phrase.ways] using hrest.mem_of_eq_nil)
  | @letStmt name value span g c g₁ i hvalue hstore ih =>
    obtain ⟨hsound₁, -⟩ := hvalue.sound ⟨hsound.scopes, hsound.pool⟩
    obtain ⟨-, hgrows, hstorage⟩ := SymbolScope.define_spec name.name hsound₁.scopes
    rw [Phrase.literals_of_part rfl rfl]
    exact (ih ⟨hsound.scopes, hsound.pool⟩ (hlimits.of_grow hgrows (.refl _))).andSettled hvalue.offset_eq
      (fun _ => Phrase.eq_of_mem_ways) (settled_of_store? hstore (hlimits.storages _ hstorage))
  | functionReturn hvalue ih =>
    rw [Phrase.literals_of_part rfl rfl, Phrase.literals_of_part rfl rfl]
    refine Spread.andSettled (ih ⟨hsound.scopes, hsound.pool⟩ hlimits) hvalue.offset_eq
      (fun _ => Phrase.eq_of_mem_ways) ?_
    exact ⟨trivial, rfl, by simp [Instruction.opcode]⟩
  | returnStmt hvalue ih | exprStmt hvalue ih | functionExpr hvalue ih =>
    rw [Phrase.literals_of_part rfl rfl]
    refine Spread.andSettled (ih ⟨hsound.scopes, hsound.pool⟩ hlimits) hvalue.offset_eq
      (fun _ => Phrase.eq_of_mem_ways) ?_
    exact ⟨trivial, rfl, by simp [Instruction.opcode]⟩
  | stmtsCons hfirst hrest ihfirst ihrest | valueCons hfirst hrest ihfirst ihrest
  | functionCons hfirst hrest ihfirst ihrest =>
    obtain ⟨hsound₁, -⟩ := hfirst.sound hsound
    obtain ⟨-, hgrows⟩ := hrest.sound hsound₁
    rw [Phrase.literals_of_two_parts rfl rfl]
    exact (ihfirst hsound (hlimits.of_grow hgrows.scopes hgrows.pool)).append (ihrest hsound₁ hlimits) hfirst.offset_eq
      (by simp [Phrase.ways])
  | @valueBlock body span g c g₁ hbody ih =>
    obtain ⟨hopened, -⟩ := SymbolScope.openBlock_spec hsound.scopes
    obtain ⟨hsound₁, -⟩ := hbody.sound ⟨hopened, hsound.pool⟩
    obtain ⟨-, hgrows⟩ := SymbolScope.closeBlock_spec hsound₁.scopes
    rw [Phrase.literals_of_part rfl rfl]
    exact ih ⟨hopened, hsound.pool⟩ (hlimits.of_grow hgrows (.refl _))
  | valueExpr hexpr ih =>
    rw [Phrase.literals_of_part rfl rfl]
    exact ih ⟨hsound.scopes, hsound.pool⟩ hlimits
  | @valueLast s g c g₁ hkind hlast ih =>
    have hparts : (Phrase.valueStmts [s]).parts = [.stmt s] := by
      cases s with
      | exprStmt e span => exact absurd rfl (hkind e span)
      | _ => rfl
    rw [Phrase.literals_of_part rfl hparts]
    exact (ih hsound hlimits).andSettled hlast.offset_eq (fun _ => Phrase.eq_of_mem_ways) ⟨trivial, rfl, by simp [Instruction.opcode]⟩
  | functionLet hlast ih =>
    rw [Phrase.literals_of_part rfl rfl]
    exact (ih hsound hlimits).andSettled hlast.offset_eq (fun _ => Phrase.eq_of_mem_ways) ⟨trivial, rfl, by simp [Instruction.opcode]⟩

/-! ### The code of a program -/

/-- The steps from a place on are instructions with all their operands, read one behind the other up to the end. -/
inductive Chunk.Covers (c : Chunk) : Nat → List (Nat × Step) → Prop
  | nil : Covers c c.size []
  | cons {offset op operands rest} (hop : c.readOp? offset = some op) (hoperands : c.readOperands? offset = some operands)
      (hrest : Covers c (offset + 1 + op.operandSize) rest) : Covers c offset ((offset, .complete op operands) :: rest)

namespace Region

/-- The innermost of some regions around a place. -/
def Owns (regions : List Region) (r : Region) (place : Nat) : Prop :=
  r.Contains place ∧ ∀ r' ∈ regions, r'.Contains place → r'.start ≤ r.start

/-- What surrounds a region in a chunk: a jump to its end in front of it, a return at its end, and behind it the captured
values and the only closure with this entry. -/
structure LiesIn (r : Region) (c : Chunk) : Prop where
  skips : (r.skipAt, .complete .jump [r.stop]) ∈ c.steps
  returns : ∃ place op, (place, .complete op []) ∈ c.steps ∧ (op = .returnValue ∨ op = .returnNull) ∧
    r.start ≤ place ∧ place + 1 = r.stop
  makes : (r.closureAt, .complete .closure [r.start, r.params, r.limits.locals, r.limits.free]) ∈ c.steps
  only : ∀ place operands, (place, .complete .closure operands) ∈ c.steps → operands.head? = some r.start →
    place = r.closureAt
  behind : r.stop ≤ r.closureAt
  captures : (c.steps.filter fun s => r.stop ≤ s.1 ∧ s.1 < r.closureAt).length = r.limits.free
  loads : ∀ place step, (place, step) ∈ c.steps → r.stop ≤ place → place < r.closureAt →
    ∃ op operands, step = .complete op operands ∧ op.LoadsCapture
  params_le : r.params ≤ r.limits.locals

end Region

/-- Code is valid, with a region for each of some function literals in their order. -/
structure Executable.Valid (exe : Executable) (literals : List (List Ident)) (regions : List Region) : Prop where
  covers : exe.chunk.Covers 0 exe.chunk.steps
  constants : ∀ offset place, (offset, .complete .constant [place]) ∈ exe.chunk.steps → place < exe.pool.size
  builtin : ∀ offset place, (offset, .complete .getBuiltin [place]) ∈ exe.chunk.steps → place < builtins.length
  jumps : ∀ offset op target, (offset, .complete op [target]) ∈ exe.chunk.steps → op = .jump ∨ op = .jumpIfFalse →
    offset < target ∧ target < exe.chunk.size ∧ (∃ step, (target, step) ∈ exe.chunk.steps) ∧
      ∀ r ∈ regions, r.Contains offset ↔ r.Contains target
  params : regions.map Region.params = literals.map List.length
  lies : ∀ r ∈ regions, r.LiesIn exe.chunk
  ordered : regions.Pairwise Region.Precedes
  closures : ∀ offset operands, (offset, .complete .closure operands) ∈ exe.chunk.steps →
    ∃ r ∈ regions, r.closureAt = offset
  locals : ∀ r ∈ regions, ∀ offset op slot, (offset, .complete op [slot]) ∈ exe.chunk.steps →
    op = .getLocal ∨ op = .setLocal → r.Owns regions offset → slot < r.limits.locals
  free : ∀ r ∈ regions, ∀ offset place, (offset, .complete .getFree [place]) ∈ exe.chunk.steps →
    r.Owns regions offset → place < r.limits.free

theorem Chunk.covers_of_bytes {c : Chunk} (front : List UInt8) (code : List CodeLine)
    (hcode : c.code.toList = front ++ codeBytes code) :
    c.Covers front.length ((located front.length code).map fun s => (s.1, s.2.step)) := by
  induction code generalizing front with
  | nil =>
    have hsize : front.length = c.size := by
      rw [size, ← Array.length_toList, hcode]
      simp [codeBytes]
    rw [hsize]
    exact .nil
  | cons line code ih =>
    have hsplit : c.code.toList = front ++ line.instruction.bytes ++ codeBytes code := by
      simpa [codeBytes] using hcode
    have hlength : (front ++ line.instruction.bytes).length = front.length + 1 + line.instruction.opcode.operandSize := by
      rw [List.length_append, Instruction.length_bytes, Instruction.size, Nat.add_assoc]
    have hrest := ih (front ++ line.instruction.bytes) hsplit
    rw [hlength] at hrest
    refine .cons (readOp?_of_bytes _ hsplit) (readOperands?_of_bytes _ hsplit) ?_
    rw [Instruction.size, ← Nat.add_assoc]
    exact hrest

theorem covers_toChunk (code : Code) : code.toChunk.Covers 0 code.toChunk.steps := by
  rw [steps_toChunk]
  exact Chunk.covers_of_bytes [] code.toList (by simpa using toList_toChunk_code code)

theorem mem_located_of_mem_steps {code : Code} {offset : Nat} {op : Opcode} {operands : List Nat}
    (h : (offset, .complete op operands) ∈ code.toChunk.steps) :
    ∃ i, (offset, i) ∈ located 0 code.toList ∧ i.opcode = op ∧ i.operands = operands := by
  obtain ⟨i, hi, heq⟩ := mem_steps_toChunk.mp h
  injection heq with hop hoperands
  exact ⟨i, hi, hop.symm, hoperands.symm⟩

theorem mem_steps_of_mem_located {code : Code} {offset : Nat} {i : Instruction} (h : (offset, i) ∈ located 0 code.toList) :
    (offset, .complete i.opcode i.operands) ∈ code.toChunk.steps :=
  mem_steps_toChunk.mpr ⟨i, h, rfl⟩

namespace Laid

variable {limits : Limits} {offset : Nat} {code : List CodeLine} {regions : List Region} {exits : List Nat}

theorem start_lt_of_precedes (h : Laid limits offset code regions exits) {r r' : Region} (hr : r ∈ regions)
    (hprecedes : r.Precedes r') : r.start < r'.start := by
  have := h.bounds hr
  have : r'.start = r'.skipAt + 3 := rfl
  rcases hprecedes with _ | _ <;> omega

theorem eq_of_start_eq (h : Laid limits offset code regions exits) {r r' : Region} (hr : r ∈ regions)
    (hr' : r' ∈ regions) (hstart : r.start = r'.start) : r = r' := by
  have hnodup : (regions.map Region.start).Nodup := by
    rw [List.Nodup, List.pairwise_map]
    exact h.ordered.imp_of_mem fun hr _ hprecedes => Nat.ne_of_lt (h.start_lt_of_precedes hr hprecedes)
  exact List.inj_on_of_nodup_map hnodup hr hr' hstart

/-- An instruction belongs to the innermost function around it. -/
theorem limitsAt_of_owns (h : Laid limits offset code regions exits) {r : Region} (hr : r ∈ regions) {place : Nat}
    (howns : r.Owns regions place) : limitsAt limits regions place = r.limits := by
  obtain ⟨A, B, hsplit⟩ := List.append_of_mem hr
  have hB : ∀ r' ∈ B, ¬ r'.Contains place := by
    intro r' hr' hcontains
    have hordered := h.ordered
    rw [hsplit, List.pairwise_append, List.pairwise_cons] at hordered
    have hlt := h.start_lt_of_precedes hr (hordered.2.1.1 r' hr')
    have hle := howns.2 r' (by rw [hsplit]; simp [hr']) hcontains
    omega
  rw [hsplit, limitsAt_append, limitsAt, List.foldl_cons, if_pos howns.1]
  exact limitsAt_eq_of_not_contains hB

end Laid

theorem length_located (offset : Nat) (code : List CodeLine) : (located offset code).length = code.length := by
  induction code generalizing offset with
  | nil => rfl
  | cons c code ih => rw [located_cons, List.length_cons, List.length_cons, ih]

/-- Between a region and its closure there is nothing but the captured values. -/
theorem Region.Site.length_filter_located {r : Region} {offset : Nat} {code : List CodeLine}
    (site : r.Site offset code) :
    ((located offset code).filter fun s => r.stop ≤ s.1 ∧ s.1 < r.closureAt).length = r.limits.free := by
  have hbounds := site.bounds
  have hstop := site.stop
  have hclosureAt := site.closureAt
  have hskipAt := site.skipAt
  have hstart : r.start = r.skipAt + 3 := rfl
  have hbefore : ∀ place i, (place, i) ∈ located offset site.front → ¬ (r.stop ≤ place ∧ place < r.closureAt) := by
    intro place i hmem
    have := bounds_of_mem_located hmem
    have := i.size_pos
    omega
  have hbody : ∀ place i, (place, i) ∈ located r.start (site.body ++ [⟨site.returnLine, site.last⟩]) →
      ¬ (r.stop ≤ place ∧ place < r.closureAt) := by
    intro place i hmem
    have := bounds_of_mem_located hmem
    have := i.size_pos
    omega
  have hloads : ∀ place i, (place, i) ∈ located r.stop site.loads → r.stop ≤ place ∧ place < r.closureAt := by
    intro place i hmem
    have := bounds_of_mem_located hmem
    have := i.size_pos
    omega
  have hback : ∀ place i, (place, i) ∈ located (r.closureAt + 6) site.back →
      ¬ (r.stop ≤ place ∧ place < r.closureAt) := by
    intro place i hmem
    have := bounds_of_mem_located hmem
    omega
  have hnone : ∀ l : List (Nat × Instruction), (∀ place i, (place, i) ∈ l → ¬ (r.stop ≤ place ∧ place < r.closureAt)) →
      (l.filter fun s => r.stop ≤ s.1 ∧ s.1 < r.closureAt) = [] := by
    intro l hl
    rw [List.filter_eq_nil_iff]
    intro s hs
    simpa using hl s.1 s.2 hs
  have hall : ((located r.stop site.loads).filter fun s => r.stop ≤ s.1 ∧ s.1 < r.closureAt) =
      located r.stop site.loads := by
    rw [List.filter_eq_self]
    intro s hs
    simpa using hloads s.1 s.2 hs
  rw [site.located_eq, List.filter_append, hnone _ hbefore, List.nil_append, List.filter_cons_of_neg, List.filter_append,
    List.filter_append, hnone _ hbody, List.nil_append, hall, List.filter_cons_of_neg, hnone _ hback, List.append_nil,
    length_located, site.loads_length]
  · simp
  · simp only [decide_eq_true_eq]
    omega

theorem Region.Site.mem_loads {r : Region} {offset : Nat} {code : List CodeLine} (site : r.Site offset code)
    {place : Nat} {i : Instruction} (hmem : (place, i) ∈ located offset code) (hstop : r.stop ≤ place)
    (hlt : place < r.closureAt) : ∃ l ∈ site.loads, i = l.instruction := by
  have hbounds := site.bounds
  have hskipAt := site.skipAt
  have hstart : r.start = r.skipAt + 3 := rfl
  have hsize := site.stop
  rw [site.located_eq, List.mem_append, List.mem_cons, List.mem_append, List.mem_append, List.mem_cons] at hmem
  rcases hmem with hmem | hmem | (hmem | hmem) | hmem | hmem
  · have := bounds_of_mem_located hmem
    have := i.size_pos
    omega
  · have := (Prod.mk.inj hmem).1
    omega
  · have := bounds_of_mem_located hmem
    have := i.size_pos
    omega
  · exact exists_line_of_mem_located hmem
  · have := (Prod.mk.inj hmem).1
    omega
  · have := bounds_of_mem_located hmem
    omega

/-- A region of generated code has its surroundings in the chunk. -/
theorem Laid.liesIn {limits : Limits} {code : Code} {regions : List Region} {exits : List Nat}
    (h : Laid limits 0 code.toList regions exits) {r : Region} (hr : r ∈ regions) : r.LiesIn code.toChunk := by
  have hmake : ∀ r ∈ regions, ∃ entry params locals free,
      (r.closureAt, .closure entry params locals free) ∈ located 0 code.toList ∧ entry.toNat = r.start ∧
        params.toNat = r.params ∧ locals.toNat = r.limits.locals ∧ free.toNat = r.limits.free := by
    intro r hr
    obtain ⟨site⟩ := h.formed r hr
    refine ⟨site.entry, site.params, site.locals, site.free, ?_, site.entry_eq, site.params_eq, site.locals_eq,
      site.free_eq⟩
    rw [site.located_eq]
    simp
  obtain ⟨site⟩ := h.formed r hr
  obtain ⟨entry, params, locals, free, hclosure, hentry, hparams, hlocals, hfree⟩ := hmake r hr
  have hbounds := site.bounds
  refine ⟨?_, ?_, ?_, ?_, hbounds.2.2.1, ?_, ?_, site.params_le⟩
  · have hjump : (r.skipAt, .jump site.after) ∈ located 0 code.toList := by
      rw [site.located_eq]
      simp
    have hstep := mem_steps_of_mem_located hjump
    rw [Instruction.opcode, Instruction.operands, site.after_eq] at hstep
    exact hstep
  · have hlast : (r.start + codeSize site.body, site.last) ∈ located 0 code.toList := by
      rw [site.located_eq, located_append]
      simp
    have hsize := site.stop
    rw [codeSize_append, codeSize_cons, codeSize_nil] at hsize
    have hstep := mem_steps_of_mem_located hlast
    rcases site.returns with hreturn | hreturn
    · rw [hreturn] at hstep hsize
      exact ⟨_, .returnValue, hstep, .inl rfl, Nat.le_add_right _ _, by rw [hsize]; rfl⟩
    · rw [hreturn] at hstep hsize
      exact ⟨_, .returnNull, hstep, .inr rfl, Nat.le_add_right _ _, by rw [hsize]; rfl⟩
  · have hstep := mem_steps_of_mem_located hclosure
    rw [Instruction.opcode, Instruction.operands, hentry, hparams, hlocals, hfree] at hstep
    exact hstep
  · -- Another closure belongs to another region, which starts elsewhere.
    intro place operands hmem hhead
    obtain ⟨i, hi, hop, rfl⟩ := mem_located_of_mem_steps hmem
    obtain ⟨r', hr', rfl⟩ := h.closures place i hi hop
    obtain ⟨entry', params', locals', free', hclosure', hentry', -⟩ := hmake r' hr'
    obtain rfl := located_inj hi hclosure'
    rw [Instruction.operands, List.head?_cons, Option.some.injEq, hentry'] at hhead
    rw [h.eq_of_start_eq hr' hr hhead]
  · rw [steps_toChunk, List.filter_map, List.length_map]
    exact site.length_filter_located
  · intro place step hmem hstop hlt
    obtain ⟨i, hi, rfl⟩ := mem_steps_toChunk.mp hmem
    obtain ⟨l, hl, rfl⟩ := site.mem_loads hi hstop hlt
    exact ⟨_, _, rfl, site.loads_capture l hl⟩

/-- The steps of a chunk fit the functions that they belong to. -/
theorem Laid.fits_of_mem_steps {limits : Limits} {code : Code} {regions : List Region} {exits : List Nat}
    (h : Laid limits 0 code.toList regions exits) {offset : Nat} {op : Opcode} {operands : List Nat}
    (hmem : (offset, .complete op operands) ∈ code.toChunk.steps) :
    op.Fits operands (limitsAt limits regions offset) := by
  obtain ⟨i, hi, rfl, rfl⟩ := mem_located_of_mem_steps hmem
  exact h.fits offset i hi

theorem constants_limitsAt {limits : Limits} {regions : List Region} (place : Nat)
    (h : ∀ r ∈ regions, r.limits.constants = limits.constants) :
    (limitsAt limits regions place).constants = limits.constants := by
  induction regions generalizing limits with
  | nil => rfl
  | cons r regions ih =>
    have hr := h r List.mem_cons_self
    have hrest := fun r' hr' => h r' (List.mem_cons_of_mem _ hr')
    rw [limitsAt, List.foldl_cons]
    split
    · rw [← hr]
      exact ih fun r' hr' => (hrest r' hr').trans hr.symm
    · exact ih hrest

/-- The code of a program is laid out with one region for each of its function literals. -/
theorem Generates.exists_laid {ss : List Stmt} {code : List CodeLine} {g : Generator}
    (h : Generates (.stmts ss) .initial code g) : ∃ regions, Laid ⟨0, 0, g.pool.size⟩ 0 code regions [] ∧
      regions.map Region.params = (Phrase.stmts ss).literals.map List.length := by
  obtain ⟨hsound, hgrows⟩ := h.sound Generator.initial_sound
  obtain ⟨f, hf, hcaptures⟩ := hsound.scopes.exists_topLevel hgrows.scopes.length_eq.symm
  have hlimits : Limits.Holds ⟨0, 0, g.pool.size⟩ g.scope.functions g.pool := by
    rw [hf]
    exact Limits.holds_topLevel hcaptures g.pool
  exact h.spread Generator.initial_sound hlimits

/-- Generated code is valid. -/
theorem exists_valid_of_generate (program : Program) (exe : Executable) (h : generate program = .ok exe) :
    ∃ regions, exe.Valid (Phrase.stmts program.stmts).literals regions := by
  obtain ⟨code, g, hcode, rfl⟩ := generates_of_generate_eq_ok h
  obtain ⟨hsound, hgrows⟩ := hcode.sound Generator.initial_sound
  obtain ⟨f, hf, hcaptures⟩ := hsound.scopes.exists_topLevel hgrows.scopes.length_eq.symm
  have hlimits : Limits.Holds ⟨0, 0, g.pool.size⟩ g.scope.functions g.pool := by
    rw [hf]
    exact Limits.holds_topLevel hcaptures g.pool
  obtain ⟨regions, hlaid, hparams⟩ := hcode.spread Generator.initial_sound hlimits
  change Laid ⟨0, 0, g.pool.size⟩ 0 code.toList regions [] at hlaid
  refine ⟨regions, covers_toChunk code, ?_, ?_, ?_, hparams, fun r hr => hlaid.liesIn hr, hlaid.ordered, ?_, ?_, ?_⟩
  · intro offset place hmem
    have hfits := hlaid.fits_of_mem_steps hmem place List.mem_cons_self
    rw [constants_limitsAt offset hlaid.shared] at hfits
    exact hfits
  · intro offset place hmem
    exact hlaid.fits_of_mem_steps hmem place List.mem_cons_self
  · intro offset op target hmem hop
    obtain ⟨i, hi, rfl, hoperands⟩ := mem_located_of_mem_steps hmem
    have htarget : target ∈ i.targets := by
      rw [Instruction.targets, hoperands]
      rcases hop with hop | hop <;> rw [hop] <;> exact List.mem_cons_self
    obtain ⟨hlater, hgoes, hstays⟩ := hlaid.jumps offset i hi target htarget
    obtain ⟨j, hj⟩ := hgoes.resolve_right (by simp)
    have hbounds := bounds_of_mem_located hj
    have hpos := j.size_pos
    refine ⟨hlater, ?_, ⟨_, mem_steps_of_mem_located hj⟩, hstays⟩
    rw [size_toChunk]
    omega
  · intro offset operands hmem
    obtain ⟨i, hi, hop, -⟩ := mem_located_of_mem_steps hmem
    exact hlaid.closures offset i hi hop
  · intro r hr offset op slot hmem hop howns
    have hfits := hlaid.fits_of_mem_steps hmem
    rw [hlaid.limitsAt_of_owns hr howns] at hfits
    rcases hop with rfl | rfl <;> exact hfits slot List.mem_cons_self
  · intro r hr offset place hmem howns
    have hfits := hlaid.fits_of_mem_steps hmem
    rw [hlaid.limitsAt_of_owns hr howns] at hfits
    exact hfits place List.mem_cons_self

theorem exists_valid_earlyReturn :
    ∃ exe, generate earlyReturn = .ok exe ∧ ∃ regions, exe.Valid (Phrase.stmts earlyReturn.stmts).literals regions := by
  obtain ⟨exe, hexe⟩ : ∃ exe, generate earlyReturn = .ok exe := exists_ok_of_isOk (by decide +kernel)
  exact ⟨exe, hexe, exists_valid_of_generate earlyReturn exe hexe⟩

end MonkeyLang
