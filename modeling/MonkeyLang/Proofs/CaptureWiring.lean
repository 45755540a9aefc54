import MonkeyLang.Proofs.Assembly
import MonkeyLang.Proofs.ValidCode
/-!
# The wiring of captures

A function literal is compiled to a jump over its body, the body, one load for each captured value and the closure. The
loads are those of what the scope around the literal resolves the captured names to, one after the other. Inside of the
body, a captured value is used where its name occurs, and where a function in the body captures it in turn; functions inside
of the body have captured values of their own.
-/

namespace MonkeyLang

open Generator FunctionScope

namespace SymbolScope

def resolveAll (s : SymbolScope) : List String → Option (List Symbol × SymbolScope)
  | [] => some ([], s)
  | name :: rest =>
    match s.resolve name with
    | (none, _) => none
    | (some symbol, s') => (resolveAll s' rest).map fun r => (symbol :: r.1, r.2)

variable {s s₁ s' : SymbolScope} {f f' : FunctionScope} {name : String} {names more : List String}
  {symbol : Symbol} {symbols others : List Symbol}

theorem resolveAll_cons_eq_some {r : List Symbol × SymbolScope} : s.resolveAll (name :: names) = some r ↔
    ∃ symbol s₁ symbols s', s.resolve name = (some symbol, s₁) ∧ s₁.resolveAll names = some (symbols, s') ∧
      r = (symbol :: symbols, s') := by
  rw [resolveAll]
  constructor
  · intro h
    split at h
    case h_1 => cases h
    case h_2 symbol s₁ hresolve =>
      obtain ⟨⟨symbols, s'⟩, hrest, rfl⟩ := Option.map_eq_some_iff.mp h
      exact ⟨symbol, s₁, symbols, s', hresolve, hrest, rfl⟩
  · rintro ⟨symbol, s₁, symbols, s', hresolve, hrest, rfl⟩
    simp [hresolve, hrest]

theorem resolveAll_append (h : s.resolveAll names = some (symbols, s₁)) (h' : s₁.resolveAll more = some (others, s')) :
    s.resolveAll (names ++ more) = some (symbols ++ others, s') := by
  induction names generalizing s symbols with
  | nil =>
    cases h
    exact h'
  | cons name names ih =>
    obtain ⟨symbol, s₂, symbols, s₃, hresolve, hrest, heq⟩ := resolveAll_cons_eq_some.mp h
    cases heq
    exact resolveAll_cons_eq_some.mpr ⟨symbol, s₂, symbols ++ others, s', hresolve, ih hrest, rfl⟩

theorem resolve_eq_some : s.resolve name = (some symbol, s') ↔
    symbol.name = name ∧ Resolves name s.current s.enclosing (some symbol.toEntry) s'.current s'.enclosing := by
  refine ⟨resolves_of_resolve, ?_⟩
  rintro ⟨rfl, hresolves⟩
  rw [resolve, resolveFrom_eq_iff.mpr hresolves]
  rfl

/-- Only names of calls are captured. -/
theorem eq_of_resolves {outer outer' : List FunctionScope} {found : Option Entry} (h : Resolves name f outer found f' outer')
    {entry : Entry} (hentry : found = some entry) (hshared : ¬ entry.storage.OfCall) : f' = f ∧ outer' = outer := by
  induction h with
  | here | nowhere => exact ⟨rfl, rfl⟩
  | unknown => cases hentry
  | shared _ _ _ ih =>
    obtain ⟨rfl, rfl⟩ := ih hentry
    exact ⟨rfl, rfl⟩
  | capture =>
    cases hentry
    exact absurd trivial hshared

/-- A later state of a function and of what is around it: the names that have been captured since were resolved there. -/
def CapturesInOrder (s s' : SymbolScope) : Prop :=
  ∀ f outer, s.leave? = some (f, outer) → ∃ f' outer' symbols, s'.leave? = some (f', outer') ∧
    f'.captures = f.captures ++ symbols ∧ outer.resolveAll (symbols.map Symbol.name) = some (symbols, outer')

namespace CapturesInOrder

theorem of_captures_eq (hcaptures : s'.current.captures = s.current.captures) (henclosing : s'.enclosing = s.enclosing) :
    s.CapturesInOrder s' := by
  intro f outer hleave
  rw [leave?] at hleave
  split at hleave
  case h_1 => cases hleave
  case h_2 next rest hnext =>
    cases hleave
    exact ⟨s'.current, _, [], by rw [leave?, henclosing, hnext], by rw [hcaptures, List.append_nil], rfl⟩

theorem refl (s : SymbolScope) : s.CapturesInOrder s := of_captures_eq rfl rfl

theorem trans (h : s.CapturesInOrder s₁) (h' : s₁.CapturesInOrder s') : s.CapturesInOrder s' := by
  intro f outer hleave
  obtain ⟨f₁, outer₁, symbols, hleave₁, hcaptures₁, hresolve₁⟩ := h f outer hleave
  obtain ⟨f', outer', others, hleave', hcaptures', hresolve'⟩ := h' f₁ outer₁ hleave₁
  refine ⟨f', outer', symbols ++ others, hleave', ?_, ?_⟩
  · rw [hcaptures', hcaptures₁, List.append_assoc]
  · rw [List.map_append]
    exact resolveAll_append hresolve₁ hresolve'

theorem of_resolve (h : s.resolve name = (some symbol, s')) : s.CapturesInOrder s' := by
  obtain ⟨rfl, hresolves⟩ := resolve_eq_some.mp h
  obtain ⟨current, enclosing⟩ := s
  obtain ⟨current', enclosing'⟩ := s'
  generalize hfound : some symbol.toEntry = found at hresolves
  cases hresolves with
  | here hfind => exact refl _
  | nowhere | unknown => cases hfound
  | shared hfind houter hshared =>
    -- What belongs to no call is not captured, by the functions around either.
    obtain ⟨rfl, rfl⟩ := eq_of_resolves houter rfl hshared
    exact refl _
  | @capture _ next rest entry next' rest' hfind houter hcall =>
    intro f outer hleave
    cases hleave
    have hresolve : SymbolScope.resolve ⟨next, rest⟩ symbol.name = (some ⟨entry, symbol.name⟩, ⟨next', rest'⟩) :=
      resolve_eq_some.mpr ⟨rfl, houter⟩
    exact ⟨_, _, [⟨entry, symbol.name⟩], rfl, rfl, resolveAll_cons_eq_some.mpr ⟨_, _, [], _, hresolve, rfl, rfl⟩⟩

theorem of_resolveAll (h : s.resolveAll names = some (symbols, s')) : s.CapturesInOrder s' := by
  induction names generalizing s symbols with
  | nil =>
    cases h
    exact refl _
  | cons name names ih =>
    obtain ⟨symbol, s₁, symbols, _, hresolve, hrest, heq⟩ := resolveAll_cons_eq_some.mp h
    cases heq
    exact (of_resolve hresolve).trans (ih hrest)

/-- What a function has captured at its end has been resolved around it. -/
theorem resolveAll_of_leave? {self : Option String} {params : List Ident}
    (h : (s.enterFunction self params).CapturesInOrder s₁) (hleave : s₁.leave? = some (f, s')) :
    s.resolveAll (f.captures.map Symbol.name) = some (f.captures, s') := by
  have hentered : (s.enterFunction self params).leave? = some ((s.enterFunction self params).current, s) := by
    rw [leave?, enclosing_enterFunction]
    rfl
  obtain ⟨f', outer', symbols, hleave', hcaptures, hresolve⟩ := h _ _ hentered
  cases hleave'.symm.trans hleave
  rw [(s.enterFunction_names self params).1, List.nil_append] at hcaptures
  rw [hcaptures]
  exact hresolve

end CapturesInOrder

end SymbolScope

open SymbolScope in
/-- Functions capture names in the order in which they are resolved around them. -/
theorem Generates.capturesInOrder {p : Phrase} {g g' : Generator} {code : List CodeLine} (h : Generates p g code g')
    (hwired : ScopesWired g.scope.functions) : g.scope.CapturesInOrder g'.scope := by
  induction h with
  | constant | bool | operandsNil | exprsNil | pairsNil | otherwiseNone | stmtsNil | valueNil | functionNil =>
    exact .refl _
  | ident hresolve hload => exact .of_resolve hresolve
  | chain hfirst hrest ihfirst ihrest | call hfirst hrest _ ihfirst ihrest | index hfirst hrest ihfirst ihrest
  | exprsCons hfirst hrest ihfirst ihrest | operandsCons hfirst hrest ihfirst ihrest
  | stmtsCons hfirst hrest ihfirst ihrest | valueCons hfirst hrest ihfirst ihrest
  | functionCons hfirst hrest ihfirst ihrest =>
    exact (ihfirst hwired).trans (ihrest (hfirst.wired hwired).wired)
  | unary _ ih | array _ _ ih | hash _ _ ih | paren _ ih | otherwiseSome _ ih | returnStmt _ ih | exprStmt _ ih
  | valueExpr _ ih | valueLast _ _ ih | functionExpr _ ih | functionReturn _ ih | functionLet _ ih => exact ih hwired
  | @function name params body blockSpan span g c g₁ f scope loads hbody hleave htarget hloads hentry hparams hlocals
      hfree ih =>
    exact .of_resolveAll ((ih (enterFunction_wired name params hwired)).resolveAll_of_leave? hleave)
  | ifElse hcondition hthen hskip helse hleave ihcondition ihthen ihelse
  | pairsCons hcondition hthen helse ihcondition ihthen ihelse =>
    have hfirst := (hcondition.wired hwired).wired
    have hsecond := (hthen.wired hfirst).wired
    exact ((ihcondition hwired).trans (ihthen hfirst)).trans (ihelse hsecond)
  | letStmt hvalue hstore ih => exact (ih hwired).trans (.of_captures_eq rfl rfl)
  | @valueBlock body span g c g₁ hbody ih =>
    have hinside := ih (hwired.update hwired.capturesNamed.openBlock rfl)
    have hopened : g.scope.CapturesInOrder g.scope.openBlock := .of_captures_eq rfl rfl
    have hclosed : g₁.scope.CapturesInOrder g₁.scope.closeBlock := .of_captures_eq (captures_closeBlock _) rfl
    exact (hopened.trans hinside).trans hclosed

/-! ### Function literals in code -/

/-- The step that pushes what is kept somewhere. -/
def Storage.loadStep : Storage → Step
  | .global slot => .complete .getGlobal [slot]
  | .frame slot => .complete .getLocal [slot]
  | .builtin index => .complete .getBuiltin [index]
  | .captured index => .complete .getFree [index]
  | .running => .complete .currentClosure []

theorem step_of_load? {storage : Storage} {i : Instruction} (h : storage.load? = some i) : i.step = storage.loadStep := by
  cases storage with
  | running =>
    cases h
    rfl
  | global slot =>
    simp only [Storage.load?, Option.ite_none_right_eq_some, Option.some.injEq] at h
    obtain ⟨hslot, rfl⟩ := h
    simp [Instruction.step, Instruction.operands, Instruction.opcode, Storage.loadStep, toNat_ofNat_word hslot]
  | frame slot | builtin slot | captured slot =>
    simp only [Storage.load?, Option.ite_none_right_eq_some, Option.some.injEq] at h
    obtain ⟨hslot, rfl⟩ := h
    simp [Instruction.step, Instruction.operands, Instruction.opcode, Storage.loadStep, toNat_ofNat_byte hslot]

/-- The steps that push what symbols stand for, one behind the other. -/
def loadsFrom (offset : Nat) : List Symbol → List (Nat × Step)
  | [] => []
  | symbol :: rest => (offset, symbol.storage.loadStep) :: loadsFrom (offset + symbol.storage.loadStep.size) rest

/-- The offset behind the steps that push what symbols stand for. -/
def behindLoads (offset : Nat) : List Symbol → Nat
  | [] => offset
  | symbol :: rest => behindLoads (offset + symbol.storage.loadStep.size) rest

section

variable {symbols : List Symbol} {loads : List Instruction}
  (h : List.Forall₂ (fun symbol i => symbol.storage.load? = some i) symbols loads)

include h

theorem steps_loads (line offset : Nat) :
    (located offset (loads.map fun i => ⟨line, i⟩)).map (fun s => (s.1, s.2.step)) = loadsFrom offset symbols := by
  induction h generalizing offset with
  | nil => rfl
  | cons hload _ ih =>
    have hsize := Instruction.size_step _ ▸ congrArg Step.size (step_of_load? hload)
    rw [List.map_cons, located_cons, List.map_cons, ih, hsize, step_of_load? hload, loadsFrom]

theorem behindLoads_eq (line offset : Nat) :
    behindLoads offset symbols = offset + codeSize (loads.map fun i => ⟨line, i⟩) := by
  induction h generalizing offset with
  | nil => rfl
  | cons hload _ ih =>
    have hsize := Instruction.size_step _ ▸ congrArg Step.size (step_of_load? hload)
    rw [List.map_cons, codeSize_cons, behindLoads, ih, hsize, Nat.add_assoc]

end

/-- What the steps in the range of some code are. -/
theorem CodeAt.filter_located {whole c : List CodeLine} {offset : Nat} (h : CodeAt whole offset c) :
    (located 0 whole).filter (fun s => offset ≤ s.1 ∧ s.1 < offset + codeSize c) = located offset c := by
  obtain ⟨before, behind, heq, hoffset⟩ := h.located_eq
  have hbefore : ∀ s ∈ located 0 before, ¬(offset ≤ s.1 ∧ s.1 < offset + codeSize c) := by
    intro s hs
    have hbounds := bounds_of_mem_located hs
    have hpos := s.2.size_pos
    omega
  have hbehind : ∀ s ∈ located (offset + codeSize c) behind, ¬(offset ≤ s.1 ∧ s.1 < offset + codeSize c) := by
    intro s hs
    have hbounds := bounds_of_mem_located hs
    omega
  have hinside : ∀ s ∈ located offset c, offset ≤ s.1 ∧ s.1 < offset + codeSize c := by
    intro s hs
    have hbounds := bounds_of_mem_located hs
    have hpos := s.2.size_pos
    omega
  rw [heq, List.filter_append, List.filter_append, List.filter_eq_nil_iff.mpr (by simpa using hbefore),
    List.filter_eq_self.mpr (by simpa using hinside), List.filter_eq_nil_iff.mpr (by simpa using hbehind),
    List.nil_append, List.append_nil]

/-- What is known of a function literal when its body has been generated. -/
structure FunctionLayout where
  /-- Where the body starts. -/
  start : Nat
  /-- Where the body ends. -/
  stop : Nat
  params : Nat
  /-- The scope in which the literal occurs. -/
  around : SymbolScope
  /-- The names of the function at the end of its body. -/
  function : FunctionScope
  /-- The scope around the literal at the end of its body. -/
  behind : SymbolScope

namespace FunctionLayout

variable (l : FunctionLayout)

def Contains (place : Nat) : Prop := l.start ≤ place ∧ place < l.stop

def loads : List (Nat × Step) := loadsFrom l.stop l.function.captures

def closureAt : Nat := behindLoads l.stop l.function.captures

end FunctionLayout

namespace Program

variable (program : Program)

/-- The layout of the function literal at a path. -/
def functionAt (path : Path) : Option FunctionLayout :=
  match program.generatedAt path with
  | some (.expr name (.function params body span), g) =>
    match generation.through (.expr name (.function params body span)) 1 g with
    | .ok (_, g₁) => g₁.scope.leave?.map fun left => ⟨g.offset + 3, g₁.offset, params.length, g.scope, left.1, left.2⟩
    | .error _ => none
  | _ => none

/-- The function literal at a path is the innermost one with a place in its body. -/
def Owns (path : Path) (place : Nat) : Prop :=
  (∃ l, program.functionAt path = some l ∧ l.Contains place) ∧
    ∀ path' l, program.functionAt path' = some l → path <:+ path' → l.Contains place → path' = path

/-- A captured value is used at a place for the phrase at a path: for an occurrence of a name, or for a function literal
that captures the name in turn. -/
def UsesAt (path : Path) (place index : Nat) (name : String) : Prop :=
  (∃ bound id g, program.generatedAt path = some (.expr bound (.ident id), g) ∧ g.offset = place ∧ id.name = name) ∨
    ∃ (l : FunctionLayout) (k : Nat) (symbol : Symbol), program.functionAt path = some l ∧
      l.loads[k]? = some (place, .complete .getFree [index]) ∧ l.function.captures[k]? = some symbol ∧
      symbol.name = name ∧ symbol.storage = .captured index

end Program

/-- The captured values of a function literal are wired correctly in the steps of a program. -/
structure FunctionLayout.Wired (l : FunctionLayout) (program : Program) (path : Path) (steps : List (Nat × Step)) :
    Prop where
  skips : (l.start - 3, .complete .jump [l.stop]) ∈ steps
  makes : (l.closureAt, .complete .closure [l.start, l.params, l.function.slots, l.function.captures.length]) ∈ steps
  loads : steps.filter (fun s => l.stop ≤ s.1 ∧ s.1 < l.closureAt) = l.loads
  /-- The captured symbols are what the scope of the literal resolves their names to. -/
  resolved : l.around.resolveAll (l.function.captures.map Symbol.name) = some (l.function.captures, l.behind)
  /-- In this scope the names stand for the captured symbols from then on. -/
  settled : ∀ symbol ∈ l.function.captures,
    symbol.storage.OfCall ∧ l.behind.resolve symbol.name = (some symbol, l.behind)
  distinct : (l.function.captures.map Symbol.name).Nodup
  uses : ∀ place index, (place, .complete .getFree [index]) ∈ steps → program.Owns path place →
    ∃ symbol path', l.function.captures[index]? = some symbol ∧ (program.functionsAround path').head? = some path ∧
      program.UsesAt path' place index symbol.name

theorem getElem?_loadsFrom {offset k place : Nat} {symbols : List Symbol} {step : Step}
    (h : (loadsFrom offset symbols)[k]? = some (place, step)) :
    ∃ symbol, symbols[k]? = some symbol ∧ symbol.storage.loadStep = step := by
  induction symbols generalizing offset k with
  | nil => cases h
  | cons symbol symbols ih =>
    cases k with
    | zero =>
      cases h
      exact ⟨symbol, rfl, rfl⟩
    | succ k => exact ih h

theorem Storage.eq_captured_of_loadStep {storage : Storage} {index : Nat}
    (h : storage.loadStep = .complete .getFree [index]) : storage = .captured index := by
  cases storage <;> simp [loadStep] at h
  rw [h]

/-! ### Places of function literals -/

/-- A function literal in the code of a program, with the states before it, at the end of its body and behind it. -/
structure FunctionCoded (program : Program) (whole : List CodeLine) (path : Path) (l : FunctionLayout)
    (g inside g' : Generator) : Prop where
  layout : program.functionAt path = some l
  literal : ∃ name params body span code, Coded program whole path (.expr name (.function params body span)) g code g'
  body : ∃ ss entered c, Coded program whole (0 :: path) (.functionStmts ss) entered c inside ∧ entered.offset = l.start
  start : l.start = g.offset + 3
  stop : l.stop = inside.offset
  leave : inside.scope.leave? = some (l.function, l.behind)
  around : l.around = g.scope
  behind : g'.scope = l.behind
  resolved : l.around.resolveAll (l.function.captures.map Symbol.name) = some (l.function.captures, l.behind)
  skip : ∃ line, CodeAt whole g.offset [⟨line, .jump (.ofNat l.stop)⟩]
  last : ∃ line loads, List.Forall₂ (fun symbol i => symbol.storage.load? = some i) l.function.captures loads ∧
    CodeAt whole l.stop ((loads.map fun i => ⟨line, i⟩) ++ [⟨line, .closure (.ofNat l.start) (.ofNat l.params)
      (.ofNat l.function.slots) (.ofNat l.function.captures.length)⟩]) ∧
    g'.offset = l.stop + codeSize (loads.map fun i => ⟨line, i⟩) + 6
  fits : l.stop < 65536 ∧ l.params < 256 ∧ l.function.slots < 256 ∧ l.function.captures.length < 256

section

variable {program : Program} {whole code c : List CodeLine} {path path' : Path} {p q : Phrase} {g g' g₁ g₂ : Generator}
  {k : Nat} {name : Option String} {params : List Ident} {span : Span} {l : FunctionLayout}

theorem functionAt_of_generates {body : List Stmt} {blockSpan : Span} {f : FunctionScope} {scope : SymbolScope}
    (hreached : program.generatedAt path = some (.expr name (.function params (.mk body blockSpan) span), g))
    (hbody : Generates (.functionStmts body) ((g.skip 3).withScope (g.scope.enterFunction name params)) c g₁)
    (hleave : g₁.scope.leave? = some (f, scope)) :
    program.functionAt path = some ⟨g.offset + 3, g₁.offset, params.length, g.scope, f, scope⟩ := by
  have henter := enterPart_function name params (.mk body blockSpan) span g
  have hthrough : generation.through (.expr name (.function params (.mk body blockSpan) span)) 1 g = .ok ([()], g₁) :=
    (Pass.through_succ_eq_ok rfl).mpr ⟨[], g, _, (), g₁, rfl, henter, hbody.run, rfl⟩
  simp only [Program.functionAt, hreached, hthrough, hleave, Option.map_some]

theorem Coded.exists_functionCoded {body : Block}
    (h : Coded program whole path (.expr name (.function params body span)) g code g') :
    ∃ l inside, FunctionCoded program whole path l g inside g' ∧ l.params = params.length := by
  have hderived := h.derived
  cases hderived with
  | constant hconstant => cases hconstant
  | @function _ _ body blockSpan _ _ c inside f scope loads hbody hleave htarget hloads hentry hparams hlocals hfree =>
    have hat : CodeAt whole g.offset ([⟨g.line, .jump (.ofNat inside.offset)⟩] ++ (c ++
        ((loads.map fun i => ⟨span.line, i⟩) ++ [⟨span.line, .closure (.ofNat (g.offset + 3)) (.ofNat params.length)
          (.ofNat f.slots) (.ofNat f.captures.length)⟩]))) := by
      simpa using h.placed
    have hinside : inside.offset = g.offset + 3 + codeSize c := hbody.offset_eq
    have hentered : CodeAt whole (g.offset + 3) _ := hat.right rfl
    have horder := (hbody.capturesInOrder (SymbolScope.enterFunction_wired name params h.wired)).resolveAll_of_leave? hleave
    refine ⟨⟨g.offset + 3, inside.offset, params.length, g.scope, f, scope⟩, inside, ?_, rfl⟩
    exact {
      layout := functionAt_of_generates h.reached hbody hleave
      literal := ⟨name, params, .mk body blockSpan, span, _, h⟩
      body := ⟨body, _, c, ⟨h.reached_part .none rfl (enterPart_function ..), hbody, hentered.left,
        SymbolScope.enterFunction_wired name params h.wired⟩, rfl⟩
      start := rfl
      stop := rfl
      leave := hleave
      around := rfl
      behind := rfl
      resolved := horder
      skip := ⟨g.line, hat.left⟩
      last := ⟨span.line, loads, hloads, hentered.right hinside, by simp [Nat.add_assoc]⟩
      fits := ⟨htarget, hparams, hlocals, hfree⟩ }

theorem FunctionCoded.wired {inside : Generator} (h : FunctionCoded program whole path l g inside g') :
    l.function.CapturesNamed ∧ ∀ symbol ∈ l.function.captures,
      symbol.storage.OfCall ∧ l.behind.current.names.entries[symbol.name]? = some symbol.toEntry := by
  obtain ⟨_, _, _, hbody, -⟩ := h.body
  have hwired := (hbody.derived.wired hbody.wired).wired
  rw [SymbolScope.functions_of_leave? h.leave] at hwired
  cases hwired with
  | function hnamed hfound _ => exact ⟨hnamed, hfound⟩

/-- The only part of a function literal is its body. -/
theorem FunctionCoded.eq_inside {inside : Generator} (h : FunctionCoded program whole path l g inside g')
    (hpart : Coded program whole (k :: path) q g₁ c g₂) : g₁.offset = l.start ∧ g₂ = inside := by
  obtain ⟨_, _, ⟨body, blockSpan⟩, _, _, hliteral⟩ := h.literal
  obtain ⟨_, _, _, hbody, hentered⟩ := h.body
  obtain ⟨hq, -⟩ := hliteral.part_bounds hpart
  obtain rfl : k = 0 := by
    have hlt := (List.getElem?_eq_some_iff.mp hq).1
    simp only [Phrase.parts, List.length_singleton] at hlt
    omega
  obtain ⟨-, rfl, rfl⟩ := hpart.unique hbody
  exact ⟨hentered, rfl⟩

/-- What a captured value is used for at a place. -/
structure CaptureUse (program : Program) (whole : List CodeLine) (path : Path) (place index : Nat) (symbol : String) :
    Prop where
  uses : program.UsesAt path place index symbol
  coded : ∃ p g code g', Coded program whole path p g code g' ∧ g.offset ≤ place ∧ place < g'.offset ∧
    g'.scope.current.find? symbol = some (.captured index)
  outside : ∀ k q g c g', Coded program whole (k :: path) q g c g' → g'.offset ≤ place

theorem eq_captured_of_load? {storage : Storage} {index : UInt8} (h : storage.load? = some (.getFree index)) :
    storage = .captured index.toNat :=
  Storage.eq_captured_of_loadStep (step_of_load? h).symm

namespace Coded

variable {place : Nat} {index : UInt8}

theorem captureUse_ident {id : Ident} (h : Coded program whole path (.expr name (.ident id)) g code g')
    (hmem : (place, .getFree index) ∈ located g.offset code) :
    CaptureUse program whole path place index.toNat id.name := by
  have hderived := h.derived
  cases hderived with
  | constant hconstant => cases hconstant
  | @ident _ _ _ symbol scope i hresolve hload =>
    obtain ⟨rfl, rfl⟩ := Prod.mk.inj (List.mem_singleton.mp hmem)
    have hstorage := eq_captured_of_load? hload
    obtain ⟨-, -, -, hentry⟩ := SymbolScope.resolve_wired h.wired hresolve
    refine ⟨.inl ⟨name, id, g, h.reached, rfl, rfl⟩, ⟨_, g, _, _, h, Nat.le_refl _, ?_, ?_⟩, ?_⟩
    · exact Nat.lt_add_of_pos_right (Instruction.size_pos _)
    · rw [hstorage] at hentry
      exact hstorage ▸ find?_of_getElem?_entries (hentry trivial)
    · intro k q _ _ _ hpart
      have hq := (h.part_bounds hpart).1
      cases hq

theorem captureUse_function {body : Block} (h : Coded program whole path (.expr name (.function params body span)) g code g')
    (hmem : (place, .getFree index) ∈ located g.offset code)
    (houtside : ∀ k q g c g', Coded program whole (k :: path) q g c g' → g'.offset ≤ place) :
    ∃ symbol, CaptureUse program whole path place index.toNat symbol := by
  obtain ⟨l, inside, hl, -⟩ := h.exists_functionCoded
  obtain ⟨_, _, _, hbody, -⟩ := hl.body
  obtain ⟨line, loads, hloads, hat, hend⟩ := hl.last
  have hstop : l.stop ≤ place := hl.stop ▸ houtside _ _ _ _ _ hbody
  have hbounds := bounds_of_mem_located hmem
  rw [← h.derived.offset_eq] at hbounds
  have hpos := (Instruction.getFree index).size_pos
  have hlast := hat.mem_of_bounds (h.placed.mem_located hmem) hstop (by simp [Instruction.size_eq]; omega)
  rw [located_append, List.mem_append] at hlast
  rcases hlast with hloaded | hclosure
  · have hstep : (place, .complete .getFree [index.toNat]) ∈ l.loads := by
      rw [FunctionLayout.loads, ← steps_loads hloads line]
      exact List.mem_map.mpr ⟨_, hloaded, rfl⟩
    obtain ⟨k, hk⟩ := List.getElem?_of_mem hstep
    obtain ⟨symbol, hsymbol, hload⟩ := getElem?_loadsFrom hk
    have hstorage : symbol.storage = .captured index.toNat := Storage.eq_captured_of_loadStep hload
    obtain ⟨-, hfound⟩ := hl.wired.2 _ (List.mem_of_getElem? hsymbol)
    refine ⟨symbol.name, .inr ⟨l, k, symbol, hl.layout, hk, hsymbol, rfl, hstorage⟩, ⟨_, g, _, _, h, by omega, by omega, ?_⟩, houtside⟩
    rw [hl.behind]
    exact hstorage ▸ find?_of_getElem?_entries hfound
  · cases List.mem_singleton.mp hclosure

/-- Each use of a captured value is for the phrase at some path. -/
theorem exists_captureUse {path : Path} {p : Phrase} {g g' : Generator} {code : List CodeLine}
    (h : Coded program whole path p g code g') (hmem : (place, .getFree index) ∈ located g.offset code) :
    ∃ path' symbol, CaptureUse program whole path' place index.toNat symbol := by
  obtain ⟨front, last, s, hcode, hparts, -, hlast⟩ := h.derived.assembled
  have hsplit := hmem
  rw [hcode, located_append, List.mem_append, ← hparts.offset_eq] at hsplit
  rcases hsplit with hfront | hbehind
  · obtain ⟨k, q, before, s₀, own, s₁, c, s₂, behind, hq, hbefore, henter, hown, hpart, rfl, hinside⟩ :=
      hparts.mem_located hfront
    have hcoded := h.of_part hbefore hq henter hown hpart (hcode.trans (List.append_assoc ..))
    have hsize := Phrase.size_lt_of_mem_parts (List.mem_of_getElem? hq)
    exact hcoded.exists_captureUse hinside
  · have hlooks : p.looksUp = true := hlast.resolve_right fun hcaptureless => by
      obtain ⟨line, hline, hinstruction⟩ := exists_line_of_mem_located hbehind
      exact hcaptureless line hline index hinstruction.symm
    have houtside : ∀ k q g c g', Coded program whole (k :: path) q g c g' → g'.offset ≤ place := by
      intro k q _ _ _ hpart
      obtain ⟨hk, -⟩ := List.getElem?_eq_some_iff.mp (h.part_bounds hpart).1
      have hend := h.end_le hparts hk hpart
      have hbounds := bounds_of_mem_located hbehind
      omega
    unfold Phrase.looksUp at hlooks
    split at hlooks
    · exact ⟨path, _, h.captureUse_ident hmem⟩
    · exact ⟨path, h.captureUse_function hmem houtside⟩
    · cases hlooks
termination_by p.size

/-- Behind a phrase that is not a function literal, the function it is in has captured what it had behind a part. -/
theorem captures_part (h : Coded program whole path p g code g') (h' : Coded program whole (k :: path) q g₁ c g₂)
    (hp : ∀ name params body span, p ≠ .expr name (.function params body span)) :
    g₂.scope.current.captures <+: g'.scope.current.captures := by
  obtain ⟨front, last, s, -, hparts, hleave, -⟩ := h.derived.assembled
  obtain ⟨hq, -⟩ := h.part_bounds h'
  obtain ⟨hk, -⟩ := List.getElem?_eq_some_iff.mp hq
  obtain ⟨q', before, s₀, own, s₁, d, s₂, behind, hq', hbefore, henter, -, hpart, -, hcaptures⟩ :=
    hparts.exists_part h.wired hk
  obtain ⟨rfl, rfl, rfl⟩ := h.part_unique hbefore hq' henter hpart h'
  suffices hsame : g'.scope.current.captures = s.scope.current.captures from hsame ▸ hcaptures
  by_cases hsteady : p.changesScope = false
  · have hident : ∀ name id, p ≠ .expr name (.ident id) := by
      rintro name id rfl
      cases hq
    rw [(Steady.leavePhrase hsteady hident g s).of_eq_ok hleave]
  · unfold Phrase.changesScope at hsteady
    split at hsteady
    case h_1 name params body span => exact absurd rfl (hp name params body span)
    case h_2 name value span =>
      obtain ⟨_, _, hdefine, hstore⟩ := bind_eq_ok.mp hleave
      cases define_eq_ok.mp hdefine
      rw [((Steady.store_define s.scope name.name).discard _).of_eq_ok hstore]
      rfl
    case h_3 block =>
      cases modifyScope_eq_ok.mp hleave
      exact captures_closeBlock _
    case h_4 => exact absurd rfl hsteady

end Coded

/-! ### Functions around places -/

theorem Path.exists_cons_suffix {path path' : Path} (h : path <:+ path') (hne : path ≠ path') :
    ∃ k, k :: path <:+ path' := by
  obtain ⟨turns, rfl⟩ := h
  rcases List.eq_nil_or_concat turns with rfl | ⟨more, k, rfl⟩
  · exact absurd rfl hne
  · exact ⟨k, more, by simp⟩

/-- The innermost function around a path lies in each function around the path. -/
theorem Program.exists_head?_functionsAround {body : Block}
    (hphrase : program.phraseAt path = some (.expr name (.function params body span))) (hsuffix : path <:+ path')
    (hne : path ≠ path') : ∃ inner, (program.functionsAround path').head? = some inner ∧ path <:+ inner ∧
      inner <:+ path' ∧ inner ≠ path' ∧
      ∃ name params body span, program.phraseAt inner = some (.expr name (.function params body span)) := by
  induction path' with
  | nil => exact absurd (List.suffix_nil.mp hsuffix) hne
  | cons i path' ih =>
    have hsuffix := (List.suffix_cons_iff.mp hsuffix).resolve_left hne
    have hproper : path' ≠ i :: path' := fun heq => absurd (congrArg List.length heq) (by simp)
    rw [functionsAround]
    split
    case h_1 name params body span hinner =>
      exact ⟨path', rfl, hsuffix, List.suffix_cons i path', hproper, name, params, body, span, hinner⟩
    case h_2 hother =>
      have hne' : path ≠ path' := by
        rintro rfl
        exact hother _ _ _ _ hphrase
      obtain ⟨inner, hhead, hin, hwithin, -, hliteral⟩ := ih hsuffix hne'
      refine ⟨inner, hhead, hin, hwithin.trans (List.suffix_cons i path'), ?_, hliteral⟩
      rintro rfl
      have hle := hwithin.length_le
      rw [List.length_cons] at hle
      omega

section

variable {last : Generator} (hroot : Generates program.root .initial whole last)

include hroot

theorem exists_of_functionAt (h : program.functionAt path = some l) :
    ∃ g inside g', FunctionCoded program whole path l g inside g' := by
  have hlayout := h
  unfold Program.functionAt at h
  split at h
  case h_1 name params body span g hreached =>
    obtain ⟨code, g', hcoded⟩ := Coded.exists_of_reached hroot hreached
    obtain ⟨l', inside, hl, -⟩ := hcoded.exists_functionCoded
    obtain rfl : l = l' := Option.some.inj (hlayout.symm.trans hl.layout)
    exact ⟨g, inside, g', hl⟩
  case h_2 => cases h

/-- A function that has a use of a captured value in its body is one around it. -/
theorem CaptureUse.within {place index : Nat} {symbol : String} (h : CaptureUse program whole path' place index symbol)
    (hl : program.functionAt path = some l) (hcontains : l.Contains place) : path <:+ path' ∧ path ≠ path' := by
  obtain ⟨g₀, inside, g₀', hl⟩ := exists_of_functionAt hroot hl
  obtain ⟨_, _, _, _, _, hliteral⟩ := hl.literal
  obtain ⟨_, _, _, hbody, -⟩ := hl.body
  obtain ⟨p, g, code, g', hcoded, hge, hlt, -⟩ := h.coded
  obtain ⟨hstart, hstop⟩ := hcontains
  have hends := (hliteral.part_bounds hbody).2.2
  rw [hl.start] at hstart
  rw [hl.stop] at hstop
  have hinside : ¬path' <:+ path := by
    intro hsuffix
    have hne : path' ≠ 0 :: path := by
      rintro rfl
      have hle := hsuffix.length_le
      rw [List.length_cons] at hle
      omega
    obtain ⟨k, hk⟩ := Path.exists_cons_suffix (hsuffix.trans (List.suffix_cons 0 path)) hne
    obtain ⟨_, _, _, _, hpart, -, hle⟩ := hbody.exists_of_suffix hroot hk
    have hout := h.outside _ _ _ _ _ hpart
    omega
  rcases Path.comparable path path' with hsuffix | hsuffix | hprecedes | hprecedes
  · refine ⟨hsuffix, ?_⟩
    rintro rfl
    exact hinside List.suffix_rfl
  · exact absurd hsuffix hinside
  · have hle := hliteral.le_of_precedes hroot hcoded hprecedes
    omega
  · have hle := hcoded.le_of_precedes hroot hliteral hprecedes
    omega

/-- A function around a use of a captured value has it in its body. -/
theorem CaptureUse.contains {place index : Nat} {symbol : String} (h : CaptureUse program whole path' place index symbol)
    (hl : program.functionAt path = some l) (hsuffix : path <:+ path') (hne : path ≠ path') : l.Contains place := by
  obtain ⟨g₀, inside, g₀', hl⟩ := exists_of_functionAt hroot hl
  obtain ⟨p, g, code, g', hcoded, hge, hlt, -⟩ := h.coded
  obtain ⟨k, hk⟩ := Path.exists_cons_suffix hsuffix hne
  obtain ⟨_, _, _, _, hpart, hstart, hstop⟩ := hcoded.exists_of_suffix hroot hk
  obtain ⟨hentered, rfl⟩ := hl.eq_inside hpart
  rw [FunctionLayout.Contains, hl.stop, ← hentered]
  omega

/-- What a function has captured behind a phrase in its body, it has captured at the end of the body. -/
theorem Coded.captures_function (h : Coded program whole path' q g₁ c g₂)
    (hhead : (program.functionsAround path').head? = some path) (hl : program.functionAt path = some l) :
    g₂.scope.current.captures <+: l.function.captures := by
  induction path' generalizing q g₁ c g₂ with
  | nil =>
    cases hhead
    obtain ⟨_, _, _, hl⟩ := exists_of_functionAt hroot hl
    obtain ⟨_, _, _, _, _, hliteral⟩ := hl.literal
    cases hliteral.reached
  | cons k rest ih =>
    obtain ⟨p', g₀, _, _, hreach, -⟩ := Pass.reach_cons_eq_some.mp h.reached
    obtain ⟨code', g₀', hparent⟩ := Coded.exists_of_reached hroot hreach
    have hphrase := Program.phraseAt_of_generatedAt hreach
    rw [Program.functionsAround] at hhead
    split at hhead
    case h_1 hfunction =>
      cases hhead
      obtain ⟨_, _, _, hl⟩ := exists_of_functionAt hroot hl
      obtain ⟨-, rfl⟩ := hl.eq_inside h
      have hsame := (List.cons.inj (SymbolScope.functions_of_leave? hl.leave)).1
      exact hsame ▸ List.prefix_rfl
    case h_2 hother =>
      have hpart := hparent.captures_part h fun name params body span heq =>
        hother name params body span (heq ▸ hphrase)
      exact hpart.trans (ih hparent hhead)

/-- The function at a path uses its captured values for phrases directly in it. -/
theorem exists_usesAt {place : Nat} {index : UInt8} (hl : program.functionAt path = some l)
    (hmem : (place, .getFree index) ∈ located 0 whole) (howns : program.Owns path place) :
    ∃ symbol path', l.function.captures[index.toNat]? = some symbol ∧
      (program.functionsAround path').head? = some path ∧ program.UsesAt path' place index.toNat symbol.name := by
  obtain ⟨path', name, huse⟩ := (Coded.root hroot).exists_captureUse hmem
  obtain ⟨⟨_, hl', hcontains⟩, hinnermost⟩ := howns
  cases hl.symm.trans hl'
  obtain ⟨hsuffix, hne⟩ := huse.within hroot hl hcontains
  obtain ⟨_, _, _, hfunction⟩ := exists_of_functionAt hroot hl
  obtain ⟨_, _, _, _, _, hliteral⟩ := hfunction.literal
  obtain ⟨inner, hhead, hin, hwithin, hproper, _, _, _, _, hinner⟩ :=
    Program.exists_head?_functionsAround (Program.phraseAt_of_generatedAt hliteral.reached) hsuffix hne
  obtain ⟨_, _, _, hcoded⟩ := Coded.exists_of_phraseAt hroot hinner
  obtain ⟨l', _, hl', -⟩ := hcoded.exists_functionCoded
  obtain rfl := hinnermost inner l' hl'.layout hin (huse.contains hroot hl'.layout hwithin hproper)
  obtain ⟨_, _, _, _, hused, -, -, hfind⟩ := huse.coded
  obtain ⟨symbol, hsymbol, rfl⟩ := (hused.derived.wired hused.wired).wired.capturesNamed.find? hfind
  refine ⟨symbol, path', ?_, hhead, huse.uses⟩
  obtain ⟨more, hmore⟩ := hused.captures_function hroot hhead hl
  rw [← hmore, List.getElem?_append_left (List.getElem?_eq_some_iff.mp hsymbol).1, hsymbol]

end

end

theorem exists_getFree_of_mem_steps {code : Code} {place index : Nat}
    (h : (place, .complete .getFree [index]) ∈ code.toChunk.steps) :
    ∃ n : UInt8, n.toNat = index ∧ (place, .getFree n) ∈ located 0 code.toList := by
  obtain ⟨i, hi, hop, hoperands⟩ := mem_located_of_mem_steps h
  cases i with
  | getFree n => exact ⟨n, List.head_eq_of_cons_eq hoperands, hi⟩
  | bool value => cases value <;> cases hop
  | binary op => cases op <;> cases hop
  | unary op => cases op <;> cases hop
  | _ => cases hop

/-- Each function literal of a program captures what the scope around it resolves the captured names to, and uses it for
occurrences of these names. -/
theorem exists_wired_of_generate (program : Program) (exe : Executable) (h : generate program = .ok exe) (path : Path)
    (name : Option String) (params : List Ident) (body : Block) (span : Span)
    (hphrase : program.phraseAt path = some (.expr name (.function params body span))) :
    ∃ l, program.functionAt path = some l ∧ l.params = params.length ∧ l.Wired program path exe.chunk.steps := by
  obtain ⟨code, g, hcode, rfl⟩ := generates_of_generate_eq_ok h
  obtain ⟨_, _, _, hcoded⟩ := Coded.exists_of_phraseAt hcode hphrase
  obtain ⟨l, inside, hl, hparams⟩ := hcoded.exists_functionCoded
  obtain ⟨hnamed, hfound⟩ := hl.wired
  obtain ⟨line, hskip⟩ := hl.skip
  obtain ⟨line', loads, hloads, hlast, -⟩ := hl.last
  obtain ⟨hstop, hcount, hslots, hcaptures⟩ := hl.fits
  have hclosureAt : l.closureAt = l.stop + codeSize (loads.map fun i => ⟨line', i⟩) := behindLoads_eq hloads line' l.stop
  have hstart : l.start ≤ l.stop := by
    obtain ⟨_, _, _, hbody, hentered⟩ := hl.body
    have hoffset := hbody.derived.offset_eq
    rw [hl.stop, ← hentered]
    omega
  refine ⟨l, hl.layout, hparams, ?_, ?_, ?_, hl.resolved, ?_, hnamed.nodup, ?_⟩
  · have hmem := mem_steps_of_mem_located (hskip.mem_located List.mem_cons_self)
    rw [hl.start]
    simpa [Instruction.opcode, Instruction.operands, toNat_ofNat_word hstop] using hmem
  · have hmem := mem_steps_of_mem_located ((hlast.right hclosureAt).mem_located List.mem_cons_self)
    simpa [Instruction.opcode, Instruction.operands, toNat_ofNat_word (Nat.lt_of_le_of_lt hstart hstop),
      toNat_ofNat_byte hcount, toNat_ofNat_byte hslots, toNat_ofNat_byte hcaptures] using hmem
  · have hfilter := hlast.left.filter_located
    rw [← hclosureAt] at hfilter
    rw [FunctionLayout.loads, ← steps_loads hloads line', ← hfilter, steps_toChunk, List.filter_map]
    rfl
  · intro symbol hsymbol
    obtain ⟨hcall, hfind⟩ := hfound symbol hsymbol
    exact ⟨hcall, SymbolScope.resolve_eq_some.mpr ⟨rfl, .here hfind⟩⟩
  · intro place index hmem howns
    obtain ⟨index, rfl, hi⟩ := exists_getFree_of_mem_steps hmem
    exact exists_usesAt hcode hl.layout hi howns

/-- A function in a function in a function, with names of all three and the name of the outermost one. -/
def nestedCaptures : Program :=
  let a : Ident := ⟨"a", default⟩
  let b : Ident := ⟨"b", default⟩
  let c : Ident := ⟨"c", default⟩
  let f : Ident := ⟨"f", default⟩
  let inner : Expr := .function []
    (.mk [.exprStmt (.array [.ident c, .ident a, .ident b, .ident f] default) default] default) default
  let middle : Expr := .function [b] (.mk [.letStmt c (.ident a) default, .exprStmt inner default] default) default
  ⟨[.letStmt f (.function [a] (.mk [.exprStmt middle default] default) default) default], default⟩

theorem exists_wired_nestedCaptures :
    ∃ exe l, generate nestedCaptures = .ok exe ∧ nestedCaptures.functionAt [0, 1, 0, 0, 0, 0, 0] = some l ∧
      l.Wired nestedCaptures [0, 1, 0, 0, 0, 0, 0] exe.chunk.steps ∧
      l.function.captures = [⟨⟨.frame 1, 0⟩, "c"⟩, ⟨⟨.captured 0, 0⟩, "a"⟩, ⟨⟨.frame 0, 0⟩, "b"⟩, ⟨⟨.captured 1, 0⟩, "f"⟩] := by
  obtain ⟨exe, hexe⟩ : ∃ exe, generate nestedCaptures = .ok exe := exists_ok_of_isOk (by decide +kernel)
  obtain ⟨l, hl, -, hwired⟩ := exists_wired_of_generate nestedCaptures exe hexe [0, 1, 0, 0, 0, 0, 0] none [] _ _ rfl
  have hcaptures : (nestedCaptures.functionAt [0, 1, 0, 0, 0, 0, 0]).map (fun l => l.function.captures) =
      some [⟨⟨.frame 1, 0⟩, "c"⟩, ⟨⟨.captured 0, 0⟩, "a"⟩, ⟨⟨.frame 0, 0⟩, "b"⟩, ⟨⟨.captured 1, 0⟩, "f"⟩] := by
    decide +kernel
  rw [hl] at hcaptures
  exact ⟨exe, l, hexe, hl, hwired, Option.some.inj hcaptures⟩

end MonkeyLang
