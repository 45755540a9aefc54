import MonkeyLang.Proofs.Resources
import MonkeyLang.Proofs.StackMachine
/-!
# Code does what the program means

On programs without functions, the machine computes what evaluation does. Evaluation of a phrase is seen as an effect on a
memory, which is the names in scope with a stack. The code of a phrase simulates the effect: from a state that matches a
memory the machine comes to the end of the code in a state that matches the memory after the effect, and it fails if there
is no effect. Slots that have been handed out before are left alone, so that what is in scope behind a block is found again.
-/

namespace MonkeyLang

variable {V : Type}

/-! ### Effects -/

/-- The names in scope and the stack. -/
structure Memory (V : Type) where
  env : Bindings V
  stack : Stack V

namespace Memory

def withStack (m : Memory V) (stack : Stack V) : Memory V := { m with stack }

/-- Pushes some values in order, with what has been discarded since. -/
def pushAll (m : Memory V) (values discarded : List V) : Memory V :=
  { m with stack := ⟨values.reverse ++ m.stack.values, discarded⟩ }

end Memory

/-- Whether a phrase is neither a function or its body, nor a call, nor a return. -/
def Phrase.isCallFree : Phrase → Bool
  | .expr _ (.function _ _ _) | .functionStmts _ | .expr _ (.call _ _ _) | .stmt (.returnStmt _ _) => false
  | _ => true

/-- What evaluation of a phrase does to a memory. -/
def Phrase.effect (P : Primitives V) : Phrase → Memory V → Option (Memory V)
  | .expr _ e, m => (Eval.expr P m.env e m.stack.discarded).map fun r => m.pushAll [r.1] r.2
  | .operands [], m => some m
  | .operands rest, m => do
    let (value, stack) ← m.stack.pop?
    let r ← Eval.operands P m.env value rest stack.discarded
    return (m.withStack stack).pushAll [r.1] r.2
  | .exprs es, m => (Eval.exprs P m.env es m.stack.discarded).map fun r => m.pushAll r.1 r.2
  | .pairs ps, m =>
    (Eval.hashPairs P m.env ps m.stack.discarded).map fun r => m.pushAll (r.1.flatMap fun p => [p.1, p.2]) r.2
  | .otherwise block, m => (Eval.otherwise P m.env block m.stack.discarded).map fun r => m.pushAll [r.1] r.2
  | .valueBlock block, m => (Eval.block P m.env block m.stack.discarded).map fun r => m.pushAll [r.1] r.2
  | .valueStmts ss, m => (Eval.blockStmts P m.env ss m.stack.discarded).map fun r => m.pushAll [r.1] r.2
  | .stmt s, m => (Eval.stmt P m.env s m.stack.discarded).map fun r => ⟨r.1, ⟨m.stack.values, r.2⟩⟩
  | .stmts ss, m => (Eval.stmts P m.env ss m.stack.discarded).map fun r => ⟨r.1, ⟨m.stack.values, r.2⟩⟩
  | .functionStmts _, _ => none

/-! ### States of the machine -/

/-- The value that is kept somewhere, if it belongs to the whole program. -/
def Primitives.load (P : Primitives V) (globals : Nat → Option V) : Storage → Option V
  | .global slot => globals slot
  | .builtin index => some (P.builtin index)
  | .frame _ | .captured _ | .running => none

/-- What a name stands for holds the value that the name has. -/
def Agrees (P : Primitives V) (f : FunctionScope) (globals : Nat → Option V) (env : Bindings V) : Prop :=
  ∀ name storage, f.find? name = some storage →
    ∃ value, P.load globals storage = some value ∧ P.lookup env name = some value

/-- A state of the machine that is at a place, with a memory. -/
structure Matches (P : Primitives V) (place : Nat) (f : FunctionScope) (m : Memory V) (s : MachineState V) : Prop where
  place : s.place = place
  stack : s.stack = m.stack
  names : Agrees P f s.globals m.env

/-- The machine fails, or comes to the end of some code with what the code has to do done. Names are in scope behind the
code only if it binds. -/
def Outcome (M : StackMachine V) (exe : Executable) (g g' : Generator) (binds : Prop) (s : MachineState V) :
    Option (Memory V) → Prop
  | some m => ∃ s', M.Reaches exe s s' ∧ s'.place = g'.offset ∧ s'.stack = m.stack ∧
      (binds → Agrees M.toPrimitives g'.scope.current s'.globals m.env) ∧
      ∀ slot < g.scope.current.slots, s'.globals slot = s.globals slot
  | none => M.Fails exe s

/-- The code between two states of the generator has an effect. -/
def Simulates (M : StackMachine V) (exe : Executable) (g g' : Generator) (binds : Prop)
    (effect : Memory V → Option (Memory V)) : Prop :=
  ∀ m s, Matches M.toPrimitives g.offset g.scope.current m s → Outcome M exe g g' binds s (effect m)

namespace Simulates

variable {M : StackMachine V} {exe : Executable} {g g₁ g' : Generator} {binds : Prop}
  {effect effect' : Memory V → Option (Memory V)}

theorem congr (h : Simulates M exe g g' binds effect) (heffect : ∀ m, effect' m = effect m) :
    Simulates M exe g g' binds effect' := by
  intro m s hmatches
  rw [heffect]
  exact h m s hmatches

theorem nil (hoffset : g'.offset = g.offset) (hscope : g'.scope = g.scope) : Simulates M exe g g' binds some := by
  intro m s hmatches
  refine ⟨s, .refl, hmatches.place.trans hoffset.symm, hmatches.stack, ?_, fun _ _ => rfl⟩
  intro _
  rw [hscope]
  exact hmatches.names

/-- One piece of code behind the other. -/
theorem bind (h : Simulates M exe g g₁ True effect) (h' : Simulates M exe g₁ g' binds effect')
    (hslots : g.scope.current.slots ≤ g₁.scope.current.slots) :
    Simulates M exe g g' binds fun m => (effect m).bind effect' := by
  intro m s hmatches
  have hfirst := h m s hmatches
  change Outcome M exe g g' binds s ((effect m).bind effect')
  cases heffect : effect m with
  | none =>
    rw [heffect] at hfirst
    exact hfirst
  | some m₁ =>
    rw [heffect] at hfirst
    obtain ⟨s₁, hreaches, hplace, hstack, hnames, hglobals⟩ := hfirst
    have hrest := h' m₁ s₁ ⟨hplace, hstack, hnames trivial⟩
    rw [Option.bind_some]
    cases heffect' : effect' m₁ with
    | none =>
      rw [heffect'] at hrest
      exact hreaches.fails hrest
    | some m₂ =>
      rw [heffect'] at hrest
      obtain ⟨s₂, hreaches₂, hplace₂, hstack₂, hnames₂, hglobals₂⟩ := hrest
      refine ⟨s₂, hreaches.trans hreaches₂, hplace₂, hstack₂, hnames₂, ?_⟩
      intro slot hslot
      rw [hglobals₂ slot (Nat.lt_of_lt_of_le hslot hslots), hglobals slot hslot]

/-- An instruction that works on the stack only. -/
theorem plain {whole : Code} {pool : ConstantPool} {i : Instruction} (operation : Stack V → Option (Stack V))
    (hi : (g.offset, i) ∈ located 0 whole.toList) (hoffset : g'.offset = g.offset + i.size) (hscope : g'.scope = g.scope)
    (hexecute : ∀ next s, M.execute pool i.opcode i.operands next s = (operation s.stack).map (s.proceed next)) :
    Simulates M ⟨whole.toChunk, pool⟩ g g' binds fun m => (operation m.stack).map m.withStack := by
  intro m s hmatches
  rw [← hmatches.place] at hi
  have hstep : M.step ⟨whole.toChunk, pool⟩ s = _ := StackMachine.step_eq hi
  rw [hexecute, hmatches.stack] at hstep
  change Outcome M _ g g' binds s ((operation m.stack).map m.withStack)
  cases hoperation : operation m.stack with
  | none =>
    rw [hoperation] at hstep
    exact ⟨s, .refl, place_lt_of_mem_located hi, hstep⟩
  | some stack =>
    rw [hoperation] at hstep
    refine ⟨s.proceed (s.place + i.size) stack, .single hstep, ?_, rfl, ?_, fun _ _ => rfl⟩
    · rw [hoffset, ← hmatches.place]
      rfl
    · intro _
      rw [hscope]
      exact hmatches.names

end Simulates

/-! ### Effects of compound phrases -/

namespace Phrase

variable (P : Primitives V) (m : Memory V)

theorem effect_operands (env : Bindings V) (value : V) (values discarded : List V) (rest : List (BinaryOp × Expr)) :
    (operands rest).effect P ⟨env, ⟨value :: values, discarded⟩⟩ =
      (Eval.operands P env value rest discarded).map fun r => ⟨env, ⟨r.1 :: values, r.2⟩⟩ := by
  cases rest with
  | nil => rfl
  | cons pair rest => cases hr : Eval.operands P env value (pair :: rest) discarded <;> simp [effect, Stack.pop?, hr, Memory.pushAll, Memory.withStack]

theorem effect_chain (name : Option String) (level : ChainLevel) (first : Expr) (rest : List (BinaryOp × Expr))
    (span : Span) : (expr name (.chain level first rest span)).effect P m =
      ((expr none first).effect P m).bind ((operands rest).effect P) := by
  simp only [effect, Eval.expr, Eval.run_bind]
  cases Eval.expr P m.env first m.stack.discarded with
  | none => rfl
  | some r => simp [Memory.pushAll, effect_operands]

theorem effect_unary (name : Option String) (op : UnaryOp) (operand : Expr) (span : Span) :
    (expr name (.unary op operand span)).effect P m =
      ((expr none operand).effect P m).bind fun m => (m.stack.transform? (P.unary op)).map m.withStack := by
  simp only [effect, Eval.expr, Eval.run_bind]
  cases Eval.expr P m.env operand m.stack.discarded with
  | none => rfl
  | some r => cases hr : P.unary op r.1 <;> simp [hr, Eval.run_lift, Memory.pushAll, Stack.transform?, Memory.withStack]

theorem effect_index (name : Option String) (object index : Expr) (span : Span) :
    (expr name (.index object index span)).effect P m =
      (((expr none object).effect P m).bind ((expr none index).effect P)).bind
        fun m => (m.stack.combine? P.index).map m.withStack := by
  simp only [effect, Eval.expr, Eval.run_bind]
  cases Eval.expr P m.env object m.stack.discarded with
  | none => rfl
  | some r =>
    cases hr : Eval.expr P m.env index r.2 with
    | none => simp [hr, effect, Memory.pushAll]
    | some r' =>
      cases hr' : P.index r.1 r'.1 <;>
        simp [hr, hr', effect, Eval.run_lift, Memory.pushAll, Stack.combine?, Memory.withStack]

theorem effect_array (name : Option String) (elements : List Expr) (span : Span) :
    (expr name (.array elements span)).effect P m =
      ((exprs elements).effect P m).bind fun m => (m.stack.collect? elements.length P.array).map m.withStack := by
  simp only [effect, Eval.expr, Eval.run_bind]
  cases hr : Eval.exprs P m.env elements m.stack.discarded with
  | none => rfl
  | some r =>
    have hlength : r.1.length = elements.length := Eval.length_exprs hr
    cases hr' : P.array r.1 <;>
      simp [hr', Eval.run_lift, Memory.pushAll, Stack.collect?, Memory.withStack, ← hlength]

theorem pairUp_flatMap (pairs : List (V × V)) : pairUp (pairs.flatMap fun p => [p.1, p.2]) = pairs := by
  induction pairs with
  | nil => rfl
  | cons pair rest ih => simp [pairUp, ih]

theorem length_flatMap_pair (pairs : List (V × V)) :
    (pairs.flatMap fun p => [p.1, p.2]).length = 2 * pairs.length := by
  induction pairs with
  | nil => rfl
  | cons pair rest ih =>
    rw [List.flatMap_cons, List.length_append, ih, List.length_cons]
    simp only [List.length_cons, List.length_nil]
    omega

theorem effect_hash (name : Option String) (ps : List (Expr × Expr)) (brace span : Span) :
    (expr name (.hash ps brace span)).effect P m =
      ((pairs ps).effect P m).bind fun m =>
        (m.stack.collect? (2 * ps.length) fun values => P.hash (pairUp values)).map m.withStack := by
  simp only [effect, Eval.expr, Eval.run_bind]
  cases hr : Eval.hashPairs P m.env ps m.stack.discarded with
  | none => rfl
  | some r =>
    have hlength : (r.1.flatMap fun p => [p.1, p.2]).length = 2 * ps.length := by
      rw [length_flatMap_pair, Eval.length_hashPairs hr]
    cases hr' : P.hash r.1 <;>
      simp [hr', Eval.run_lift, Memory.pushAll, Stack.collect?, Memory.withStack, ← hlength, pairUp_flatMap]

theorem effect_operands_cons (op : BinaryOp) (operand : Expr) (rest : List (BinaryOp × Expr)) :
    (operands ((op, operand) :: rest)).effect P m =
      (((expr none operand).effect P m).bind fun m => (m.stack.combine? (P.binary op)).map m.withStack).bind
        ((operands rest).effect P) := by
  obtain ⟨env, values, discarded⟩ := m
  cases values with
  | nil =>
    cases hr : Eval.expr P env operand discarded <;>
      simp [effect, hr, Stack.pop?, Stack.combine?, Memory.pushAll]
  | cons value values =>
    rw [effect_operands]
    simp only [effect, Eval.operands, Eval.run_bind]
    cases hr : Eval.expr P env operand discarded with
    | none => rfl
    | some r =>
      cases hr' : P.binary op value r.1 <;>
        simp [hr', effect_operands, Eval.run_lift, Memory.pushAll, Stack.combine?, Memory.withStack]

theorem effect_exprs_cons (e : Expr) (rest : List Expr) :
    (exprs (e :: rest)).effect P m = ((expr none e).effect P m).bind ((exprs rest).effect P) := by
  simp only [effect, Eval.exprs, Eval.run_bind]
  cases Eval.expr P m.env e m.stack.discarded with
  | none => rfl
  | some r => cases hr : Eval.exprs P m.env rest r.2 <;> simp [hr, effect, Eval.run_pure, Memory.pushAll]

theorem effect_pairs_cons (key value : Expr) (rest : List (Expr × Expr)) :
    (pairs ((key, value) :: rest)).effect P m =
      (((expr none key).effect P m).bind ((expr none value).effect P)).bind ((pairs rest).effect P) := by
  simp only [effect, Eval.hashPairs, Eval.run_bind]
  cases Eval.expr P m.env key m.stack.discarded with
  | none => rfl
  | some r =>
    cases hr : Eval.expr P m.env value r.2 with
    | none => simp [hr, effect, Memory.pushAll]
    | some r' =>
      cases hr' : Eval.hashPairs P m.env rest r'.2 <;> simp [hr, hr', effect, Eval.run_pure, Memory.pushAll]

theorem effect_letStmt (name : Ident) (value : Expr) (span : Span) :
    (stmt (.letStmt name value span)).effect P m =
      ((expr (some name.name) value).effect P m).bind fun m =>
        m.stack.pop?.map fun r => ⟨(name.name, r.1) :: m.env, r.2⟩ := by
  simp only [effect, Eval.stmt, Eval.run_bind]
  cases hr : Eval.expr P m.env value m.stack.discarded <;> simp [Eval.run_pure, Memory.pushAll, Stack.pop?]

theorem effect_exprStmt (e : Expr) (span : Span) :
    (stmt (.exprStmt e span)).effect P m =
      ((expr none e).effect P m).bind fun m => m.stack.discard?.map m.withStack := by
  simp only [effect, Eval.stmt, Eval.run_bind]
  cases hr : Eval.expr P m.env e m.stack.discarded <;>
    simp [Eval.run_modify, Eval.run_pure, Memory.pushAll, Stack.discard?, Memory.withStack]

theorem effect_stmts_cons (s : Stmt) (rest : List Stmt) :
    (stmts (s :: rest)).effect P m = ((stmt s).effect P m).bind ((stmts rest).effect P) := by
  simp only [effect, Eval.stmts, Eval.run_bind]
  cases hr : Eval.stmt P m.env s m.stack.discarded with
  | none => rfl
  | some r => simp [effect]

/-- The names that the statements of a block bind are gone behind it. -/
theorem stack_effect_valueStmts_last {s : Stmt} (hkind : ∀ e span, s ≠ .exprStmt e span) :
    ((valueStmts [s]).effect P m).map Memory.stack =
      (((stmt s).effect P m).bind fun m => (some (m.stack.push P.null)).map m.withStack).map Memory.stack := by
  have heval : Eval.blockStmts P m.env [s] = do
      let _ ← Eval.stmt P m.env s
      return P.null := by
    cases s with
    | exprStmt e span => exact absurd rfl (hkind e span)
    | letStmt name value span | returnStmt value span =>
      rw [Eval.blockStmts]
      exact hkind
  simp only [effect, heval, Eval.run_bind]
  cases hr : Eval.stmt P m.env s m.stack.discarded <;>
    simp [Eval.run_pure, Memory.pushAll, Stack.push, Memory.withStack]

theorem stack_effect_valueStmts_cons (s next : Stmt) (rest : List Stmt) :
    ((valueStmts (s :: next :: rest)).effect P m).map Memory.stack =
      (((stmt s).effect P m).bind ((valueStmts (next :: rest)).effect P)).map Memory.stack := by
  simp only [effect, Eval.blockStmts, Eval.run_bind]
  cases hr : Eval.stmt P m.env s m.stack.discarded with
  | none => rfl
  | some r => cases hr' : Eval.blockStmts P r.1 (next :: rest) r.2 <;> simp [hr', effect, Memory.pushAll]

theorem effect_ifElse (name : Option String) (condition : Expr) (thenBlock : Block) (elseBlock : Option Block)
    (span : Span) : (expr name (.ifElse condition thenBlock elseBlock span)).effect P m =
      ((expr none condition).effect P m).bind fun m => m.stack.pop?.bind fun r => (P.truth r.1).bind fun holds =>
        if holds then (valueBlock thenBlock).effect P (m.withStack r.2)
        else (otherwise elseBlock).effect P (m.withStack r.2) := by
  simp only [effect, Eval.expr, Eval.run_bind]
  cases Eval.expr P m.env condition m.stack.discarded with
  | none => rfl
  | some r =>
    cases hr : P.truth r.1 with
    | none => simp [hr, Eval.run_lift, Memory.pushAll, Stack.pop?]
    | some holds => cases holds <;> simp [hr, Eval.run_lift, Memory.pushAll, Stack.pop?, Memory.withStack]

end Phrase

/-! ### Scopes of the top level -/

namespace FunctionScope

theorem find?_openBlock (f : FunctionScope) (name : String) : f.openBlock.find? name = f.find? name := rfl

end FunctionScope

theorem SymbolScope.resolve_topLevel {s s' : SymbolScope} {name : String} {symbol : Symbol} (htop : s.enclosing = [])
    (hresolve : s.resolve name = (some symbol, s')) : s' = s ∧ s.current.find? name = some symbol.storage := by
  obtain ⟨current, enclosing⟩ := s
  cases htop
  simp only [resolve, resolveFrom, Prod.mk.injEq, Option.map_eq_some_iff] at hresolve
  obtain ⟨⟨entry, hentry, rfl⟩, rfl⟩ := hresolve
  exact ⟨rfl, FunctionScope.find?_of_getElem?_entries hentry⟩

/-- Whether the names that are introduced in a phrase go when it ends. -/
def Phrase.isClosed : Phrase → Bool
  | .expr _ _ | .operands _ | .exprs _ | .pairs _ | .otherwise _ | .valueBlock _ => true
  | .stmt _ | .stmts _ | .valueStmts _ | .functionStmts _ => false

/-- Generation that does not enter functions stays at the top level and leaves blocks that are open around it alone. -/
theorem Generates.topLevel {p : Phrase} {g g' : Generator} {code : List CodeLine} (h : Generates p g code g')
    (hfree : p.all Phrase.isCallFree = true) (htop : g.scope.enclosing = []) :
    g'.scope.enclosing = [] ∧ g'.scope.current.maps.tail = g.scope.current.maps.tail ∧
      (p.isClosed = true → g'.scope.current.maps = g.scope.current.maps) := by
  induction h with
  | constant _ _ _ | bool | operandsNil | exprsNil | pairsNil | otherwiseNone | stmtsNil | valueNil =>
    exact ⟨htop, rfl, fun _ => rfl⟩
  | ident hresolve _ =>
    obtain ⟨rfl, -⟩ := SymbolScope.resolve_topLevel htop hresolve
    exact ⟨htop, rfl, fun _ => rfl⟩
  | chain _ _ ih₁ ih₂ | index _ _ ih₁ ih₂ | operandsCons _ _ ih₁ ih₂ | exprsCons _ _ ih₁ ih₂ =>
    obtain ⟨htop₁, htail₁, hmaps₁⟩ := ih₁ (Phrase.all_of_mem_parts hfree (by simp [Phrase.parts])) htop
    obtain ⟨htop₂, htail₂, hmaps₂⟩ := ih₂ (Phrase.all_of_mem_parts hfree (by simp [Phrase.parts])) htop₁
    exact ⟨htop₂, htail₂.trans htail₁, fun _ => (hmaps₂ rfl).trans (hmaps₁ rfl)⟩
  | stmtsCons _ _ ih₁ ih₂ | valueCons _ _ ih₁ ih₂ =>
    obtain ⟨htop₁, htail₁, -⟩ := ih₁ (Phrase.all_of_mem_parts hfree (by simp [Phrase.parts])) htop
    obtain ⟨htop₂, htail₂, -⟩ := ih₂ (Phrase.all_of_mem_parts hfree (by simp [Phrase.parts])) htop₁
    exact ⟨htop₂, htail₂.trans htail₁, fun hclosed => by cases hclosed⟩
  | unary _ ih | array _ _ ih | hash _ _ ih | paren _ ih | otherwiseSome _ ih | exprStmt _ ih | valueExpr _ ih =>
    obtain ⟨htop₁, htail₁, hmaps₁⟩ := ih (Phrase.all_of_mem_parts hfree (by simp [Phrase.parts])) htop
    exact ⟨htop₁, htail₁, fun _ => hmaps₁ rfl⟩
  | ifElse _ _ _ _ _ ih₁ ih₂ ih₃ | pairsCons _ _ _ ih₁ ih₂ ih₃ =>
    obtain ⟨htop₁, htail₁, hmaps₁⟩ := ih₁ (Phrase.all_of_mem_parts hfree (by simp [Phrase.parts])) htop
    obtain ⟨htop₂, htail₂, hmaps₂⟩ := ih₂ (Phrase.all_of_mem_parts hfree (by simp [Phrase.parts])) htop₁
    obtain ⟨htop₃, htail₃, hmaps₃⟩ := ih₃ (Phrase.all_of_mem_parts hfree (by simp [Phrase.parts])) htop₂
    exact ⟨htop₃, htail₃.trans (htail₂.trans htail₁), fun _ => (hmaps₃ rfl).trans ((hmaps₂ rfl).trans (hmaps₁ rfl))⟩
  | @letStmt name value span g c g₁ i hvalue hstore ih =>
    obtain ⟨htop₁, htail₁, -⟩ := ih (Phrase.all_of_mem_parts hfree (by simp [Phrase.parts])) htop
    refine ⟨htop₁, ?_, fun hclosed => by cases hclosed⟩
    obtain ⟨m, -, hinsert⟩ := g₁.scope.current.maps_insert name.name (g₁.scope.define name.name).1.storage
    exact (congrArg List.tail hinsert).trans htail₁
  | valueLast hkind hlast ih =>
    rename_i s _ _ _
    cases s with
    | exprStmt e span => exact absurd rfl (hkind e span)
    | letStmt name value span | returnStmt value span =>
      obtain ⟨htop₁, htail₁, -⟩ := ih (Phrase.all_of_mem_parts hfree (by simp [Phrase.parts])) htop
      exact ⟨htop₁, htail₁, fun hclosed => by cases hclosed⟩
  | @valueBlock body span g c g₁ hbody ih =>
    obtain ⟨htop₁, htail₁, -⟩ := ih (Phrase.all_of_mem_parts hfree (by simp [Phrase.parts])) htop
    have htail : g₁.scope.current.maps.tail = g.scope.current.maps :=
      htail₁.trans (congrArg List.tail g.scope.current.maps_openBlock)
    have hmaps : g₁.scope.current.closeBlock.maps = g.scope.current.maps := by
      rw [FunctionScope.maps_closeBlock, htail]
      intro hblocks
      rw [FunctionScope.maps, hblocks, FunctionScope.maps] at htail
      exact List.append_ne_nil_of_right_ne_nil _ (List.cons_ne_nil _ _) htail.symm
    exact ⟨htop₁, congrArg List.tail hmaps, fun _ => hmaps⟩
  | call _ _ _ _ _ | function _ _ _ _ _ _ _ _ _ | returnStmt _ _ | functionNil | functionExpr _ _ | functionReturn _ _
  | functionLet _ _ | functionCons _ _ _ _ =>
    cases Phrase.all_self hfree

/-! ### Code of single forms -/

namespace Agrees

variable {P : Primitives V} {f f' : FunctionScope} {globals globals' : Nat → Option V} {env : Bindings V}

theorem of_maps (h : Agrees P f globals env) (hmaps : f'.maps = f.maps) : Agrees P f' globals env := by
  intro name storage hfind
  rw [FunctionScope.find?_eq, hmaps, ← FunctionScope.find?_eq] at hfind
  exact h name storage hfind

/-- Slots that have not been handed out do not matter. -/
theorem of_globals (h : Agrees P f globals env) (hsound : ScopesSound [f])
    (hsame : ∀ slot < f.slots, globals' slot = globals slot) : Agrees P f globals' env := by
  intro name storage hfind
  obtain ⟨value, hload, hlookup⟩ := h name storage hfind
  refine ⟨value, ?_, hlookup⟩
  cases storage with
  | global slot =>
    obtain ⟨_, hlast, hslot⟩ := hsound.find? hfind
    cases hlast
    exact (hsame slot hslot).trans hload
  | builtin index => exact hload
  | frame slot | captured index | running => cases hload

/-- A name is bound to a value that is in the next slot. -/
theorem define (h : Agrees P f globals env) (hsound : ScopesSound [f]) (name : String) (value : V) :
    Agrees P { f.insert name (.global f.slots) with slots := f.slots + 1 }
      (fun n => if n = f.slots then some value else globals n) ((name, value) :: env) := by
  have hold : Agrees P f (fun n => if n = f.slots then some value else globals n) env :=
    h.of_globals hsound fun slot hslot => if_neg (Nat.ne_of_lt hslot)
  intro other storage hfind
  change (f.insert name (.global f.slots)).find? other = some storage at hfind
  rw [FunctionScope.find?_insert] at hfind
  by_cases hname : name = other
  · rw [if_pos hname] at hfind
    cases hfind
    exact ⟨value, if_pos rfl, by simp [Primitives.lookup, hname]⟩
  · rw [if_neg hname] at hfind
    obtain ⟨found, hload, hlookup⟩ := hold other storage hfind
    have hother : (other == name) = false := beq_eq_false_iff_ne.mpr fun heq => hname heq.symm
    exact ⟨found, hload, by simpa [Primitives.lookup, List.lookup_cons, hother] using hlookup⟩

end Agrees

namespace Simulates

variable {M : StackMachine V} {whole : Code} {pool : ConstantPool} {g g₁ g₂ g₃ g' : Generator}
  {effect effect' : Memory V → Option (Memory V)} {binds : Prop}

/-- What a name stands for is pushed. -/
theorem ident {name : Option String} {id : Ident} {storage : Storage} {i : Instruction}
    (hfind : g.scope.current.find? id.name = some storage) (hload : storage.load? = some i)
    (hi : (g.offset, i) ∈ located 0 whole.toList) :
    Simulates M ⟨whole.toChunk, pool⟩ g (g.skip i.size) True ((Phrase.expr name (.ident id)).effect M.toPrimitives) := by
  intro m s hmatches
  obtain ⟨value, hvalue, hlookup⟩ := hmatches.names id.name storage hfind
  have heffect : (Phrase.expr name (.ident id)).effect M.toPrimitives m = some (m.withStack (m.stack.push value)) := by
    simp [Phrase.effect, Eval.run_ident, hlookup, Memory.pushAll, Memory.withStack, Stack.push]
  have hexecute : M.execute pool i.opcode i.operands (s.place + i.size) s =
      some (s.proceed (s.place + i.size) (s.stack.push value)) := by
    cases storage with
    | global slot =>
      obtain ⟨hslot, ⟨⟩⟩ := Option.ite_none_right_eq_some.mp hload
      have hslot' : s.globals slot = some value := hvalue
      simp [Instruction.opcode, Instruction.operands, toNat_ofNat_word hslot, hslot']
    | builtin index =>
      obtain ⟨hindex, ⟨⟩⟩ := Option.ite_none_right_eq_some.mp hload
      cases hvalue
      simp [Instruction.opcode, Instruction.operands, toNat_ofNat_byte hindex]
    | frame slot | captured index | running => cases hvalue
  rw [← hmatches.place] at hi
  rw [heffect]
  refine ⟨_, .single ((StackMachine.step_eq hi).trans hexecute), ?_, ?_, fun _ => hmatches.names, fun _ _ => rfl⟩
  · exact congrArg (· + i.size) hmatches.place
  · exact congrArg (·.push value) hmatches.stack

/-- The value on the stack goes into the next slot. -/
theorem define {name : String} {i : Instruction} (htop : g.scope.enclosing = [])
    (hscopes : ScopesSound g.scope.functions) (hstore : (g.scope.define name).1.storage.store? = some i)
    (hi : (g.offset, i) ∈ located 0 whole.toList) :
    Simulates M ⟨whole.toChunk, pool⟩ g ((g.withScope (g.scope.define name).2).skip i.size) True
      fun m => m.stack.pop?.map fun r => ⟨(name, r.1) :: m.env, r.2⟩ := by
  intro m s hmatches
  have hstorage : (g.scope.define name).1.storage = .global g.scope.current.slots := by
    simp [SymbolScope.define, SymbolScope.isTopLevel, htop]
  have hscope : (g.scope.define name).2.current =
      { g.scope.current.insert name (.global g.scope.current.slots) with slots := g.scope.current.slots + 1 } := by
    simp [SymbolScope.define, SymbolScope.isTopLevel, htop]
  have hsound : ScopesSound [g.scope.current] := by
    rw [SymbolScope.functions, htop] at hscopes
    exact hscopes
  rw [hstorage] at hstore
  obtain ⟨hslot, ⟨⟩⟩ := Option.ite_none_right_eq_some.mp hstore
  rw [← hmatches.place] at hi
  have hstep : M.step ⟨whole.toChunk, pool⟩ s = _ := StackMachine.step_eq hi
  simp only [Instruction.opcode, Instruction.operands, StackMachine.execute_setGlobal, toNat_ofNat_word hslot,
    hmatches.stack] at hstep
  change Outcome _ _ _ _ _ _ (m.stack.pop?.map _)
  cases hpop : m.stack.pop? with
  | none =>
    rw [hpop] at hstep
    exact ⟨s, .refl, place_lt_of_mem_located hi, hstep⟩
  | some r =>
    rw [hpop] at hstep
    refine ⟨_, .single hstep, ?_, rfl, ?_, ?_⟩
    · exact congrArg (· + _) hmatches.place
    · intro _
      change Agrees _ (g.scope.define name).2.current _ _
      rw [hscope]
      exact hmatches.names.define hsound name r.1
    · intro slot hslot
      exact if_neg (Nat.ne_of_lt hslot)

/-- A value on the stack decides between two branches, which meet behind the second. -/
theorem branch (hthen : Simulates M ⟨whole.toChunk, pool⟩ (g₁.skip 3) g₂ True effect)
    (helse : Simulates M ⟨whole.toChunk, pool⟩ (g₂.skip 3) g₃ True effect')
    (hfork : (g₁.offset, .jumpIfFalse (.ofNat (g₂.offset + 3))) ∈ located 0 whole.toList)
    (hjump : (g₂.offset, .jump (.ofNat g₃.offset)) ∈ located 0 whole.toList) (hskip : g₂.offset + 3 < 65536)
    (hleave : g₃.offset < 65536) (hmaps₂ : g₂.scope.current.maps = g₁.scope.current.maps)
    (hmaps₃ : g₃.scope.current.maps = g₂.scope.current.maps)
    (hslots : g₁.scope.current.slots ≤ g₂.scope.current.slots) :
    Simulates M ⟨whole.toChunk, pool⟩ g₁ g₃ True fun m => m.stack.pop?.bind fun r => (M.truth r.1).bind fun holds =>
      if holds then effect (m.withStack r.2) else effect' (m.withStack r.2) := by
  intro m s hmatches
  rw [← hmatches.place] at hfork
  have hstep : M.step ⟨whole.toChunk, pool⟩ s = _ := StackMachine.step_eq hfork
  simp only [Instruction.opcode, Instruction.operands, StackMachine.execute_jumpIfFalse, toNat_ofNat_word hskip,
    hmatches.stack] at hstep
  change Outcome _ _ _ _ _ _ (m.stack.pop?.bind _)
  cases hpop : m.stack.pop? with
  | none =>
    rw [hpop] at hstep
    exact ⟨s, .refl, place_lt_of_mem_located hfork, hstep⟩
  | some r =>
    obtain ⟨value, stack⟩ := r
    rw [Option.bind_some]
    cases htruth : M.truth value with
    | none =>
      simp only [hpop, htruth, Option.bind_some, Option.bind_none] at hstep
      exact ⟨s, .refl, place_lt_of_mem_located hfork, hstep⟩
    | some holds =>
      simp only [hpop, htruth, Option.bind_some] at hstep
      cases holds with
      | false =>
        have helse := helse (m.withStack stack) (s.proceed (g₂.offset + 3) stack)
          ⟨rfl, rfl, hmatches.names.of_maps hmaps₂⟩
        change Outcome _ _ _ _ _ s (effect' (m.withStack stack))
        cases heffect : effect' (m.withStack stack) with
        | none =>
          rw [heffect] at helse
          exact StackMachine.Reaches.fails (.single hstep) helse
        | some m' =>
          rw [heffect] at helse
          obtain ⟨s', hreaches, hplace, hstack, hnames, hglobals⟩ := helse
          exact ⟨s', .head hstep hreaches, hplace, hstack, hnames,
            fun slot hslot => hglobals slot (Nat.lt_of_lt_of_le hslot hslots)⟩
      | true =>
        have hthen := hthen (m.withStack stack) (s.proceed (s.place + 3) stack)
          ⟨congrArg (· + 3) hmatches.place, rfl, hmatches.names⟩
        change Outcome _ _ _ _ _ s (effect (m.withStack stack))
        cases heffect : effect (m.withStack stack) with
        | none =>
          rw [heffect] at hthen
          exact StackMachine.Reaches.fails (.single hstep) hthen
        | some m' =>
          rw [heffect] at hthen
          obtain ⟨s', hreaches, hplace, hstack, hnames, hglobals⟩ := hthen
          rw [← hplace] at hjump
          have hstep' : M.step ⟨whole.toChunk, pool⟩ s' = _ := StackMachine.step_eq hjump
          simp only [Instruction.opcode, Instruction.operands, StackMachine.execute_jump, toNat_ofNat_word hleave] at hstep'
          exact ⟨_, .head hstep (hreaches.tail hstep'), rfl, hstack, fun _ => (hnames trivial).of_maps hmaps₃, hglobals⟩

/-- The names of a block go when it ends, and those around it are found again. -/
theorem block {body : List Stmt} {span : Span} (hscopes : ScopesSound g.scope.functions) (htop : g.scope.enclosing = [])
    (hbody : Simulates M ⟨whole.toChunk, pool⟩ (g.withScope g.scope.openBlock) g₁ False
      ((Phrase.valueStmts body).effect M.toPrimitives))
    (hmaps : g₁.scope.current.closeBlock.maps = g.scope.current.maps) :
    Simulates M ⟨whole.toChunk, pool⟩ g (g₁.withScope g₁.scope.closeBlock) True
      ((Phrase.valueBlock (.mk body span)).effect M.toPrimitives) := by
  intro m s hmatches
  have hopened : Agrees M.toPrimitives g.scope.current.openBlock s.globals m.env := by
    intro name storage hfind
    rw [FunctionScope.find?_openBlock] at hfind
    exact hmatches.names name storage hfind
  have hbody := hbody m s ⟨hmatches.place, hmatches.stack, hopened⟩
  simp only [Phrase.effect, Eval.block] at hbody ⊢
  cases hrun : Eval.blockStmts M.toPrimitives m.env body m.stack.discarded with
  | none =>
    rw [hrun] at hbody
    exact hbody
  | some r =>
    rw [hrun] at hbody
    obtain ⟨s', hreaches, hplace, hstack, -, hglobals⟩ := hbody
    have hsound : ScopesSound [g.scope.current] := by
      rw [SymbolScope.functions, htop] at hscopes
      exact hscopes
    exact ⟨s', hreaches, hplace, hstack, fun _ => (hmatches.names.of_globals hsound hglobals).of_maps hmaps, hglobals⟩

/-- Behind code whose names go, only the stack matters. -/
theorem of_stack (h : Simulates M ⟨whole.toChunk, pool⟩ g g' binds effect)
    (hstack : ∀ m, (effect' m).map Memory.stack = (effect m).map Memory.stack) :
    Simulates M ⟨whole.toChunk, pool⟩ g g' False effect' := by
  intro m s hmatches
  have hrun := h m s hmatches
  have hstack := hstack m
  cases heffect : effect m with
  | none =>
    rw [heffect, Option.map_none, Option.map_eq_none_iff] at hstack
    rw [heffect] at hrun
    rw [hstack]
    exact hrun
  | some m₁ =>
    rw [heffect, Option.map_some, Option.map_eq_some_iff] at hstack
    rw [heffect] at hrun
    obtain ⟨m₂, heffect', hsame⟩ := hstack
    obtain ⟨s', hreaches, hplace, hstack₁, -, hglobals⟩ := hrun
    rw [heffect']
    exact ⟨s', hreaches, hplace, hstack₁.trans hsame.symm, False.elim, hglobals⟩

end Simulates

/-! ### Code of all phrases -/

/-- Whether names that a phrase introduces are in scope behind it. -/
def Phrase.Binds : Phrase → Prop
  | .valueStmts _ | .functionStmts _ => False
  | _ => True

structure AtTopLevel (scope : SymbolScope) (constants : ConstantPool) : Prop where
  scopes : ScopesSound scope.functions
  constants : constants.Loadable
  enclosing : scope.enclosing = []

namespace Generates

variable {p : Phrase} {g g' : Generator} {code rest : List CodeLine}

theorem grows (h : Generates p g code g') (hg : AtTopLevel g.scope g.pool) :
    g.pool.Grows g'.pool ∧ g.scope.current.slots ≤ g'.scope.current.slots := by
  obtain ⟨-, hgrows⟩ := h.sound ⟨hg.scopes, hg.constants⟩
  refine ⟨hgrows.pool, ?_⟩
  cases hgrows.scopes with
  | cons hcurrent _ => exact hcurrent.slots

/-- What is known behind the first piece of some code. -/
theorem behind (h : Generates p g code g') (hg : AtTopLevel g.scope g.pool) (hfree : p.all Phrase.isCallFree = true)
    {l : List (Nat × Instruction)} (hcode : located g.offset (code ++ rest) ⊆ l) :
    located g.offset code ⊆ l ∧ located g'.offset rest ⊆ l ∧ AtTopLevel g'.scope g'.pool := by
  obtain ⟨hsound, -⟩ := h.sound ⟨hg.scopes, hg.constants⟩
  obtain ⟨htop, -⟩ := h.topLevel hfree hg.enclosing
  rw [located_append, List.append_subset, ← h.offset_eq] at hcode
  exact ⟨hcode.1, hcode.2, ⟨hsound.scopes, hsound.pool, htop⟩⟩

/-- The code of a phrase has the effect of the phrase. -/
theorem simulates {M : StackMachine V} {whole : Code} {pool : ConstantPool} (h : Generates p g code g')
    (hcode : located g.offset code ⊆ located 0 whole.toList) (hpool : g'.pool.Grows pool)
    (hg : AtTopLevel g.scope g.pool) (hfree : p.all Phrase.isCallFree = true) :
    Simulates M ⟨whole.toChunk, pool⟩ g g' p.Binds (p.effect M.toPrimitives) := by
  induction h with
  | @constant name e c g place pool' hconstant hadd hplace =>
    obtain ⟨-, -, hget⟩ := hg.constants.add hadd hplace
    refine Simulates.congr (.plain (fun stack => some (stack.push (M.constant c))) (hcode List.mem_cons_self) rfl rfl ?_) ?_
    · intro next s
      simp [Instruction.opcode, Instruction.operands, toNat_ofNat_word hplace, hpool place c hget]
    · intro m
      cases e <;> cases hconstant <;> rfl
  | @bool name value span g =>
    refine Simulates.congr (.plain (fun stack => some (stack.push (M.bool value))) (hcode List.mem_cons_self) ?_ rfl ?_) ?_
    · cases value <;> rfl
    · intro next s
      cases value <;> rfl
    · intro m
      rfl
  | ident hresolve hload =>
    obtain ⟨rfl, hfind⟩ := SymbolScope.resolve_topLevel hg.enclosing hresolve
    exact .ident hfind hload (hcode List.mem_cons_self)
  | chain hfirst hrest ih₁ ih₂ =>
    have hfree₁ := Phrase.all_of_mem_parts hfree List.mem_cons_self
    obtain ⟨hcode₁, hcode₂, hg₁⟩ := hfirst.behind hg hfree₁ hcode
    have hsim₁ := ih₁ hcode₁ ((hrest.grows hg₁).1.trans hpool) hg hfree₁
    have hsim₂ := ih₂ hcode₂ hpool hg₁ (Phrase.all_of_mem_parts hfree (by simp [Phrase.parts]))
    exact (hsim₁.bind hsim₂ (hfirst.grows hg).2).congr fun m => Phrase.effect_chain _ m _ _ _ _ _
  | @unary name op operand span g c g₁ hoperand ih =>
    have hfree₁ := Phrase.all_of_mem_parts hfree List.mem_cons_self
    obtain ⟨hcode₁, hcode₂, -⟩ := hoperand.behind hg hfree₁ hcode
    refine Simulates.congr ((ih hcode₁ hpool hg hfree₁).bind (.plain (·.transform? (M.unary op)) (hcode₂ List.mem_cons_self)
      ?_ rfl ?_) (hoperand.grows hg).2) fun m => Phrase.effect_unary _ m _ _ _ _
    · cases op <;> rfl
    · intro next s
      cases op <;> rfl
  | index hobject hindex ih₁ ih₂ =>
    have hfree₁ := Phrase.all_of_mem_parts hfree List.mem_cons_self
    have hfree₂ := Phrase.all_of_mem_parts hfree (List.mem_cons_of_mem _ List.mem_cons_self)
    rw [List.append_assoc] at hcode
    obtain ⟨hcode₁, hcode, hg₁⟩ := hobject.behind hg hfree₁ hcode
    obtain ⟨hcode₂, hcode₃, -⟩ := hindex.behind hg₁ hfree₂ hcode
    have hsim₁ := ih₁ hcode₁ ((hindex.grows hg₁).1.trans hpool) hg hfree₁
    have hsim₂ := ih₂ hcode₂ hpool hg₁ hfree₂
    have hslots₁ := (hobject.grows hg).2
    have hslots₂ := Nat.le_trans hslots₁ (hindex.grows hg₁).2
    exact Simulates.congr ((hsim₁.bind hsim₂ hslots₁).bind
      (.plain (·.combine? M.index) (hcode₃ List.mem_cons_self) rfl rfl fun _ _ => rfl) hslots₂) fun m => Phrase.effect_index _ m _ _ _ _
  | @array name elements span g c g₁ helements hcount ih =>
    have hfree₁ := Phrase.all_of_mem_parts hfree List.mem_cons_self
    obtain ⟨hcode₁, hcode₂, -⟩ := helements.behind hg hfree₁ hcode
    refine Simulates.congr ((ih hcode₁ hpool hg hfree₁).bind (.plain (·.collect? elements.length M.array)
      (hcode₂ List.mem_cons_self) rfl rfl ?_) (helements.grows hg).2) fun m => Phrase.effect_array _ m _ _ _
    intro next s
    simp [Instruction.opcode, Instruction.operands, toNat_ofNat_word hcount]
  | @hash name ps brace span g c g₁ hpairs hcount ih =>
    have hfree₁ := Phrase.all_of_mem_parts hfree List.mem_cons_self
    obtain ⟨hcode₁, hcode₂, -⟩ := hpairs.behind hg hfree₁ hcode
    refine Simulates.congr ((ih hcode₁ hpool hg hfree₁).bind (.plain (·.collect? (2 * ps.length) fun values =>
      M.hash (pairUp values)) (hcode₂ List.mem_cons_self) rfl rfl ?_) (hpairs.grows hg).2) fun m => Phrase.effect_hash _ m _ _ _ _
    intro next s
    simp [Instruction.opcode, Instruction.operands, toNat_ofNat_word hcount]
  | @ifElse name condition thenBlock elseBlock span g c g₁ d g₂ e g₃ hcondition hthen hskip helse hleave ih₁ ih₂ ih₃ =>
    have hfree₁ := Phrase.all_of_mem_parts hfree List.mem_cons_self
    have hfree₂ := Phrase.all_of_mem_parts hfree (List.mem_cons_of_mem _ List.mem_cons_self)
    have hfree₃ := Phrase.all_of_mem_parts hfree
      (List.mem_cons_of_mem _ (List.mem_cons_of_mem _ List.mem_cons_self))
    obtain ⟨hcode₁, hcode, hg₁⟩ := hcondition.behind hg hfree₁ hcode
    rw [located_cons, List.cons_subset] at hcode
    obtain ⟨hfork, hcode⟩ := hcode
    obtain ⟨hcode₂, hcode, hg₂⟩ := hthen.behind hg₁ hfree₂ hcode
    rw [located_cons, List.cons_subset] at hcode
    obtain ⟨hjump, hcode₃⟩ := hcode
    obtain ⟨hgrows₂, hslots₂⟩ := hthen.grows hg₁
    have hpool₂ : g₂.pool.Grows pool := (helse.grows hg₂).1.trans hpool
    have hsim₁ := ih₁ hcode₁ (hgrows₂.trans hpool₂) hg hfree₁
    have hsim₂ := ih₂ hcode₂ hpool₂ hg₁ hfree₂
    have hsim₃ := ih₃ hcode₃ hpool hg₂ hfree₃
    have hbranch := hsim₂.branch hsim₃ hfork hjump hskip hleave ((hthen.topLevel hfree₂ hg₁.enclosing).2.2 rfl)
      ((helse.topLevel hfree₃ hg₂.enclosing).2.2 rfl) hslots₂
    exact (hsim₁.bind hbranch (hcondition.grows hg).2).congr fun m => Phrase.effect_ifElse _ m _ _ _ _ _
  | paren _ ih => exact (ih hcode hpool hg (Phrase.all_of_mem_parts hfree List.mem_cons_self)).congr fun m => rfl
  | operandsNil => exact .nil rfl rfl
  | @operandsCons op operand rest g c g₁ d g₂ hoperand hrest ih₁ ih₂ =>
    have hfree₁ := Phrase.all_of_mem_parts hfree List.mem_cons_self
    have hfree₂ := Phrase.all_of_mem_parts hfree (List.mem_cons_of_mem _ List.mem_cons_self)
    obtain ⟨hcode₁, hcode, hg₁⟩ := hoperand.behind hg hfree₁ hcode
    rw [located_cons, List.cons_subset] at hcode
    obtain ⟨hi, hcode₂⟩ := hcode
    have hsize : (Instruction.binary op).size = 1 := by cases op <;> rfl
    rw [hsize] at hcode₂
    have hsim₁ := ih₁ hcode₁ ((hrest.grows hg₁).1.trans hpool) hg hfree₁
    have hsim₂ := ih₂ hcode₂ hpool hg₁ hfree₂
    have hslots := (hoperand.grows hg).2
    have hbinary : Simulates M ⟨whole.toChunk, pool⟩ g₁ (g₁.skip 1) True
        fun m => (m.stack.combine? (M.binary op)).map m.withStack := by
      refine .plain (·.combine? (M.binary op)) hi (congrArg (g₁.offset + ·) hsize.symm) rfl ?_
      intro next s
      cases op <;> rfl
    exact ((hsim₁.bind hbinary hslots).bind hsim₂ hslots).congr fun m => Phrase.effect_operands_cons _ m _ _ _
  | exprsNil => exact Simulates.congr (.nil rfl rfl) fun m => rfl
  | exprsCons hfirst hrest ih₁ ih₂ =>
    have hfree₁ := Phrase.all_of_mem_parts hfree List.mem_cons_self
    obtain ⟨hcode₁, hcode₂, hg₁⟩ := hfirst.behind hg hfree₁ hcode
    have hsim₁ := ih₁ hcode₁ ((hrest.grows hg₁).1.trans hpool) hg hfree₁
    have hsim₂ := ih₂ hcode₂ hpool hg₁ (Phrase.all_of_mem_parts hfree (by simp [Phrase.parts]))
    exact (hsim₁.bind hsim₂ (hfirst.grows hg).2).congr fun m => Phrase.effect_exprs_cons _ m _ _
  | pairsNil => exact Simulates.congr (.nil rfl rfl) fun m => rfl
  | pairsCons hkey hvalue hrest ih₁ ih₂ ih₃ =>
    have hfree₁ := Phrase.all_of_mem_parts hfree List.mem_cons_self
    have hfree₂ := Phrase.all_of_mem_parts hfree (List.mem_cons_of_mem _ List.mem_cons_self)
    have hfree₃ := Phrase.all_of_mem_parts hfree
      (List.mem_cons_of_mem _ (List.mem_cons_of_mem _ List.mem_cons_self))
    rw [List.append_assoc] at hcode
    obtain ⟨hcode₁, hcode, hg₁⟩ := hkey.behind hg hfree₁ hcode
    obtain ⟨hcode₂, hcode₃, hg₂⟩ := hvalue.behind hg₁ hfree₂ hcode
    have hpool₂ := (hrest.grows hg₂).1.trans hpool
    have hsim₁ := ih₁ hcode₁ ((hvalue.grows hg₁).1.trans hpool₂) hg hfree₁
    have hsim₂ := ih₂ hcode₂ hpool₂ hg₁ hfree₂
    have hsim₃ := ih₃ hcode₃ hpool hg₂ hfree₃
    have hslots₁ := (hkey.grows hg).2
    have hslots₂ := Nat.le_trans hslots₁ (hvalue.grows hg₁).2
    exact ((hsim₁.bind hsim₂ hslots₁).bind hsim₃ hslots₂).congr fun m => Phrase.effect_pairs_cons _ m _ _ _
  | otherwiseNone | valueNil =>
    exact Simulates.congr (.plain (fun stack => some (stack.push M.null)) (hcode List.mem_cons_self) rfl rfl
      fun _ _ => rfl) fun m => rfl
  | otherwiseSome _ ih =>
    exact (ih hcode hpool hg (Phrase.all_of_mem_parts hfree List.mem_cons_self)).congr fun m => rfl
  | @letStmt name value span g c g₁ i hvalue hstore ih =>
    have hfree₁ := Phrase.all_of_mem_parts hfree List.mem_cons_self
    obtain ⟨hcode₁, hcode₂, hg₁⟩ := hvalue.behind hg hfree₁ hcode
    have hsim := ih hcode₁ hpool hg hfree₁
    exact (hsim.bind (.define hg₁.enclosing hg₁.scopes hstore (hcode₂ List.mem_cons_self)) (hvalue.grows hg).2).congr
      fun m => Phrase.effect_letStmt _ m _ _ _
  | exprStmt hexpr ih =>
    have hfree₁ := Phrase.all_of_mem_parts hfree List.mem_cons_self
    obtain ⟨hcode₁, hcode₂, -⟩ := hexpr.behind hg hfree₁ hcode
    exact Simulates.congr ((ih hcode₁ hpool hg hfree₁).bind (.plain Stack.discard? (hcode₂ List.mem_cons_self) rfl rfl
      fun _ _ => rfl) (hexpr.grows hg).2) fun m => Phrase.effect_exprStmt _ m _ _
  | stmtsNil => exact Simulates.congr (.nil rfl rfl) fun m => rfl
  | stmtsCons hfirst hrest ih₁ ih₂ =>
    have hfree₁ := Phrase.all_of_mem_parts hfree List.mem_cons_self
    obtain ⟨hcode₁, hcode₂, hg₁⟩ := hfirst.behind hg hfree₁ hcode
    have hsim₁ := ih₁ hcode₁ ((hrest.grows hg₁).1.trans hpool) hg hfree₁
    have hsim₂ := ih₂ hcode₂ hpool hg₁ (Phrase.all_of_mem_parts hfree (by simp [Phrase.parts]))
    exact (hsim₁.bind hsim₂ (hfirst.grows hg).2).congr fun m => Phrase.effect_stmts_cons _ m _ _
  | @valueBlock body span g c g₁ hbody ih =>
    have hfree₁ := Phrase.all_of_mem_parts hfree List.mem_cons_self
    have hopened : AtTopLevel g.scope.openBlock g.pool := ⟨(SymbolScope.openBlock_spec hg.scopes).1, hg.constants, hg.enclosing⟩
    have hblock : Generates (.valueBlock (.mk body span)) g c (g₁.withScope g₁.scope.closeBlock) := .valueBlock hbody
    have hmaps := (hblock.topLevel hfree hg.enclosing).2.2 rfl
    exact (ih hcode hpool hopened hfree₁).block hg.scopes hg.enclosing hmaps
  | valueExpr hexpr ih =>
    have hsim := ih hcode hpool hg (Phrase.all_of_mem_parts hfree List.mem_cons_self)
    exact hsim.of_stack fun m => by simp [Phrase.effect, Eval.blockStmts]
  | @valueLast s g c g₁ hkind hlast ih =>
    have hfree₁ : (Phrase.stmt s).all Phrase.isCallFree = true := by
      cases s with
      | exprStmt e span => exact absurd rfl (hkind e span)
      | letStmt name value span | returnStmt value span => exact Phrase.all_of_mem_parts hfree List.mem_cons_self
    obtain ⟨hcode₁, hcode₂, -⟩ := hlast.behind hg hfree₁ hcode
    have hsim : Simulates M ⟨whole.toChunk, pool⟩ g (g₁.skip 1) False _ :=
      (ih hcode₁ hpool hg hfree₁).bind (.plain (fun stack => some (stack.push M.null)) (hcode₂ List.mem_cons_self) rfl rfl
        fun _ _ => rfl) (hlast.grows hg).2
    exact hsim.of_stack fun m => Phrase.stack_effect_valueStmts_last _ m hkind
  | valueCons hfirst hrest ih₁ ih₂ =>
    have hfree₁ := Phrase.all_of_mem_parts hfree List.mem_cons_self
    obtain ⟨hcode₁, hcode₂, hg₁⟩ := hfirst.behind hg hfree₁ hcode
    have hsim₁ := ih₁ hcode₁ ((hrest.grows hg₁).1.trans hpool) hg hfree₁
    have hsim₂ := ih₂ hcode₂ hpool hg₁ (Phrase.all_of_mem_parts hfree (by simp [Phrase.parts]))
    exact (hsim₁.bind hsim₂ (hfirst.grows hg).2).of_stack fun m => Phrase.stack_effect_valueStmts_cons _ m _ _ _
  | call _ _ _ _ _ | function _ _ _ _ _ _ _ _ _ | returnStmt _ _ | functionNil | functionExpr _ _ | functionReturn _ _
  | functionLet _ _ | functionCons _ _ _ _ =>
    cases Phrase.all_self hfree

end Generates

/-- The names of the built-in functions stand for them before the first instruction. -/
theorem agrees_initial (P : Primitives V) (globals : Nat → Option V) : Agrees P SymbolScope.topLevel.current globals [] := by
  intro name storage hfind
  rw [SymbolScope.topLevel_find?, Option.map_eq_some_iff] at hfind
  obtain ⟨index, hindex, rfl⟩ := hfind
  exact ⟨P.builtin index, rfl, by simp [Primitives.lookup, hindex]⟩

/-- A program without functions runs to the end of its code with an empty stack, and what has been discarded on the way is
what evaluation discards; if evaluation fails, the run fails. -/
theorem run_of_generate (M : StackMachine V) {program : Program} {exe : Executable}
    (hgenerate : generate program = .ok exe) (hfree : (Phrase.stmts program.stmts).all Phrase.isCallFree = true) :
    match Eval.stmts M.toPrimitives [] program.stmts [] with
    | some (_, discarded) =>
      ∃ s, M.Reaches exe .initial s ∧ s.place = exe.chunk.size ∧ s.stack = ⟨[], discarded⟩
    | none => M.Fails exe .initial := by
  obtain ⟨code, g, h, rfl⟩ := generates_of_generate_eq_ok hgenerate
  have hinitial : AtTopLevel SymbolScope.topLevel ConstantPool.empty :=
    ⟨Generator.initial_sound.scopes, Generator.initial_sound.pool, rfl⟩
  have hrun := h.simulates (M := M) (fun _ hx => hx) (.refl _) hinitial hfree ⟨[], ⟨[], []⟩⟩ .initial
    ⟨rfl, rfl, agrees_initial _ _⟩
  simp only [Phrase.effect] at hrun
  cases heval : Eval.stmts M.toPrimitives [] program.stmts [] with
  | none =>
    rw [heval] at hrun
    exact hrun
  | some r =>
    rw [heval] at hrun
    obtain ⟨s, hreaches, hplace, hstack, -, -⟩ := hrun
    refine ⟨s, hreaches, ?_, hstack⟩
    rw [hplace, h.offset_eq, size_toChunk]
    exact Nat.zero_add _

/-- Numbers for values: what is made of values counts them, and zero is false. -/
def counting : StackMachine Nat where
  constant
    | .int value => value.toNatClampNeg
    | .string value => value.length
  bool value := value.toNat
  null := 0
  builtin place := place
  binary _ a b := some (a + b)
  unary _ a := some a
  index a b := some (a * b)
  array values := some values.length
  hash pairs := some pairs.length
  truth value := some (value != 0)
  calls _ _ _ := none

/-- A conditional among the operands of a sum, with a block that hides a name, and the name behind it. -/
def hiddenName : Program :=
  let x : Ident := ⟨"x", default⟩
  let block : Block := .mk [.letStmt x (.array [.ident x, .int 7 default] default) default,
    .exprStmt (.ident x) default, .exprStmt (.ident x) default] default
  let test : Expr := .ifElse (.ident x) block none default
  ⟨[.letStmt x (.int 1 default) default, .exprStmt (.chain .addition (.ident x) [(.add, test)] default) default,
    .exprStmt (.ident x) default], default⟩

theorem run_hiddenName : ∃ exe s, generate hiddenName = .ok exe ∧ counting.Reaches exe .initial s ∧
    s.place = exe.chunk.size ∧ s.stack = ⟨[], [2, 3, 1]⟩ := by
  obtain ⟨exe, hexe⟩ : ∃ exe, generate hiddenName = .ok exe := exists_ok_of_isOk (by decide +kernel)
  have hrun := run_of_generate counting hexe (by simp [hiddenName, Phrase.all_eq, Phrase.parts, Phrase.isCallFree])
  have heval : Eval.stmts counting.toPrimitives [] hiddenName.stmts [] = some ([("x", 1)], [2, 3, 1]) := by decide +kernel
  rw [heval] at hrun
  obtain ⟨s, hreaches, hplace, hstack⟩ := hrun
  exact ⟨exe, s, hexe, hreaches, hplace, hstack⟩

end MonkeyLang
