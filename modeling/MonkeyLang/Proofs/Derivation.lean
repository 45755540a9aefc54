import Mathlib.Data.List.Forall2
import MonkeyLang.Proofs.Patching
/-!
# Derivations

`Generates p g code g'` says that generating a phrase in the state `g` succeeds with some code and leaves the state `g'`.
There is one rule for each form of phrase, which names the states in between and says what code is put where, jump targets
and operands included. `generates_of_generate` is the only proof that looks into the generator; all that is known of the
code of a program is proved by induction on a derivation.
-/

namespace MonkeyLang

/-! ### What an instruction of a name is -/

/-- The instruction that pushes what is kept somewhere, if the operand fits. -/
def Storage.load? : Storage → Option Instruction
  | .global slot => if slot < 65536 then some (.getGlobal (.ofNat slot)) else none
  | .frame slot => if slot < 256 then some (.getLocal (.ofNat slot)) else none
  | .builtin index => if index < 256 then some (.getBuiltin (.ofNat index)) else none
  | .captured index => if index < 256 then some (.getFree (.ofNat index)) else none
  | .running => some .currentClosure

/-- The instruction that pops a value into a slot, if there is one. -/
def Storage.store? : Storage → Option Instruction
  | .global slot => if slot < 65536 then some (.setGlobal (.ofNat slot)) else none
  | .frame slot => if slot < 256 then some (.setLocal (.ofNat slot)) else none
  | .builtin _ | .captured _ | .running => none

/-- The constant that a literal is. -/
def Expr.constant? : Expr → Option Constant
  | .int value _ => some (.int value)
  | .string value _ => some (.string value)
  | _ => none

/-! ### States -/

/-- The scope inside a function with parameters, and with a name to call itself by if it has one. -/
def SymbolScope.enterFunction (s : SymbolScope) (name : Option String) (params : List Ident) : SymbolScope :=
  params.foldl (fun s param => (s.define param.name).2)
    (match name with
      | some name => (s.enter.defineRunning name).2
      | none => s.enter)

namespace Generator

/-- The state behind some bytes of code. -/
def skip (g : Generator) (size : Nat) : Generator := { g with offset := g.offset + size }

def withLine (g : Generator) (line : Nat) : Generator := { g with line }

def withScope (g : Generator) (scope : SymbolScope) : Generator := { g with scope }

@[simp] theorem scope_skip (g : Generator) (size : Nat) : (g.skip size).scope = g.scope := rfl
@[simp] theorem pool_skip (g : Generator) (size : Nat) : (g.skip size).pool = g.pool := rfl
@[simp] theorem line_skip (g : Generator) (size : Nat) : (g.skip size).line = g.line := rfl
@[simp] theorem offset_skip (g : Generator) (size : Nat) : (g.skip size).offset = g.offset + size := rfl
@[simp] theorem scope_withLine (g : Generator) (line : Nat) : (g.withLine line).scope = g.scope := rfl
@[simp] theorem pool_withLine (g : Generator) (line : Nat) : (g.withLine line).pool = g.pool := rfl
@[simp] theorem line_withLine (g : Generator) (line : Nat) : (g.withLine line).line = line := rfl
@[simp] theorem offset_withLine (g : Generator) (line : Nat) : (g.withLine line).offset = g.offset := rfl
@[simp] theorem scope_withScope (g : Generator) (scope : SymbolScope) : (g.withScope scope).scope = scope := rfl
@[simp] theorem pool_withScope (g : Generator) (scope : SymbolScope) : (g.withScope scope).pool = g.pool := rfl
@[simp] theorem line_withScope (g : Generator) (scope : SymbolScope) : (g.withScope scope).line = g.line := rfl
@[simp] theorem offset_withScope (g : Generator) (scope : SymbolScope) : (g.withScope scope).offset = g.offset := rfl

end Generator

/-! ### Derivations -/

/-- Generating a phrase in a state gives some code and a new state. -/
inductive Generates : Phrase → Generator → List CodeLine → Generator → Prop
  | constant {name e c g place pool} (hconstant : Expr.constant? e = some c) (hadd : g.pool.add c = (place, pool))
      (hplace : place < 65536) :
      Generates (.expr name e) g [⟨g.line, .constant (.ofNat place)⟩] ({ g with pool }.skip 3)
  | bool {name value span g} : Generates (.expr name (.bool value span)) g [⟨g.line, .bool value⟩] (g.skip 1)
  | ident {name id g symbol scope i} (hresolve : g.scope.resolve id.name = (some symbol, scope))
      (hload : symbol.storage.load? = some i) :
      Generates (.expr name (.ident id)) g [⟨g.line, i⟩] ((g.withScope scope).skip i.size)
  | chain {name level first rest span g c g₁ d g₂} (hfirst : Generates (.expr none first) g c g₁)
      (hrest : Generates (.operands rest) g₁ d g₂) :
      Generates (.expr name (.chain level first rest span)) g (c ++ d) g₂
  | unary {name op operand span g c g₁} (hoperand : Generates (.expr none operand) g c g₁) :
      Generates (.expr name (.unary op operand span)) g (c ++ [⟨g₁.line, .unary op⟩]) (g₁.skip 1)
  | call {name callee args span g c g₁ d g₂} (hcallee : Generates (.expr none callee) g c g₁)
      (hargs : Generates (.exprs args) g₁ d g₂) (hcount : args.length < 256) :
      Generates (.expr name (.call callee args span)) g
        (c ++ d ++ [⟨g₂.line, .call (.ofNat args.length)⟩]) (g₂.skip 2)
  | index {name object index span g c g₁ d g₂} (hobject : Generates (.expr none object) g c g₁)
      (hindex : Generates (.expr none index) g₁ d g₂) :
      Generates (.expr name (.index object index span)) g (c ++ d ++ [⟨g₂.line, .index⟩]) (g₂.skip 1)
  | array {name elements span g c g₁} (helements : Generates (.exprs elements) g c g₁)
      (hcount : elements.length < 65536) :
      Generates (.expr name (.array elements span)) g
        (c ++ [⟨g₁.line, .array (.ofNat elements.length)⟩]) (g₁.skip 3)
  | hash {name ps brace span g c g₁} (hpairs : Generates (.pairs ps) g c g₁) (hcount : ps.length < 65536) :
      Generates (.expr name (.hash ps brace span)) g (c ++ [⟨g₁.line, .hash (.ofNat ps.length)⟩]) (g₁.skip 3)
  /-- A jump over the body, the body, the captured values, the closure. -/
  | function {name params body blockSpan span g c g₁ f scope loads}
      (hbody : Generates (.functionStmts body) ((g.skip 3).withScope (g.scope.enterFunction name params)) c g₁)
      (hleave : g₁.scope.leave? = some (f, scope)) (htarget : g₁.offset < 65536)
      (hloads : List.Forall₂ (fun symbol i => symbol.storage.load? = some i) f.captures loads)
      (hentry : g.offset + 3 < 65536) (hparams : params.length < 256) (hlocals : f.slots < 256)
      (hfree : f.captures.length < 256) :
      Generates (.expr name (.function params (.mk body blockSpan) span)) g
        (⟨g.line, .jump (.ofNat g₁.offset)⟩ :: (c ++ (loads.map fun i => ⟨span.line, i⟩) ++
          [⟨span.line, .closure (.ofNat (g.offset + 3)) (.ofNat params.length) (.ofNat f.slots)
            (.ofNat f.captures.length)⟩]))
        (((g₁.withScope scope).withLine span.line).skip (codeSize (loads.map fun i => ⟨span.line, i⟩) + 6))
  /-- The condition, a jump to the other branch, the first branch, a jump to the end, the other branch. -/
  | ifElse {name condition thenBlock elseBlock span g c g₁ d g₂ e g₃}
      (hcondition : Generates (.expr none condition) g c g₁)
      (hthen : Generates (.valueBlock thenBlock) (g₁.skip 3) d g₂) (hskip : g₂.offset + 3 < 65536)
      (helse : Generates (.otherwise elseBlock) (g₂.skip 3) e g₃) (hleave : g₃.offset < 65536) :
      Generates (.expr name (.ifElse condition thenBlock elseBlock span)) g
        (c ++ ⟨g₁.line, .jumpIfFalse (.ofNat (g₂.offset + 3))⟩ ::
          (d ++ ⟨g₂.line, .jump (.ofNat g₃.offset)⟩ :: e)) g₃
  | paren {name inner span g c g₁} (hinner : Generates (.expr name inner) g c g₁) :
      Generates (.expr name (.paren inner span)) g c g₁
  | operandsNil {g} : Generates (.operands []) g [] g
  | operandsCons {op operand rest g c g₁ d g₂} (hoperand : Generates (.expr none operand) g c g₁)
      (hrest : Generates (.operands rest) (g₁.skip 1) d g₂) :
      Generates (.operands ((op, operand) :: rest)) g (c ++ ⟨g₁.line, .binary op⟩ :: d) g₂
  | exprsNil {g} : Generates (.exprs []) g [] g
  | exprsCons {e rest g c g₁ d g₂} (hfirst : Generates (.expr none e) g c g₁)
      (hrest : Generates (.exprs rest) g₁ d g₂) : Generates (.exprs (e :: rest)) g (c ++ d) g₂
  | pairsNil {g} : Generates (.pairs []) g [] g
  | pairsCons {key value rest g c g₁ d g₂ e g₃} (hkey : Generates (.expr none key) g c g₁)
      (hvalue : Generates (.expr none value) g₁ d g₂) (hrest : Generates (.pairs rest) g₂ e g₃) :
      Generates (.pairs ((key, value) :: rest)) g (c ++ d ++ e) g₃
  | otherwiseNone {g} : Generates (.otherwise none) g [⟨g.line, .null⟩] (g.skip 1)
  | otherwiseSome {block g c g₁} (hblock : Generates (.valueBlock block) g c g₁) :
      Generates (.otherwise (some block)) g c g₁
  | letStmt {name value span g c g₁ i} (hvalue : Generates (.expr (some name.name) value) (g.withLine span.line) c g₁)
      (hstore : (g₁.scope.define name.name).1.storage.store? = some i) :
      Generates (.stmt (.letStmt name value span)) g (c ++ [⟨g₁.line, i⟩])
        ((g₁.withScope (g₁.scope.define name.name).2).skip i.size)
  | returnStmt {value span g c g₁} (hvalue : Generates (.expr none value) (g.withLine span.line) c g₁) :
      Generates (.stmt (.returnStmt value span)) g (c ++ [⟨g₁.line, .returnValue⟩]) (g₁.skip 1)
  | exprStmt {e span g c g₁} (hexpr : Generates (.expr none e) (g.withLine span.line) c g₁) :
      Generates (.stmt (.exprStmt e span)) g (c ++ [⟨g₁.line, .pop⟩]) (g₁.skip 1)
  | stmtsNil {g} : Generates (.stmts []) g [] g
  | stmtsCons {s rest g c g₁ d g₂} (hfirst : Generates (.stmt s) g c g₁) (hrest : Generates (.stmts rest) g₁ d g₂) :
      Generates (.stmts (s :: rest)) g (c ++ d) g₂
  | valueBlock {body span g c g₁} (hbody : Generates (.valueStmts body) (g.withScope g.scope.openBlock) c g₁) :
      Generates (.valueBlock (.mk body span)) g c (g₁.withScope g₁.scope.closeBlock)
  | valueNil {g} : Generates (.valueStmts []) g [⟨g.line, .null⟩] (g.skip 1)
  | valueExpr {e span g c g₁} (hexpr : Generates (.expr none e) (g.withLine span.line) c g₁) :
      Generates (.valueStmts [.exprStmt e span]) g c g₁
  | valueLast {s g c g₁} (hkind : ∀ e span, s ≠ .exprStmt e span) (hlast : Generates (.stmt s) g c g₁) :
      Generates (.valueStmts [s]) g (c ++ [⟨g₁.line, .null⟩]) (g₁.skip 1)
  | valueCons {s next rest g c g₁ d g₂} (hfirst : Generates (.stmt s) g c g₁)
      (hrest : Generates (.valueStmts (next :: rest)) g₁ d g₂) :
      Generates (.valueStmts (s :: next :: rest)) g (c ++ d) g₂
  | functionNil {g} : Generates (.functionStmts []) g [⟨g.line, .returnNull⟩] (g.skip 1)
  | functionExpr {e span g c g₁} (hexpr : Generates (.expr none e) (g.withLine span.line) c g₁) :
      Generates (.functionStmts [.exprStmt e span]) g (c ++ [⟨g₁.line, .returnValue⟩]) (g₁.skip 1)
  | functionReturn {value span g c g₁} (hvalue : Generates (.expr none value) (g.withLine span.line) c g₁) :
      Generates (.functionStmts [.returnStmt value span]) g (c ++ [⟨g₁.line, .returnValue⟩]) (g₁.skip 1)
  | functionLet {name value span g c g₁} (hlast : Generates (.stmt (.letStmt name value span)) g c g₁) :
      Generates (.functionStmts [.letStmt name value span]) g (c ++ [⟨g₁.line, .returnNull⟩]) (g₁.skip 1)
  | functionCons {s next rest g c g₁ d g₂} (hfirst : Generates (.stmt s) g c g₁)
      (hrest : Generates (.functionStmts (next :: rest)) g₁ d g₂) :
      Generates (.functionStmts (s :: next :: rest)) g (c ++ d) g₂

/-! ### Runs that succeed -/

section

variable {σ ε α β : Type}

theorem bind_eq_ok {m : StateT σ (Except ε) α} {k : α → StateT σ (Except ε) β} {s : σ} {r : β × σ} :
    (m >>= k) s = .ok r ↔ ∃ a s₁, m s = .ok (a, s₁) ∧ k a s₁ = .ok r := by
  change StateT.bind m k s = .ok r ↔ _
  simp only [StateT.bind, bind, Except.bind]
  cases hm : m s with
  | error cause => simp
  | ok first => exact ⟨fun h => ⟨first.1, first.2, rfl, h⟩, fun ⟨_, _, hfirst, h⟩ => by cases hfirst; exact h⟩

theorem pure_eq_ok {a : α} {s : σ} {r : α × σ} : (pure a : StateT σ (Except ε) α) s = .ok r ↔ r = (a, s) := by
  change Except.ok (a, s) = .ok r ↔ _
  rw [Except.ok.injEq, eq_comm]

end

namespace Generator

theorem checked_eq_ok {α : Type} {x : Except GenerationError α} {g : Generator} {r : α × Generator} :
    checked x g = .ok r ↔ x = .ok r.1 ∧ r.2 = g := by
  cases x with
  | error cause => simp [checked]
  | ok a =>
    obtain ⟨b, g₁⟩ := r
    simp [checked, eq_comm]

theorem byteOperand_eq_ok {op : Opcode} {operand : Nat} {byte : UInt8} :
    byteOperand op operand = .ok byte ↔ operand < 256 ∧ byte = .ofNat operand := by
  unfold byteOperand
  split <;> simp [*, eq_comm]

theorem wordOperand_eq_ok {op : Opcode} {operand : Nat} {value : UInt16} :
    wordOperand op operand = .ok value ↔ operand < 65536 ∧ value = .ofNat operand := by
  unfold wordOperand
  split <;> simp [*, eq_comm]

theorem jumpTarget_eq_ok {target : Nat} {value : UInt16} :
    jumpTarget target = .ok value ↔ target < 65536 ∧ value = .ofNat target := by
  unfold jumpTarget
  split <;> simp [*, eq_comm]

theorem emit_eq_ok {i : Instruction} {g : Generator} {r : Code × Generator} :
    emit i g = .ok r ↔ r = (#[⟨g.line, i⟩], g.skip i.size) := by
  change Except.ok _ = .ok r ↔ _
  rw [Except.ok.injEq, eq_comm]
  rfl

theorem reserve_eq_ok {size : Nat} {g : Generator} {r : Nat × Generator} :
    reserve size g = .ok r ↔ r = (g.line, g.skip size) := by
  change Except.ok _ = .ok r ↔ _
  rw [Except.ok.injEq, eq_comm]
  rfl

theorem setLine_eq_ok {line : Nat} {g : Generator} {r : Unit × Generator} :
    setLine line g = .ok r ↔ r = ((), g.withLine line) := by
  change Except.ok _ = .ok r ↔ _
  rw [Except.ok.injEq, eq_comm]
  rfl

theorem modifyScope_eq_ok {change : SymbolScope → SymbolScope} {g : Generator} {r : Unit × Generator} :
    modifyScope change g = .ok r ↔ r = ((), g.withScope (change g.scope)) := by
  change Except.ok _ = .ok r ↔ _
  rw [Except.ok.injEq, eq_comm]
  rfl

theorem get_eq_ok {g : Generator} {r : Generator × Generator} : (get : Gen Generator) g = .ok r ↔ r = (g, g) := by
  change Except.ok (g, g) = .ok r ↔ _
  rw [Except.ok.injEq, eq_comm]

theorem define_eq_ok {name : String} {g : Generator} {r : Symbol × Generator} :
    define name g = .ok r ↔ r = ((g.scope.define name).1, g.withScope (g.scope.define name).2) := by
  change Except.ok _ = .ok r ↔ _
  rw [Except.ok.injEq, eq_comm]
  rfl

theorem here_eq_ok {g : Generator} {r : UInt16 × Generator} :
    here g = .ok r ↔ g.offset < 65536 ∧ r = (.ofNat g.offset, g) := by
  obtain ⟨value, g₁⟩ := r
  simp only [here, bind_eq_ok, get_eq_ok, checked_eq_ok, jumpTarget_eq_ok, Prod.mk.injEq]
  constructor
  · rintro ⟨_, _, ⟨rfl, rfl⟩, ⟨hfits, rfl⟩, rfl⟩
    exact ⟨hfits, rfl, rfl⟩
  · rintro ⟨hfits, rfl, rfl⟩
    exact ⟨_, _, ⟨rfl, rfl⟩, ⟨hfits, rfl⟩, rfl⟩

theorem resolve_eq_ok {name : Ident} {g : Generator} {symbol : Symbol} {g₁ : Generator} :
    resolve name g = .ok (symbol, g₁) ↔
      ∃ scope, g.scope.resolve name.name = (some symbol, scope) ∧ g₁ = g.withScope scope := by
  unfold resolve
  rcases g.scope.resolve name.name with ⟨_ | found, scope⟩
  · simp
  · simp only [Except.ok.injEq, Prod.mk.injEq, Option.some.injEq]
    constructor
    · rintro ⟨rfl, rfl⟩
      exact ⟨scope, ⟨rfl, rfl⟩, rfl⟩
    · rintro ⟨_, ⟨rfl, rfl⟩, rfl⟩
      exact ⟨rfl, rfl⟩

theorem leaveFunction_eq_ok {g : Generator} {f : FunctionScope} {g₁ : Generator} :
    leaveFunction g = .ok (f, g₁) ↔ ∃ scope, g.scope.leave? = some (f, scope) ∧ g₁ = g.withScope scope := by
  unfold leaveFunction
  rcases g.scope.leave? with _ | ⟨left, scope⟩
  · simp
  · simp only [Except.ok.injEq, Prod.mk.injEq, Option.some.injEq]
    constructor
    · rintro ⟨rfl, rfl⟩
      exact ⟨scope, ⟨rfl, rfl⟩, rfl⟩
    · rintro ⟨_, ⟨rfl, rfl⟩, rfl⟩
      exact ⟨rfl, rfl⟩

/-- An instruction with an operand that has to fit. -/
theorem emit_checked_eq_ok {α : Type} {x : Except GenerationError α} {make : α → Instruction} {g : Generator}
    {r : Code × Generator} :
    (checked x >>= fun a => emit (make a)) g = .ok r ↔
      ∃ a, x = .ok a ∧ r = (#[⟨g.line, make a⟩], g.skip (make a).size) := by
  simp only [bind_eq_ok, checked_eq_ok, emit_eq_ok]
  constructor
  · rintro ⟨a, _, ⟨hx, rfl⟩, rfl⟩
    exact ⟨a, hx, rfl⟩
  · rintro ⟨a, hx, rfl⟩
    exact ⟨a, g, ⟨hx, rfl⟩, rfl⟩

theorem load_eq_ok {symbol : Symbol} {g : Generator} {r : Code × Generator} :
    load symbol g = .ok r ↔ ∃ i, symbol.storage.load? = some i ∧ r = (#[⟨g.line, i⟩], g.skip i.size) := by
  unfold load
  cases symbol.storage with
  | global slot =>
    simp only [emit_checked_eq_ok, wordOperand_eq_ok, Storage.load?]
    by_cases hfits : slot < 65536 <;> simp [hfits]
  | frame slot | builtin slot | captured slot =>
    simp only [emit_checked_eq_ok, byteOperand_eq_ok, Storage.load?]
    by_cases hfits : slot < 256 <;> simp [hfits]
  | running => simp [emit_eq_ok, Storage.load?]

theorem store_eq_ok {symbol : Symbol} {g : Generator} {r : Code × Generator} :
    store symbol g = .ok r ↔ ∃ i, symbol.storage.store? = some i ∧ r = (#[⟨g.line, i⟩], g.skip i.size) := by
  unfold store
  cases symbol.storage with
  | global slot =>
    simp only [emit_checked_eq_ok, wordOperand_eq_ok, Storage.store?]
    by_cases hfits : slot < 65536 <;> simp [hfits]
  | frame slot =>
    simp only [emit_checked_eq_ok, byteOperand_eq_ok, Storage.store?]
    by_cases hfits : slot < 256 <;> simp [hfits]
  | builtin _ | captured _ | running => simp [checked_eq_ok, Storage.store?]

theorem constant_eq_ok {c : Constant} {g : Generator} {r : Code × Generator} :
    constant c g = .ok r ↔ ∃ place pool, g.pool.add c = (place, pool) ∧ place < 65536 ∧
      r = (#[⟨g.line, .constant (.ofNat place)⟩], { g with pool }.skip 3) := by
  have hadd : addConstant c g = .ok ((g.pool.add c).1, { g with pool := (g.pool.add c).2 }) := rfl
  simp only [constant, bind_eq_ok, hadd, Except.ok.injEq, Prod.mk.injEq, checked_eq_ok, wordOperand_eq_ok, emit_eq_ok]
  constructor
  · rintro ⟨_, _, ⟨rfl, rfl⟩, _, _, ⟨⟨hfits, rfl⟩, rfl⟩, rfl⟩
    exact ⟨_, _, rfl, hfits, rfl⟩
  · rintro ⟨place, pool, hplace, hfits, rfl⟩
    rw [hplace]
    exact ⟨_, _, ⟨rfl, rfl⟩, _, _, ⟨⟨hfits, rfl⟩, rfl⟩, rfl⟩

/-- Captured values are loaded one behind the other. -/
theorem loadAll_eq_ok {symbols : List Symbol} {code : Code} {g : Generator} {r : Code × Generator}
    (h : loadAll code symbols g = .ok r) :
    ∃ loads, List.Forall₂ (fun symbol i => symbol.storage.load? = some i) symbols loads ∧
      r.1.toList = code.toList ++ (loads.map fun i => ⟨g.line, i⟩) ∧
      r.2 = g.skip (codeSize (loads.map fun i => ⟨g.line, i⟩)) := by
  induction symbols generalizing code g with
  | nil =>
    rw [loadAll, pure_eq_ok] at h
    subst h
    exact ⟨[], .nil, by simp, rfl⟩
  | cons symbol symbols ih =>
    simp only [loadAll, bind_eq_ok, load_eq_ok] at h
    obtain ⟨_, _, ⟨i, hload, heq⟩, h⟩ := h
    obtain ⟨rfl, rfl⟩ := Prod.mk.inj heq
    obtain ⟨loads, hloads, hcode, hstate⟩ := ih h
    refine ⟨i :: loads, .cons hload hloads, by simpa using hcode, ?_⟩
    rw [hstate]
    simp [skip, Nat.add_assoc]

theorem defineAll_eq_ok {params : List Ident} {g : Generator} {r : Unit × Generator} :
    defineAll params g = .ok r ↔
      r = ((), g.withScope (params.foldl (fun s param => (s.define param.name).2) g.scope)) := by
  induction params generalizing g with
  | nil => exact pure_eq_ok
  | cons param params ih =>
    have hdefine : discard (define param.name) g = .ok ((), g.withScope (g.scope.define param.name).2) := rfl
    rw [defineAll, bind_eq_ok, hdefine]
    constructor
    · rintro ⟨_, _, hfirst, hrest⟩
      cases hfirst
      exact ih.mp hrest
    · rintro rfl
      exact ⟨_, _, rfl, ih.mpr rfl⟩

theorem enterFunction_eq_ok {name : Option String} {params : List Ident} {g : Generator} {r : Unit × Generator} :
    enterFunction name params g = .ok r ↔ r = ((), g.withScope (g.scope.enterFunction name params)) := by
  cases name <;>
    simp [enterFunction, bind_eq_ok, modifyScope_eq_ok, defineAll_eq_ok, SymbolScope.enterFunction, withScope]

theorem closure_eq_ok {entry : Nat} {params : List Ident} {f : FunctionScope} {g : Generator} {r : Code × Generator} :
    closure entry params f g = .ok r ↔
      entry < 65536 ∧ params.length < 256 ∧ f.slots < 256 ∧ f.captures.length < 256 ∧
        r = (#[⟨g.line, .closure (.ofNat entry) (.ofNat params.length) (.ofNat f.slots) (.ofNat f.captures.length)⟩],
          g.skip 6) := by
  simp only [closure, bind_eq_ok, checked_eq_ok, wordOperand_eq_ok, byteOperand_eq_ok, emit_eq_ok]
  constructor
  · rintro ⟨_, _, ⟨⟨hentry, rfl⟩, rfl⟩, _, _, ⟨⟨hparams, rfl⟩, rfl⟩, _, _, ⟨⟨hlocals, rfl⟩, rfl⟩, _, _,
      ⟨⟨hfree, rfl⟩, rfl⟩, rfl⟩
    exact ⟨hentry, hparams, hlocals, hfree, rfl⟩
  · rintro ⟨hentry, hparams, hlocals, hfree, rfl⟩
    exact ⟨_, _, ⟨⟨hentry, rfl⟩, rfl⟩, _, _, ⟨⟨hparams, rfl⟩, rfl⟩, _, _, ⟨⟨hlocals, rfl⟩, rfl⟩, _, _,
      ⟨⟨hfree, rfl⟩, rfl⟩, rfl⟩

end Generator

theorem toList_around (c d : Code) (i : CodeLine) : (c ++ #[i] ++ d).toList = c.toList ++ i :: d.toList := by
  simp

open Generator

/-- Every run of the generator that succeeds has a derivation. -/
theorem generates_of_generate {p : Phrase} {g : Generator} {code : Code} {g' : Generator}
    (h : p.generate g = .ok (code, g')) : Generates p g code.toList g' := by
  induction p using Phrase.induction generalizing g code g' with
  | int name value span | string name value span =>
    obtain ⟨place, pool, hadd, hplace, heq⟩ := constant_eq_ok.mp h
    obtain ⟨rfl, rfl⟩ := Prod.mk.inj heq
    exact .constant rfl hadd hplace
  | bool name value span =>
    obtain ⟨rfl, rfl⟩ := Prod.mk.inj (emit_eq_ok.mp h)
    cases value <;> exact .bool
  | ident name id =>
    simp only [Phrase.generate, Generator.expr, bind_eq_ok, resolve_eq_ok, load_eq_ok, Prod.mk.injEq] at h
    obtain ⟨symbol, _, ⟨scope, hresolve, rfl⟩, i, hload, rfl, rfl⟩ := h
    exact .ident hresolve hload
  | chain name level first rest span ihfirst ihrest =>
    simp only [Phrase.generate_chain, bind_eq_ok, pure_eq_ok, Prod.mk.injEq] at h
    obtain ⟨c, g₁, hfirst, d, g₂, hrest, rfl, rfl⟩ := h
    rw [Array.toList_append]
    exact .chain (ihfirst hfirst) (ihrest hrest)
  | unary name op operand span ih =>
    simp only [Phrase.generate, Generator.expr, bind_eq_ok, emit_eq_ok, pure_eq_ok, Prod.mk.injEq] at h
    obtain ⟨c, g₁, hoperand, _, _, ⟨rfl, rfl⟩, rfl, rfl⟩ := h
    rw [Array.toList_append]
    cases op <;> exact .unary (ih hoperand)
  | call name callee args span ihcallee ihargs =>
    simp only [Phrase.generate_call, bind_eq_ok, checked_eq_ok, byteOperand_eq_ok, emit_eq_ok, pure_eq_ok,
      Prod.mk.injEq] at h
    obtain ⟨c, g₁, hcallee, d, g₂, hargs, _, _, ⟨⟨hcount, rfl⟩, rfl⟩, _, _, ⟨rfl, rfl⟩, rfl, rfl⟩ := h
    rw [Array.toList_append, Array.toList_append]
    exact .call (ihcallee hcallee) (ihargs hargs) hcount
  | index name object index span ihobject ihindex =>
    simp only [Phrase.generate, Generator.expr, bind_eq_ok, emit_eq_ok, pure_eq_ok, Prod.mk.injEq] at h
    obtain ⟨c, g₁, hobject, d, g₂, hindex, _, _, ⟨rfl, rfl⟩, rfl, rfl⟩ := h
    rw [Array.toList_append, Array.toList_append]
    exact .index (ihobject hobject) (ihindex hindex)
  | array name elements span ih =>
    simp only [Phrase.generate, Generator.expr, bind_eq_ok, checked_eq_ok, wordOperand_eq_ok, emit_eq_ok,
      pure_eq_ok, Prod.mk.injEq] at h
    obtain ⟨c, g₁, helements, _, _, ⟨⟨hcount, rfl⟩, rfl⟩, _, _, ⟨rfl, rfl⟩, rfl, rfl⟩ := h
    rw [Array.toList_append]
    exact .array (ih helements) hcount
  | hash name ps brace span ih =>
    simp only [Phrase.generate, Generator.expr, bind_eq_ok, checked_eq_ok, wordOperand_eq_ok, emit_eq_ok,
      pure_eq_ok, Prod.mk.injEq] at h
    obtain ⟨c, g₁, hpairs, _, _, ⟨⟨hcount, rfl⟩, rfl⟩, _, _, ⟨rfl, rfl⟩, rfl, rfl⟩ := h
    rw [Array.toList_append]
    exact .hash (ih hpairs) hcount
  | function name params body blockSpan span ih =>
    simp only [Phrase.generate, Generator.expr, Generator.functionBody, bind_eq_ok, reserve_eq_ok, get_eq_ok,
      enterFunction_eq_ok, leaveFunction_eq_ok, here_eq_ok, setLine_eq_ok, closure_eq_ok, pure_eq_ok,
      Prod.mk.injEq] at h
    obtain ⟨_, _, ⟨rfl, rfl⟩, _, _, ⟨rfl, rfl⟩, _, _, ⟨-, rfl⟩, c, g₁, hbody, f, _, ⟨scope, hleave, rfl⟩, _, _,
      ⟨htarget, rfl, rfl⟩, _, _, ⟨-, rfl⟩, loads, _, hloads, _, _, ⟨hentry, hparams, hlocals, hfree, rfl, rfl⟩,
      rfl, rfl⟩ := h
    obtain ⟨is, his, hcode, rfl⟩ := loadAll_eq_ok hloads
    rw [Array.toList_append, Array.toList_append, Array.toList_append, hcode]
    exact @Generates.function name params body blockSpan span g c.toList g₁ f scope is (ih hbody) hleave htarget his
      hentry hparams hlocals hfree
  | ifElse name condition thenBlock elseBlock span ihcondition ihthen ihelse =>
    simp only [Phrase.generate, Generator.expr, bind_eq_ok, reserve_eq_ok, here_eq_ok, pure_eq_ok, Prod.mk.injEq] at h
    obtain ⟨c, g₁, hcondition, _, _, ⟨rfl, rfl⟩, d, g₂, hthen, _, _, ⟨rfl, rfl⟩, _, _, ⟨hskip, rfl, rfl⟩, e, g₃,
      helse, _, _, ⟨hleave, rfl, rfl⟩, rfl, rfl⟩ := h
    rw [toList_around, toList_around, List.append_assoc, List.cons_append]
    exact .ifElse (ihcondition hcondition) (ihthen hthen) hskip (ihelse helse) hleave
  | paren name inner span ih =>
    simp only [Phrase.generate, Generator.expr] at h
    exact .paren (ih h)
  | operandsNil =>
    simp only [Phrase.generate, Generator.operands, pure_eq_ok, Prod.mk.injEq] at h
    obtain ⟨rfl, rfl⟩ := h
    exact .operandsNil
  | operandsCons op operand rest ihoperand ihrest =>
    simp only [Phrase.generate_operands_cons, bind_eq_ok, emit_eq_ok, pure_eq_ok, Prod.mk.injEq] at h
    obtain ⟨c, g₁, hoperand, _, _, ⟨rfl, rfl⟩, d, g₂, hrest, rfl, rfl⟩ := h
    rw [toList_around]
    cases op <;> exact .operandsCons (ihoperand hoperand) (ihrest hrest)
  | exprsNil =>
    simp only [Phrase.generate, Generator.exprs, pure_eq_ok, Prod.mk.injEq] at h
    obtain ⟨rfl, rfl⟩ := h
    exact .exprsNil
  | exprsCons e rest ihfirst ihrest =>
    simp only [Phrase.generate_exprs_cons, bind_eq_ok, pure_eq_ok, Prod.mk.injEq] at h
    obtain ⟨c, g₁, hfirst, d, g₂, hrest, rfl, rfl⟩ := h
    rw [Array.toList_append]
    exact .exprsCons (ihfirst hfirst) (ihrest hrest)
  | pairsNil =>
    simp only [Phrase.generate, Generator.hashPairs, pure_eq_ok, Prod.mk.injEq] at h
    obtain ⟨rfl, rfl⟩ := h
    exact .pairsNil
  | pairsCons key value rest ihkey ihvalue ihrest =>
    simp only [Phrase.generate_pairs_cons, bind_eq_ok, pure_eq_ok, Prod.mk.injEq] at h
    obtain ⟨c, g₁, hkey, d, g₂, hvalue, e, g₃, hrest, rfl, rfl⟩ := h
    rw [Array.toList_append, Array.toList_append]
    exact .pairsCons (ihkey hkey) (ihvalue hvalue) (ihrest hrest)
  | otherwiseNone =>
    simp only [Phrase.generate, Generator.elseValue, emit_eq_ok, Prod.mk.injEq] at h
    obtain ⟨rfl, rfl⟩ := h
    exact .otherwiseNone
  | otherwiseSome block ih =>
    simp only [Phrase.generate, Generator.elseValue] at h
    exact .otherwiseSome (ih h)
  | letStmt name value span ih =>
    simp only [Phrase.generate, Generator.stmt, bind_eq_ok, setLine_eq_ok, define_eq_ok, store_eq_ok, pure_eq_ok,
      Prod.mk.injEq] at h
    obtain ⟨_, _, ⟨-, rfl⟩, c, g₁, hvalue, _, _, ⟨rfl, rfl⟩, _, _, ⟨i, hstore, rfl, rfl⟩, rfl, rfl⟩ := h
    rw [Array.toList_append]
    exact .letStmt (ih hvalue) hstore
  | returnStmt value span ih =>
    simp only [Phrase.generate, Generator.stmt, bind_eq_ok, setLine_eq_ok, emit_eq_ok, pure_eq_ok, Prod.mk.injEq] at h
    obtain ⟨_, _, ⟨-, rfl⟩, c, g₁, hvalue, _, _, ⟨rfl, rfl⟩, rfl, rfl⟩ := h
    rw [Array.toList_append]
    exact .returnStmt (ih hvalue)
  | exprStmt e span ih =>
    simp only [Phrase.generate, Generator.stmt, bind_eq_ok, setLine_eq_ok, emit_eq_ok, pure_eq_ok, Prod.mk.injEq] at h
    obtain ⟨_, _, ⟨-, rfl⟩, c, g₁, hexpr, _, _, ⟨rfl, rfl⟩, rfl, rfl⟩ := h
    rw [Array.toList_append]
    exact .exprStmt (ih hexpr)
  | stmtsNil =>
    simp only [Phrase.generate, Generator.stmts, pure_eq_ok, Prod.mk.injEq] at h
    obtain ⟨rfl, rfl⟩ := h
    exact .stmtsNil
  | stmtsCons s rest ihfirst ihrest =>
    simp only [Phrase.generate_stmts_cons, bind_eq_ok, pure_eq_ok, Prod.mk.injEq] at h
    obtain ⟨c, g₁, hfirst, d, g₂, hrest, rfl, rfl⟩ := h
    rw [Array.toList_append]
    exact .stmtsCons (ihfirst hfirst) (ihrest hrest)
  | valueBlock body span ih =>
    simp only [Phrase.generate, Generator.valueBlock, bind_eq_ok, modifyScope_eq_ok, pure_eq_ok, Prod.mk.injEq] at h
    obtain ⟨_, _, ⟨-, rfl⟩, c, g₁, hbody, _, _, ⟨-, rfl⟩, rfl, rfl⟩ := h
    exact .valueBlock (ih hbody)
  | valueNil =>
    simp only [Phrase.generate, Generator.valueStmts, bind_eq_ok, emit_eq_ok, pure_eq_ok, Prod.mk.injEq] at h
    obtain ⟨_, _, ⟨rfl, rfl⟩, rfl, rfl⟩ := h
    exact .valueNil
  | valueLast s ihstmt ihexpr =>
    cases s with
    | exprStmt e span =>
      simp only [Phrase.generate, Generator.valueStmts, bind_eq_ok, setLine_eq_ok, pure_eq_ok, Prod.mk.injEq] at h
      obtain ⟨_, _, ⟨-, rfl⟩, c, g₁, hexpr, rfl, rfl⟩ := h
      rw [Array.toList_append]
      exact .valueExpr (ihexpr e span rfl hexpr)
    | letStmt name value span | returnStmt value span =>
      simp only [Phrase.generate, Generator.valueStmts, bind_eq_ok, emit_eq_ok, pure_eq_ok, Prod.mk.injEq] at h
      obtain ⟨c, g₁, hlast, _, _, ⟨rfl, rfl⟩, rfl, rfl⟩ := h
      rw [Array.toList_append, Array.toList_append]
      exact .valueLast (by simp) (ihstmt hlast)
  | valueCons s next rest ihfirst ihrest =>
    simp only [Phrase.generate_valueStmts_cons, bind_eq_ok, pure_eq_ok, Prod.mk.injEq] at h
    obtain ⟨c, g₁, hfirst, d, g₂, hrest, rfl, rfl⟩ := h
    rw [Array.toList_append]
    exact .valueCons (ihfirst hfirst) (ihrest hrest)
  | functionNil =>
    simp only [Phrase.generate, Generator.functionStmts, bind_eq_ok, emit_eq_ok, pure_eq_ok, Prod.mk.injEq] at h
    obtain ⟨_, _, ⟨rfl, rfl⟩, rfl, rfl⟩ := h
    exact .functionNil
  | functionLast s ihstmt ihexpr =>
    cases s with
    | exprStmt e span =>
      simp only [Phrase.generate, Generator.functionStmts, bind_eq_ok, setLine_eq_ok, emit_eq_ok, pure_eq_ok,
        Prod.mk.injEq] at h
      obtain ⟨_, _, ⟨-, rfl⟩, c, g₁, hexpr, _, _, ⟨rfl, rfl⟩, rfl, rfl⟩ := h
      rw [Array.toList_append, Array.toList_append]
      exact .functionExpr (ihexpr e span rfl hexpr)
    | letStmt name value span =>
      simp only [Phrase.generate, Generator.functionStmts, bind_eq_ok, emit_eq_ok, pure_eq_ok, Prod.mk.injEq] at h
      obtain ⟨c, g₁, hlast, _, _, ⟨rfl, rfl⟩, rfl, rfl⟩ := h
      rw [Array.toList_append, Array.toList_append]
      exact .functionLet (ihstmt hlast)
    | returnStmt value span =>
      simp only [Phrase.generate, Generator.functionStmts, bind_eq_ok, pure_eq_ok, Prod.mk.injEq] at h
      obtain ⟨c, g₁, hlast, rfl, rfl⟩ := h
      have hstmt := ihstmt hlast
      rw [Array.toList_append, Array.toList_empty, List.nil_append]
      generalize c.toList = code at hstmt ⊢
      cases hstmt with
      | returnStmt hvalue => exact .functionReturn hvalue
  | functionCons s next rest ihfirst ihrest =>
    simp only [Phrase.generate_functionStmts_cons, bind_eq_ok, pure_eq_ok, Prod.mk.injEq] at h
    obtain ⟨c, g₁, hfirst, d, g₂, hrest, rfl, rfl⟩ := h
    rw [Array.toList_append]
    exact .functionCons (ihfirst hfirst) (ihrest hrest)

/-- The generator's offset follows the size of the code. -/
theorem Generates.offset_eq {p : Phrase} {g : Generator} {code : List CodeLine} {g' : Generator}
    (h : Generates p g code g') : g'.offset = g.offset + codeSize code := by
  induction h <;> simp_all [Instruction.size_eq, Nat.add_assoc]

/-- The code of a program has a derivation. -/
theorem generates_of_generate_eq_ok {program : Program} {exe : Executable} (h : generate program = .ok exe) :
    ∃ (code : Code) (g : Generator), Generates (.stmts program.stmts) .initial code.toList g ∧
      exe = ⟨code.toChunk, g.pool⟩ := by
  rw [generate_eq_assemble, Generator.assemble] at h
  cases hrun : Generator.stmts #[] program.stmts .initial with
  | error cause => simp [hrun, bind, Except.bind] at h
  | ok result =>
    obtain ⟨code, g⟩ := result
    simp only [hrun, bind, Except.bind, pure, Except.pure, Except.ok.injEq] at h
    exact ⟨code, g, generates_of_generate hrun, h.symm⟩

theorem exists_ok_of_isOk {α ε : Type} {x : Except ε α} (h : x.isOk = true) : ∃ a, x = .ok a := by
  cases x with
  | error cause => cases h
  | ok a => exact ⟨a, rfl⟩

/-- A function that returns from within a block, and a call of it. -/
def earlyReturn : Program :=
  let x : Ident := ⟨"x", default⟩
  let test : Expr := .ifElse (.ident x) (.mk [.returnStmt (.ident x) default] default) none default
  ⟨[.letStmt ⟨"f", default⟩ (.function [x] (.mk [.exprStmt test default] default) default) default,
    .exprStmt (.call (.ident ⟨"f", default⟩) [.bool true default] default) default], default⟩

end MonkeyLang
