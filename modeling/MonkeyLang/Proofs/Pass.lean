import MonkeyLang.Proofs.BindingWalk
import MonkeyLang.Proofs.Derivation
/-!
# Passes

Analysis and generation both walk a program in one go, with a state. A `Pass` says what such a walk does before each part of
a phrase and at its end, and has to show that this is all there is to it. So it makes sense to speak of the state in which
the walk comes to a phrase inside a program, also when it fails later on.
-/

namespace MonkeyLang

/-- The way from a phrase to one inside: the number of the part to go to at each turn, the last turn first. -/
abbrev Path := List Nat

variable {σ ε α : Type}

/-- Walks the first parts of a phrase, as many as are asked for. -/
def walkParts (run : Phrase → StateT σ (Except ε) α) (enter : Phrase → Nat → StateT σ (Except ε) Unit) (p : Phrase) :
    Nat → StateT σ (Except ε) (List α)
  | 0 => pure []
  | i + 1 => do
    let results ← walkParts run enter p i
    enter p i
    match p.parts[i]? with
    | some q => return results ++ [← run q]
    | none => return results

/-- A walk over phrases: what it does before the part with a number, and what it does behind the last part, when it came to
the phrase in some state and the parts have given some results. -/
structure Pass (σ ε α : Type) where
  run : Phrase → StateT σ (Except ε) α
  enter : Phrase → Nat → StateT σ (Except ε) Unit
  leave : Phrase → σ → List α → StateT σ (Except ε) α
  run_eq : ∀ p s, run p s = (do leave p s (← walkParts run enter p p.parts.length)) s

namespace Pass

variable (P : Pass σ ε α)

def through (p : Phrase) (count : Nat) : StateT σ (Except ε) (List α) := walkParts P.run P.enter p count

/-- The phrase at a path from the root, with the state in which the walk comes to it. -/
def reach (root : Phrase) (start : σ) : Path → Option (Phrase × σ)
  | [] => some (root, start)
  | i :: path => do
    let (p, s) ← reach root start path
    let q ← p.parts[i]?
    match (do discard (P.through p i); P.enter p i) s with
    | .ok (_, s') => return (q, s')
    | .error _ => none

variable {P} {p q : Phrase} {s s' : σ} {i : Nat}

theorem run_eq_ok {r : α × σ} : P.run p s = .ok r ↔
    ∃ results s₁, P.through p p.parts.length s = .ok (results, s₁) ∧ P.leave p s results s₁ = .ok r := by
  rw [P.run_eq, bind_eq_ok]
  rfl

theorem through_succ (hq : p.parts[i]? = some q) : P.through p (i + 1) =
    (do let results ← P.through p i; P.enter p i; return results ++ [← P.run q]) := by
  rw [through, walkParts, hq]
  rfl

theorem through_succ_eq_ok (hq : p.parts[i]? = some q) {r : List α × σ} : P.through p (i + 1) s = .ok r ↔
    ∃ results s₁ s₂ result s₃, P.through p i s = .ok (results, s₁) ∧ P.enter p i s₁ = .ok ((), s₂) ∧
      P.run q s₂ = .ok (result, s₃) ∧ r = (results ++ [result], s₃) := by
  rw [through_succ hq]
  simp only [bind_eq_ok, pure_eq_ok]
  constructor
  · rintro ⟨results, s₁, hthrough, _, s₂, henter, result, s₃, hrun, rfl⟩
    exact ⟨results, s₁, s₂, result, s₃, hthrough, henter, hrun, rfl⟩
  · rintro ⟨results, s₁, s₂, result, s₃, hthrough, henter, hrun, rfl⟩
    exact ⟨results, s₁, hthrough, (), s₂, henter, result, s₃, hrun, rfl⟩

theorem reach_cons_eq_some {root : Phrase} {start : σ} {path : Path} : P.reach root start (i :: path) = some (q, s') ↔
    ∃ p s results s₁, P.reach root start path = some (p, s) ∧ p.parts[i]? = some q ∧
      P.through p i s = .ok (results, s₁) ∧ P.enter p i s₁ = .ok ((), s') := by
  rw [reach, Option.bind_eq_bind, Option.bind_eq_some_iff]
  constructor
  · rintro ⟨⟨p, s⟩, hpath, hpart⟩
    rw [Option.bind_eq_bind, Option.bind_eq_some_iff] at hpart
    obtain ⟨q, hq, hpart⟩ := hpart
    split at hpart
    case h_1 s₂ hwalk =>
      cases hpart
      rw [discard_eq, bind_assoc, bind_eq_ok] at hwalk
      obtain ⟨results, s₁, hthrough, henter⟩ := hwalk
      exact ⟨p, s, results, s₁, hpath, hq, hthrough, henter⟩
    case h_2 => cases hpart
  · rintro ⟨p, s, results, s₁, hpath, hq, hthrough, henter⟩
    refine ⟨(p, s), hpath, ?_⟩
    have hwalk : (do discard (P.through p i); P.enter p i) s = .ok ((), s') := by
      rw [discard_eq, bind_assoc, bind_eq_ok]
      exact ⟨results, s₁, hthrough, henter⟩
    simp only [hq, hwalk, Option.bind_eq_bind, Option.bind_some, Option.pure_def]

section

variable {R : σ → σ → Prop} (hrefl : ∀ s, R s s) (htrans : ∀ s₁ s₂ s₃, R s₁ s₂ → R s₂ s₃ → R s₁ s₃)
  (henter : ∀ p i s r s', P.enter p i s = .ok (r, s') → R s s')
  (hleave : ∀ p s₀ results s r s', P.leave p s₀ results s = .ok (r, s') → R s s')

include hrefl htrans henter

theorem through_rel (hparts : ∀ q ∈ p.parts, ∀ s r s', P.run q s = .ok (r, s') → R s s') (hi : i ≤ p.parts.length)
    {results : List α} (h : P.through p i s = .ok (results, s')) : R s s' := by
  induction i generalizing results s' with
  | zero =>
    cases h
    exact hrefl s
  | succ i ih =>
    obtain ⟨_, s₁, s₂, result, s₃, hthrough, henters, hrun, heq⟩ :=
      (through_succ_eq_ok (List.getElem?_eq_getElem hi)).mp h
    cases heq
    refine htrans _ _ _ (ih (Nat.le_of_succ_le hi) hthrough) (htrans _ _ _ (henter _ _ _ _ _ henters) ?_)
    exact hparts _ (List.getElem_mem hi) _ _ _ hrun

include hleave

/-- What holds between the states before and behind each step of a walk holds between its ends. -/
theorem run_rel (p : Phrase) : ∀ s r s', P.run p s = .ok (r, s') → R s s' := by
  suffices hsize : ∀ n (p : Phrase), p.size < n → ∀ s r s', P.run p s = .ok (r, s') → R s s' from
    hsize _ p (Nat.lt_succ_self _)
  intro n
  induction n with
  | zero => intro p hp; exact absurd hp (Nat.not_lt_zero _)
  | succ n ih =>
    intro p hp s r s' h
    obtain ⟨results, s₁, hthrough, hleaves⟩ := run_eq_ok.mp h
    have hparts : ∀ q ∈ p.parts, ∀ s r s', P.run q s = .ok (r, s') → R s s' := by
      intro q hq
      have hlt := Phrase.size_lt_of_mem_parts hq
      exact ih q (by omega)
    have hthroughs := through_rel hrefl htrans henter hparts (Nat.le_refl _) hthrough
    exact htrans _ _ _ hthroughs (hleave _ _ _ _ _ _ hleaves)

/-- A walk that has been through some parts has been through each number of them. -/
theorem exists_through_of_le {count : Nat} {results : List α} (h : P.through p count s = .ok (results, s'))
    (hi : i ≤ count) (hcount : count ≤ p.parts.length) : ∃ results s₁, P.through p i s = .ok (results, s₁) ∧ R s₁ s' := by
  induction hi generalizing results s' with
  | refl => exact ⟨results, s', h, hrefl s'⟩
  | step _ ih =>
    obtain ⟨results₁, s₁, s₂, result, s₃, hthrough, henters, hrun, heq⟩ :=
      (through_succ_eq_ok (List.getElem?_eq_getElem hcount)).mp h
    cases heq
    obtain ⟨results₀, s₀, hthrough₀, hrel⟩ := ih hthrough (Nat.le_of_succ_le hcount)
    have hpart := run_rel hrefl htrans henter hleave _ _ _ _ hrun
    exact ⟨results₀, s₀, hthrough₀, htrans _ _ _ hrel (htrans _ _ _ (henter _ _ _ _ _ henters) hpart)⟩

theorem exists_through {r : α} (h : P.run p s = .ok (r, s')) (hi : i ≤ p.parts.length) :
    ∃ results s₁, P.through p i s = .ok (results, s₁) ∧ R s₁ s' := by
  obtain ⟨results, s₁, hthrough, hleaves⟩ := run_eq_ok.mp h
  obtain ⟨results₀, s₀, hthrough₀, hrel⟩ :=
    exists_through_of_le hrefl htrans henter hleave hthrough hi (Nat.le_refl _)
  exact ⟨results₀, s₀, hthrough₀, htrans _ _ _ hrel (hleave _ _ _ _ _ _ hleaves)⟩

end

end Pass

/-! ### Generation -/

namespace Generator

/-- What is generated before a part of a phrase. -/
def enterPart : Phrase → Nat → Gen Unit
  | .expr name (.function params _ _), 0 => do
    discard (reserve jumpSize)
    enterFunction name params
  | .expr _ (.ifElse _ _ _ _), 1 => discard (reserve jumpSize)
  | .expr _ (.ifElse _ _ _ _), 2 => do
    discard (reserve jumpSize)
    discard here
  | .operands ((op, _) :: _), 1 => discard (emit (.binary op))
  | .stmt (.letStmt _ _ span), 0 | .stmt (.returnStmt _ span), 0 | .stmt (.exprStmt _ span), 0
  | .valueStmts [.exprStmt _ span], 0 | .functionStmts [.exprStmt _ span], 0 => setLine span.line
  | .valueBlock _, 0 => modifyScope SymbolScope.openBlock
  | _, _ => pure ()

/-- What is generated behind the parts of a phrase that was begun in a state. -/
def leavePhrase : Phrase → Generator → Gen Unit
  | .expr _ (.int value _), _ => discard (constant (.int value))
  | .expr _ (.string value _), _ => discard (constant (.string value))
  | .expr _ (.bool value _), _ => discard (emit (.bool value))
  | .expr _ (.ident ident), _ => do discard (load (← resolve ident))
  | .expr _ (.unary op _ _), _ => discard (emit (.unary op))
  | .expr _ (.call _ args _), _ => do discard (emit (.call (← checked (byteOperand .call args.length))))
  | .expr _ (.index _ _ _), _ => discard (emit .index)
  | .expr _ (.array elements _), _ => do
    discard (emit (.array (← checked (wordOperand .array elements.length))))
  | .expr _ (.hash ps _ _), _ => do discard (emit (.hash (← checked (wordOperand .hash ps.length))))
  | .expr _ (.function params _ span), g => do
    let f ← leaveFunction
    discard here
    setLine span.line
    discard (loadAll #[] f.captures)
    discard (closure (g.offset + jumpSize) params f)
  | .expr _ (.ifElse _ _ _ _), _ => discard here
  | .stmt (.letStmt name _ _), _ => do discard (store (← define name.name))
  | .stmt (.returnStmt _ _), _ | .functionStmts [.exprStmt _ _], _ => discard (emit .returnValue)
  | .stmt (.exprStmt _ _), _ => discard (emit .pop)
  | .otherwise none, _ | .valueStmts [], _ | .valueStmts [.letStmt _ _ _], _ | .valueStmts [.returnStmt _ _], _ =>
    discard (emit .null)
  | .valueBlock _, _ => modifyScope SymbolScope.closeBlock
  | .functionStmts [], _ | .functionStmts [.letStmt _ _ _], _ => discard (emit .returnNull)
  | _, _ => pure ()

end Generator

open Generator in
/-- The code of a phrase is generated part by part. -/
theorem discard_generate (p : Phrase) (g : Generator) : discard p.generate g =
    (do let _ ← walkParts (fun q => discard q.generate) enterPart p p.parts.length; leavePhrase p g) g := by
  induction p using Phrase.induction with
  | function name params body blockSpan span =>
    simp only [Phrase.parts, walkParts, enterPart, leavePhrase, Phrase.generate, Generator.expr, Generator.functionBody,
      discard_eq, bind_assoc, pure_bind, List.length_cons, List.length_nil, List.getElem?_cons_zero]
    -- The body starts behind the jump, which is all that has been generated of the function.
    have hreserve (k : Nat → Gen Unit) : (reserve jumpSize >>= k) g = k g.line (g.skip jumpSize) := rfl
    have hget (k : Generator → Gen Unit) (g : Generator) : (get >>= k) g = k g g := rfl
    rw [hreserve, hreserve, hget, offset_skip]
  | valueBlock body span =>
    simp only [Phrase.parts, walkParts, enterPart, leavePhrase, Phrase.generate, Generator.valueBlock, discard_eq,
      bind_assoc, pure_bind, bind_pure_unit, List.length_cons, List.length_nil, List.getElem?_cons_zero]
  | valueLast s | functionLast s =>
    cases s <;> simp only [Phrase.parts, walkParts, enterPart, leavePhrase, Phrase.generate, Generator.valueStmts,
      Generator.functionStmts, discard_eq, bind_assoc, pure_bind, List.length_cons, List.length_nil,
      List.getElem?_cons_zero]
  | chain | call | operandsCons | exprsCons | pairsCons | stmtsCons | valueCons | functionCons =>
    simp only [Phrase.parts, walkParts, enterPart, leavePhrase, Phrase.generate_chain, Phrase.generate_call,
      Phrase.generate_operands_cons, Phrase.generate_exprs_cons, Phrase.generate_pairs_cons,
      Phrase.generate_stmts_cons, Phrase.generate_valueStmts_cons, Phrase.generate_functionStmts_cons, discard_eq,
      bind_assoc, pure_bind, List.length_cons, List.length_nil, List.getElem?_cons_zero, List.getElem?_cons_succ]
  | _ =>
    simp only [Phrase.parts, walkParts, enterPart, leavePhrase, Phrase.generate, Generator.expr, Generator.operands,
      Generator.exprs, Generator.hashPairs, Generator.elseValue, Generator.stmt, Generator.stmts, Generator.valueStmts,
      Generator.functionStmts, discard_eq, bind_assoc, pure_bind, List.length_cons, List.length_nil,
      List.getElem?_cons_zero, List.getElem?_cons_succ]

/-- Generation as a pass. The code itself is left out. -/
def generation : Pass Generator GenerationError Unit where
  run p := discard p.generate
  enter := Generator.enterPart
  leave p g _ := Generator.leavePhrase p g
  run_eq := discard_generate

/-! ### Analysis -/

namespace Analyzer

/-- Visits a phrase, which gives what a name for its value would be bound to. -/
def visit : Phrase → Walk Binding
  | .expr _ e => walkExpr e
  | .operands rest => do
    walkOperands rest
    return .value
  | .exprs es => do
    walkExprs es
    return .value
  | .pairs ps => do
    walkPairs ps
    return .value
  | .otherwise block => do
    walkElse block
    return .value
  | .stmt s => do
    walkStmt s
    return .value
  | .stmts ss | .valueStmts ss | .functionStmts ss => do
    walkStmts ss
    return .value
  | .valueBlock block => do
    walkBlock block
    return .value

/-- What is done before a part of a phrase is visited. -/
def enterPart : Phrase → Nat → Walk Unit
  | .expr _ (.call callee args span), 1 => checkCall callee args.length span
  | .expr _ (.hash _ brace _), 0 => enterHash brace
  | .expr _ (.function params _ _), 0 => do
    openScope
    declareParams params
  | .pairs ((key, _) :: _), 0 => observeKey (keyTypeOf key)
  | .stmt (.letStmt name value _), 0 =>
    match value.function? with
    | some (params, _) => declare name (.function params.length)
    | none => pure ()
  | .valueBlock _, 0 => openScope
  | _, _ => pure ()

/-- What is done behind the parts of a phrase, when they have given some bindings. -/
def leavePhrase : Phrase → List Binding → Walk Binding
  | .expr _ (.ident name), _ => refer name
  | .expr _ (.array elements _), _ => return .array elements.length
  | .expr _ (.hash _ _ span), _ => do
    let frame ← leaveHash
    if frame.keys = .complex then
      report (.inconsistentHashKeys (frame.anchor.getD span))
    return .hash frame.keys
  | .expr _ (.function params _ _), _ => do
    closeScope
    return .function params.length
  | .expr _ (.paren _ _), bindings => return bindings.headD .value
  | .stmt (.letStmt name value _), bindings => do
    match value.function? with
    | some _ => pure ()
    | none => declare name (bindings.headD .value)
    return .value
  | .valueBlock _, _ => do
    closeScope
    return .value
  | _, _ => return .value

/-- A phrase is visited part by part. -/
theorem visit_eq (p : Phrase) (a : Analyzer) :
    visit p a = (do leavePhrase p (← walkParts visit enterPart p p.parts.length)) a := by
  induction p using Phrase.induction with
  | letStmt name value span =>
    cases hvalue : value.function? <;>
      simp only [Phrase.parts, walkParts, enterPart, leavePhrase, visit, walkStmt, hvalue, discard_eq, bind_assoc,
        pure_bind, List.length_cons, List.length_nil, List.getElem?_cons_zero, List.nil_append, List.headD_cons]
  | valueLast s | functionLast s =>
    cases s <;> simp only [Phrase.parts, walkParts, enterPart, leavePhrase, visit, walkStmt, walkStmts, discard_eq,
      bind_assoc, pure_bind, List.length_cons, List.length_nil, List.getElem?_cons_zero]
  | _ =>
    simp only [Phrase.parts, walkParts, enterPart, leavePhrase, visit, walkExpr, walkOperands, walkExprs, walkPairs,
      walkElse, walkStmt, walkStmts, walkBody, walkBlock, discard_eq, bind_assoc, pure_bind, bind_pure,
      List.length_cons, List.length_nil, List.getElem?_cons_zero, List.getElem?_cons_succ, List.nil_append,
      List.headD_cons]

end Analyzer

def analysis : Pass Analyzer Imbalance Binding where
  run := Analyzer.visit
  enter := Analyzer.enterPart
  leave p _ bindings := Analyzer.leavePhrase p bindings
  run_eq := Analyzer.visit_eq

end MonkeyLang
