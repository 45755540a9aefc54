import MonkeyLang.Proofs.Generator
/-!
# Phrases

The parts of a program that code is generated for in one go: expressions, statements, and the lists of them that the
generator walks. Taking them together as one type gives one recursion in place of many, and one principle of induction,
`Phrase.induction`, whose cases are the forms of phrases.

The generator passes the code found so far along its lists. `Phrase.generate` starts each list with no code, and the
equations below say what that does in terms of the phrases inside.
-/

namespace MonkeyLang

/-- A part of a program that code is generated for. -/
inductive Phrase where
  /-- An expression, with the name of the `let` it is the value of, if it is one. -/
  | expr (name : Option String) (e : Expr)
  /-- The operands of a chain behind the first one, with their operators. -/
  | operands (rest : List (BinaryOp × Expr))
  | exprs (es : List Expr)
  | pairs (ps : List (Expr × Expr))
  /-- The other branch of a conditional. -/
  | otherwise (block : Option Block)
  | stmt (s : Stmt)
  | stmts (ss : List Stmt)
  /-- A branch of a conditional. -/
  | valueBlock (block : Block)
  /-- The statements of a branch. -/
  | valueStmts (ss : List Stmt)
  /-- The statements of a function. -/
  | functionStmts (ss : List Stmt)

namespace Phrase

/-- The size of the syntax in a phrase, without the name. -/
noncomputable def size : Phrase → Nat
  | expr _ e => sizeOf e
  | operands rest => sizeOf rest
  | exprs es => sizeOf es
  | pairs ps => sizeOf ps
  | otherwise block => sizeOf block
  | stmt s => sizeOf s
  | stmts ss | valueStmts ss | functionStmts ss => sizeOf ss
  | valueBlock block => sizeOf block

/-- The phrases that the code of a phrase is put together from, in order. -/
def parts : Phrase → List Phrase
  | expr _ (.int _ _) | expr _ (.string _ _) | expr _ (.bool _ _) | expr _ (.ident _) => []
  | expr _ (.chain _ first rest _) => [expr none first, operands rest]
  | expr _ (.unary _ operand _) => [expr none operand]
  | expr _ (.call callee args _) => [expr none callee, exprs args]
  | expr _ (.index object index _) => [expr none object, expr none index]
  | expr _ (.array elements _) => [exprs elements]
  | expr _ (.hash ps _ _) => [pairs ps]
  | expr _ (.function _ (.mk body _) _) => [functionStmts body]
  | expr _ (.ifElse condition thenBlock elseBlock _) => [expr none condition, valueBlock thenBlock, otherwise elseBlock]
  | expr name (.paren inner _) => [expr name inner]
  | operands [] | exprs [] | pairs [] | otherwise none | stmts [] | valueStmts [] | functionStmts [] => []
  | operands ((_, operand) :: rest) => [expr none operand, operands rest]
  | exprs (e :: rest) => [expr none e, exprs rest]
  | pairs ((key, value) :: rest) => [expr none key, expr none value, pairs rest]
  | otherwise (some block) => [valueBlock block]
  | stmt (.letStmt name value _) => [expr (some name.name) value]
  | stmt (.returnStmt value _) => [expr none value]
  | stmt (.exprStmt e _) => [expr none e]
  | stmts (s :: rest) => [stmt s, stmts rest]
  | valueBlock (.mk body _) => [valueStmts body]
  | valueStmts (s :: next :: rest) => [stmt s, valueStmts (next :: rest)]
  | functionStmts (s :: next :: rest) => [stmt s, functionStmts (next :: rest)]
  | valueStmts [.exprStmt e _] | functionStmts [.exprStmt e _] => [expr none e]
  | valueStmts [s] | functionStmts [s] => [stmt s]

theorem size_lt_of_mem_parts {p q : Phrase} (h : q ∈ p.parts) : q.size < p.size := by
  fun_cases parts p <;> simp only [parts, List.mem_cons, List.not_mem_nil, or_false] at h <;>
    (try rcases h with rfl | rfl | rfl) <;> simp [size] <;> omega

theorem size_lt_of_last (s : Stmt) : (stmt s).size < sizeOf [s] := by
  simp only [size, List.cons.sizeOf_spec]
  omega

def all (test : Phrase → Bool) (p : Phrase) : Bool :=
  test p && p.parts.attach.all fun q => all test q.1
termination_by p.size
decreasing_by exact size_lt_of_mem_parts q.2

theorem all_eq (test : Phrase → Bool) (p : Phrase) : p.all test = (test p && p.parts.all (all test)) := by
  rw [all, List.all_subtype (g := all test) (fun _ _ => rfl), List.unattach_attach]

theorem all_self {test : Phrase → Bool} {p : Phrase} (h : p.all test = true) : test p = true := by
  rw [all_eq, Bool.and_eq_true] at h
  exact h.1

theorem all_of_mem_parts {test : Phrase → Bool} {p q : Phrase} (h : p.all test = true) (hq : q ∈ p.parts) :
    q.all test = true := by
  rw [all_eq, Bool.and_eq_true, List.all_eq_true] at h
  exact h.2 q hq

/-- What the phrases in a phrase have of their own, in order, and behind it what the phrase itself has. -/
def collect {α : Type} (own : Phrase → List α) (p : Phrase) : List α :=
  p.parts.attach.flatMap (fun q => collect own q.1) ++ own p
termination_by p.size
decreasing_by exact size_lt_of_mem_parts q.2

theorem collect_eq {α : Type} (own : Phrase → List α) (p : Phrase) :
    p.collect own = p.parts.flatMap (collect own) ++ own p := by
  rw [collect]
  simp

/-- Induction over the forms of phrases. -/
@[elab_as_elim]
theorem induction {motive : Phrase → Prop}
    (int : ∀ name value span, motive (.expr name (.int value span)))
    (string : ∀ name value span, motive (.expr name (.string value span)))
    (bool : ∀ name value span, motive (.expr name (.bool value span)))
    (ident : ∀ name id, motive (.expr name (.ident id)))
    (chain : ∀ name level first rest span, motive (.expr none first) → motive (.operands rest) →
      motive (.expr name (.chain level first rest span)))
    (unary : ∀ name op operand span, motive (.expr none operand) → motive (.expr name (.unary op operand span)))
    (call : ∀ name callee args span, motive (.expr none callee) → motive (.exprs args) →
      motive (.expr name (.call callee args span)))
    (index : ∀ name object index span, motive (.expr none object) → motive (.expr none index) →
      motive (.expr name (.index object index span)))
    (array : ∀ name elements span, motive (.exprs elements) → motive (.expr name (.array elements span)))
    (hash : ∀ name ps brace span, motive (.pairs ps) → motive (.expr name (.hash ps brace span)))
    (function : ∀ name params body blockSpan span, motive (.functionStmts body) →
      motive (.expr name (.function params (.mk body blockSpan) span)))
    (ifElse : ∀ name condition thenBlock elseBlock span, motive (.expr none condition) →
      motive (.valueBlock thenBlock) → motive (.otherwise elseBlock) →
      motive (.expr name (.ifElse condition thenBlock elseBlock span)))
    (paren : ∀ name inner span, motive (.expr name inner) → motive (.expr name (.paren inner span)))
    (operandsNil : motive (.operands []))
    (operandsCons : ∀ op operand rest, motive (.expr none operand) → motive (.operands rest) →
      motive (.operands ((op, operand) :: rest)))
    (exprsNil : motive (.exprs []))
    (exprsCons : ∀ e rest, motive (.expr none e) → motive (.exprs rest) → motive (.exprs (e :: rest)))
    (pairsNil : motive (.pairs []))
    (pairsCons : ∀ key value rest, motive (.expr none key) → motive (.expr none value) → motive (.pairs rest) →
      motive (.pairs ((key, value) :: rest)))
    (otherwiseNone : motive (.otherwise none))
    (otherwiseSome : ∀ block, motive (.valueBlock block) → motive (.otherwise (some block)))
    (letStmt : ∀ (name : Ident) value span, motive (.expr (some name.name) value) →
      motive (.stmt (.letStmt name value span)))
    (returnStmt : ∀ value span, motive (.expr none value) → motive (.stmt (.returnStmt value span)))
    (exprStmt : ∀ e span, motive (.expr none e) → motive (.stmt (.exprStmt e span)))
    (stmtsNil : motive (.stmts []))
    (stmtsCons : ∀ s rest, motive (.stmt s) → motive (.stmts rest) → motive (.stmts (s :: rest)))
    (valueBlock : ∀ body span, motive (.valueStmts body) → motive (.valueBlock (.mk body span)))
    (valueNil : motive (.valueStmts []))
    (valueLast : ∀ s, motive (.stmt s) → (∀ e span, s = .exprStmt e span → motive (.expr none e)) →
      motive (.valueStmts [s]))
    (valueCons : ∀ s next rest, motive (.stmt s) → motive (.valueStmts (next :: rest)) →
      motive (.valueStmts (s :: next :: rest)))
    (functionNil : motive (.functionStmts []))
    (functionLast : ∀ s, motive (.stmt s) → (∀ e span, s = .exprStmt e span → motive (.expr none e)) →
      motive (.functionStmts [s]))
    (functionCons : ∀ s next rest, motive (.stmt s) → motive (.functionStmts (next :: rest)) →
      motive (.functionStmts (s :: next :: rest))) :
    ∀ p, motive p := by
  -- The lists that hold the same statements differ only in what is done with the last one, so the order is by size.
  suffices h : ∀ n (p : Phrase), p.size < n → motive p from fun p => h _ p (Nat.lt_succ_self _)
  intro n
  induction n with
  | zero => intro p hp; exact absurd hp (Nat.not_lt_zero _)
  | succ n ih =>
    intro p hp
    have smaller : ∀ q : Phrase, q.size < p.size → motive q := fun q hq => ih q (by omega)
    have part : ∀ q ∈ p.parts, motive q := fun q hq => smaller q (size_lt_of_mem_parts hq)
    match p, smaller, part with
    | .expr name e, _, part =>
      cases e with
      | int value span => exact int name value span
      | string value span => exact string name value span
      | bool value span => exact bool name value span
      | ident id => exact ident name id
      | chain level first rest span =>
        exact chain name level first rest span (part _ (by simp [parts])) (part _ (by simp [parts]))
      | unary op operand span => exact unary name op operand span (part _ (by simp [parts]))
      | call callee args span =>
        exact call name callee args span (part _ (by simp [parts])) (part _ (by simp [parts]))
      | index object i span =>
        exact index name object i span (part _ (by simp [parts])) (part _ (by simp [parts]))
      | array elements span => exact array name elements span (part _ (by simp [parts]))
      | hash ps brace span => exact hash name ps brace span (part _ (by simp [parts]))
      | function params body span =>
        cases body with
        | mk body blockSpan => exact function name params body blockSpan span (part _ (by simp [parts]))
      | ifElse condition thenBlock elseBlock span =>
        exact ifElse name condition thenBlock elseBlock span (part _ (by simp [parts]))
          (part _ (by simp [parts])) (part _ (by simp [parts]))
      | paren inner span => exact paren name inner span (part _ (by simp [parts]))
    | .operands [], _, _ => exact operandsNil
    | .operands ((op, operand) :: rest), _, part =>
      exact operandsCons op operand rest (part _ (by simp [parts])) (part _ (by simp [parts]))
    | .exprs [], _, _ => exact exprsNil
    | .exprs (e :: rest), _, part =>
      exact exprsCons e rest (part _ (by simp [parts])) (part _ (by simp [parts]))
    | .pairs [], _, _ => exact pairsNil
    | .pairs ((key, value) :: rest), _, part =>
      exact pairsCons key value rest (part _ (by simp [parts])) (part _ (by simp [parts]))
        (part _ (by simp [parts]))
    | .otherwise none, _, _ => exact otherwiseNone
    | .otherwise (some block), _, part => exact otherwiseSome block (part _ (by simp [parts]))
    | .stmt (.letStmt name value span), _, part => exact letStmt name value span (part _ (by simp [parts]))
    | .stmt (.returnStmt value span), _, part => exact returnStmt value span (part _ (by simp [parts]))
    | .stmt (.exprStmt e span), _, part => exact exprStmt e span (part _ (by simp [parts]))
    | .stmts [], _, _ => exact stmtsNil
    | .stmts (s :: rest), _, part =>
      exact stmtsCons s rest (part _ (by simp [parts])) (part _ (by simp [parts]))
    | .valueBlock (.mk body span), _, part => exact valueBlock body span (part _ (by simp [parts]))
    | .valueStmts [], _, _ => exact valueNil
    | .valueStmts [s], smaller, part =>
      refine valueLast s (smaller _ (size_lt_of_last s)) ?_
      rintro e span rfl
      exact part _ (by simp [parts])
    | .valueStmts (s :: next :: rest), _, part =>
      exact valueCons s next rest (part _ (by simp [parts])) (part _ (by simp [parts]))
    | .functionStmts [], _, _ => exact functionNil
    | .functionStmts [s], smaller, part =>
      refine functionLast s (smaller _ (size_lt_of_last s)) ?_
      rintro e span rfl
      exact part _ (by simp [parts])
    | .functionStmts (s :: next :: rest), _, part =>
      exact functionCons s next rest (part _ (by simp [parts])) (part _ (by simp [parts]))

/-! ### Generation -/

open Generator

def generate : Phrase → Gen Code
  | expr name e => Generator.expr name e
  | operands rest => Generator.operands #[] rest
  | exprs es => Generator.exprs #[] es
  | pairs ps => Generator.hashPairs #[] ps
  | otherwise block => Generator.elseValue block
  | stmt s => Generator.stmt s
  | stmts ss => Generator.stmts #[] ss
  | valueBlock block => Generator.valueBlock block
  | valueStmts ss => Generator.valueStmts #[] ss
  | functionStmts ss => Generator.functionStmts #[] ss

/-! Code found so far stands in front of what is generated next and changes nothing else. -/

theorem operands_eq_map (code : Code) (rest : List (BinaryOp × Expr)) :
    Generator.operands code rest = (code ++ ·) <$> Generator.operands #[] rest := by
  induction rest generalizing code with
  | nil => simp [Generator.operands]
  | cons pair rest ih =>
    obtain ⟨op, operand⟩ := pair
    simp only [Generator.operands, map_bind]
    refine bind_congr fun c => bind_congr fun i => ?_
    rw [ih (code ++ c ++ i), ih (#[] ++ c ++ i)]
    simp [Functor.map_map]

theorem exprs_eq_map (code : Code) (es : List Expr) :
    Generator.exprs code es = (code ++ ·) <$> Generator.exprs #[] es := by
  induction es generalizing code with
  | nil => simp [Generator.exprs]
  | cons e es ih =>
    simp only [Generator.exprs, map_bind]
    refine bind_congr fun c => ?_
    rw [ih (code ++ c), ih (#[] ++ c)]
    simp [Functor.map_map]

theorem hashPairs_eq_map (code : Code) (ps : List (Expr × Expr)) :
    Generator.hashPairs code ps = (code ++ ·) <$> Generator.hashPairs #[] ps := by
  induction ps generalizing code with
  | nil => simp [Generator.hashPairs]
  | cons pair ps ih =>
    obtain ⟨key, value⟩ := pair
    simp only [Generator.hashPairs, map_bind]
    refine bind_congr fun c => bind_congr fun d => ?_
    rw [ih (code ++ c ++ d), ih (#[] ++ c ++ d)]
    simp [Functor.map_map]

theorem stmts_eq_map (code : Code) (ss : List Stmt) :
    Generator.stmts code ss = (code ++ ·) <$> Generator.stmts #[] ss := by
  induction ss generalizing code with
  | nil => simp [Generator.stmts]
  | cons s ss ih =>
    simp only [Generator.stmts, map_bind]
    refine bind_congr fun c => ?_
    rw [ih (code ++ c), ih (#[] ++ c)]
    simp [Functor.map_map]

theorem valueStmts_eq_map (code : Code) (ss : List Stmt) :
    Generator.valueStmts code ss = (code ++ ·) <$> Generator.valueStmts #[] ss := by
  induction ss generalizing code with
  | nil => simp [Generator.valueStmts]
  | cons s ss ih =>
    cases ss with
    | nil => cases s <;> simp [Generator.valueStmts]
    | cons next rest =>
      simp only [Generator.valueStmts, map_bind]
      refine bind_congr fun c => ?_
      rw [ih (code ++ c), ih (#[] ++ c)]
      simp [Functor.map_map]

theorem functionStmts_eq_map (code : Code) (ss : List Stmt) :
    Generator.functionStmts code ss = (code ++ ·) <$> Generator.functionStmts #[] ss := by
  induction ss generalizing code with
  | nil => simp [Generator.functionStmts]
  | cons s ss ih =>
    cases ss with
    | nil => cases s <;> simp [Generator.functionStmts]
    | cons next rest =>
      simp only [Generator.functionStmts, map_bind]
      refine bind_congr fun c => ?_
      rw [ih (code ++ c), ih (#[] ++ c)]
      simp [Functor.map_map]

/-! The forms whose code is that of their parts, one behind the other. -/

theorem generate_chain (name : Option String) (level : ChainLevel) (first : Expr) (rest : List (BinaryOp × Expr))
    (span : Span) :
    (expr name (.chain level first rest span)).generate = do
      let c ← (expr none first).generate
      let d ← (operands rest).generate
      return c ++ d := by
  simp only [generate, Generator.expr]
  refine bind_congr fun c => ?_
  rw [operands_eq_map, map_eq_pure_bind]

theorem generate_call (name : Option String) (callee : Expr) (args : List Expr) (span : Span) :
    (expr name (.call callee args span)).generate = do
      let c ← (expr none callee).generate
      let d ← (exprs args).generate
      let n ← checked (byteOperand .call args.length)
      let i ← emit (.call n)
      return c ++ d ++ i := by
  simp only [generate, Generator.expr]
  refine bind_congr fun c => ?_
  rw [exprs_eq_map]
  simp only [map_eq_pure_bind, bind_assoc, pure_bind]

theorem generate_operands_cons (op : BinaryOp) (operand : Expr) (rest : List (BinaryOp × Expr)) :
    (operands ((op, operand) :: rest)).generate = do
      let c ← (expr none operand).generate
      let i ← emit (.binary op)
      let d ← (operands rest).generate
      return c ++ i ++ d := by
  simp only [generate, Generator.operands]
  refine bind_congr fun c => bind_congr fun i => ?_
  rw [operands_eq_map]
  simp

theorem generate_exprs_cons (e : Expr) (rest : List Expr) :
    (exprs (e :: rest)).generate = do
      let c ← (expr none e).generate
      let d ← (exprs rest).generate
      return c ++ d := by
  simp only [generate, Generator.exprs]
  refine bind_congr fun c => ?_
  rw [exprs_eq_map]
  simp

theorem generate_pairs_cons (key value : Expr) (rest : List (Expr × Expr)) :
    (pairs ((key, value) :: rest)).generate = do
      let c ← (expr none key).generate
      let d ← (expr none value).generate
      let e ← (pairs rest).generate
      return c ++ d ++ e := by
  simp only [generate, Generator.hashPairs]
  refine bind_congr fun c => bind_congr fun d => ?_
  rw [hashPairs_eq_map]
  simp

theorem generate_stmts_cons (s : Stmt) (rest : List Stmt) :
    (stmts (s :: rest)).generate = do
      let c ← (stmt s).generate
      let d ← (stmts rest).generate
      return c ++ d := by
  simp only [generate, Generator.stmts]
  refine bind_congr fun c => ?_
  rw [stmts_eq_map]
  simp

theorem generate_valueStmts_cons (s next : Stmt) (rest : List Stmt) :
    (valueStmts (s :: next :: rest)).generate = do
      let c ← (stmt s).generate
      let d ← (valueStmts (next :: rest)).generate
      return c ++ d := by
  simp only [generate, Generator.valueStmts]
  refine bind_congr fun c => ?_
  rw [valueStmts_eq_map]
  simp

theorem generate_functionStmts_cons (s next : Stmt) (rest : List Stmt) :
    (functionStmts (s :: next :: rest)).generate = do
      let c ← (stmt s).generate
      let d ← (functionStmts (next :: rest)).generate
      return c ++ d := by
  simp only [generate, Generator.functionStmts]
  refine bind_congr fun c => ?_
  rw [functionStmts_eq_map]
  simp

end Phrase

end MonkeyLang
