import MonkeyLang.Proofs.Phrase
/-!
# Evaluation

What a program without functions means, read off its syntax. Operands are evaluated from the left to the right, chains are
folded from the left, and each key of a hash comes before its value. A `let` binds its name for the statements behind it in
the same block. The value of a block is that of its last statement, if that is an expression, and null otherwise. The
values of all other expression statements are discarded, and evaluation keeps them in order.

What values are is left open, and so is what operators do with them.
-/

namespace MonkeyLang

/-- Values and the operations on them, which may fail. -/
structure Primitives (V : Type) where
  constant : Constant → V
  bool : Bool → V
  null : V
  /-- The built-in function with a number. -/
  builtin : Nat → V
  binary : BinaryOp → V → V → Option V
  unary : UnaryOp → V → Option V
  index : V → V → Option V
  array : List V → Option V
  hash : List (V × V) → Option V
  truth : V → Option Bool

/-- The names in scope with their values, the latest first. -/
abbrev Bindings (V : Type) := List (String × V)

/-- Evaluation may fail and keeps the values that have been discarded. -/
abbrev Eval (V : Type) := StateT (List V) Option

variable {V : Type}

/-- The value of a name, which may be that of a built-in function. -/
def Primitives.lookup (P : Primitives V) (env : Bindings V) (name : String) : Option V :=
  (env.lookup name).or ((builtins.findIdx? fun b => b.name == name).map P.builtin)

namespace Eval

variable (P : Primitives V)

mutual

def expr (env : Bindings V) : Expr → Eval V V
  | .int value _ => pure (P.constant (.int value))
  | .string value _ => pure (P.constant (.string value))
  | .bool value _ => pure (P.bool value)
  | .ident name => StateT.lift (P.lookup env name.name)
  | .chain _ first rest _ => do operands env (← expr env first) rest
  | .unary op operand _ => do StateT.lift (P.unary op (← expr env operand))
  | .index object index _ => do
    let container ← expr env object
    StateT.lift (P.index container (← expr env index))
  | .array elements _ => do StateT.lift (P.array (← exprs env elements))
  | .hash pairs _ _ => do StateT.lift (P.hash (← hashPairs env pairs))
  | .ifElse condition thenBlock elseBlock _ => do
    if ← StateT.lift (P.truth (← expr env condition)) then block env thenBlock else otherwise env elseBlock
  | .paren inner _ => expr env inner
  | .function _ _ _ | .call _ _ _ => failure

/-- The value of a chain, when the operands so far have a value. -/
def operands (env : Bindings V) (value : V) : List (BinaryOp × Expr) → Eval V V
  | [] => pure value
  | (op, operand) :: rest => do
    let other ← expr env operand
    operands env (← StateT.lift (P.binary op value other)) rest

def exprs (env : Bindings V) : List Expr → Eval V (List V)
  | [] => pure []
  | e :: rest => do
    let value ← expr env e
    return value :: (← exprs env rest)

def hashPairs (env : Bindings V) : List (Expr × Expr) → Eval V (List (V × V))
  | [] => pure []
  | (key, value) :: rest => do
    let k ← expr env key
    let v ← expr env value
    return (k, v) :: (← hashPairs env rest)

def otherwise (env : Bindings V) : Option Block → Eval V V
  | none => pure P.null
  | some other => block env other

def block (env : Bindings V) : Block → Eval V V
  | .mk body _ => blockStmts env body

def blockStmts (env : Bindings V) : List Stmt → Eval V V
  | [] => pure P.null
  | [.exprStmt e _] => expr env e
  | [s] => do
    let _ ← stmt env s
    return P.null
  | s :: next :: rest => do blockStmts (← stmt env s) (next :: rest)

/-- The names in scope behind a statement. -/
def stmt (env : Bindings V) : Stmt → Eval V (Bindings V)
  | .letStmt name value _ => do return (name.name, ← expr env value) :: env
  | .exprStmt e _ => do
    let value ← expr env e
    modify (· ++ [value])
    return env
  | .returnStmt _ _ => failure

end

def stmts (env : Bindings V) : List Stmt → Eval V (Bindings V)
  | [] => pure env
  | s :: rest => do stmts (← stmt P env s) rest

variable {P} {α β : Type}

theorem run_pure (a : α) (discarded : List V) : (pure a : Eval V α) discarded = some (a, discarded) := rfl

theorem run_bind (m : Eval V α) (k : α → Eval V β) (discarded : List V) :
    (m >>= k) discarded = (m discarded).bind fun r => k r.1 r.2 := rfl

theorem run_lift (x : Option α) (discarded : List V) :
    (StateT.lift x : Eval V α) discarded = x.map fun a => (a, discarded) := by
  cases x <;> rfl

theorem run_modify (change : List V → List V) (discarded : List V) :
    (modify change : Eval V Unit) discarded = some ((), change discarded) := rfl

theorem run_ident (env : Bindings V) (name : Ident) (discarded : List V) :
    expr P env (.ident name) discarded = (P.lookup env name.name).map fun value => (value, discarded) := by
  rw [expr, run_lift]

theorem length_exprs {env : Bindings V} {es : List Expr} {discarded discarded' : List V} {values : List V}
    (h : exprs P env es discarded = some (values, discarded')) : values.length = es.length := by
  induction es generalizing discarded values discarded' with
  | nil =>
    rw [exprs, run_pure] at h
    cases h
    rfl
  | cons e rest ih =>
    simp only [exprs, run_bind, run_pure, Option.bind_eq_some_iff, Option.some.injEq, Prod.mk.injEq, Prod.exists] at h
    obtain ⟨value, _, -, others, _, hrest, rfl, rfl⟩ := h
    rw [List.length_cons, List.length_cons, ih hrest]

theorem length_hashPairs {env : Bindings V} {ps : List (Expr × Expr)} {discarded discarded' : List V}
    {values : List (V × V)} (h : hashPairs P env ps discarded = some (values, discarded')) :
    values.length = ps.length := by
  induction ps generalizing discarded values discarded' with
  | nil =>
    rw [hashPairs, run_pure] at h
    cases h
    rfl
  | cons pair rest ih =>
    simp only [hashPairs, run_bind, run_pure, Option.bind_eq_some_iff, Option.some.injEq, Prod.mk.injEq,
      Prod.exists] at h
    obtain ⟨key, _, -, value, _, -, others, _, hrest, rfl, rfl⟩ := h
    rw [List.length_cons, List.length_cons, ih hrest]

end Eval

end MonkeyLang
