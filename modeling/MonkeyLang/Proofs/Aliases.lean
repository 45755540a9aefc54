import MonkeyLang.Proofs.ErrorOrder
/-!
# Other names for a thing

A `let` may give another name to a thing that has one. `Program.Leads` follows such names, read off the text, to the
declaration behind them all, and `Program.callable` says what is known of that one. Analysis follows nothing: it copies what
the table has for a name. What a visit makes of a value is said here in the same terms.
-/

namespace MonkeyLang

/-- What is known of a thing that is called. -/
inductive Callable where
  | function (arity : Nat)
  | other (kind : NonFunction)
  | unknown
deriving DecidableEq

namespace Callable

/-- What is wrong with calling the thing by a name, with a number of arguments. -/
def error? (name : Ident) (args : Nat) (span : Span) : Callable → Option CompilationError
  | function arity => if arity = args then none else some (.argumentCountMismatch name.name arity args span)
  | other kind => some (.notCallable name.name kind span)
  | unknown => none

end Callable

def Binding.callable : Binding → Callable
  | function arity => .function arity
  | hash _ => .other .hash
  | array _ => .other .array
  | parameter | value => .unknown

theorem Binding.callable_copied (binding : Binding) : binding.copied.callable = binding.callable := by
  cases binding <;> rfl

theorem Analyzer.callError?_eq (name : Ident) (binding : Binding) (args : Nat) (span : Span) :
    callError? name binding args span = binding.callable.error? name args span := by
  cases binding <;> rfl

/-- What the form of an expression tells, parentheses apart. -/
def Expr.callable (e : Expr) : Callable :=
  match e.unparen with
  | .function params _ _ => .function params.length
  | .array _ _ => .other .array
  | .hash _ _ _ => .other .hash
  | _ => .unknown

theorem Expr.callable_paren (inner : Expr) (span : Span) : (Expr.paren inner span).callable = inner.callable := by
  rw [callable, callable, unparen]

namespace Program

variable (program : Program)

/-- What an expression at a path refers to, if it is nothing but a name, in parentheses or not. -/
def resolve? (path : Path) (e : Expr) : Option Declared :=
  e.ident?.bind fun name => (program.scopingAt (e.literalPath path)).find? name.name

/-- The declaration that a `let` makes another name for. -/
def aliasOf? (d : Declared) : Option Declared :=
  match d.origin with
  | .letStmt path =>
    match program.phraseAt path with
    | some (.stmt (.letStmt _ value _)) => program.resolve? (0 :: path) value
    | _ => none
  | .builtin _ | .param _ _ => none

/-- What is known of a declaration that is not another name. -/
def callable (d : Declared) : Callable :=
  match d.origin with
  | .builtin index => (builtins[index]?.map fun b => .function b.arity).getD .unknown
  | .letStmt path =>
    match program.phraseAt path with
    | some (.stmt (.letStmt _ value _)) => value.callable
    | _ => .unknown
  | .param _ _ => .unknown

/-- From one name for a thing to the next, as long as there is one. -/
inductive Leads : Declared → Declared → Prop
  | last {d} (h : program.aliasOf? d = none) : Leads d d
  | next {d d' last} (h : program.aliasOf? d = some d') (hrest : Leads d' last) : Leads d last

variable {program} {path : Path} {e : Expr} {name : Ident}

theorem Leads.unique {d last last' : Declared} (h : program.Leads d last) (h' : program.Leads d last') : last = last' := by
  induction h with
  | last hlast =>
    cases h' with
    | last _ => rfl
    | next hnext _ => cases hlast.symm.trans hnext
  | next hnext _ ih =>
    cases h' with
    | last hlast => cases hlast.symm.trans hnext
    | next hnext' hrest =>
      cases hnext.symm.trans hnext'
      exact ih hrest

/-- What a declaration is once the names are followed. -/
def Denotes (program : Program) (d : Declared) (callable : Callable) : Prop :=
  ∃ last, program.Leads d last ∧ callable = program.callable last

/-- Parentheses open no scope. -/
theorem scopingAt_literalPath {context : Option String} (e : Expr) (path : Path) :
    program.phraseAt path = some (.expr context e) → program.scopingAt (e.literalPath path) = program.scopingAt path := by
  cases e with
  | paren inner span =>
    intro h
    have hinner : program.phraseAt (0 :: path) = some (.expr context inner) := by
      rw [phraseAt, h]
      rfl
    rw [Expr.literalPath, scopingAt_literalPath inner (0 :: path) hinner, scopingAt_cons h]
    rfl
  | _ =>
    intro _
    rfl

theorem resolve?_eq {context : Option String} (h : program.phraseAt path = some (.expr context e))
    (hname : e.ident? = some name) : program.resolve? path e = (program.scopingAt path).find? name.name := by
  rw [resolve?, hname, Option.bind_some, scopingAt_literalPath e path h]

end Program

/-! ### What the name of a value is bound to -/

namespace Analyzer

section

variable {α β : Type} {post : β → Prop} {m : Walk α} {k : α → Walk β} {a a' : Analyzer}

/-- Whatever a step of analysis results in has some property. -/
def Gives (post : α → Prop) (m : Walk α) : Prop := ∀ a r a', m a = .ok (r, a') → post r

theorem gives_pure {r : β} (h : post r) : Gives post (pure r : Walk β) := by
  intro _ _ _ hrun
  cases hrun
  exact h

theorem gives_bind (hk : ∀ r, Gives post (k r)) : Gives post (m >>= k) := by
  intro a r a' hrun
  obtain ⟨r₁, a₁, -, hrest⟩ := bind_eq_ok.mp hrun
  exact hk r₁ a₁ r a' hrest

/-- The binding of a value that is not a name is the one of its form. -/
theorem callable_walkExpr {e : Expr} (hname : e.ident? = none) :
    Gives (fun r => r.callable = e.callable) (walkExpr e) := by
  fun_induction Expr.unparen e with
  | case1 inner span ih =>
    rw [walkExpr, Expr.callable_paren]
    exact ih hname
  | case2 e hparen =>
    cases e with
    | ident name => cases hname
    | paren inner span => exact absurd rfl (hparen inner span)
    | int _ _ | string _ _ | bool _ _ =>
      rw [walkExpr]
      exact gives_pure rfl
    | unary _ _ _ | array _ _ =>
      rw [walkExpr]
      exact gives_bind fun _ => gives_pure rfl
    | chain _ _ _ _ | index _ _ _ =>
      rw [walkExpr]
      exact gives_bind fun _ => gives_bind fun _ => gives_pure rfl
    | call _ _ _ | ifElse _ _ _ _ =>
      rw [walkExpr]
      exact gives_bind fun _ => gives_bind fun _ => gives_bind fun _ => gives_pure rfl
    | function _ _ _ =>
      rw [walkExpr]
      exact gives_bind fun _ => gives_bind fun _ => gives_bind fun _ => gives_bind fun _ => gives_pure rfl
    | hash _ _ _ =>
      rw [walkExpr]
      refine gives_bind fun _ => gives_bind fun _ => gives_bind fun frame => ?_
      split
      · exact gives_bind fun _ => gives_pure rfl
      · exact gives_pure rfl

/-- The binding of a name is the one that the table has for it. -/
theorem callable_refer {name : Ident} {r : Binding} (h : refer name a = .ok (r, a')) :
    r.callable = ((a'.table.find? name.name).map fun d => d.binding.callable).getD .unknown := by
  cases hd : a.table.find? name.name with
  | none =>
    rw [refer_of_find?_eq_none hd] at h
    cases h
    rw [hd]
    rfl
  | some d =>
    rw [refer_of_find? hd] at h
    cases h
    obtain ⟨place, hplace, hdeclaration⟩ := Option.bind_eq_some_iff.mp hd
    have hsame : (a.table.markUsed name.name).place? name.name = some place := by
      rw [DeclarationTable.place?, DeclarationTable.scopes_markUsed]
      exact hplace
    have hmarked : (a.table.markUsed name.name).declarations[place]? = some { d with used := true } := by
      rw [DeclarationTable.markUsed, hplace, Array.getElem?_modify, if_pos rfl, hdeclaration]
      rfl
    rw [DeclarationTable.find?, hsame, Option.bind_some, hmarked]
    exact d.binding.callable_copied

end

end Analyzer

end MonkeyLang
