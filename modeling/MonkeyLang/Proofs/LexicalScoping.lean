import Mathlib.Data.List.Induction
import MonkeyLang.Proofs.Origin
/-!
# Lexical scoping

What the names of a program mean, read off its syntax alone. `Program.scopingAt` gives the declarations in force at a path,
scope by scope: a function literal opens one scope for its parameters and its body, each branch of a conditional opens one
of its own, a `let` is in force behind its statement, and inside its value too if that is a function literal. A name that is
declared again in one scope keeps the declaration it has.

`Program.sites` lists the places where names are used and declared, in the order in which they come up, and
`NameSite.error?` says what is wrong with one.
-/

namespace MonkeyLang

/-- A name with the place that declares it. -/
structure Declared where
  ident : Ident
  origin : Origin
deriving DecidableEq

/-- The declarations in force, scope by scope, innermost first. -/
abbrev Scoping := List (List Declared)

namespace Scoping

def inScope? (scope : List Declared) (name : String) : Option Declared :=
  scope.find? fun d => d.ident.name = name

def find? (scoping : Scoping) (name : String) : Option Declared :=
  scoping.findSome? fun scope => inScope? scope name

/-- What a name is declared as in the innermost scope. -/
def taken? (scoping : Scoping) (name : String) : Option Declared :=
  scoping.head?.bind fun scope => inScope? scope name

/-- Declares a name in the innermost scope, unless it is declared there already. -/
def declare : Scoping → Declared → Scoping
  | [], _ => []
  | scope :: outer, d => (if (inScope? scope d.ident.name).isSome then scope else scope ++ [d]) :: outer

def initial : Scoping := [builtins.mapIdx fun i b => ⟨⟨b.name, default⟩, .builtin i⟩]

def params (path : Path) (names : List Ident) : List Declared := names.mapIdx fun i name => ⟨name, .param path i⟩

/-- Opens the scope of the function at a path, with some of its parameters. -/
def openFunction (scoping : Scoping) (path : Path) (names : List Ident) : Scoping :=
  (params path names).foldl declare ([] :: scoping)

/-- What is in force behind the statement at a path. -/
def behind (scoping : Scoping) (path : Path) : Stmt → Scoping
  | .letStmt name _ _ => scoping.declare ⟨name, .letStmt path⟩
  | .returnStmt _ _ | .exprStmt _ _ => scoping

/-- What is in force behind the statements that begin at a path. -/
def behindAll (scoping : Scoping) (path : Path) : List Stmt → Scoping
  | [] => scoping
  | s :: rest => (scoping.behind (0 :: path) s).behindAll (1 :: path) rest

theorem inScope?_concat_self {scope : List Declared} {d : Declared} (hfree : inScope? scope d.ident.name = none) :
    inScope? (scope ++ [d]) d.ident.name = some d := by
  unfold inScope? at hfree ⊢
  rw [List.find?_append, hfree, Option.none_or, List.find?_singleton, if_pos (decide_eq_true rfl)]

theorem inScope?_concat_of_ne {d : Declared} {name : String} (hne : d.ident.name ≠ name) (scope : List Declared) :
    inScope? (scope ++ [d]) name = inScope? scope name := by
  unfold inScope?
  rw [List.find?_append, List.find?_singleton, if_neg (by simpa using hne), Option.or_none]

theorem declare_of_taken {scoping : Scoping} {d first : Declared} (h : scoping.taken? d.ident.name = some first) :
    scoping.declare d = scoping := by
  cases scoping with
  | nil => rfl
  | cons scope outer =>
    have hscope : inScope? scope d.ident.name = some first := h
    rw [declare, hscope]
    rfl

theorem declare_of_free {scope : List Declared} {d : Declared} (h : inScope? scope d.ident.name = none) (outer : Scoping) :
    Scoping.declare (scope :: outer) d = (scope ++ [d]) :: outer := by
  rw [declare, h]
  rfl

theorem openFunction_concat (scoping : Scoping) (path : Path) (names : List Ident) (name : Ident) :
    scoping.openFunction path (names ++ [name]) =
      (scoping.openFunction path names).declare ⟨name, .param path names.length⟩ := by
  rw [openFunction, params, List.mapIdx_concat, List.foldl_concat]
  rfl

theorem tail_declare (scoping : Scoping) (d : Declared) : (scoping.declare d).tail = scoping.tail := by
  cases scoping <;> rfl

theorem declare_ne_nil {scoping : Scoping} (h : scoping ≠ []) (d : Declared) : scoping.declare d ≠ [] := by
  cases scoping with
  | nil => exact absurd rfl h
  | cons scope outer => exact List.cons_ne_nil _ _

theorem openFunction_ne_nil (scoping : Scoping) (path : Path) (names : List Ident) :
    scoping.openFunction path names ≠ [] := by
  induction names using List.reverseRecOn with
  | nil => exact List.cons_ne_nil _ _
  | append_singleton names name ih =>
    rw [openFunction_concat]
    exact declare_ne_nil ih _

theorem behind_ne_nil {scoping : Scoping} (h : scoping ≠ []) (path : Path) (s : Stmt) : scoping.behind path s ≠ [] := by
  cases s with
  | letStmt name value span => exact declare_ne_nil h _
  | returnStmt _ _ | exprStmt _ _ => exact h

theorem tail_openFunction (scoping : Scoping) (path : Path) (names : List Ident) :
    (scoping.openFunction path names).tail = scoping := by
  induction names using List.reverseRecOn with
  | nil => rfl
  | append_singleton names name ih => rw [openFunction_concat, tail_declare, ih]

theorem tail_behindAll (scoping : Scoping) (path : Path) (ss : List Stmt) :
    (scoping.behindAll path ss).tail = scoping.tail := by
  induction ss generalizing scoping path with
  | nil => rfl
  | cons s rest ih =>
    rw [behindAll, ih]
    cases s with
    | letStmt name value span => exact tail_declare _ _
    | returnStmt _ _ | exprStmt _ _ => rfl

end Scoping

namespace Phrase

open Scoping

/-- What is in force in the part of a phrase with a number. -/
def scopingIn (path : Path) (scoping : Scoping) : Phrase → Nat → Scoping
  | .expr _ (.function names _ _), _ => scoping.openFunction path names
  | .valueBlock _, _ => [] :: scoping
  -- A function literal can call itself; any other value cannot refer to its own name.
  | .stmt (.letStmt name value _), _ =>
    if value.function?.isSome then scoping.declare ⟨name, .letStmt path⟩ else scoping
  | .stmts (s :: _), 1 | .valueStmts (s :: _), 1 | .functionStmts (s :: _), 1 => scoping.behind (0 :: path) s
  | _, _ => scoping

/-- What is in force behind a phrase. -/
def scopingBehind (path : Path) (scoping : Scoping) : Phrase → Scoping
  | .stmt s => scoping.behind path s
  | .stmts ss | .valueStmts ss | .functionStmts ss => scoping.behindAll path ss
  | _ => scoping

theorem scopingIn_ne_nil (p : Phrase) (path : Path) {scoping : Scoping} (h : scoping ≠ []) (i : Nat) :
    p.scopingIn path scoping i ≠ [] := by
  unfold scopingIn
  split
  case h_1 => exact openFunction_ne_nil _ _ _
  case h_2 => exact List.cons_ne_nil _ _
  case h_3 =>
    split
    · exact declare_ne_nil h _
    · exact h
  case h_4 | h_5 | h_6 => exact behind_ne_nil h _ _
  case h_7 => exact h

/-- What is in force behind some parts of a phrase. -/
def scopingThrough (path : Path) (scoping : Scoping) (p : Phrase) : Nat → Scoping
  | 0 => scoping
  | i + 1 =>
    match p.parts[i]? with
    | some q => q.scopingBehind (i :: path) (p.scopingIn path scoping i)
    | none => scoping

/-- What is in force in a part is in force behind the part before. -/
theorem scopingIn_succ {p q : Phrase} {i : Nat} (path : Path) (scoping : Scoping) (hq : p.parts[i]? = some q)
    (hnext : i + 1 < p.parts.length) :
    p.scopingIn path scoping (i + 1) = q.scopingBehind (i :: path) (p.scopingIn path scoping i) := by
  fun_cases parts p <;> simp only [parts, List.length_cons, List.length_nil] at hnext
  -- No phrase has more than three parts.
  all_goals rcases i with _ | _ | i
  all_goals first
    | omega
    | obtain rfl := Option.some.inj hq
      rfl

end Phrase

/-- A place where a name is used or declared. -/
inductive NameSite where
  | use (path : Path) (name : Ident)
  | declaration (d : Declared)

namespace Phrase

/-- The names declared before the parts of a phrase. -/
def sitesEntering (path : Path) : Phrase → List NameSite
  | .expr _ (.function names _ _) => (Scoping.params path names).map .declaration
  | .stmt (.letStmt name value _) => if value.function?.isSome then [.declaration ⟨name, .letStmt path⟩] else []
  | _ => []

/-- The names used or declared behind the parts of a phrase. -/
def sitesLeaving (path : Path) : Phrase → List NameSite
  | .expr _ (.ident name) => [.use path name]
  | .stmt (.letStmt name value _) => if value.function?.isSome then [] else [.declaration ⟨name, .letStmt path⟩]
  | _ => []

def sites (path : Path) (p : Phrase) : List NameSite :=
  p.sitesEntering path ++ (p.parts.attach.mapIdx fun i q => sites (i :: path) q.1).flatten ++ p.sitesLeaving path
termination_by p.size
decreasing_by exact size_lt_of_mem_parts q.2

/-- The names used and declared in some parts of a phrase, and before them. -/
def sitesBefore (path : Path) (p : Phrase) (count : Nat) : List NameSite :=
  p.sitesEntering path ++ ((p.parts.take count).mapIdx fun i q => q.sites (i :: path)).flatten

theorem sites_eq (path : Path) (p : Phrase) :
    p.sites path = p.sitesBefore path p.parts.length ++ p.sitesLeaving path := by
  have hparts : p.parts.attach.mapIdx (fun i q => sites (i :: path) q.1) =
      p.parts.mapIdx fun i q => q.sites (i :: path) := by
    apply List.ext_getElem
    · simp
    · intro i _ _
      simp
  rw [sites, sitesBefore, hparts, List.take_length]

theorem sitesEntering_of_parts_eq_nil {p : Phrase} {path : Path} (h : p.parts = []) : p.sitesEntering path = [] := by
  fun_cases parts p <;> first
    | rfl
    | cases h

theorem sitesBefore_isPrefix (path : Path) (p : Phrase) (count : Nat) : p.sitesBefore path count <+: p.sites path := by
  rw [sites_eq, sitesBefore, sitesBefore, List.take_length, List.append_assoc, List.prefix_append_right_inj]
  apply List.IsPrefix.trans ?_ (List.prefix_append _ _)
  nth_rewrite 2 [← List.take_append_drop count p.parts]
  rw [List.mapIdx_append, List.flatten_append]
  exact List.prefix_append _ _

theorem sitesBefore_succ {p q : Phrase} {i : Nat} (path : Path) (hq : p.parts[i]? = some q) :
    p.sitesBefore path (i + 1) = p.sitesBefore path i ++ q.sites (i :: path) := by
  obtain ⟨hi, rfl⟩ := List.getElem?_eq_some_iff.mp hq
  have hlength : (p.parts.take i).length = i := List.length_take_of_le (Nat.le_of_lt hi)
  rw [sitesBefore, List.take_succ_eq_append_getElem hi, List.mapIdx_concat, List.flatten_concat, hlength,
    ← List.append_assoc, sitesBefore]

end Phrase

namespace Program

variable (program : Program)

def scopingAt : Path → Scoping
  | [] => .initial
  | i :: path =>
    match program.phraseAt path with
    | some p => p.scopingIn path (scopingAt path) i
    | none => scopingAt path

/-- What is in force where a name is declared. -/
def scopingBefore : Origin → Scoping
  | .builtin _ => []
  | .letStmt path => program.scopingAt path
  | .param path index =>
    match program.phraseAt path with
    | some (.expr _ (.function names _ _)) => (program.scopingAt path).openFunction path (names.take index)
    | _ => []

/-- The declaration that has a name already where the name is declared once more. -/
def taken? (d : Declared) : Option Declared := (program.scopingBefore d.origin).taken? d.ident.name

def sites : List NameSite := program.root.sites []

end Program

namespace NameSite

variable (program : Program)

/-- What is wrong with a use or with a declaration. -/
def error? : NameSite → Option CompilationError
  | use path name =>
    if ((program.scopingAt path).find? name.name).isSome then none else some (.undeclared name.name name.span)
  | declaration d => (program.taken? d).map fun first => .redeclared d.ident.name first.ident.span d.ident.span

/-- The declaration that is made, if the name is free. -/
def accepted? : NameSite → Option Declared
  | use _ _ => none
  | declaration d => if (program.taken? d).isSome then none else some d

end NameSite

/-- The declarations that are made: the built-in functions, and those of some sites whose names are free. -/
def Program.accepted (program : Program) (sites : List NameSite) : List Declared :=
  Scoping.initial.flatten ++ sites.filterMap (NameSite.accepted? program)

namespace Program

variable {program : Program}

theorem accepted_append (found more : List NameSite) :
    program.accepted (found ++ more) = program.accepted found ++ more.filterMap (NameSite.accepted? program) := by
  rw [accepted, List.filterMap_append, ← List.append_assoc, accepted]

theorem accepted_mono {found more : List NameSite} (h : found <+: more) :
    program.accepted found <+: program.accepted more := by
  obtain ⟨rest, rfl⟩ := h
  rw [accepted_append]
  exact List.prefix_append _ _

theorem accepted_concat {site : NameSite} {d : Declared} (h : site.accepted? program = some d) (found : List NameSite) :
    program.accepted (found ++ [site]) = program.accepted found ++ [d] := by
  rw [accepted_append, List.filterMap_cons_some h, List.filterMap_nil]

theorem accepted_concat_none {site : NameSite} (h : site.accepted? program = none) (found : List NameSite) :
    program.accepted (found ++ [site]) = program.accepted found := by
  rw [accepted_append, List.filterMap_cons_none h, List.filterMap_nil, List.append_nil]

theorem scopingAt_cons {path : Path} {p : Phrase} (h : program.phraseAt path = some p) (i : Nat) :
    program.scopingAt (i :: path) = p.scopingIn path (program.scopingAt path) i := by
  rw [scopingAt, h]

theorem scopingAt_ne_nil (path : Path) : program.scopingAt path ≠ [] := by
  induction path with
  | nil => exact List.cons_ne_nil _ _
  | cons i path ih =>
    rw [scopingAt]
    cases program.phraseAt path with
    | none => exact ih
    | some p => exact p.scopingIn_ne_nil path ih i

end Program

end MonkeyLang
