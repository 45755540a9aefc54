import MonkeyLang.Proofs.Pass
import MonkeyLang.Proofs.Resources
/-!
# Where names come from

A name is built in, or introduced by a `let` statement or as a parameter. Analysis gives each origin a place in the table of
declarations, and generation a place to keep the value at. `Origin.Denoted` says when a symbol that generation finds for a
name stands for an origin; a captured symbol is followed through the functions around. This is what the two passes have in
common, and it is stated without the maps that either of them keeps.
-/

namespace MonkeyLang

/-! ### Paths -/

/-- The phrase at one path comes before that at another, and does not contain it. -/
def Path.Precedes (path other : Path) : Prop :=
  ∃ (common : Path) (i j : Nat), i < j ∧ i :: common <:+ path ∧ j :: common <:+ other

namespace Path.Precedes

variable {path other : Path} {i : Nat}

theorem into (h : path.Precedes other) (i : Nat) : path.Precedes (i :: other) := by
  obtain ⟨common, j, k, hlt, hpath, hother⟩ := h
  exact ⟨common, j, k, hlt, hpath, hother.trans (List.suffix_cons i other)⟩

theorem next (h : path.Precedes (i :: other) ∨ i :: other <:+ path) : path.Precedes ((i + 1) :: other) := by
  rcases h with ⟨common, j, k, hlt, hpath, hother⟩ | h
  · rcases List.suffix_cons_iff.mp hother with heq | hother
    · cases heq
      exact ⟨other, j, i + 1, by omega, hpath, List.suffix_rfl⟩
    · exact ⟨common, j, k, hlt, hpath, hother.trans (List.suffix_cons _ other)⟩
  · exact ⟨other, i, i + 1, Nat.lt_succ_self i, h, List.suffix_rfl⟩

theorem out (h : path.Precedes (i :: other)) : path.Precedes other ∨ other <:+ path := by
  obtain ⟨common, j, k, hlt, hpath, hother⟩ := h
  rcases List.suffix_cons_iff.mp hother with heq | hother
  · cases heq
    exact .inr ((List.suffix_cons j other).trans hpath)
  · exact .inl ⟨common, j, k, hlt, hpath, hother⟩

theorem not_suffix (h : path.Precedes other) : ¬ path <:+ other := by
  intro hsuffix
  obtain ⟨common, j, k, hlt, hpath, hother⟩ := h
  have heq : j :: common = k :: common :=
    (List.suffix_of_suffix_length_le (hpath.trans hsuffix) hother (by simp)).eq_of_length (by simp)
  cases heq
  exact Nat.lt_irrefl j hlt

end Path.Precedes

/-- Where the expression stands that is left of another one at a path, when the parentheses around it are gone. -/
def Expr.literalPath (path : Path) : Expr → Path
  | .paren inner _ => inner.literalPath (0 :: path)
  | _ => path

theorem Expr.suffix_literalPath (e : Expr) (path : Path) : path <:+ e.literalPath path := by
  cases e with
  | paren inner span => exact (List.suffix_cons 0 path).trans (inner.suffix_literalPath (0 :: path))
  | _ => exact List.suffix_rfl

namespace Program

variable (program : Program)

def root : Phrase := .stmts program.stmts

def phraseAt : Path → Option Phrase
  | [] => some program.root
  | i :: path => (phraseAt path).bind fun p => p.parts[i]?

/-- The phrase at a path, with the state in which generation comes to it. -/
def generatedAt (path : Path) : Option (Phrase × Generator) := generation.reach program.root .initial path

/-- The phrase at a path, with the state in which analysis comes to it. -/
def analyzedAt (path : Path) : Option (Phrase × Analyzer) := analysis.reach program.root .initial path

variable {program} in
/-- A walk comes to the phrase at a path. -/
theorem phraseAt_of_reach {σ ε α : Type} {P : Pass σ ε α} {start s : σ} {path : Path} {p : Phrase}
    (h : P.reach program.root start path = some (p, s)) : program.phraseAt path = some p := by
  induction path generalizing p s with
  | nil =>
    cases h
    rfl
  | cons i path ih =>
    obtain ⟨_, _, _, _, hreach, hq, -, -⟩ := Pass.reach_cons_eq_some.mp h
    rw [phraseAt, ih hreach, Option.bind_some, hq]

variable {program} in
theorem phraseAt_of_generatedAt {path : Path} {p : Phrase} {g : Generator} (h : program.generatedAt path = some (p, g)) :
    program.phraseAt path = some p := phraseAt_of_reach h

/-- The functions around a path, innermost first, and the program as a whole. -/
def functionsAround : Path → List Path
  | [] => [[]]
  | _ :: path =>
    match program.phraseAt path with
    | some (.expr _ (.function _ _ _)) => path :: functionsAround path
    | _ => functionsAround path

variable {program} {function path : Path}

theorem suffix_of_mem_functionsAround (h : function ∈ program.functionsAround path) : function <:+ path.tail := by
  induction path with
  | nil =>
    rw [functionsAround, List.mem_singleton] at h
    rw [h]
    exact List.suffix_rfl
  | cons i path ih =>
    rw [functionsAround] at h
    split at h
    · rcases List.mem_cons.mp h with rfl | h
      · exact List.suffix_rfl
      · exact (ih h).trans path.tail_suffix
    · exact (ih h).trans path.tail_suffix

theorem functionsAround_ne_nil (path : Path) : program.functionsAround path ≠ [] := by
  induction path with
  | nil => exact List.cons_ne_nil _ _
  | cons i path ih =>
    rw [functionsAround]
    split
    · exact List.cons_ne_nil _ _
    · exact ih

theorem nodup_functionsAround (path : Path) : (program.functionsAround path).Nodup := by
  induction path with
  | nil => exact List.pairwise_singleton _ _
  | cons i path ih =>
    rw [functionsAround]
    split
    case h_1 hphrase =>
      refine List.nodup_cons.mpr ⟨?_, ih⟩
      intro hmem
      cases path with
      | nil => cases hphrase
      | cons j path =>
        have hle := (suffix_of_mem_functionsAround hmem).length_le
        rw [List.tail_cons, List.length_cons] at hle
        omega
    case h_2 => exact ih

end Program

/-! ### Origins -/

inductive Origin where
  | builtin (index : Nat)
  /-- The `let` statement at a path. -/
  | letStmt (path : Path)
  /-- One of the parameters of the function at a path. -/
  | param (path : Path) (index : Nat)
deriving DecidableEq

namespace Origin

variable (program : Program)

/-- What generation hands out for the name. -/
def storage? : Origin → Option Storage
  | builtin index => some (.builtin index)
  | letStmt path =>
    match program.generatedAt path with
    | some (.stmt (.letStmt name value span), g) =>
      match generation.through (.stmt (.letStmt name value span)) 1 g with
      | .ok (_, g') => some (g'.scope.define name.name).1.storage
      | .error _ => none
    | _ => none
  | param path index =>
    match program.generatedAt path with
    | some (.expr name (.function params _ _), g) =>
      params[index]?.map fun param => ((g.scope.enterFunction name (params.take index)).define param.name).1.storage
    | _ => none

/-- The place in the table that analysis declares the name at. A function literal is declared before its body is visited. -/
def place? : Origin → Option Nat
  | builtin index => some index
  | letStmt path =>
    match program.analyzedAt path with
    | some (.stmt (.letStmt name value span), a) =>
      match value.function? with
      | some _ => some a.table.declarations.size
      | none =>
        match analysis.through (.stmt (.letStmt name value span)) 1 a with
        | .ok (_, a') => some a'.table.declarations.size
        | .error _ => none
    | _ => none
  | param path index =>
    match program.analyzedAt path with
    | some (.expr _ (.function params _ _), a) =>
      match (do Analyzer.openScope; Analyzer.declareParams (params.take index)) a with
      | .ok (_, a') => params[index]?.map fun _ => a'.table.declarations.size
      | .error _ => none
    | _ => none

/-- The function, or the whole program, that the name belongs to. -/
def owner : Origin → Path
  | builtin _ => []
  | letStmt path => (program.functionsAround path).headD []
  | param path _ => path

/-- The function literal that a `let` statement gives a name to. -/
def literal? : Origin → Option Path
  | builtin _ | param _ _ => none
  | letStmt path =>
    match program.phraseAt path with
    | some (.stmt (.letStmt _ value _)) => value.function?.map fun _ => value.literalPath (0 :: path)
    | _ => none

/-- A `let` statement is among those that are done; parameters and built-in functions always are. -/
def IsDone (done : Path → Prop) : Origin → Prop
  | letStmt path => done path
  | builtin _ | param _ _ => True

/-- A storage in the first of some functions stands for an origin. The functions are given by their scopes and their paths. -/
inductive Denoted (done : Path → Prop) (origin : Origin) : Storage → List FunctionScope → List Path → Prop
  | builtin {index fs functions} (hbuiltin : origin = builtin index) : Denoted done origin (.builtin index) fs functions
  | global {slot fs functions} (hstorage : origin.storage? program = some (.global slot)) (hdone : origin.IsDone done) :
      Denoted done origin (.global slot) fs functions
  | frame {slot fs function functions} (hstorage : origin.storage? program = some (.frame slot))
      (howner : origin.owner program = function) (hdone : origin.IsDone done) :
      Denoted done origin (.frame slot) fs (function :: functions)
  | running {fs function functions} (hliteral : origin.literal? program = some function) :
      Denoted done origin .running fs (function :: functions)
  | captured {index f fs function functions symbol} (hsymbol : f.captures[index]? = some symbol)
      (houter : Denoted done origin symbol.storage fs functions) :
      Denoted done origin (.captured index) (f :: fs) (function :: functions)

variable {program} {done done' : Path → Prop}

theorem IsDone.mono {origin : Origin} (h : origin.IsDone done) (hdone : ∀ path, done path → done' path) :
    origin.IsDone done' := by
  cases origin with
  | letStmt path => exact hdone path h
  | builtin _ | param _ _ => trivial

/-- What is captured stays captured. -/
theorem Denoted.mono {origin : Origin} {storage : Storage} {fs fs' : List FunctionScope} {functions : List Path}
    (h : origin.Denoted program done storage fs functions) (hdone : ∀ path, done path → done' path)
    (hgrow : ScopesGrow fs fs') : origin.Denoted program done' storage fs' functions := by
  induction h generalizing fs' with
  | builtin hbuiltin => exact .builtin hbuiltin
  | global hstorage hd => exact .global hstorage (hd.mono hdone)
  | frame hstorage howner hd => exact .frame hstorage howner (hd.mono hdone)
  | running hliteral => exact .running hliteral
  | captured hsymbol _ ih =>
    cases hgrow with
    | cons hf hrest =>
      obtain ⟨more, hmore⟩ := hf.captures
      refine .captured ?_ (ih hrest)
      rw [← hmore, List.getElem?_append_left (List.getElem?_eq_some_iff.mp hsymbol).1, hsymbol]

/-- What the whole program shares stands for the same in every function. -/
theorem Denoted.inside {origin : Origin} {storage : Storage} {fs fs' : List FunctionScope} {functions functions' : List Path}
    (h : origin.Denoted program done storage fs functions) (hshared : ¬ storage.OfCall) :
    origin.Denoted program done storage fs' functions' := by
  cases h with
  | builtin hbuiltin => exact .builtin hbuiltin
  | global hstorage hdone => exact .global hstorage hdone
  | frame | running | captured => exact absurd trivial hshared

/-- The literal that a `let` statement names is walked before the statement is done. -/
theorem IsDone.not_suffix {origin : Origin} {path function : Path} (h : origin.IsDone (·.Precedes path))
    (hliteral : origin.literal? program = some function) : ¬ function <:+ path := by
  intro hsuffix
  cases origin with
  | builtin _ | param _ _ => cases hliteral
  | letStmt statement =>
    rw [literal?] at hliteral
    split at hliteral
    case h_1 value _ _ =>
      obtain ⟨_, _, rfl⟩ := Option.map_eq_some_iff.mp hliteral
      have hinside : statement <:+ value.literalPath (0 :: statement) :=
        (List.suffix_cons 0 statement).trans (value.suffix_literalPath _)
      exact Path.Precedes.not_suffix h (hinside.trans hsuffix)
    case h_2 => cases hliteral

/-- Inside of a function with a name, the name can only be had from the function itself. -/
theorem Denoted.mem_functions {origin : Origin} {path function : Path} {storage : Storage} {fs : List FunctionScope}
    {functions : List Path} (h : origin.Denoted program (·.Precedes path) storage fs functions)
    (hliteral : origin.literal? program = some function) (hsuffix : function <:+ path) : function ∈ functions := by
  induction h with
  | builtin hbuiltin =>
    rw [hbuiltin] at hliteral
    cases hliteral
  | global _ hdone | frame _ _ hdone => exact absurd hsuffix (hdone.not_suffix hliteral)
  | running hrunning =>
    cases hliteral.symm.trans hrunning
    exact List.mem_cons_self
  | captured _ _ ih => exact List.mem_cons_of_mem _ ih

/-- A name stands for the running function exactly if it names the innermost function around. -/
theorem Denoted.running_iff {origin : Origin} {path : Path} {storage : Storage} {fs : List FunctionScope}
    (h : origin.Denoted program (·.Precedes path) storage fs (program.functionsAround path)) :
    storage = .running ↔ origin.literal? program = (program.functionsAround path).head? := by
  have hnodup := program.nodup_functionsAround path
  obtain ⟨function, functions, haround⟩ := List.exists_cons_of_ne_nil (program.functionsAround_ne_nil path)
  have hinside : function <:+ path := by
    have hmem : function ∈ program.functionsAround path := haround ▸ List.mem_cons_self
    exact (Program.suffix_of_mem_functionsAround hmem).trans path.tail_suffix
  rw [haround] at h hnodup ⊢
  constructor
  · rintro rfl
    cases h with
    | running hliteral => exact hliteral
  · intro hliteral
    cases h with
    | builtin hbuiltin =>
      rw [hbuiltin] at hliteral
      cases hliteral
    | global _ hdone | frame _ _ hdone => exact absurd hinside (hdone.not_suffix hliteral)
    | running _ => rfl
    | captured _ houter => exact absurd (houter.mem_functions hliteral hinside) (List.nodup_cons.mp hnodup).1

end Origin

end MonkeyLang
