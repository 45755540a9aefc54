import Mathlib.Data.List.Forall2
import MonkeyLang.Proofs.LexicalScoping
import MonkeyLang.Proofs.NameResolution
/-!
# Names are checked exactly

Analysis walks a program with a table of declarations that it changes as it goes. Here the table is shown to keep what
lexical scoping puts in force at each phrase, whatever the program, so that what is reported of names is what is wrong with
them. The invariant `Analyzer.Knows` speaks of the sites that the walk has passed; one step adds the sites of that step, and
no step leaves a scope or a hash literal that was not entered.
-/

namespace MonkeyLang

open Scoping

def Declaration.ident (d : Declaration) : Ident := ⟨d.name, d.span⟩

/-- A scope of the table has each name of a scope of the text, at a place of its declaration. -/
def ScopeShows (made : List Declared) (s : NameScope) (scope : List Declared) : Prop :=
  ∀ name, s[name]?.map (made[·]?) = (inScope? scope name).map some

namespace ScopeShows

variable {made made' : List Declared} {s : NameScope} {scope : List Declared}

theorem empty (made : List Declared) : ScopeShows made ∅ [] := by
  intro name
  simp [inScope?]

theorem mono (h : ScopeShows made s scope) (hmade : made <+: made') : ScopeShows made' s scope := by
  intro name
  have hname := h name
  cases hplace : s[name]? with
  | none =>
    rw [hplace] at hname
    exact hname
  | some place =>
    rw [hplace, Option.map_some, eq_comm, Option.map_eq_some_iff] at hname
    obtain ⟨d, hd, hat⟩ := hname
    obtain ⟨hlt, rfl⟩ := List.getElem?_eq_some_iff.mp hat.symm
    rw [hd, Option.map_some, Option.map_some, hmade.getElem hlt]
    exact congrArg some (List.getElem?_eq_getElem _)

theorem insert (h : ScopeShows made s scope) {d : Declared} (hfree : inScope? scope d.ident.name = none) :
    ScopeShows (made ++ [d]) (s.insert d.ident.name made.length) (scope ++ [d]) := by
  intro name
  by_cases hname : d.ident.name = name
  · subst hname
    rw [inScope?_concat_self hfree, Std.TreeMap.getElem?_insert_self, Option.map_some, Option.map_some,
      List.getElem?_concat_length]
  · rw [getElem?_insert_of_ne hname, inScope?_concat_of_ne hname]
    exact h.mono (List.prefix_append _ _) name

end ScopeShows

namespace DeclarationTable

theorem toList_add (t : DeclarationTable) (d : Declaration) :
    (t.add d).declarations.toList = t.declarations.toList ++ [d] := by
  unfold add
  split <;> exact Array.toList_push

theorem exists_scopes_eq (t : DeclarationTable) : ∃ outer, t.scopes = t.innermost :: outer := by
  unfold scopes innermost
  cases t.inner with
  | nil => exact ⟨[], rfl⟩
  | cons s outer => exact ⟨outer ++ [t.outermost], rfl⟩

/-- A scope inside another one can be closed. -/
theorem exists_closeScope? {t : DeclarationTable} {s outer : NameScope} {rest : List NameScope}
    (h : t.scopes = s :: outer :: rest) :
    ∃ t', t.closeScope? = some t' ∧ t'.declarations = t.declarations ∧ t'.scopes = outer :: rest := by
  unfold scopes at h
  unfold closeScope?
  cases hinner : t.inner with
  | nil =>
    rw [hinner] at h
    cases h
  | cons first others =>
    rw [hinner, List.cons_append, List.cons.injEq] at h
    exact ⟨_, rfl, rfl, h.2⟩

theorem ident_markUsed (t : DeclarationTable) (name : String) :
    (t.markUsed name).declarations.toList.map Declaration.ident = t.declarations.toList.map Declaration.ident := by
  unfold markUsed
  split
  case h_1 place _ =>
    rw [Array.toList_modify]
    apply List.ext_getElem?
    intro i
    rw [List.getElem?_map, List.getElem?_map, List.getElem?_modify]
    -- Marking changes neither the name nor the span.
    cases t.declarations.toList[i]? with
    | none => rfl
    | some d =>
      by_cases hplace : place = i <;> simp [hplace, Declaration.ident]
  case h_2 => rfl

theorem place?_eq {t : DeclarationTable} {made : List Declared} {scoping : Scoping}
    (hscopes : List.Forall₂ (ScopeShows made) t.scopes scoping) (name : String) :
    (t.place? name).map (made[·]?) = (scoping.find? name).map some := by
  unfold place? Scoping.find?
  generalize t.scopes = scopes at hscopes
  induction hscopes with
  | nil => rfl
  | @cons s scope _ _ hscope _ ih =>
    have hname := hscope name
    cases hplace : s[name]? with
    | none =>
      rw [hplace, Option.map_none, eq_comm, Option.map_eq_none_iff] at hname
      rw [List.findSome?_cons_of_isNone (by rw [hplace]; rfl), List.findSome?_cons_of_isNone (by rw [hname]; rfl)]
      exact ih
    | some place =>
      rw [hplace, Option.map_some, eq_comm, Option.map_eq_some_iff] at hname
      obtain ⟨d, hd, hat⟩ := hname
      rw [List.findSome?_cons_of_isSome (by rw [hplace]; rfl), List.findSome?_cons_of_isSome (by rw [hd]; rfl), hplace, hd,
        Option.map_some, Option.map_some, hat]

/-- The table has the declarations made so far, and its scopes show what is in force. -/
structure Shows (t : DeclarationTable) (made : List Declared) (scoping : Scoping) : Prop where
  idents : t.declarations.toList.map Declaration.ident = made.map Declared.ident
  scopes : List.Forall₂ (ScopeShows made) t.scopes scoping

namespace Shows

variable {t t' : DeclarationTable} {made : List Declared} {scoping : Scoping} {scope : List Declared}

theorem innermost_eq (h : t.Shows made scoping) (name : String) :
    t.innermost[name]?.map (made[·]?) = (scoping.taken? name).map some := by
  obtain ⟨outer, houter⟩ := t.exists_scopes_eq
  have hscopes := h.scopes
  rw [houter] at hscopes
  cases hscopes with
  | cons hscope _ => exact hscope name

/-- What the table has at the place of a declaration is its name and span. -/
theorem ident_eq (h : t.Shows made scoping) {place : Option Nat} {d : Option Declared}
    (hplace : place.map (made[·]?) = d.map some) :
    (place.bind fun i => t.declarations[i]?).map Declaration.ident = d.map Declared.ident := by
  cases place with
  | none =>
    rw [Option.map_none, eq_comm, Option.map_eq_none_iff] at hplace
    rw [hplace]
    rfl
  | some i =>
    rw [Option.map_some, eq_comm, Option.map_eq_some_iff] at hplace
    obtain ⟨d, rfl, hd⟩ := hplace
    rw [Option.bind_some, Option.map_some, ← Option.map_some (f := Declared.ident), hd, ← List.getElem?_map, ← h.idents,
      List.getElem?_map, Array.getElem?_toList]

theorem find?_eq (h : t.Shows made scoping) (name : String) :
    (t.find? name).map Declaration.ident = (scoping.find? name).map Declared.ident :=
  h.ident_eq (place?_eq h.scopes name)

theorem size_eq (h : t.Shows made scoping) : t.declarations.size = made.length := by
  rw [← Array.length_toList, ← List.length_map Declaration.ident, h.idents, List.length_map]

theorem initial : DeclarationTable.initial.Shows Scoping.initial.flatten Scoping.initial := by
  refine ⟨rfl, .cons ?_ .nil⟩
  intro name
  rw [outermost_initial]
  by_cases hname : name ∈ builtins.map (·.name)
  · simp only [builtins, List.map_cons, List.map_nil, List.mem_cons, List.not_mem_nil, or_false] at hname
    rcases hname with rfl | rfl | rfl | rfl | rfl | rfl <;> rfl
  · have hfree : inScope? (builtins.mapIdx fun i b => ⟨⟨b.name, default⟩, .builtin i⟩) name = none := by
      apply List.find?_eq_none.mpr
      intro d hd
      obtain ⟨i, hi, rfl⟩ := List.mem_mapIdx.mp hd
      intro heq
      exact hname (List.mem_map.mpr ⟨builtins[i], List.getElem_mem hi, of_decide_eq_true heq⟩)
    rw [SymbolScope.findIdx?_builtins_eq_none hname, hfree]
    rfl

theorem declare (h : t.Shows made scoping) {d : Declared} (hfree : scoping.taken? d.ident.name = none) (binding : Binding) :
    (t.add ⟨d.ident.name, binding, d.ident.span, false⟩).Shows (made ++ [d]) (scoping.declare d) := by
  obtain ⟨outer, hlist⟩ := t.exists_scopes_eq
  have hscopes := h.scopes
  rw [hlist] at hscopes
  cases hscopes with
  | @cons _ scope _ outerScoping hscope houter =>
    constructor
    · rw [toList_add, List.map_append, List.map_append, h.idents]
      rfl
    · rw [scopes_add hlist, h.size_eq, declare_of_free hfree]
      apply List.Forall₂.cons (hscope.insert hfree)
      exact houter.imp fun _ _ hshows => hshows.mono (List.prefix_append _ _)

theorem markUsed (h : t.Shows made scoping) (name : String) : (t.markUsed name).Shows made scoping :=
  ⟨(t.ident_markUsed name).trans h.idents, scopes_markUsed t name ▸ h.scopes⟩

theorem openScope (h : t.Shows made scoping) : t.openScope.Shows made ([] :: scoping) :=
  ⟨h.idents, .cons (.empty made) h.scopes⟩

theorem closeScope? (h : t.Shows made (scope :: scoping)) (hscoping : scoping ≠ []) :
    ∃ t', t.closeScope? = some t' ∧ t'.Shows made scoping := by
  have hscopes := h.scopes
  generalize hlist : t.scopes = scopes at hscopes
  cases hscopes with
  | cons _ houter =>
    cases houter with
    | nil => exact absurd rfl hscoping
    | cons hfirst hrest =>
      obtain ⟨t', hclose, hdeclarations, hscopes'⟩ := exists_closeScope? hlist
      refine ⟨t', hclose, hdeclarations ▸ h.idents, ?_⟩
      rw [hscopes']
      exact .cons hfirst hrest

end Shows

end DeclarationTable

namespace HashTracker

theorem depth_enter (t : HashTracker) : t.enter.depth = t.depth + 1 := rfl

theorem depth_modifyInnermost (t : HashTracker) (change : HashFrame → HashFrame) :
    (t.modifyInnermost change).depth = t.depth := by
  unfold modifyInnermost
  split
  · rfl
  case h_2 frame outer hframes => simp only [depth, hframes, List.length_cons]

theorem depth_setAnchor (t : HashTracker) (span : Span) : (t.setAnchor span).depth = t.depth :=
  t.depth_modifyInnermost _

theorem depth_observe (t : HashTracker) (key : KeyType) : (t.observe key).depth = t.depth := t.depth_modifyInnermost _

/-- Where a literal is open, it can be left. -/
theorem exists_leave? {t : HashTracker} {n : Nat} (h : t.depth = n + 1) :
    ∃ frame t', t.leave? = some (frame, t') ∧ t'.depth = n := by
  unfold depth at h
  unfold leave?
  cases hframes : t.frames with
  | nil =>
    rw [hframes] at h
    cases h
  | cons frame outer =>
    rw [hframes, List.length_cons] at h
    exact ⟨frame, ⟨outer⟩, rfl, Nat.succ.inj h⟩

end HashTracker

/-- One part after the other. -/
theorem Phrase.partsInduction {motive : Phrase → Prop} (step : ∀ p, (∀ q ∈ p.parts, motive q) → motive p) (p : Phrase) :
    motive p :=
  (measure Phrase.size).wf.induction p fun p ih => step p fun q hq => ih q (Phrase.size_lt_of_mem_parts hq)

/-- How many hash literals are open in the parts of a phrase and not around it. -/
def Phrase.hashes : Phrase → Nat
  | .expr _ (.hash _ _ _) => 1
  | _ => 0

theorem Phrase.hashes_of_parts_eq_nil {p : Phrase} (h : p.parts = []) : p.hashes = 0 := by
  fun_cases Phrase.parts p <;> first
    | rfl
    | cases h

namespace Analyzer

variable {α β : Type} {m : Walk α} {k : α → Walk β} {a : Analyzer}

/-- A step of analysis comes to its end, in a state with some property. -/
def Reaches (m : Walk α) (a : Analyzer) (post : Analyzer → Prop) : Prop := ∃ r a', m a = .ok (r, a') ∧ post a'

theorem Reaches.bind {mid post : Analyzer → Prop} (h : Reaches m a mid)
    (hk : ∀ r a', mid a' → Reaches (k r) a' post) : Reaches (m >>= k) a post := by
  obtain ⟨r, a₁, hm, hmid⟩ := h
  obtain ⟨r', a₂, hrest, hpost⟩ := hk r a₁ hmid
  exact ⟨r', a₂, bind_eq_ok.mpr ⟨r, a₁, hm, hrest⟩, hpost⟩

theorem reaches_pure {post : Analyzer → Prop} (r : α) (h : post a) : Reaches (pure r) a post := ⟨r, a, rfl, h⟩

theorem callError?_eq_some {name : Ident} {binding : Binding} {args : Nat} {span : Span} {e : CompilationError}
    (h : callError? name binding args span = some e) : e.isScoping = false ∧ e.span? = some span := by
  unfold callError? at h
  repeat' split at h
  all_goals cases h
  all_goals exact ⟨rfl, rfl⟩

/-- A call is checked in the state behind its callee, and something is reported of it only if the callee is declared. -/
theorem exists_checkCall (callee : Expr) (args : Nat) (span : Span) (a : Analyzer) :
    ∃ a', checkCall callee args span a = .ok ((), a') ∧ (a' = a ∨ ∃ name d e, callee.ident? = some name ∧
      a.table.find? name.name = some d ∧ callError? name d.binding args span = some e ∧
      a' = { a with errors := a.errors.push e }) := by
  have hcheck {rest : Analyzer → Walk Unit} : ((get : Walk Analyzer) >>= rest) a = rest a a := rfl
  unfold checkCall
  rw [hcheck]
  cases hname : callee.ident? with
  | none => exact ⟨a, rfl, .inl rfl⟩
  | some name =>
    cases hd : a.table.find? name.name with
    | none => exact ⟨a, by simp only [hd]; rfl, .inl rfl⟩
    | some d =>
      cases he : callError? name d.binding args span with
      | none => exact ⟨a, by simp only [hd, he]; rfl, .inl rfl⟩
      | some e => exact ⟨_, by simp only [hd, he]; rfl, .inr ⟨name, d, e, rfl, hd, he, rfl⟩⟩

theorem refer_of_find? {name : Ident} {d : Declaration} (h : a.table.find? name.name = some d) :
    refer name a = .ok (d.binding.copied, { a with table := a.table.markUsed name.name }) := by
  simp only [refer, DeclarationTable.lookup, h]

theorem refer_of_find?_eq_none {name : Ident} (h : a.table.find? name.name = none) :
    refer name a = .ok (.value, { a with errors := a.errors.push (.undeclared name.name name.span) }) := by
  simp only [refer, DeclarationTable.lookup, h]

/-- The state of analysis when it has passed some sites: the table shows what is in force, the errors about names are
those of the sites, and some number of hash literals is open. -/
structure Knows (program : Program) (found : List NameSite) (scoping : Scoping) (depth : Nat) (a : Analyzer) : Prop where
  table : a.table.Shows (program.accepted found) scoping
  errors : a.errors.toList.filter (·.isScoping) = found.filterMap (NameSite.error? program)
  depth : a.hashes.depth = depth

namespace Knows

variable {program : Program} {found : List NameSite} {scoping : Scoping} {scope : List Declared} {depth : Nat}

theorem initial (program : Program) : Analyzer.initial.Knows program [] Scoping.initial 0 := by
  refine ⟨?_, rfl, rfl⟩
  rw [Program.accepted, List.filterMap_nil, List.append_nil]
  exact .initial

theorem tracker (h : a.Knows program found scoping depth) (tracker : HashTracker) :
    { a with hashes := tracker }.Knows program found scoping tracker.depth := ⟨h.table, h.errors, rfl⟩

theorem errors_concat (h : a.Knows program found scoping depth) {site : NameSite} {e : CompilationError}
    (hsite : site.error? program = some e) (he : e.isScoping = true) :
    (a.errors.push e).toList.filter (·.isScoping) = (found ++ [site]).filterMap (NameSite.error? program) := by
  rw [Array.toList_push, List.filter_append, h.errors, List.filter_singleton, he, List.filterMap_append,
    List.filterMap_cons_some hsite]
  rfl

theorem errors_concat_none (h : a.Knows program found scoping depth) {site : NameSite} (hsite : site.error? program = none) :
    a.errors.toList.filter (·.isScoping) = (found ++ [site]).filterMap (NameSite.error? program) := by
  rw [h.errors, List.filterMap_append, List.filterMap_cons_none hsite, List.filterMap_nil, List.append_nil]

/-- Errors that are not about names are of no concern. -/
theorem push (h : a.Knows program found scoping depth) {e : CompilationError} (he : e.isScoping = false) :
    { a with errors := a.errors.push e }.Knows program found scoping depth := by
  refine ⟨h.table, ?_, h.depth⟩
  rw [← h.errors, Array.toList_push, List.filter_append, List.filter_singleton, he]
  exact List.append_nil _

theorem declare {d : Declared} (h : a.Knows program found (program.scopingBefore d.origin) depth) (binding : Binding) :
    Reaches (Analyzer.declare d.ident binding) a
      (Knows program (found ++ [.declaration d]) ((program.scopingBefore d.origin).declare d) depth) := by
  refine ⟨(), _, rfl, ?_⟩
  have hfirst := h.table.ident_eq (h.table.innermost_eq d.ident.name)
  change _ = (program.taken? d).map Declared.ident at hfirst
  unfold DeclarationTable.declare
  cases htaken : program.taken? d with
  | some first =>
    have hsite : (NameSite.declaration d).accepted? program = none := by rw [NameSite.accepted?, htaken]; rfl
    have herror : (NameSite.declaration d).error? program =
        some (.redeclared d.ident.name first.ident.span d.ident.span) := by rw [NameSite.error?, htaken]; rfl
    rw [htaken, Option.map_some, Option.map_eq_some_iff] at hfirst
    obtain ⟨declaration, hdeclaration, hident⟩ := hfirst
    have hspan : declaration.span = first.ident.span := congrArg Ident.span hident
    simp only [hdeclaration, hspan]
    refine ⟨?_, h.errors_concat herror rfl, h.depth⟩
    rw [Program.accepted_concat_none hsite, declare_of_taken htaken]
    exact h.table
  | none =>
    have hsite : (NameSite.declaration d).accepted? program = some d := by rw [NameSite.accepted?, htaken]; rfl
    have herror : (NameSite.declaration d).error? program = none := by rw [NameSite.error?, htaken]; rfl
    rw [htaken, Option.map_none, Option.map_eq_none_iff] at hfirst
    simp only [hfirst]
    refine ⟨?_, h.errors_concat_none herror, h.depth⟩
    rw [Program.accepted_concat hsite]
    exact h.table.declare htaken binding

theorem refer {path : Path} (h : a.Knows program found (program.scopingAt path) depth) (name : Ident) :
    Reaches (Analyzer.refer name) a (Knows program (found ++ [.use path name]) (program.scopingAt path) depth) := by
  have hsite : (NameSite.use path name).accepted? program = none := rfl
  have hfind := h.table.find?_eq name.name
  cases hd : a.table.find? name.name with
  | some d =>
    rw [hd, Option.map_some, eq_comm, Option.map_eq_some_iff] at hfind
    obtain ⟨first, hfirst, -⟩ := hfind
    have herror : (NameSite.use path name).error? program = none := by rw [NameSite.error?, hfirst]; rfl
    refine ⟨_, _, refer_of_find? hd, ?_, h.errors_concat_none herror, h.depth⟩
    rw [Program.accepted_concat_none hsite]
    exact h.table.markUsed name.name
  | none =>
    rw [hd, Option.map_none, eq_comm, Option.map_eq_none_iff] at hfind
    have herror : (NameSite.use path name).error? program = some (.undeclared name.name name.span) := by
      rw [NameSite.error?, hfind]; rfl
    refine ⟨_, _, refer_of_find?_eq_none hd, ?_, h.errors_concat herror rfl, h.depth⟩
    rw [Program.accepted_concat_none hsite]
    exact h.table

theorem openScope (h : a.Knows program found scoping depth) :
    Reaches Analyzer.openScope a (Knows program found ([] :: scoping) depth) :=
  ⟨(), _, rfl, h.table.openScope, h.errors, h.depth⟩

theorem closeScope (h : a.Knows program found scoping depth) (htail : scoping.tail ≠ []) :
    Reaches Analyzer.closeScope a (Knows program found scoping.tail depth) := by
  cases scoping with
  | nil => exact absurd rfl htail
  | cons scope outer =>
    obtain ⟨table, hclose, htable⟩ := h.table.closeScope? htail
    refine ⟨(), { a with table }, ?_, htable, h.errors, h.depth⟩
    unfold Analyzer.closeScope
    rw [hclose]

theorem checkCall (h : a.Knows program found scoping depth) (callee : Expr) (args : Nat) (span : Span) :
    Reaches (Analyzer.checkCall callee args span) a (Knows program found scoping depth) := by
  obtain ⟨a', hcheck, rfl | ⟨name, d, e, -, -, he, rfl⟩⟩ := exists_checkCall callee args span a
  · exact ⟨(), _, hcheck, h⟩
  · exact ⟨(), _, hcheck, h.push (callError?_eq_some he).1⟩

variable {path : Path} {p q : Phrase} {i : Nat}

theorem params {name : Option String} {params names : List Ident} {body : Block} {span : Span}
    (hphrase : program.phraseAt path = some (.expr name (.function params body span)))
    (h : a.Knows program found (program.scopingAt path) depth) (hnames : names <+: params) :
    Reaches (do Analyzer.openScope; Analyzer.declareParams names) a
      (Knows program (found ++ (Scoping.params path names).map .declaration)
        ((program.scopingAt path).openFunction path names) depth) := by
  induction names using List.reverseRecOn with
  | nil =>
    rw [Scoping.params, List.mapIdx_nil, List.map_nil, List.append_nil]
    exact h.openScope.bind fun _ _ h' => reaches_pure () h'
  | append_singleton names param ih =>
    have hbefore : program.scopingBefore (.param path names.length) = (program.scopingAt path).openFunction path names := by
      have htake : params.take names.length = names :=
        (List.prefix_iff_eq_take.mp ((List.prefix_append names [param]).trans hnames)).symm
      simp only [Program.scopingBefore, hphrase, htake]
    rw [declareParams_append, ← bind_assoc, Scoping.params, List.mapIdx_concat, List.map_append, ← List.append_assoc,
      openFunction_concat, ← hbefore]
    refine (ih ((List.prefix_append _ _).trans hnames)).bind fun _ a' h' => ?_
    rw [← hbefore] at h'
    exact (h'.declare (d := ⟨param, .param path names.length⟩) .parameter).bind fun _ _ h'' => reaches_pure () h''

theorem enter_zero (hphrase : program.phraseAt path = some p) (h : a.Knows program found (program.scopingAt path) depth) :
    Reaches (enterPart p 0) a
      (Knows program (found ++ p.sitesEntering path) (program.scopingAt (0 :: path)) (depth + p.hashes)) := by
  rw [Program.scopingAt_cons hphrase]
  -- Where nothing is entered, the goal is about the state as it is.
  have hplain : Reaches (pure ()) a (Knows program (found ++ []) (program.scopingAt path) (depth + 0)) := by
    rw [List.append_nil]
    exact reaches_pure () h
  cases p with
  | expr name e =>
    cases e with
    | function params body span => exact h.params hphrase List.prefix_rfl
    | hash ps brace span =>
      have henter := h.tracker (a.hashes.enter.setAnchor brace)
      rw [HashTracker.depth_setAnchor, HashTracker.depth_enter, h.depth, ← List.append_nil found] at henter
      exact ⟨(), _, rfl, henter⟩
    | _ => exact hplain
  | stmt s =>
    cases s with
    | letStmt name value span =>
      cases hvalue : value.function? with
      | some literal =>
        have hdeclare := h.declare (d := ⟨name, .letStmt path⟩) (.function literal.1.length)
        simp only [enterPart, Phrase.sitesEntering, Phrase.scopingIn, hvalue]
        exact hdeclare
      | none =>
        simp only [enterPart, Phrase.sitesEntering, Phrase.scopingIn, hvalue]
        exact hplain
    | returnStmt _ _ | exprStmt _ _ => exact hplain
  | valueBlock block =>
    have hopen := h.openScope
    rw [← List.append_nil found] at hopen
    exact hopen
  | pairs ps =>
    cases ps with
    | nil => exact hplain
    | cons pair rest =>
      have hobserve := h.tracker (a.hashes.observe (keyTypeOf pair.1))
      rw [HashTracker.depth_observe, h.depth, ← List.append_nil found] at hobserve
      exact ⟨(), _, rfl, hobserve⟩
  | stmts ss | valueStmts ss | functionStmts ss => cases ss <;> exact hplain
  | operands _ | exprs _ | otherwise _ => exact hplain

theorem enter_succ (h : a.Knows program found scoping depth) :
    Reaches (enterPart p (i + 1)) a (Knows program found scoping depth) := by
  unfold enterPart
  split
  case h_1 => exact h.checkCall _ _ _
  case h_7 => exact reaches_pure () h
  all_goals contradiction

theorem leaveHash (h : a.Knows program found scoping (depth + 1)) :
    Reaches Analyzer.leaveHash a (Knows program found scoping depth) := by
  obtain ⟨frame, hashes, hleave, hdepth⟩ := HashTracker.exists_leave? h.depth
  have hleft := h.tracker hashes
  rw [hdepth] at hleft
  refine ⟨frame, { a with hashes }, ?_, hleft⟩
  unfold Analyzer.leaveHash
  rw [hleave]

/-- The scope of a function or a branch is closed behind its statements. -/
theorem closeBody {inside : Path} {ss : List Stmt} (h : a.Knows program found (scoping.behindAll inside ss) depth)
    (htail : scoping.tail = program.scopingAt path) :
    Reaches Analyzer.closeScope a (Knows program found (program.scopingAt path) depth) := by
  have hscopes : (scoping.behindAll inside ss).tail = program.scopingAt path := by rw [tail_behindAll, htail]
  have hclose := h.closeScope (by rw [hscopes]; exact Program.scopingAt_ne_nil path)
  rwa [hscopes] at hclose

theorem leave
    (h : a.Knows program found (p.scopingThrough path (program.scopingAt path) p.parts.length) (depth + p.hashes))
    (bindings : List Binding) :
    Reaches (leavePhrase p bindings) a
      (Knows program (found ++ p.sitesLeaving path) (p.scopingBehind path (program.scopingAt path)) depth) := by
  have hplain (binding : Binding) (h : a.Knows program found (p.scopingBehind path (program.scopingAt path)) depth) :
      Reaches (pure binding) a (Knows program (found ++ []) (p.scopingBehind path (program.scopingAt path)) depth) := by
    rw [List.append_nil]
    exact reaches_pure _ h
  cases p with
  | expr name e =>
    cases e with
    | ident id => exact h.refer id
    | function params body span =>
      cases body with
      | mk body blockSpan =>
        have hclose := h.closeBody (tail_openFunction _ _ _)
        rw [← List.append_nil found] at hclose
        exact hclose.bind fun _ _ h' => reaches_pure _ h'
    | hash ps brace span =>
      have hleave := h.leaveHash
      rw [← List.append_nil found] at hleave
      refine hleave.bind fun frame a' h' => ?_
      split
      · exact ⟨_, _, rfl, h'.push rfl⟩
      · exact reaches_pure _ h'
    | _ => exact hplain _ h
  | stmt s =>
    cases s with
    | letStmt name value span =>
      change Knows program found (if value.function?.isSome then _ else _) depth a at h
      cases hvalue : value.function? with
      | some literal =>
        rw [hvalue] at h
        simp only [leavePhrase, Phrase.sitesLeaving, hvalue]
        exact hplain _ h
      | none =>
        rw [hvalue] at h
        simp only [leavePhrase, Phrase.sitesLeaving, hvalue]
        exact (h.declare (d := ⟨name, .letStmt path⟩) _).bind fun _ _ h' => reaches_pure _ h'
    | returnStmt _ _ | exprStmt _ _ => exact hplain _ h
  | valueBlock block =>
    cases block with
    | mk body blockSpan =>
      have hclose := h.closeBody (List.tail_cons : ([] :: program.scopingAt path).tail = _)
      rw [← List.append_nil found] at hclose
      exact hclose.bind fun _ _ h' => reaches_pure _ h'
  | stmts ss => cases ss <;> exact hplain _ h
  | valueStmts ss | functionStmts ss =>
    rcases ss with _ | ⟨s, _ | ⟨next, rest⟩⟩
    · exact hplain _ h
    · cases s <;> exact hplain _ h
    · exact hplain _ h
  | operands rest | exprs rest => cases rest <;> exact hplain _ h
  | pairs rest => cases rest <;> exact hplain _ h
  | otherwise block => cases block <;> exact hplain _ h

section

variable (hparts : ∀ q ∈ p.parts, ∀ {path found depth a}, program.phraseAt path = some q →
  a.Knows program found (program.scopingAt path) depth → Reaches (analysis.run q) a
    (Knows program (found ++ q.sites path) (q.scopingBehind path (program.scopingAt path)) depth))

include hparts

theorem through_succ (hphrase : program.phraseAt path = some p) (hq : p.parts[i]? = some q) {results : List Binding}
    {a₁ a₂ : Analyzer} (hthrough : analysis.through p i a = .ok (results, a₁))
    (henter : analysis.enter p i a₁ = .ok ((), a₂))
    (h : a₂.Knows program (found ++ p.sitesBefore path i) (program.scopingAt (i :: path)) depth) :
    Reaches (analysis.through p (i + 1)) a
      (Knows program (found ++ p.sitesBefore path (i + 1))
        (p.scopingThrough path (program.scopingAt path) (i + 1)) depth) := by
  have hpart : program.phraseAt (i :: path) = some q := by rw [Program.phraseAt, hphrase, Option.bind_some, hq]
  obtain ⟨result, a₃, hrun, h'⟩ := hparts q (List.mem_of_getElem? hq) hpart h
  have hnext : analysis.through p (i + 1) a = .ok (results ++ [result], a₃) :=
    (Pass.through_succ_eq_ok hq).mpr ⟨results, a₁, a₂, result, a₃, hthrough, henter, hrun, rfl⟩
  refine ⟨results ++ [result], a₃, hnext, ?_⟩
  rw [Phrase.sitesBefore_succ path hq, ← List.append_assoc, Phrase.scopingThrough, hq, ← Program.scopingAt_cons hphrase]
  exact h'

/-- The state in which a part is come to. -/
theorem entered (hphrase : program.phraseAt path = some p) (h : a.Knows program found (program.scopingAt path) depth)
    (hi : i < p.parts.length) : ∃ results a₁ a₂, analysis.through p i a = .ok (results, a₁) ∧
      analysis.enter p i a₁ = .ok ((), a₂) ∧
      a₂.Knows program (found ++ p.sitesBefore path i) (program.scopingAt (i :: path)) (depth + p.hashes) := by
  induction i with
  | zero =>
    obtain ⟨⟨⟩, a₂, henter, h'⟩ := h.enter_zero hphrase
    refine ⟨[], a, a₂, rfl, henter, ?_⟩
    rw [Phrase.sitesBefore, List.take_zero, List.mapIdx_nil, List.flatten_nil, List.append_nil]
    exact h'
  | succ i ih =>
    have hq := List.getElem?_eq_getElem (Nat.lt_of_succ_lt hi)
    obtain ⟨results, a₁, a₂, hthrough, henter, h'⟩ := ih (Nat.lt_of_succ_lt hi)
    obtain ⟨results', a₃, hthrough', h''⟩ := through_succ hparts hphrase hq hthrough henter h'
    obtain ⟨⟨⟩, a₄, henter', h'''⟩ := h''.enter_succ (p := p) (i := i)
    refine ⟨results', a₃, a₄, hthrough', henter', ?_⟩
    rw [Program.scopingAt_cons hphrase, Phrase.scopingIn_succ path _ hq hi]
    rw [Phrase.scopingThrough, hq] at h'''
    exact h'''

end

/-- A walk over a phrase passes its sites, and ends with what is in force behind it. -/
theorem run (p : Phrase) : ∀ {path : Path} {found : List NameSite} {depth : Nat} {a : Analyzer},
    program.phraseAt path = some p → a.Knows program found (program.scopingAt path) depth →
      Reaches (analysis.run p) a
        (Knows program (found ++ p.sites path) (p.scopingBehind path (program.scopingAt path)) depth) := by
  induction p using Phrase.partsInduction with
  | step p ih =>
    intro path found depth a hphrase h
    have hthrough : Reaches (analysis.through p p.parts.length) a
        (Knows program (found ++ p.sitesBefore path p.parts.length)
          (p.scopingThrough path (program.scopingAt path) p.parts.length) (depth + p.hashes)) := by
      cases hlength : p.parts.length with
      | zero =>
        have hnil := List.eq_nil_of_length_eq_zero hlength
        refine ⟨[], a, rfl, ?_⟩
        rw [Phrase.sitesBefore, Phrase.sitesEntering_of_parts_eq_nil hnil, Phrase.hashes_of_parts_eq_nil hnil,
          List.take_zero, List.mapIdx_nil, List.flatten_nil, List.append_nil, List.append_nil]
        exact h
      | succ n =>
        have hn : n < p.parts.length := by omega
        obtain ⟨results, a₁, a₂, hthrough, henter, h'⟩ := entered ih hphrase h hn
        exact through_succ ih hphrase (List.getElem?_eq_getElem hn) hthrough henter h'
    obtain ⟨results, a₁, hparts, h'⟩ := hthrough
    obtain ⟨r, a₂, hleave, h''⟩ := h'.leave results
    refine ⟨r, a₂, Pass.run_eq_ok.mpr ⟨results, a₁, hparts, hleave⟩, ?_⟩
    rw [Phrase.sites_eq, ← List.append_assoc]
    exact h''

end Knows

end Analyzer

namespace Program

variable {program : Program} {path : Path} {p : Phrase}

/-- Analysis comes to every phrase, and then the table shows what is in force there. -/
theorem exists_analyzedAt (hphrase : program.phraseAt path = some p) : ∃ found depth a,
    program.analyzedAt path = some (p, a) ∧ a.Knows program found (program.scopingAt path) depth ∧
      found ++ p.sites path <+: program.sites := by
  induction path generalizing p with
  | nil =>
    cases hphrase
    exact ⟨[], 0, .initial, rfl, .initial program, List.prefix_rfl⟩
  | cons i path ih =>
    rw [phraseAt, Option.bind_eq_some_iff] at hphrase
    obtain ⟨around, haround, hpart⟩ := hphrase
    obtain ⟨found, depth, a, hreach, h, hfront⟩ := ih haround
    have hi : i < around.parts.length := (List.getElem?_eq_some_iff.mp hpart).1
    obtain ⟨results, a₁, a₂, hthrough, henter, h'⟩ :=
      Analyzer.Knows.entered (fun q _ => Analyzer.Knows.run q) haround h hi
    refine ⟨_, _, a₂, Pass.reach_cons_eq_some.mpr ⟨around, a, results, a₁, hreach, hpart, hthrough, henter⟩, h', ?_⟩
    apply List.IsPrefix.trans ?_ hfront
    rw [List.append_assoc, ← Phrase.sitesBefore_succ path hpart]
    exact List.prefix_append_right_inj found |>.mpr (around.sitesBefore_isPrefix path (i + 1))

end Program

/-- Analysis gives the errors of the state in which the walk over a program ends, and perhaps unused declarations. -/
theorem exists_analyze_of_run (options : AnalysisOptions) {program : Program} {r : Binding} {a : Analyzer}
    (h : analysis.run program.root .initial = .ok (r, a)) : ∃ result, analyze options program = .ok result ∧
      ∀ test : CompilationError → Bool, (∀ d : Declaration, test d.unusedError = false) →
        result.errors.filter test = a.errors.toList.filter test := by
  obtain ⟨⟨⟩, a', hvisit, hreturn⟩ := bind_eq_ok.mp h
  cases hreturn
  unfold analyze
  rw [Analyzer.visitStmts_eq, hvisit]
  cases options.unusedAsError with
  | false => exact ⟨_, rfl, fun _ _ => rfl⟩
  | true =>
    refine ⟨_, rfl, fun test htest => ?_⟩
    have hunused : (a.table.unused.map Declaration.unusedError).filter test = [] := by
      apply List.filter_eq_nil_iff.mpr
      intro e he
      obtain ⟨d, -, rfl⟩ := List.mem_map.mp he
      rw [htest d]
      exact Bool.false_ne_true
    show (a.errors.toList ++ a.table.unused.map Declaration.unusedError).filter test = _
    rw [List.filter_append, hunused, List.append_nil]

/-- Analysis never fails, and what it reports of names is what is wrong with the uses and declarations of the program, in
the order in which they come up: a name that nothing in force declares, and a name that a declaration in the same scope has
already, whose span is part of the report. At each phrase the declaration it finds for a name is the one in force. -/
theorem names_checked_exactly (options : AnalysisOptions) (program : Program) : ∃ result,
    analyze options program = .ok result ∧
      result.errors.filter (·.isScoping) = program.sites.filterMap (NameSite.error? program) ∧
      ∀ path p, program.phraseAt path = some p → ∃ a, program.analyzedAt path = some (p, a) ∧ ∀ name,
        (a.table.place? name).map ((program.accepted program.sites)[·]?) =
            ((program.scopingAt path).find? name).map some ∧
          (a.table.find? name).map Declaration.ident = ((program.scopingAt path).find? name).map Declared.ident := by
  have hroot : program.phraseAt [] = some program.root := rfl
  obtain ⟨r, a, hrun, h⟩ := Analyzer.Knows.run program.root hroot (.initial program)
  obtain ⟨result, hanalyze, herrors⟩ := exists_analyze_of_run options hrun
  refine ⟨result, hanalyze, ?_, ?_⟩
  · rw [herrors _ fun _ => rfl]
    exact h.errors
  · intro path p hphrase
    obtain ⟨found, depth, a, hanalyzed, h, hfront⟩ := Program.exists_analyzedAt hphrase
    have haccepted : program.accepted found <+: program.accepted program.sites :=
      Program.accepted_mono ((List.prefix_append _ _).trans hfront)
    refine ⟨a, hanalyzed, fun name => ⟨?_, h.table.find?_eq name⟩⟩
    exact DeclarationTable.place?_eq (h.table.scopes.imp fun _ _ hshows => hshows.mono haccepted) name

/-- A function that uses a name which nothing declares, and whose own name is declared once more. -/
def declaredAgain : Program :=
  let f : Ident := ⟨"f", ⟨1, 5, 1⟩⟩
  let x : Ident := ⟨"x", ⟨1, 12, 1⟩⟩
  let call : Expr := .call (.ident ⟨"f", ⟨1, 17, 1⟩⟩) [.ident ⟨"y", ⟨1, 19, 1⟩⟩] ⟨1, 17, 4⟩
  ⟨[.letStmt f (.function [x] (.mk [.exprStmt call ⟨1, 17, 4⟩] ⟨1, 15, 8⟩) ⟨1, 9, 14⟩) ⟨1, 1, 23⟩,
    .letStmt ⟨"f", ⟨2, 5, 1⟩⟩ (.ident ⟨"f", ⟨2, 9, 1⟩⟩) ⟨2, 1, 10⟩], ⟨1, 1, 34⟩⟩

theorem names_checked_exactly_declaredAgain :
    declaredAgain.sites.filterMap (NameSite.error? declaredAgain) =
      [.undeclared "y" ⟨1, 19, 1⟩, .redeclared "f" ⟨1, 5, 1⟩ ⟨2, 5, 1⟩] := by
  obtain ⟨result, hanalyze, herrors, -⟩ := names_checked_exactly {} declaredAgain
  have hresult : analyze {} declaredAgain = .ok
      ⟨[.undeclared "y" ⟨1, 19, 1⟩, .redeclared "f" ⟨1, 5, 1⟩ ⟨2, 5, 1⟩], [.unusedDeclaration "x" ⟨1, 12, 1⟩]⟩ := rfl
  rw [hresult] at hanalyze
  cases hanalyze
  exact herrors.symm

end MonkeyLang
