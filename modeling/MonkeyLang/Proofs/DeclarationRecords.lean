import MonkeyLang.Proofs.Aliases
import MonkeyLang.Proofs.DeclarationSites
/-!
# What the table records of declarations

The table keeps a copy of what is known of a declaration when it is made, and marks it when a name refers to it. The
invariant `Analyzer.Records` says that the copy is what the text leads to, and that the marked declarations are those which
the names passed so far refer to. It rests on each declaration having a place of its own.
-/

namespace MonkeyLang

theorem DeclarationTable.declarations_add (t : DeclarationTable) (d : Declaration) :
    (t.add d).declarations = t.declarations.push d := by
  unfold add
  split <;> rfl

namespace Analyzer

/-- What the table keeps of a declaration when the names passed refer to some declarations. -/
structure Recorded (program : Program) (targets : List Declared) (d : Declared) (declaration : Declaration) : Prop where
  callable : program.Denotes d declaration.binding.callable
  used : declaration.used = true ↔ (∃ i, d.origin = .builtin i) ∨ d ∈ targets

structure Records (program : Program) (targets : List Declared) (a : Analyzer) : Prop where
  entries : ∀ (place : Nat) d declaration, program.made[place]? = some d →
    a.table.declarations[place]? = some declaration → Recorded program targets d declaration
  targets : ∀ d ∈ targets, ∃ place < a.table.declarations.size, program.made[place]? = some d

namespace Records

variable {program : Program} {targets : List Declared} {a a' : Analyzer} {path : Path} {p : Phrase} {d : Declared}
  {sites : List NameSite} {depth : Nat} {binding : Binding}

theorem congr (h : a.Records program targets) (heq : a'.table.declarations = a.table.declarations) :
    a'.Records program targets := by
  constructor
  · rw [heq]
    exact h.entries
  · rw [heq]
    exact h.targets

/-- What is declared next has the next place. -/
theorem made_next (hknows : a.Knows program sites (program.scopingBefore d.origin) depth)
    (hfront : sites ++ [.declaration d] <+: program.sites) (hfree : program.taken? d = none) :
    program.made[a.table.declarations.size]? = some d := by
  have haccepted : (NameSite.declaration d).accepted? program = some d := by
    rw [NameSite.accepted?, hfree]
    rfl
  obtain ⟨rest, hrest⟩ : program.accepted (sites ++ [.declaration d]) <+: program.made := Program.accepted_mono hfront
  rw [Program.accepted_concat haccepted] at hrest
  rw [hknows.table.size_eq, ← hrest, List.append_assoc, List.getElem?_append_right (Nat.le_refl _),
    Nat.sub_self]
  rfl

/-- A declaration that is made is recorded at the next place. -/
theorem declare (h : a.Records program targets) (hknows : a.Knows program sites (program.scopingBefore d.origin) depth)
    (hfront : sites ++ [.declaration d] <+: program.sites) (hcallable : program.Denotes d binding.callable)
    (hrun : Analyzer.declare d.ident binding a = .ok ((), a')) : a'.Records program targets := by
  cases hrun
  have hfirst := hknows.table.ident_eq (hknows.table.innermost_eq d.ident.name)
  change _ = (program.taken? d).map Declared.ident at hfirst
  unfold DeclarationTable.declare
  cases htaken : program.taken? d with
  | some first =>
    rw [htaken, Option.map_some, Option.map_eq_some_iff] at hfirst
    obtain ⟨declaration, hdeclaration, -⟩ := hfirst
    simp only [hdeclaration]
    exact h.congr rfl
  | none =>
    rw [htaken, Option.map_none, Option.map_eq_none_iff] at hfirst
    simp only [hfirst]
    have hnext := made_next hknows hfront htaken
    have hbuiltin : ¬ ∃ i, d.origin = .builtin i := by
      rintro ⟨i, hi⟩
      have hmem : .declaration d ∈ program.sites := hfront.subset (by simp)
      exact program.not_builtin_of_declares (program.declaration_mem_sites.mp hmem) hi
    constructor
    · intro place d' declaration hd hdeclaration
      rw [DeclarationTable.declarations_add, Array.getElem?_push] at hdeclaration
      split at hdeclaration
      case isTrue hplace =>
        cases hdeclaration
        cases hd.symm.trans (hplace ▸ hnext)
        refine ⟨hcallable, ?_⟩
        -- No name passed so far refers to what is declared only now.
        have hunused : d ∉ targets := by
          intro hd
          obtain ⟨place, hlt, hplace⟩ := h.targets d hd
          exact Nat.ne_of_lt hlt (program.eq_of_made hplace hnext)
        simp [hbuiltin, hunused]
      case isFalse => exact h.entries place d' declaration hd hdeclaration
    · intro d' hd'
      obtain ⟨place, hlt, hplace⟩ := h.targets d' hd'
      refine ⟨place, ?_, hplace⟩
      rw [DeclarationTable.declarations_add, Array.size_push]
      omega

/-- A name marks the declaration that it refers to, and no other one. -/
theorem refer {name : Ident} {r : Binding} (h : a.Records program targets)
    (hknows : a.Knows program sites (program.scopingAt path) depth) (hfront : sites <+: program.sites)
    (hrun : Analyzer.refer name a = .ok (r, a')) :
    a'.Records program (targets ++ ((program.scopingAt path).find? name.name).toList) := by
  have hplaces := DeclarationTable.place?_eq
    (hknows.table.scopes.imp fun _ _ hshows => hshows.mono (Program.accepted_mono hfront)) name.name
  cases hd : a.table.find? name.name with
  | none =>
    rw [refer_of_find?_eq_none hd] at hrun
    cases hrun
    have hfind := hknows.table.find?_eq name.name
    rw [hd, Option.map_none, eq_comm, Option.map_eq_none_iff] at hfind
    rw [hfind, Option.toList_none, List.append_nil]
    exact h.congr rfl
  | some declaration =>
    rw [refer_of_find? hd] at hrun
    cases hrun
    rw [DeclarationTable.find?, Option.bind_eq_some_iff] at hd
    obtain ⟨place, hplace, hdeclaration⟩ := hd
    rw [hplace, Option.map_some, eq_comm, Option.map_eq_some_iff] at hplaces
    obtain ⟨d, hfind, hmade⟩ := hplaces
    rw [hfind, Option.toList_some]
    constructor
    · intro place' d' declaration' hmade' hdeclaration'
      rw [DeclarationTable.markUsed, hplace, Array.getElem?_modify] at hdeclaration'
      split at hdeclaration'
      case isTrue heq =>
        obtain ⟨old, hold, rfl⟩ := Option.map_eq_some_iff.mp hdeclaration'
        subst heq
        cases hmade'.symm.trans hmade.symm
        exact ⟨(h.entries place d old hmade' hold).callable, by simp⟩
      case isFalse hne =>
        have hother : d' ≠ d := by
          rintro rfl
          exact hne (program.eq_of_made hmade.symm hmade')
        obtain ⟨hcallable, hused⟩ := h.entries place' d' declaration' hmade' hdeclaration'
        exact ⟨hcallable, by simpa [hother] using hused⟩
    · intro d' hd'
      rw [DeclarationTable.size_markUsed]
      rcases List.mem_append.mp hd' with hd' | hd'
      · exact h.targets d' hd'
      · cases List.mem_singleton.mp hd'
        exact ⟨place, (Array.getElem?_eq_some_iff.mp hdeclaration).1, hmade.symm⟩

/-- The parameters of a function are recorded one by one. -/
theorem params {context : Option String} {params names : List Ident} {body : Block} {span : Span}
    (hphrase : program.phraseAt path = some (.expr context (.function params body span)))
    (h : a.Records program targets) (hknows : a.Knows program sites (program.scopingAt path) depth)
    (hfront : sites ++ (Scoping.params path params).map .declaration <+: program.sites) (hnames : names <+: params)
    (hrun : (do Analyzer.openScope; Analyzer.declareParams names) a = .ok ((), a')) : a'.Records program targets := by
  induction names using List.reverseRecOn generalizing a' with
  | nil =>
    cases hrun
    exact h.congr rfl
  | append_singleton names param ih =>
    have hbefore : names <+: params := (List.prefix_append _ _).trans hnames
    rw [declareParams_append, ← bind_assoc] at hrun
    obtain ⟨⟨⟩, a₁, hfirst, hlast⟩ := bind_eq_ok.mp hrun
    obtain ⟨⟨⟩, a₂, hdeclare, hdone⟩ := bind_eq_ok.mp hlast
    cases hdone
    obtain ⟨⟨⟩, a₃, hknown, hknows'⟩ := hknows.params hphrase hbefore
    cases hfirst.symm.trans hknown
    have hscoping : program.scopingBefore (.param path names.length) =
        (program.scopingAt path).openFunction path names := by
      have htake : params.take names.length = names := (List.prefix_iff_eq_take.mp hbefore).symm
      simp only [Program.scopingBefore, hphrase, htake]
    have hsites : sites ++ (Scoping.params path names).map .declaration ++
        [.declaration ⟨param, .param path names.length⟩] <+: program.sites := by
      apply List.IsPrefix.trans ?_ hfront
      obtain ⟨rest, rfl⟩ := hnames
      rw [List.append_assoc, List.prefix_append_right_inj, Scoping.params, Scoping.params, List.mapIdx_append,
        List.map_append, List.mapIdx_concat, List.map_append]
      exact List.prefix_append _ _
    rw [← hscoping] at hknows'
    exact (ih hbefore hfirst).declare hknows' hsites ⟨_, .last rfl, rfl⟩ hdeclare

end Records

theorem declarations_closeScope {a a' : Analyzer} (h : closeScope a = .ok ((), a')) :
    a'.table.declarations = a.table.declarations := by
  obtain ⟨table, hclose, rfl⟩ := closeScope_eq_ok.mp h
  unfold DeclarationTable.closeScope? at hclose
  split at hclose
  · cases hclose
  · cases hclose
    rfl

namespace Records

variable {program : Program} {targets : List Declared} {a a' : Analyzer} {path : Path} {d : Declared}
  {sites : List NameSite} {depth : Nat} {name : Ident} {value : Expr} {span : Span}

/-- The table tells what a name stands for. -/
theorem find? {text : String} (h : a.Records program targets)
    (hknows : a.Knows program sites (program.scopingAt path) depth) (hfront : sites <+: program.sites)
    (hfind : (program.scopingAt path).find? text = some d) :
    ∃ declaration, a.table.find? text = some declaration ∧ program.Denotes d declaration.binding.callable := by
  have hplaces := DeclarationTable.place?_eq
    (hknows.table.scopes.imp fun _ _ hshows => hshows.mono (Program.accepted_mono hfront)) text
  have hident := hknows.table.find?_eq text
  rw [hfind, Option.map_some, Option.map_eq_some_iff] at hplaces hident
  obtain ⟨place, hplace, hmade⟩ := hplaces
  obtain ⟨declaration, hdeclaration, -⟩ := hident
  refine ⟨declaration, hdeclaration, ?_⟩
  rw [DeclarationTable.find?, hplace, Option.bind_some] at hdeclaration
  exact (h.entries place d declaration hmade hdeclaration).callable

theorem denotes_function {literal : List Ident × Block × Span}
    (hphrase : program.phraseAt path = some (.stmt (.letStmt name value span))) (hvalue : value.function? = some literal) :
    program.Denotes ⟨name, .letStmt path⟩ (.function literal.1.length) := by
  unfold Expr.function? at hvalue
  split at hvalue
  case h_1 params body span hform =>
    cases hvalue
    refine ⟨_, .last ?_, ?_⟩
    · simp only [Program.aliasOf?, hphrase, Program.resolve?, Expr.ident?, hform, Option.bind_none]
    · simp only [Program.callable, hphrase, Expr.callable, hform]
  case h_2 => cases hvalue

/-- A name for a value that is not a function literal stands for what the value is, or is another name. -/
theorem denotes_value {r : Binding} (h : a'.Records program targets)
    (hphrase : program.phraseAt path = some (.stmt (.letStmt name value span))) (hvalue : value.function? = none)
    (hknows : a'.Knows program sites (program.scopingAt path) depth) (hfront : sites <+: program.sites)
    (hrun : walkExpr value a = .ok (r, a')) : program.Denotes ⟨name, .letStmt path⟩ r.callable := by
  have hpart : program.phraseAt (0 :: path) = some (.expr (some name.name) value) := by
    rw [Program.phraseAt, hphrase]
    rfl
  have halias : program.aliasOf? ⟨name, .letStmt path⟩ = program.resolve? (0 :: path) value := by
    simp only [Program.aliasOf?, hphrase]
  have hcallable : program.callable ⟨name, .letStmt path⟩ = value.callable := by
    simp only [Program.callable, hphrase]
  cases hname : value.ident? with
  | none =>
    refine ⟨_, .last ?_, (callable_walkExpr hname a r a' hrun).trans hcallable.symm⟩
    rw [halias, Program.resolve?, hname, Option.bind_none]
  | some id =>
    have hform : value.callable = .unknown := by
      unfold Expr.ident? at hname
      split at hname
      case h_1 hident => rw [Expr.callable, hident]
      case h_2 => cases hname
    have hscoping : program.scopingAt (0 :: path) = program.scopingAt path := by
      rw [Program.scopingAt_cons hphrase, Phrase.scopingIn, hvalue]
      rfl
    rw [Program.resolve?_eq hpart hname, hscoping] at halias
    rw [walkExpr_of_ident? hname] at hrun
    rw [callable_refer hrun]
    cases hfind : (program.scopingAt path).find? id.name with
    | none =>
      have hident := hknows.table.find?_eq id.name
      rw [hfind, Option.map_none, Option.map_eq_none_iff] at hident
      rw [hident]
      exact ⟨_, .last (halias.trans hfind), (hcallable.trans hform).symm⟩
    | some d =>
      obtain ⟨declaration, hdeclaration, last, hleads, hlast⟩ := h.find? hknows hfront hfind
      rw [hdeclaration]
      exact ⟨last, .next (halias.trans hfind) hleads, hlast⟩

theorem initial (program : Program) : Analyzer.initial.Records program [] := by
  refine ⟨?_, nofun⟩
  intro place d declaration hmade hdeclaration
  have hbuiltins : Analyzer.initial.table.declarations.toList =
      builtins.map fun b => ⟨b.name, .function b.arity, default, true⟩ := rfl
  rw [← Array.getElem?_toList, hbuiltins, List.getElem?_map, Option.map_eq_some_iff] at hdeclaration
  obtain ⟨b, hb, rfl⟩ := hdeclaration
  have hplace : Scoping.initial.flatten[place]? = some ⟨⟨b.name, default⟩, .builtin place⟩ := by
    rw [Scoping.initial, List.flatten_singleton, List.getElem?_mapIdx, hb, Option.map_some]
  rw [Program.made, Program.accepted, List.getElem?_append_left (List.getElem?_eq_some_iff.mp hplace).1, hplace] at hmade
  cases hmade
  exact ⟨⟨_, .last rfl, by simp [Program.callable, hb, Binding.callable]⟩, by simp⟩

variable {p : Phrase} {i : Nat}

theorem enter (h : a.Records program targets) (hphrase : program.phraseAt path = some p)
    (hknows : a.Knows program sites (p.scopingThrough path (program.scopingAt path) i) depth)
    (hfront : sites ++ Moment.sites ⟨path, p, i⟩ <+: program.sites) (hrun : enterPart p i a = .ok ((), a')) :
    a'.Records program targets := by
  unfold enterPart at hrun
  split at hrun
  case h_1 context callee args span =>
    obtain ⟨a₁, hcheck, rfl | ⟨_, _, _, -, -, -, rfl⟩⟩ := exists_checkCall callee args.length span a
    · cases hrun.symm.trans hcheck
      exact h
    · cases hrun.symm.trans hcheck
      exact h.congr rfl
  case h_2 | h_4 | h_6 =>
    cases hrun
    exact h.congr rfl
  case h_3 context params body span =>
    have hsites : Moment.sites ⟨path, .expr context (.function params body span), 0⟩ =
        (Scoping.params path params).map .declaration := by
      simp [Moment.sites, Phrase.sitesEntering, Phrase.sitesLeaving]
    rw [hsites] at hfront
    exact h.params hphrase hknows hfront List.prefix_rfl hrun
  case h_5 name value span =>
    cases hvalue : value.function? with
    | none =>
      simp only [hvalue] at hrun
      cases hrun
      exact h
    | some literal =>
      simp only [hvalue] at hrun
      have hsites : Moment.sites ⟨path, .stmt (.letStmt name value span), 0⟩ = [.declaration ⟨name, .letStmt path⟩] := by
        simp [Moment.sites, Phrase.sitesEntering, Phrase.parts, hvalue]
      rw [hsites] at hfront
      exact h.declare (d := ⟨name, .letStmt path⟩) hknows hfront
        (show program.Denotes _ (Binding.function literal.1.length).callable from denotes_function hphrase hvalue) hrun
  case h_7 =>
    cases hrun
    exact h

theorem leave {bindings : List Binding} {r : Binding} {a₀ : Analyzer} (h : a.Records program targets)
    (hphrase : program.phraseAt path = some p) (hthrough : analysis.through p p.parts.length a₀ = .ok (bindings, a))
    (hknows : a.Knows program sites (p.scopingThrough path (program.scopingAt path) p.parts.length) depth)
    (hfront : sites ++ Moment.sites ⟨path, p, p.parts.length⟩ <+: program.sites)
    (hrun : leavePhrase p bindings a = .ok (r, a')) :
    a'.Records program (targets ++ (Moment.target? program ⟨path, p, p.parts.length⟩).toList) := by
  unfold leavePhrase at hrun
  split at hrun
  case h_1 context name => exact h.refer hknows ((List.prefix_append _ _).trans hfront) hrun
  case h_2 | h_5 =>
    cases hrun
    simpa [Moment.target?] using h
  case h_3 context ps brace span =>
    obtain ⟨frame, a₁, hleave, hrun⟩ := bind_eq_ok.mp hrun
    obtain ⟨outer, -, rfl⟩ := leaveHash_eq_ok.mp hleave
    have htable : a'.table = a.table := by
      split at hrun <;> cases hrun <;> rfl
    simpa [Moment.target?] using h.congr (congrArg DeclarationTable.declarations htable)
  case h_4 | h_7 =>
    obtain ⟨⟨⟩, a₁, hclose, hrun⟩ := bind_eq_ok.mp hrun
    cases hrun
    simpa [Moment.target?] using h.congr (declarations_closeScope hclose)
  case h_6 name value span =>
    rw [Moment.target?, Option.toList_none, List.append_nil]
    cases hvalue : value.function? with
    | some literal =>
      simp only [hvalue] at hrun
      cases hrun
      exact h
    | none =>
      simp only [hvalue] at hrun
      obtain ⟨⟨⟩, a₁, hdeclare, hrun⟩ := bind_eq_ok.mp hrun
      cases hrun
      have hsites : Moment.sites ⟨path, .stmt (.letStmt name value span), 1⟩ = [.declaration ⟨name, .letStmt path⟩] := by
        simp [Moment.sites, Phrase.sitesLeaving, Phrase.parts, hvalue]
      have hscoping : Phrase.scopingThrough path (program.scopingAt path) (.stmt (.letStmt name value span)) 1 =
          program.scopingAt path := by
        simp [Phrase.scopingThrough, Phrase.parts, Phrase.scopingBehind, Phrase.scopingIn, hvalue]
      rw [show (Phrase.stmt (.letStmt name value span)).parts.length = 1 from rfl, hsites] at hfront
      rw [show (Phrase.stmt (.letStmt name value span)).parts.length = 1 from rfl, hscoping] at hknows
      obtain ⟨results, a₂, a₃, result, a₄, hbefore, henter, hvisit, heq⟩ := (Pass.through_succ_eq_ok rfl).mp hthrough
      cases heq
      cases hbefore
      exact h.declare (d := ⟨name, .letStmt path⟩) hknows hfront
        (h.denotes_value hphrase hvalue hknows ((List.prefix_append _ _).trans hfront) hvisit) hdeclare
  case h_8 hident _ _ _ _ _ _ =>
    cases hrun
    rwa [Moment.target?_of_not_ident hident, Option.toList_none, List.append_nil]

end Records

/-- At every moment of analysis the table records the declarations made. -/
theorem carries_records (program : Program) : analysis.Carries program.root .initial fun found a =>
    a.Records program (found.filterMap (Moment.target? program)) where
  enter := by
    intro path p a i bindings a₁ a₂ found hreach hi hthrough henter h
    obtain ⟨sites, depth, hknows, hfront⟩ := Program.exists_knows hreach (Nat.le_of_lt hi) hthrough
    have hnone : Moment.target? program ⟨path, p, i⟩ = none := by
      apply Moment.target?_of_not_ident
      rintro context name rfl
      exact absurd hi (Nat.not_lt_zero i)
    rw [List.filterMap_append, List.filterMap_cons_none hnone, List.filterMap_nil, List.append_nil]
    exact h.enter (Program.phraseAt_of_reach hreach) hknows hfront henter
  leave := by
    intro path p a bindings a₁ r a₂ found hreach hthrough hleave h
    obtain ⟨sites, depth, hknows, hfront⟩ := Program.exists_knows hreach (Nat.le_refl _) hthrough
    rw [List.filterMap_append]
    have htarget (m : Moment) : [m].filterMap (Moment.target? program) = (m.target? program).toList := by
      rw [List.filterMap_cons]
      cases m.target? program <;> rfl
    rw [htarget]
    exact h.leave (Program.phraseAt_of_reach hreach) hthrough hknows hfront hleave

end Analyzer

end MonkeyLang
