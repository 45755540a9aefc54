import MonkeyLang.Proofs.Agreement
import MonkeyLang.Proofs.PassSteps
/-!
# Analysis and generation agree on names

The two passes are walked side by side. Where analysis finds nothing wrong with the names of a program, their scopes agree
before each phrase and behind it. So generation finds every name, in the storage of the very declaration that analysis finds
for it, and can only fail because something is too large.
-/

namespace MonkeyLang

/-! ### Tables of declarations -/

namespace DeclarationTable

/-- The outermost scope starts out with the built-in functions at their places. -/
theorem outermost_initial (name : String) :
    initial.outermost[name]? = builtins.findIdx? fun b => b.name == name := by
  by_cases hname : name ∈ builtins.map (·.name)
  · simp only [builtins, List.map_cons, List.map_nil, List.mem_cons, List.not_mem_nil, or_false] at hname
    rcases hname with rfl | rfl | rfl | rfl | rfl | rfl <;> rfl
  · rw [SymbolScope.findIdx?_builtins_eq_none hname]
    simp only [builtins, List.map_cons, List.map_nil, List.mem_cons, List.not_mem_nil, or_false, not_or] at hname
    obtain ⟨hlen, hputs, hfirst, hlast, hrest, hpush⟩ := hname
    simp only [initial, builtins, List.foldl_cons, List.foldl_nil, add]
    rw [getElem?_insert_of_ne (Ne.symm hpush), getElem?_insert_of_ne (Ne.symm hrest),
      getElem?_insert_of_ne (Ne.symm hlast), getElem?_insert_of_ne (Ne.symm hfirst),
      getElem?_insert_of_ne (Ne.symm hputs), getElem?_insert_of_ne (Ne.symm hlen)]
    simp

end DeclarationTable

namespace Analyzer

variable {a a' : Analyzer} {name : Ident} {r : Binding}

/-- A name that is referred to without an error has a declaration. -/
theorem exists_place_of_refer (h : refer name a = .ok (r, a')) (hclean : a'.Clean) :
    ∃ place d, placeIn a.table.scopes name.name = some place ∧ a.table.declarations[place]? = some d ∧
      a.table.lookup name.name name.span = .ok d := by
  unfold refer at h
  split at h
  case h_1 d hlookup =>
    have hfind : a.table.find? name.name = some d := by
      unfold DeclarationTable.lookup at hlookup
      split at hlookup
      case h_1 hfind =>
        cases hlookup
        exact hfind
      case h_2 => cases hlookup
    obtain ⟨place, hplace, hd⟩ := Option.bind_eq_some_iff.mp hfind
    exact ⟨place, d, hplace, hd, hlookup⟩
  case h_2 e hlookup =>
    cases h
    unfold DeclarationTable.lookup at hlookup
    split at hlookup
    · cases hlookup
    · cases hlookup
      cases hclean _ Array.mem_push_self

end Analyzer

/-! ### Walking side by side -/

/-- The innermost level suits a phrase that the walks come to: its name is pending if it is the function literal that a
`let` statement gives a name to, and nothing is pending otherwise. -/
def Level.Suits (program : Program) (path : Path) (l : Level) : Phrase → Prop
  | .expr (some name) e =>
    match e.function? with
    | some _ => ∃ statement, l.pending = some (name, statement) ∧
        (Origin.letStmt statement).literal? program = some (e.literalPath path)
    | none => l.pending = none
  | _ => l.pending = none

/-- The innermost level and those around it, inside of a phrase. -/
def Phrase.inside (path : Path) (l : Level) (ls : List Level) : Phrase → Level × List Level
  | .expr _ (.function _ _ _) => ({ function := path }, l :: ls)
  | .stmt (.letStmt name value _) =>
    match value.function? with
    | some _ => ({ l with pending := some (name.name, path) }, ls)
    | none => (l, ls)
  | .valueBlock _ => ({ l with depth := l.depth + 1 }, ls)
  | _ => (l, ls)

/-- Both walks have come to a phrase of a program, and their scopes agree. -/
structure Together (program : Program) (path : Path) (p : Phrase) (l : Level) (ls : List Level) (g : Generator)
    (a : Analyzer) : Prop where
  generated : program.generatedAt path = some (p, g)
  analyzed : program.analyzedAt path = some (p, a)
  functions : (l :: ls).map Level.function = program.functionsAround path
  suits : l.Suits program path p
  agree : ScopesAgree program (·.Precedes path) (l :: ls) g.scope.functions a.table.scopes

variable {program : Program} {path : Path} {p q : Phrase} {l : Level} {ls : List Level} {i : Nat}

theorem Phrase.inside_of_steady (h : p.changesScope = false) : p.inside path l ls = (l, ls) := by
  unfold Phrase.inside
  split
  · cases h
  · cases h
  · cases h
  · rfl

theorem Phrase.changesScope_of_part (hq : p.parts[i + 1]? = some q) : p.changesScope = false := by
  unfold Phrase.changesScope
  split
  case h_1 name params body span =>
    cases body
    simp [Phrase.parts] at hq
  case h_2 => simp [Phrase.parts] at hq
  case h_3 block =>
    cases block
    simp [Phrase.parts] at hq
  case h_4 => rfl

/-- Inside of a phrase, the functions around are those of its level. -/
theorem functions_inside (hphrase : program.phraseAt path = some p)
    (h : (l :: ls).map Level.function = program.functionsAround path) (i : Nat) :
    ((p.inside path l ls).1 :: (p.inside path l ls).2).map Level.function = program.functionsAround (i :: path) := by
  rw [Program.functionsAround, hphrase]
  unfold Phrase.inside
  split
  case h_1 => exact congrArg (path :: ·) h
  case h_2 => split <;> exact h
  case h_3 => exact h
  case h_4 hfunction _ _ =>
    split
    case h_1 heq =>
      cases heq
      exact absurd rfl (hfunction _ _ _ _)
    case h_2 => exact h

theorem Level.Suits.pending_eq_none (h : l.Suits program path p)
    (hp : ∀ name e, p = .expr (some name) e → e.function? = none) : l.pending = none := by
  unfold Level.Suits at h
  split at h
  case h_1 name e =>
    rw [hp name e rfl] at h
    exact h
  case h_2 => exact h

/-- The level inside of a phrase suits its parts. -/
theorem suits_inside (hphrase : program.phraseAt path = some p) (h : l.Suits program path p)
    (hq : p.parts[i]? = some q) : (p.inside path l ls).1.Suits program (i :: path) q := by
  induction p using Phrase.induction with
  | letStmt name value span =>
    obtain ⟨rfl, rfl⟩ : i = 0 ∧ q = .expr (some name.name) value := by
      cases i <;> simp_all [Phrase.parts]
    cases hvalue : value.function? with
    | none => simpa [Phrase.inside, Level.Suits, hvalue] using h
    | some literal => simp [Phrase.inside, Level.Suits, hvalue, Origin.literal?, hphrase]
  | paren name inner span =>
    obtain ⟨rfl, rfl⟩ : i = 0 ∧ q = .expr name inner := by
      cases i <;> simp_all [Phrase.parts]
    cases name <;> exact h
  | function name params body blockSpan span =>
    obtain ⟨rfl, rfl⟩ : i = 0 ∧ q = .functionStmts body := by
      cases i <;> simp_all [Phrase.parts]
    rfl
  | valueLast s | functionLast s =>
    have hpending := h.pending_eq_none (by simp)
    cases s <;> rcases i with _ | i <;> simp [Phrase.parts] at hq <;> subst hq <;> exact hpending
  | _ =>
    have hpending := h.pending_eq_none (by rintro _ _ ⟨⟩ <;> rfl)
    have hmem := List.mem_of_getElem? hq
    simp only [Phrase.parts, List.mem_cons, List.not_mem_nil, or_false] at hmem <;> rcases hmem with rfl | rfl | rfl <;>
      exact hpending

/-! ### Functions -/

namespace SymbolScope

theorem enterFunction_append (scope : SymbolScope) (name : Option String) (params : List Ident) (param : Ident) :
    scope.enterFunction name (params ++ [param]) = ((scope.enterFunction name params).define param.name).2 := by
  unfold enterFunction
  rw [List.foldl_append]
  rfl

theorem enclosing_enterFunction (scope : SymbolScope) (name : Option String) (params : List Ident) :
    (scope.enterFunction name params).enclosing = scope.functions := by
  have hfoldl (inner : SymbolScope) :
      (params.foldl (fun s param => (s.define param.name).2) inner).enclosing = inner.enclosing := by
    induction params generalizing inner with
    | nil => rfl
    | cons param params ih => exact ih _
  cases name <;> exact hfoldl _

end SymbolScope

/-- What is defined stands for its origin, in the function that it belongs to. -/
theorem Origin.denoted_define {done : Path → Prop} {origin : Origin} {scope : SymbolScope} {name : String}
    {fs : List FunctionScope} {function : Path} {functions : List Path}
    (hstorage : origin.storage? program = some (scope.define name).1.storage)
    (howner : origin.owner program = function) (hdone : origin.IsDone done) :
    origin.Denoted program done (scope.define name).1.storage fs (function :: functions) := by
  unfold SymbolScope.define at hstorage ⊢
  cases htop : scope.isTopLevel with
  | true =>
    simp only [htop, if_true] at hstorage ⊢
    exact .global hstorage hdone
  | false =>
    simp only [htop, Bool.false_eq_true, if_false] at hstorage ⊢
    exact .frame hstorage howner hdone

/-- Before any parameter is defined, a function that is entered knows only its own name, and that is the one that is pending outside
of it. -/
theorem Together.entered {name : Option String} {params : List Ident} {body : Block} {span : Span} {g : Generator} {a : Analyzer}
    (h : Together program path (.expr name (.function params body span)) l ls g a) :
    LevelAgrees program (·.Precedes path) (l :: ls) g.scope.functions a.table.scopes { function := path }
        (g.scope.enterFunction name []).current [∅] ∧
      ∀ pending statement, l.pending = some (pending, statement) →
        (g.scope.enterFunction name []).current.base[pending]? ≠ none := by
  cases name with
  | none =>
    refine ⟨LevelAgrees.entered rfl ?_, ?_⟩
    · intro other storage hstorage
      cases (FunctionScope.find?_empty other).symm.trans hstorage
    · intro pending statement hpending
      cases h.suits.symm.trans hpending
  | some name =>
    obtain ⟨statement, hpending, hliteral⟩ := h.suits
    obtain ⟨inner, outer, hscopes, hlevel, -⟩ := h.agree.innermost fun _ hpath => hpath
    obtain ⟨s, place, hhead, hs, hplace⟩ := hlevel.pending name statement hpending
    obtain ⟨rest, rfl⟩ := List.head?_eq_some_iff.mp hhead
    have hfound : placeIn a.table.scopes name = some place := by
      rw [hscopes, placeIn, List.cons_append, List.findSome?_cons, hs]
    have hfind (other : String) : (g.scope.enterFunction (some name) []).current.find? other =
        if name = other then some .running else none := by
      change (FunctionScope.insert {} name .running).find? other = _
      rw [FunctionScope.find?_insert, FunctionScope.find?_empty]
    refine ⟨LevelAgrees.entered rfl ?_, ?_⟩
    · intro other storage hstorage
      rw [hfind] at hstorage
      split at hstorage
      case isTrue hname =>
        cases hstorage
        exact hname ▸ ⟨place, hfound, .letStmt statement, hplace, .running hliteral⟩
      case isFalse => cases hstorage
    · intro pending statement' hpending'
      cases hpending.symm.trans hpending'
      rw [FunctionScope.getElem?_base_of_depth_eq_zero rfl, hfind]
      simp

/-- The names of a function that is entered agree with the scope of its parameters. -/
theorem Together.params {name : Option String} {params : List Ident} {body : Block} {span : Span} {g : Generator}
    {a a' : Analyzer} (h : Together program path (.expr name (.function params body span)) l ls g a) {k : Nat}
    (hk : k ≤ params.length)
    (henter : (do Analyzer.openScope; Analyzer.declareParams (params.take k)) a = .ok ((), a')) (hclean : a'.Clean) :
    ∃ s, a'.table.scopes = s :: a.table.scopes ∧
      LevelAgrees program (·.Precedes path) (l :: ls) g.scope.functions a.table.scopes { function := path }
        (g.scope.enterFunction name (params.take k)).current [s] ∧
      ∀ pending statement, l.pending = some (pending, statement) →
        (g.scope.enterFunction name (params.take k)).current.base[pending]? ≠ none := by
  induction k generalizing a' with
  | zero =>
    cases henter
    exact ⟨∅, rfl, h.entered⟩
  | succ k ih =>
    have hlt : k < params.length := hk
    have hparam : params[k]? = some params[k] := List.getElem?_eq_getElem hlt
    rw [List.take_succ_eq_append_getElem hlt, Analyzer.declareParams_append] at henter
    rw [List.take_succ_eq_append_getElem hlt, SymbolScope.enterFunction_append]
    obtain ⟨⟨⟩, a₁, henter₁, hdeclare⟩ : ∃ r a₁,
        (do Analyzer.openScope; Analyzer.declareParams (params.take k)) a = .ok (r, a₁) ∧
          Analyzer.declare params[k] .parameter a₁ = .ok ((), a') := by
      rw [← bind_assoc, Analyzer.declareParams, Analyzer.declareParams, bind_pure_unit] at henter
      exact bind_eq_ok.mp henter
    have hclean₁ := (Analyzer.grows_declare _ _ _ _ _ hdeclare).clean hclean
    obtain ⟨s, hscopes, hlevel, htaken⟩ := ih (Nat.le_of_lt hlt) henter₁ hclean₁
    have htable := Analyzer.table_of_declare hdeclare hclean
    rw [htable]
    refine ⟨_, DeclarationTable.scopes_add hscopes _, ?_, ?_⟩
    · refine hlevel.define rfl (Nat.le_succ _) (fun _ hpath => hpath) ⟨.param path k, ?_, ?_⟩
      · simp [Origin.place?, h.analyzed, henter₁, hparam]
      · have hstorage : (Origin.param path k).storage? program =
            some ((g.scope.enterFunction name (params.take k)).define params[k].name).1.storage := by
          simp [Origin.storage?, h.generated, hparam]
        exact Origin.denoted_define hstorage rfl trivial
    · intro pending statement hpending
      exact FunctionScope.base_insert_ne_none (htaken pending statement hpending)

/-! ### Steps that change scopes -/

/-- The phrase at a path is done when the walks leave that at another path. -/
def Path.Past (path other : Path) : Prop := path.Precedes other ∨ other <:+ path

variable {g g' : Generator} {a a' : Analyzer}

namespace Together

theorem enter_function {name : Option String} {params : List Ident} {body : Block} {span : Span}
    (h : Together program path (.expr name (.function params body span)) l ls g a)
    (henter : analysis.enter (.expr name (.function params body span)) 0 a = .ok ((), a')) (hclean : a'.Clean) :
    Generator.Yields (generation.enter (.expr name (.function params body span)) 0) g fun _ g' =>
      ScopesAgree program (·.Precedes (0 :: path)) ({ function := path } :: l :: ls) g'.scope.functions
        a'.table.scopes := by
  have hparams : (do Analyzer.openScope; Analyzer.declareParams (params.take params.length)) a = .ok ((), a') := by
    rw [List.take_length]
    exact henter
  obtain ⟨s, hscopes, hlevel, htaken⟩ := h.params (Nat.le_refl _) hparams hclean
  rw [List.take_length] at hlevel htaken
  refine Generator.yields_of_eq_ok (bind_eq_ok.mpr ⟨(), g.skip Generator.jumpSize, rfl, Generator.enterFunction_eq_ok.mpr rfl⟩) ?_
  have hinto (κ : Path) (hκ : κ.Precedes path) : κ.Precedes (0 :: path) := hκ.into 0
  change ScopesAgree _ _ _ ((g.scope.enterFunction name params).current :: (g.scope.enterFunction name params).enclosing) _
  rw [SymbolScope.enclosing_enterFunction, hscopes]
  exact .function (hlevel.mono hinto (ScopesGrow.refl _)) (h.agree.mono hinto) htaken

theorem enter_let {name : Ident} {value : Expr} {span : Span}
    (h : Together program path (.stmt (.letStmt name value span)) l ls g a)
    (henter : analysis.enter (.stmt (.letStmt name value span)) 0 a = .ok ((), a')) (hclean : a'.Clean) :
    Generator.Yields (generation.enter (.stmt (.letStmt name value span)) 0) g fun _ g' =>
      ScopesAgree program (·.Precedes (0 :: path))
        (((Phrase.stmt (.letStmt name value span)).inside path l ls).1 ::
          ((Phrase.stmt (.letStmt name value span)).inside path l ls).2) g'.scope.functions a'.table.scopes := by
  have hinto (κ : Path) (hκ : κ.Precedes path) : κ.Precedes (0 :: path) := hκ.into 0
  refine Generator.yields_of_eq_ok (Generator.setLine_eq_ok.mpr rfl) ?_
  change Analyzer.enterPart (.stmt (.letStmt name value span)) 0 a = .ok ((), a') at henter
  unfold Analyzer.enterPart at henter
  cases hvalue : value.function? with
  | none =>
    simp only [hvalue] at henter
    cases henter
    simp only [Phrase.inside, hvalue]
    exact h.agree.mono hinto
  | some literal =>
    simp only [hvalue] at henter
    simp only [Phrase.inside, hvalue]
    obtain ⟨inner, outer, hscopes, hlevel, hrebuild⟩ := h.agree.innermost hinto
    obtain ⟨s, rest, rfl⟩ := hlevel.exists_cons
    have hplace : (Origin.letStmt path).place? program = some a.table.declarations.size := by
      simp [Origin.place?, h.analyzed, hvalue]
    rw [Analyzer.table_of_declare henter hclean, DeclarationTable.scopes_add hscopes]
    exact hrebuild _ _ _ ((hlevel.declare h.suits hplace).mono hinto (ScopesGrow.refl _)) fun _ hbase => hbase

theorem enter_block {block : Block} (h : Together program path (.valueBlock block) l ls g a)
    (henter : analysis.enter (.valueBlock block) 0 a = .ok ((), a')) :
    Generator.Yields (generation.enter (.valueBlock block) 0) g fun _ g' =>
      ScopesAgree program (·.Precedes (0 :: path)) ({ l with depth := l.depth + 1 } :: ls) g'.scope.functions
        a'.table.scopes := by
  have hinto (κ : Path) (hκ : κ.Precedes path) : κ.Precedes (0 :: path) := hκ.into 0
  refine Generator.yields_of_eq_ok (Generator.modifyScope_eq_ok.mpr rfl) ?_
  obtain ⟨inner, outer, hscopes, hlevel, hrebuild⟩ := h.agree.innermost hinto
  cases henter
  have hopened : a.table.openScope.scopes = (∅ :: inner) ++ outer := congrArg (∅ :: ·) hscopes
  rw [hopened]
  exact hrebuild _ _ _ ((hlevel.openBlock h.suits).mono hinto (ScopesGrow.refl _)) fun _ hbase => hbase

theorem leave_function {name : Option String} {params : List Ident} {body : Block} {span : Span} {g₀ : Generator}
    {a₀ : Analyzer} {us : List Unit} {bs : List Binding} {r : Binding}
    (hagree : ScopesAgree program (·.Precedes (1 :: path)) ({ function := path } :: l :: ls) g.scope.functions
      a.table.scopes)
    (hleave : analysis.leave (.expr name (.function params body span)) a₀ bs a = .ok (r, a')) :
    Generator.Yields (generation.leave (.expr name (.function params body span)) g₀ us) g fun _ g' =>
      ScopesAgree program (·.Past path) (l :: ls) g'.scope.functions a'.table.scopes := by
  obtain ⟨⟨⟩, a₁, hclose, hpure⟩ := bind_eq_ok.mp hleave
  cases hpure
  rw [Analyzer.scopes_of_closeScope hclose]
  generalize hscopes : a.table.scopes = scopes at hagree
  unfold SymbolScope.functions at hagree
  generalize henclosing : g.scope.enclosing = enclosing at hagree
  cases hagree with
  | @function _ _ _ _ f fs inner outer hlevel houter _ =>
    obtain ⟨s, rfl⟩ := List.length_eq_one_iff.mp hlevel.length_eq
    have hleft : g.scope.leave? = some (g.scope.current, ⟨f, fs⟩) := by rw [SymbolScope.leave?, henclosing]
    have hleaves : Generator.Yields Generator.leaveFunction g fun _ g₁ => g₁.scope = ⟨f, fs⟩ :=
      Generator.yields_of_eq_ok (Generator.leaveFunction_eq_ok.mpr ⟨_, hleft, rfl⟩) rfl
    refine hleaves.bind ?_
    intro left g₁ hscope
    have hsteady : Generator.Steady (do
        discard Generator.here
        Generator.setLine span.line
        discard (Generator.loadAll #[] left.captures)
        discard (Generator.closure (g₀.offset + Generator.jumpSize) params left)) :=
      .bind (.discard .here) fun _ => .bind (.setLine _) fun _ =>
        .bind (.discard (.loadAll _ _)) fun _ => .discard (.closure _ _ _)
    refine (hsteady g₁).mono ?_
    intro _ g₂ hscope₂
    rw [hscope₂, hscope]
    exact houter.mono fun _ => Path.Precedes.out

theorem leave_block {block : Block} {g₀ : Generator} {a₀ : Analyzer} {us : List Unit} {bs : List Binding} {r : Binding}
    (hpending : l.pending = none)
    (hagree : ScopesAgree program (·.Precedes (1 :: path)) ({ l with depth := l.depth + 1 } :: ls) g.scope.functions
      a.table.scopes)
    (hleave : analysis.leave (.valueBlock block) a₀ bs a = .ok (r, a')) :
    Generator.Yields (generation.leave (.valueBlock block) g₀ us) g fun _ g' =>
      ScopesAgree program (·.Past path) (l :: ls) g'.scope.functions a'.table.scopes := by
  have hout (κ : Path) (hκ : κ.Precedes (1 :: path)) : κ.Past path := hκ.out
  obtain ⟨⟨⟩, a₁, hclose, hpure⟩ := bind_eq_ok.mp hleave
  cases hpure
  refine Generator.yields_of_eq_ok (Generator.modifyScope_eq_ok.mpr rfl) ?_
  obtain ⟨inner, outer, hscopes, hlevel, hrebuild⟩ := hagree.innermost hout
  have htail : a'.table.scopes = inner.tail ++ outer := by
    obtain ⟨s, rest, rfl⟩ := hlevel.exists_cons
    rw [Analyzer.scopes_of_closeScope hclose, hscopes]
    rfl
  rw [htail]
  refine hrebuild _ _ _ ((hlevel.closeBlock hpending).mono hout (ScopesGrow.refl _)) ?_
  intro name hbase
  change g.scope.current.closeBlock.base[name]? ≠ none
  rwa [FunctionScope.base_closeBlock (List.ne_nil_of_length_eq_add_one hlevel.depth)]

theorem leave_let {name : Ident} {value : Expr} {span : Span} {g₀ : Generator} {a₀ : Analyzer} {us us' : List Unit}
    {bs bs' : List Binding} {r : Binding} (h : Together program path (.stmt (.letStmt name value span)) l ls g₀ a₀)
    (hgenerated : generation.through (.stmt (.letStmt name value span)) 1 g₀ = .ok (us', g))
    (hanalyzed : analysis.through (.stmt (.letStmt name value span)) 1 a₀ = .ok (bs', a))
    (hagree : ScopesAgree program (·.Precedes (1 :: path))
      (((Phrase.stmt (.letStmt name value span)).inside path l ls).1 ::
        ((Phrase.stmt (.letStmt name value span)).inside path l ls).2) g.scope.functions a.table.scopes)
    (hleave : analysis.leave (.stmt (.letStmt name value span)) a₀ bs a = .ok (r, a')) (hclean : a'.Clean) :
    Generator.Yields (generation.leave (.stmt (.letStmt name value span)) g₀ us) g fun _ g' =>
      ScopesAgree program (·.Past path) (l :: ls) g'.scope.functions a'.table.scopes := by
  have hout (κ : Path) (hκ : κ.Precedes (1 :: path)) : κ.Past path := hκ.out
  have hdefine : Generator.Yields (Generator.define name.name) g fun symbol g₁ =>
      symbol = (g.scope.define name.name).1 ∧ g₁.scope = (g.scope.define name.name).2 := Generator.yields_of_eq_ok rfl ⟨rfl, rfl⟩
  refine hdefine.bind ?_
  rintro _ g₁ ⟨rfl, hscope⟩
  refine ((Generator.Steady.store_define g.scope name.name).discard g₁).mono ?_
  intro _ g₂ hscope₂
  rw [hscope₂, hscope]
  have hpending : l.pending = none := h.suits
  have hstorage : (Origin.letStmt path).storage? program = some (g.scope.define name.name).1.storage := by
    simp [Origin.storage?, h.generated, hgenerated]
  have howner : (Origin.letStmt path).owner program = l.function := by
    rw [Origin.owner, ← h.functions]
    rfl
  have hdenoted (fs : List FunctionScope) (functions : List Path) :
      (Origin.letStmt path).Denoted program (·.Past path) (g.scope.define name.name).1.storage fs
        (l.function :: functions) := Origin.denoted_define hstorage howner (.inr List.suffix_rfl)
  have hbase (other : String) (hother : g.scope.current.base[other]? ≠ none) :
      (g.scope.define name.name).2.current.base[other]? ≠ none := FunctionScope.base_insert_ne_none hother
  cases hvalue : value.function? with
  | some literal =>
    simp only [analysis, Analyzer.leavePhrase, hvalue] at hleave
    cases hleave
    simp only [Phrase.inside, hvalue] at hagree
    obtain ⟨inner, outer, hscopes, hlevel, hrebuild⟩ := hagree.innermost hout
    rw [hscopes]
    exact hrebuild _ _ _ (hlevel.definePending hpending (Nat.le_succ _) hout (hdenoted _ _)) hbase
  | none =>
    simp only [analysis, Analyzer.leavePhrase, hvalue] at hleave
    obtain ⟨⟨⟩, a₁, hdeclare, hpure⟩ := bind_eq_ok.mp hleave
    cases hpure
    simp only [Phrase.inside, hvalue] at hagree
    obtain ⟨inner, outer, hscopes, hlevel, hrebuild⟩ := hagree.innermost hout
    obtain ⟨s, rest, rfl⟩ := hlevel.exists_cons
    have hplace : (Origin.letStmt path).place? program = some a.table.declarations.size := by
      simp [Origin.place?, h.analyzed, hvalue, hanalyzed]
    rw [Analyzer.table_of_declare hdeclare hclean, DeclarationTable.scopes_add hscopes]
    exact hrebuild _ _ _ (hlevel.define hpending (Nat.le_succ _) hout ⟨.letStmt path, hplace, hdenoted _ _⟩) hbase

/-- A declared name that the walks come to is resolved to a symbol that stands for the declaration. -/
theorem resolve {name : Option String} {id : Ident} (h : Together program path (.expr name (.ident id)) l ls g a)
    {place : Nat} (hplace : placeIn a.table.scopes id.name = some place) :
    ∃ symbol scope, g.scope.resolve id.name = (some symbol, scope) ∧
      ScopesAgree program (·.Precedes path) (l :: ls) scope.functions a.table.scopes ∧
      Stands program (·.Precedes path) scope.functions (program.functionsAround path) symbol.storage place := by
  have hpending : l.pending = none := h.suits.pending_eq_none (by simp [Expr.function?, Expr.unparen])
  rw [← h.functions]
  exact h.agree.resolve (by simp [hpending]) hplace

theorem leave_ident {name : Option String} {id : Ident} {a₀ : Analyzer} {us : List Unit} {bs : List Binding}
    {r : Binding} (h : Together program path (.expr name (.ident id)) l ls g a)
    (hleave : analysis.leave (.expr name (.ident id)) a₀ bs a = .ok (r, a')) (hclean : a'.Clean) :
    Generator.Yields (generation.leave (.expr name (.ident id)) g us) g fun _ g' =>
      ScopesAgree program (·.Past path) (l :: ls) g'.scope.functions a'.table.scopes := by
  obtain ⟨place, d, hplace, -⟩ := Analyzer.exists_place_of_refer hleave hclean
  obtain ⟨symbol, scope, hresolve, hagree, -⟩ := h.resolve hplace
  have hresolves : Generator.Yields (Generator.resolve id) g fun _ g₁ => g₁.scope = scope :=
    Generator.yields_of_eq_ok (Generator.resolve_eq_ok.mpr ⟨scope, hresolve, rfl⟩) rfl
  refine hresolves.bind ?_
  intro symbol g₁ hscope
  refine ((Generator.Steady.load symbol).discard g₁).mono ?_
  intro _ g₂ hscope₂
  rw [hscope₂, hscope, (Analyzer.mild_refer id _ _ _ hleave).2]
  exact hagree.mono fun _ => .inl

end Together

/-! ### Whole walks -/

/-- The levels when some parts of a phrase have been walked. -/
def Phrase.levels (path : Path) (l : Level) (ls : List Level) (p : Phrase) : Nat → List Level
  | 0 => l :: ls
  | _ + 1 => (p.inside path l ls).1 :: (p.inside path l ls).2

theorem Phrase.levels_of_steady (h : p.changesScope = false) (i : Nat) : p.levels path l ls i = l :: ls := by
  cases i with
  | zero => rfl
  | succ i => rw [Phrase.levels, Phrase.inside_of_steady h]

/-- Both walks have been through the first parts of a phrase. -/
structure PartsTogether (program : Program) (path : Path) (p : Phrase) (l : Level) (ls : List Level) (i : Nat)
    (g₀ : Generator) (a₀ : Analyzer) (g : Generator) (a : Analyzer) : Prop where
  start : Together program path p l ls g₀ a₀
  generated : ∃ us, generation.through p i g₀ = .ok (us, g)
  analyzed : ∃ bs, analysis.through p i a₀ = .ok (bs, a)
  agree : ScopesAgree program (·.Precedes (i :: path)) (p.levels path l ls i) g.scope.functions a.table.scopes

namespace PartsTogether

variable {g₀ : Generator} {a₀ : Analyzer}

theorem scopesAgree_enter (h : PartsTogether program path p l ls i g₀ a₀ g a) (hq : p.parts[i]? = some q)
    (henter : analysis.enter p i a = .ok ((), a')) (hclean : a'.Clean) :
    Generator.Yields (generation.enter p i) g fun _ g' =>
      ScopesAgree program (·.Precedes (i :: path)) ((p.inside path l ls).1 :: (p.inside path l ls).2)
        g'.scope.functions a'.table.scopes := by
  by_cases hsteady : p.changesScope = false
  · have hagree := h.agree
    rw [Phrase.levels_of_steady hsteady] at hagree
    rw [Phrase.inside_of_steady hsteady, (Analyzer.mild_enterPart hsteady i _ _ _ henter).2]
    refine (Generator.Steady.enterPart hsteady i g).mono ?_
    intro _ g' hscope
    rwa [hscope]
  · -- Such a phrase has one part only, so nothing has been walked of it.
    obtain rfl : i = 0 := by
      cases i with
      | zero => rfl
      | succ i => exact absurd (Phrase.changesScope_of_part hq) hsteady
    obtain ⟨_, hgenerated⟩ := h.generated
    obtain ⟨_, hanalyzed⟩ := h.analyzed
    cases hgenerated
    cases hanalyzed
    have hstart := h.start
    unfold Phrase.changesScope at hsteady
    split at hsteady
    case h_1 => exact hstart.enter_function henter hclean
    case h_2 => exact hstart.enter_let henter hclean
    case h_3 => exact hstart.enter_block henter
    case h_4 => exact absurd rfl hsteady

/-- The walks come to the next part of a phrase. -/
theorem enter (h : PartsTogether program path p l ls i g₀ a₀ g a) (hq : p.parts[i]? = some q)
    (henter : analysis.enter p i a = .ok ((), a')) (hclean : a'.Clean) :
    Generator.Yields (generation.enter p i) g fun _ g' =>
      Together program (i :: path) q (p.inside path l ls).1 (p.inside path l ls).2 g' a' := by
  refine (h.scopesAgree_enter hq henter hclean).self.mono ?_
  rintro ⟨⟩ g' ⟨hgenerate, hagree⟩
  obtain ⟨us, hgenerated⟩ := h.generated
  obtain ⟨bs, hanalyzed⟩ := h.analyzed
  have hphrase := Program.phraseAt_of_generatedAt h.start.generated
  exact {
    generated := Pass.reach_cons_eq_some.mpr ⟨p, g₀, us, g, h.start.generated, hq, hgenerated, hgenerate⟩
    analyzed := Pass.reach_cons_eq_some.mpr ⟨p, a₀, bs, a, h.start.analyzed, hq, hanalyzed, henter⟩
    functions := functions_inside hphrase h.start.functions i
    suits := suits_inside hphrase h.start.suits hq
    agree := hagree }

/-- The walks leave a phrase. -/
theorem leave (h : PartsTogether program path p l ls p.parts.length g₀ a₀ g a) {us : List Unit} {bs : List Binding}
    {r : Binding} (hleave : analysis.leave p a₀ bs a = .ok (r, a')) (hclean : a'.Clean) :
    Generator.Yields (generation.leave p g₀ us) g fun _ g' =>
      ScopesAgree program (·.Past path) (l :: ls) g'.scope.functions a'.table.scopes := by
  obtain ⟨us', hgenerated⟩ := h.generated
  obtain ⟨bs', hanalyzed⟩ := h.analyzed
  have hagree := h.agree
  by_cases hsteady : p.changesScope = false
  · by_cases hident : ∀ name id, p ≠ .expr name (.ident id)
    · rw [Phrase.levels_of_steady hsteady] at hagree
      rw [(Analyzer.mild_leavePhrase hsteady bs _ _ _ hleave).2]
      refine (Generator.Steady.leavePhrase hsteady hident g₀ g).mono ?_
      intro _ g' hscope
      rw [hscope]
      exact hagree.mono fun _ => Path.Precedes.out
    · obtain ⟨name, id, rfl⟩ : ∃ name id, p = .expr name (.ident id) := by simpa using hident
      cases hgenerated
      cases hanalyzed
      exact h.start.leave_ident hleave hclean
  · have hstart := h.start
    unfold Phrase.changesScope at hsteady
    split at hsteady
    case h_1 name params body span =>
      cases body
      exact Together.leave_function hagree hleave
    case h_2 => exact hstart.leave_let hgenerated hanalyzed hagree hleave hclean
    case h_3 block =>
      cases block
      exact Together.leave_block hstart.suits hagree hleave
    case h_4 => exact absurd rfl hsteady

end PartsTogether

namespace Together

/-- If the scopes agree behind each part of a phrase, they do so when some of them have been walked. -/
theorem through (h : Together program path p l ls g a)
    (hparts : ∀ q ∈ p.parts, ∀ {path l ls g a r a'}, Together program path q l ls g a → analysis.run q a = .ok (r, a') →
      a'.Clean → Generator.Yields (generation.run q) g fun _ g' =>
        ScopesAgree program (·.Past path) (l :: ls) g'.scope.functions a'.table.scopes)
    (hi : i ≤ p.parts.length) {bs : List Binding} (hanalyzed : analysis.through p i a = .ok (bs, a'))
    (hclean : a'.Clean) :
    Generator.Yields (generation.through p i) g fun _ g' => PartsTogether program path p l ls i g a g' a' := by
  induction i generalizing bs a' with
  | zero =>
    cases hanalyzed
    have hinto (κ : Path) (hκ : κ.Precedes path) : κ.Precedes (0 :: path) := hκ.into 0
    exact ⟨h, ⟨[], rfl⟩, ⟨[], rfl⟩, h.agree.mono hinto⟩
  | succ i ih =>
    have hq : p.parts[i]? = some p.parts[i] := List.getElem?_eq_getElem hi
    obtain ⟨_, a₁, a₂, b, a₃, hthrough, henter, hrun, heq⟩ := (Pass.through_succ_eq_ok hq).mp hanalyzed
    cases heq
    have hclean₂ := (Analyzer.grows_run hrun).clean hclean
    have hclean₁ := (Analyzer.grows_enterPart p i _ _ _ henter).clean hclean₂
    have hgenerates : Generator.Yields (generation.through p (i + 1)) g fun _ g' =>
        ScopesAgree program (·.Precedes ((i + 1) :: path)) (p.levels path l ls (i + 1)) g'.scope.functions
          a'.table.scopes := by
      rw [Pass.through_succ hq]
      refine (ih (Nat.le_of_succ_le hi) hthrough hclean₁).bind ?_
      intro us g₁ hthrough₁
      refine (hthrough₁.enter hq henter hclean₂).bind ?_
      intro _ g₂ htogether
      refine (hparts _ (List.getElem_mem hi) htogether hrun hclean).bind ?_
      intro _ g₃ hagree
      exact hagree.mono fun _ => Path.Precedes.next
    refine hgenerates.self.mono ?_
    rintro us g' ⟨hgenerated, hagree⟩
    exact ⟨h, ⟨us, hgenerated⟩, ⟨_, hanalyzed⟩, hagree⟩

/-- Where analysis finds nothing wrong with the names of a phrase, the scopes agree behind it. -/
theorem run (h : Together program path p l ls g a) {r : Binding} (hrun : analysis.run p a = .ok (r, a'))
    (hclean : a'.Clean) : Generator.Yields (generation.run p) g fun _ g' =>
      ScopesAgree program (·.Past path) (l :: ls) g'.scope.functions a'.table.scopes := by
  induction hsize : p.size using Nat.strongRecOn generalizing p path l ls g a r a' with
  | ind n ih =>
    subst hsize
    obtain ⟨bs, a₁, hthrough, hleave⟩ := Pass.run_eq_ok.mp hrun
    have hclean₁ := (Analyzer.grows_leavePhrase p bs _ _ _ hleave).clean hclean
    have hparts := h.through
      (fun q hq _ _ _ _ _ _ _ hpart hrun hclean => ih _ (Phrase.size_lt_of_mem_parts hq) hpart hrun hclean rfl)
      (Nat.le_refl _) hthrough hclean₁
    unfold Generator.Yields
    rw [generation.run_eq p g]
    refine hparts.bind ?_
    intro us g₁ hthrough₁
    exact hthrough₁.leave hleave hclean

/-- Both walks start out at the top level. -/
theorem initial (program : Program) : Together program [] program.root { function := [] } [] .initial .initial where
  generated := rfl
  analyzed := rfl
  functions := rfl
  suits := rfl
  agree := by
    refine .topLevel ⟨?_, nofun, rfl⟩
    rw [FunctionScope.maps_of_depth_eq_zero rfl]
    refine .base ?_
    intro name _
    change NameAgrees _ none DeclarationTable.initial.outermost[name]? SymbolScope.topLevel.current.base[name]?
    rw [SymbolScope.topLevel_base, DeclarationTable.outermost_initial]
    cases builtins.findIdx? fun b => b.name == name with
    | none => rfl
    | some index => exact ⟨index, rfl, .builtin index, rfl, .builtin rfl⟩

/-- Wherever generation comes to, analysis comes to as well. -/
theorem of_generatedAt {r : Binding} (hrun : analysis.run program.root .initial = .ok (r, a')) (hclean : a'.Clean)
    (h : program.generatedAt path = some (p, g)) :
    ∃ l ls a r a', Together program path p l ls g a ∧ analysis.run p a = .ok (r, a') ∧ a'.Clean := by
  induction path generalizing p g with
  | nil =>
    cases h
    exact ⟨_, _, _, r, a', initial program, hrun, hclean⟩
  | cons i path ih =>
    obtain ⟨p₀, g₀, us, g₁, hreach, hq, hthrough, henter⟩ := Pass.reach_cons_eq_some.mp h
    obtain ⟨l, ls, a₀, r₀, a₀', htogether, hrun₀, hclean₀⟩ := ih hreach
    have hi : i < p₀.parts.length := (List.getElem?_eq_some_iff.mp hq).1
    obtain ⟨_, a₃, hthrough₃, hgrows⟩ := Analyzer.exists_through hrun₀ hi
    obtain ⟨_, a₁, a₂, r₂, _, hthrough₁, henter₁, hrun₂, heq⟩ := (Pass.through_succ_eq_ok hq).mp hthrough₃
    cases heq
    have hclean₃ := hgrows.clean hclean₀
    have hclean₂ := (Analyzer.grows_run hrun₂).clean hclean₃
    have hclean₁ := (Analyzer.grows_enterPart p₀ i _ _ _ henter₁).clean hclean₂
    have hparts := (htogether.through (fun _ _ _ _ _ _ _ _ _ hpart => hpart.run) (Nat.le_of_lt hi) hthrough₁
      hclean₁).of_eq_ok hthrough
    exact ⟨_, _, a₂, r₂, a₃, (hparts.enter hq henter₁ hclean₂).of_eq_ok henter, hrun₂, hclean₃⟩

end Together

theorem Generator.run_root_of_generate {e : GenerationError} (h : generate program = .error e) :
    generation.run program.root .initial = .error e := by
  rw [generate_eq_assemble, Generator.assemble] at h
  cases hstmts : Generator.stmts #[] program.stmts .initial with
  | ok r =>
    rw [hstmts] at h
    cases h
  | error e' =>
    rw [hstmts] at h
    cases h
    change discard (Generator.stmts #[] program.stmts) .initial = _
    rw [discard_eq]
    change Except.bind (Generator.stmts #[] program.stmts .initial) _ = _
    rw [hstmts]
    rfl

theorem Analyzer.exists_run_of_analyze {options : AnalysisOptions} {result : Analysis}
    (h : analyze options program = .ok result) (hclean : ∀ e ∈ result.errors, e.isScoping = false) :
    ∃ r a, analysis.run program.root .initial = .ok (r, a) ∧ a.Clean := by
  unfold analyze at h
  rw [visitStmts_eq] at h
  cases hvisit : Analyzer.walkStmts program.stmts Analyzer.initial with
  | error e =>
    rw [hvisit] at h
    cases h
  | ok visited =>
    obtain ⟨⟨⟩, a⟩ := visited
    have hrun : analysis.run program.root .initial = .ok (.value, a) := bind_eq_ok.mpr ⟨(), a, hvisit, rfl⟩
    refine ⟨.value, a, hrun, ?_⟩
    intro e he
    refine hclean e ?_
    rw [hvisit] at h
    cases hoption : options.unusedAsError with
    | true =>
      simp only [hoption] at h
      cases h
      exact List.mem_append_left _ (Array.mem_toList_iff.mpr he)
    | false =>
      simp only [hoption] at h
      cases h
      exact Array.mem_toList_iff.mpr he

/-- If analysis finds every name of a program declared, and once only, then generation fails at most because something is
too large. Each name that it comes to is resolved to a symbol, and this stands for the declaration that analysis finds. -/
theorem resolve_agrees_with_lookup {options : AnalysisOptions} {result : Analysis}
    (hanalyze : analyze options program = .ok result) (hclean : ∀ e ∈ result.errors, e.isScoping = false) :
    (∀ e, generate program = .error e → e.isSize = true) ∧
      ∀ path name id g, program.generatedAt path = some (.expr name (.ident id), g) →
        ∃ a symbol scope place declaration origin, program.analyzedAt path = some (.expr name (.ident id), a) ∧
          g.scope.resolve id.name = (some symbol, scope) ∧
          a.table.place? id.name = some place ∧ a.table.declarations[place]? = some declaration ∧
          a.table.lookup id.name id.span = .ok declaration ∧
          Origin.place? program origin = some place ∧
          origin.Denoted program (·.Precedes path) symbol.storage scope.functions (program.functionsAround path) ∧
          (symbol.storage = .running ↔ origin.literal? program = (program.functionsAround path).head?) := by
  obtain ⟨r, a', hrun, hclean'⟩ := Analyzer.exists_run_of_analyze hanalyze hclean
  refine ⟨?_, ?_⟩
  · intro e he
    exact ((Together.initial program).run hrun hclean').isSize (Generator.run_root_of_generate he)
  · intro path name id g hgenerated
    obtain ⟨l, ls, a, r, a', htogether, hrefer, hclean⟩ := Together.of_generatedAt hrun hclean' hgenerated
    obtain ⟨place, declaration, hplace, hdeclaration, hlookup⟩ := Analyzer.exists_place_of_refer hrefer hclean
    obtain ⟨symbol, scope, hresolve, -, origin, horigin, hdenoted⟩ := htogether.resolve hplace
    exact ⟨a, symbol, scope, place, declaration, origin, htogether.analyzed, hresolve, hplace, hdeclaration, hlookup,
      horigin, hdenoted, hdenoted.running_iff⟩

/-- A function with a name and a parameter that are both used in a function inside, in a block of its own. -/
def innerCall : Program :=
  let f : Ident := ⟨"f", default⟩
  let n : Ident := ⟨"n", default⟩
  let inner : Expr := .function [] (.mk [.exprStmt (.call (.ident f) [.ident n] default) default] default) default
  let test : Expr := .ifElse (.ident n) (.mk [.exprStmt inner default] default) none default
  ⟨[.letStmt f (.function [n] (.mk [.exprStmt test default] default) default) default], default⟩

theorem resolve_agrees_innerCall : ∃ result g a symbol scope place declaration origin,
    analyze {} innerCall = .ok result ∧ (∀ e ∈ result.errors, e.isScoping = false) ∧
      innerCall.generatedAt [0, 0, 0, 0, 0, 1, 0, 0, 0, 0] = some (.expr none (.ident ⟨"f", default⟩), g) ∧
      innerCall.analyzedAt [0, 0, 0, 0, 0, 1, 0, 0, 0, 0] = some (.expr none (.ident ⟨"f", default⟩), a) ∧
      g.scope.resolve "f" = (some symbol, scope) ∧ a.table.place? "f" = some place ∧
      a.table.declarations[place]? = some declaration ∧ a.table.lookup "f" default = .ok declaration ∧
      Origin.place? innerCall origin = some place ∧
      origin.Denoted innerCall (·.Precedes [0, 0, 0, 0, 0, 1, 0, 0, 0, 0]) symbol.storage scope.functions
        [[0, 0, 1, 0, 0, 0, 0], [0, 0], []] := by
  obtain ⟨result, hresult⟩ : ∃ result, analyze {} innerCall = .ok result := exists_ok_of_isOk (by decide +kernel)
  have herrors : ∀ e ∈ result.errors, e.isScoping = false := by
    have hall : (match analyze {} innerCall with
        | .ok result => result.errors.all fun e => !e.isScoping
        | .error _ => false) = true := by decide +kernel
    rw [hresult] at hall
    simpa using hall
  obtain ⟨⟨p, g⟩, hg⟩ := Option.isSome_iff_exists.mp
    (by decide +kernel : (innerCall.generatedAt [0, 0, 0, 0, 0, 1, 0, 0, 0, 0]).isSome = true)
  have hphrase : innerCall.phraseAt [0, 0, 0, 0, 0, 1, 0, 0, 0, 0] = some (.expr none (.ident ⟨"f", default⟩)) := rfl
  cases (Program.phraseAt_of_generatedAt hg).symm.trans hphrase
  obtain ⟨a, symbol, scope, place, declaration, origin, ha, hresolve, hplace, hdeclaration, hlookup, horigin, hdenoted, -⟩ :=
    (resolve_agrees_with_lookup hresult herrors).2 _ _ _ _ hg
  exact ⟨result, g, a, symbol, scope, place, declaration, origin, hresult, herrors, hg, ha, hresolve, hplace, hdeclaration,
    hlookup, horigin, hdenoted⟩

end MonkeyLang
