import MonkeyLang.Proofs.Pass
/-!
# Steps of the passes

Most of what generation and analysis do between the parts of a phrase leaves their scopes alone: generation then fails only
if an operand is too large, and analysis at most reports something. The steps that do open, close or change scopes are those
of functions, of blocks, of `let` statements and of names.
-/

namespace MonkeyLang

/-! ### Generation -/

/-- Whether an operand or the target of a jump is too large. -/
def GenerationError.isSize : GenerationError → Bool
  | exceedsByte _ _ | exceedsWord _ _ | jumpTooFar _ => true
  | unresolvedName _ _ | notAssignable _ _ | noEnclosingFunction => false

/-- Whether a phrase opens a scope or introduces a name. -/
def Phrase.changesScope : Phrase → Bool
  | .expr _ (.function _ _ _) | .stmt (.letStmt _ _ _) | .valueBlock _ => true
  | _ => false

namespace Generator

variable {α β : Type} {m : Gen α} {k : α → Gen β} {g : Generator}

/-- Generation succeeds with some outcome, unless something is too large. -/
def Yields (m : Gen α) (g : Generator) (post : α → Generator → Prop) : Prop :=
  match m g with
  | .ok (a, g') => post a g'
  | .error e => e.isSize = true

theorem Yields.bind {mid : α → Generator → Prop} {post : β → Generator → Prop} (h : Yields m g mid)
    (hk : ∀ a g', mid a g' → Yields (k a) g' post) : Yields (m >>= k) g post := by
  change match StateT.bind m k g with | .ok (b, g') => post b g' | .error e => e.isSize = true
  unfold Yields at h
  simp only [StateT.bind, Bind.bind, Except.bind]
  cases hm : m g with
  | error e =>
    rw [hm] at h
    exact h
  | ok r =>
    rw [hm] at h
    exact hk r.1 r.2 h

theorem Yields.mono {post post' : α → Generator → Prop} (h : Yields m g post) (hpost : ∀ a g', post a g' → post' a g') :
    Yields m g post' := by
  unfold Yields at h ⊢
  cases hm : m g with
  | error e =>
    rw [hm] at h
    exact h
  | ok r =>
    rw [hm] at h
    exact hpost r.1 r.2 h

theorem yields_of_eq_ok {g' : Generator} {r : α} {post : α → Generator → Prop}
    (h : m g = .ok (r, g')) (hpost : post r g') : Yields m g post := by
  unfold Yields
  rw [h]
  exact hpost

theorem Yields.of_eq_ok {g' : Generator} {r : α} {post : α → Generator → Prop}
    (h : Yields m g post) (hm : m g = .ok (r, g')) : post r g' := by
  unfold Yields at h
  rwa [hm] at h

theorem Yields.isSize {e : GenerationError} {post : α → Generator → Prop} (h : Yields m g post) (hm : m g = .error e) : e.isSize = true := by
  unfold Yields at h
  rwa [hm] at h

theorem Yields.self {post : α → Generator → Prop} (h : Yields m g post) :
    Yields m g fun a g' => m g = .ok (a, g') ∧ post a g' := by
  unfold Yields at h ⊢
  cases hm : m g with
  | error e =>
    rw [hm] at h
    exact h
  | ok r =>
    rw [hm] at h
    exact ⟨rfl, h⟩

def Steady (m : Gen α) : Prop := ∀ g, Yields m g fun _ g' => g'.scope = g.scope

namespace Steady

theorem pure (a : α) : Steady (Pure.pure a) := fun _ => rfl

theorem bind (hm : Steady m) (hk : ∀ a, Steady (k a)) : Steady (m >>= k) := by
  intro g
  refine (hm g).bind ?_
  intro a g₁ hscope
  refine (hk a g₁).mono ?_
  intro b g₂ hscope₂
  rw [hscope₂, hscope]

theorem discard (hm : Steady m) : Steady (Functor.discard m) := by
  rw [discard_eq]
  exact hm.bind fun _ => pure ()

theorem reserve (size : Nat) : Steady (Generator.reserve size) := fun _ => rfl

theorem setLine (line : Nat) : Steady (Generator.setLine line) := fun _ => rfl

theorem emit (i : Instruction) : Steady (Generator.emit i) := (reserve i.size).bind fun _ => pure _

theorem checked {x : Except GenerationError α} (hx : ∀ e, x = .error e → e.isSize = true) :
    Steady (Generator.checked x) := by
  intro g
  cases x with
  | error e => exact hx e rfl
  | ok a => rfl

theorem byteOperand (op : Opcode) (operand : Nat) : Steady (Generator.checked (MonkeyLang.byteOperand op operand)) := by
  refine checked ?_
  intro e he
  unfold MonkeyLang.byteOperand at he
  split at he <;> cases he
  rfl

theorem wordOperand (op : Opcode) (operand : Nat) : Steady (Generator.checked (MonkeyLang.wordOperand op operand)) := by
  refine checked ?_
  intro e he
  unfold MonkeyLang.wordOperand at he
  split at he <;> cases he
  rfl

theorem here : Steady Generator.here := by
  have htarget (target : Nat) : Steady (Generator.checked (jumpTarget target)) := by
    refine checked ?_
    intro e he
    unfold jumpTarget at he
    split at he <;> cases he
    rfl
  intro g
  exact htarget g.offset g

theorem constant (c : Constant) : Steady (Generator.constant c) := by
  refine bind ?_ fun place => (wordOperand .constant place).bind fun operand => emit _
  exact fun g => rfl

theorem load (symbol : Symbol) : Steady (Generator.load symbol) := by
  unfold Generator.load
  cases symbol.storage with
  | global slot => exact (wordOperand _ _).bind fun _ => emit _
  | frame slot | builtin slot | captured slot => exact (byteOperand _ _).bind fun _ => emit _
  | running => exact emit _

theorem loadAll (code : Code) (symbols : List Symbol) : Steady (Generator.loadAll code symbols) := by
  induction symbols generalizing code with
  | nil => exact pure code
  | cons symbol symbols ih => exact (load symbol).bind fun c => ih (code ++ c)

theorem closure (entry : Nat) (params : List Ident) (f : FunctionScope) : Steady (Generator.closure entry params f) :=
  (wordOperand _ _).bind fun _ => (byteOperand _ _).bind fun _ => (byteOperand _ _).bind fun _ =>
    (byteOperand _ _).bind fun _ => emit _

theorem store_define (scope : SymbolScope) (name : String) :
    Steady (Generator.store (scope.define name).1) := by
  unfold Generator.store SymbolScope.define
  cases scope.isTopLevel with
  | true => exact (wordOperand _ _).bind fun _ => emit _
  | false => exact (byteOperand _ _).bind fun _ => emit _

theorem enterPart {p : Phrase} (h : p.changesScope = false) (i : Nat) : Steady (Generator.enterPart p i) := by
  unfold Generator.enterPart
  split
  case h_1 | h_5 | h_10 => cases h
  case h_2 => exact (reserve _).discard
  case h_3 => exact (reserve _).discard.bind fun _ => here.discard
  case h_4 => exact (emit _).discard
  case h_6 | h_7 | h_8 | h_9 => exact setLine _
  case h_11 => exact pure ()

theorem leavePhrase {p : Phrase} (h : p.changesScope = false) (hident : ∀ name id, p ≠ .expr name (.ident id))
    (g : Generator) : Steady (Generator.leavePhrase p g) := by
  unfold Generator.leavePhrase
  split
  case h_1 | h_2 => exact (constant _).discard
  case h_4 name id => exact absurd rfl (hident name id)
  case h_6 => exact (byteOperand _ _).bind fun _ => (emit _).discard
  case h_8 | h_9 => exact (wordOperand _ _).bind fun _ => (emit _).discard
  case h_10 | h_12 | h_20 => cases h
  case h_11 => exact here.discard
  case h_3 | h_5 | h_7 | h_13 | h_14 | h_15 | h_16 | h_17 | h_18 | h_19 | h_21 | h_22 => exact (emit _).discard
  case h_23 => exact pure ()

end Steady

end Generator

/-! ### Tables of declarations -/

namespace DeclarationTable

theorem scopes_add {t : DeclarationTable} {s : NameScope} {rest : List NameScope} (h : t.scopes = s :: rest)
    (d : Declaration) : (t.add d).scopes = s.insert d.name t.declarations.size :: rest := by
  unfold scopes at h
  cases hinner : t.inner with
  | nil =>
    rw [hinner] at h
    cases h
    simp [add, scopes, hinner]
  | cons first others =>
    rw [hinner] at h
    cases h
    simp [add, scopes, hinner]

theorem scopes_closeScope? {t t' : DeclarationTable} (h : t.closeScope? = some t') : t'.scopes = t.scopes.tail := by
  unfold closeScope? at h
  split at h
  · cases h
  case h_2 hinner =>
    cases h
    simp [scopes, hinner]

theorem size_add (t : DeclarationTable) (d : Declaration) :
    (t.add d).declarations.size = t.declarations.size + 1 := by
  unfold add
  split <;> exact Array.size_push _

theorem size_closeScope? {t t' : DeclarationTable} (h : t.closeScope? = some t') :
    t'.declarations.size = t.declarations.size := by
  unfold closeScope? at h
  split at h
  · cases h
  · cases h
    rfl

theorem scopes_markUsed (t : DeclarationTable) (name : String) : (t.markUsed name).scopes = t.scopes := by
  unfold markUsed
  split <;> rfl

theorem size_markUsed (t : DeclarationTable) (name : String) :
    (t.markUsed name).declarations.size = t.declarations.size := by
  unfold markUsed
  split
  · exact Array.size_modify
  · rfl

end DeclarationTable

/-! ### Analysis -/

def CompilationError.isScoping : CompilationError → Bool
  | redeclared _ _ _ | undeclared _ _ => true
  | inconsistentHashKeys _ | unusedDeclaration _ _ | argumentCountMismatch _ _ _ _ | notCallable _ _ _ | internal _ => false

namespace Analyzer

/-- Every name has been declared, and once only. -/
def Clean (a : Analyzer) : Prop := ∀ e ∈ a.errors, e.isScoping = false

/-- Neither an error nor a declaration has been taken back in a later state. -/
structure Grows (a a' : Analyzer) : Prop where
  errors : ∀ e ∈ a.errors, e ∈ a'.errors
  declarations : a.table.declarations.size ≤ a'.table.declarations.size

theorem Grows.refl (a : Analyzer) : a.Grows a := ⟨fun _ he => he, Nat.le_refl _⟩

theorem Grows.trans {a a' a'' : Analyzer} (h : a.Grows a') (h' : a'.Grows a'') : a.Grows a'' :=
  ⟨fun e he => h'.errors e (h.errors e he), Nat.le_trans h.declarations h'.declarations⟩

theorem Grows.clean {a a' : Analyzer} (h : a.Grows a') (hclean : a'.Clean) : a.Clean :=
  fun e he => hclean e (h.errors e he)

theorem grows_of_eq {a a' : Analyzer} (herrors : a'.errors = a.errors)
    (hsize : a'.table.declarations.size = a.table.declarations.size) : a.Grows a' :=
  ⟨fun _ he => herrors ▸ he, Nat.le_of_eq hsize.symm⟩

theorem grows_push (a : Analyzer) (e : CompilationError) : a.Grows { a with errors := a.errors.push e } :=
  ⟨fun _ he => Array.mem_push_of_mem _ he, Nat.le_refl _⟩

/-- Moreover the scopes are the same. -/
def Mild (a a' : Analyzer) : Prop := a.Grows a' ∧ a'.table.scopes = a.table.scopes

theorem Mild.refl (a : Analyzer) : a.Mild a := ⟨.refl a, rfl⟩

theorem Mild.trans {a a' a'' : Analyzer} (h : a.Mild a') (h' : a'.Mild a'') : a.Mild a'' :=
  ⟨h.1.trans h'.1, h'.2.trans h.2⟩

/-- A step of analysis that comes to its end keeps to a relation between states. -/
def Keeps {α : Type} (R : Analyzer → Analyzer → Prop) (m : Walk α) : Prop := ∀ a r a', m a = .ok (r, a') → R a a'

variable {α β : Type} {m : Walk α} {k : α → Walk β}

theorem Keeps.bind {R : Analyzer → Analyzer → Prop} (htrans : ∀ {a a' a''}, R a a' → R a' a'' → R a a'')
    (hm : Keeps R m) (hk : ∀ r, Keeps R (k r)) : Keeps R (m >>= k) := by
  intro a r a' h
  obtain ⟨r₁, a₁, hfirst, hrest⟩ := bind_eq_ok.mp h
  exact htrans (hm a r₁ a₁ hfirst) (hk r₁ a₁ r a' hrest)

theorem keeps_pure {R : Analyzer → Analyzer → Prop} (hrefl : ∀ a, R a a) (r : α) : Keeps R (pure r) := by
  intro a _ a' h
  cases h
  exact hrefl a

theorem keeps_modify {R : Analyzer → Analyzer → Prop} {change : Analyzer → Analyzer} (hchange : ∀ a, R a (change a)) :
    Keeps R (modify change) := by
  intro a _ a' h
  cases h
  exact hchange a

theorem mild_report (e : CompilationError) : Keeps Mild (report e) :=
  keeps_modify fun a => ⟨grows_push a e, rfl⟩

theorem mild_checkCall (callee : Expr) (args : Nat) (span : Span) : Keeps Mild (checkCall callee args span) := by
  refine Keeps.bind Mild.trans ?_ fun a => ?_
  · intro a _ a' h
    cases h
    exact .refl a
  · repeat' split
    all_goals first
      | exact keeps_pure Mild.refl ()
      | exact mild_report _

theorem mild_refer (name : Ident) : Keeps Mild (refer name) := by
  intro a _ a' h
  unfold refer at h
  split at h
  · cases h
    exact ⟨grows_of_eq rfl (DeclarationTable.size_markUsed _ _), DeclarationTable.scopes_markUsed _ _⟩
  · cases h
    exact ⟨grows_push a _, rfl⟩

theorem mild_leaveHash : Keeps Mild leaveHash := by
  intro a _ a' h
  unfold leaveHash at h
  split at h
  · cases h
    exact ⟨grows_of_eq rfl rfl, rfl⟩
  · cases h

theorem grows_openScope : Keeps Grows openScope := keeps_modify fun _ => grows_of_eq rfl rfl

theorem grows_closeScope : Keeps Grows closeScope := by
  intro a _ a' h
  unfold closeScope at h
  split at h
  case h_1 table hclose =>
    cases h
    exact grows_of_eq rfl (DeclarationTable.size_closeScope? hclose)
  case h_2 => cases h

theorem grows_declare (name : Ident) (binding : Binding) : Keeps Grows (declare name binding) := by
  refine keeps_modify fun a => ?_
  unfold DeclarationTable.declare
  cases a.table.innermost[name.name]?.bind fun place => a.table.declarations[place]? with
  | some first => exact grows_push a _
  | none => exact ⟨fun _ he => he, DeclarationTable.size_add _ _ ▸ Nat.le_succ _⟩

theorem grows_declareParams (params : List Ident) : Keeps Grows (declareParams params) := by
  induction params with
  | nil => exact keeps_pure Grows.refl ()
  | cons param params ih => exact (grows_declare param .parameter).bind Grows.trans fun _ => ih

theorem declareParams_append (params params' : List Ident) :
    declareParams (params ++ params') = (do declareParams params; declareParams params') := by
  induction params with
  | nil => simp [declareParams]
  | cons param params ih => simp [declareParams, ih]

theorem mild_enterPart {p : Phrase} (h : p.changesScope = false) (i : Nat) : Keeps Mild (enterPart p i) := by
  unfold enterPart
  split
  case h_1 => exact mild_checkCall _ _ _
  case h_2 | h_4 => exact keeps_modify fun _ => ⟨grows_of_eq rfl rfl, rfl⟩
  case h_3 | h_5 | h_6 => cases h
  case h_7 => exact keeps_pure Mild.refl ()

theorem mild_leavePhrase {p : Phrase} (h : p.changesScope = false) (bindings : List Binding) :
    Keeps Mild (leavePhrase p bindings) := by
  unfold leavePhrase
  split
  case h_1 => exact mild_refer _
  case h_3 =>
    refine mild_leaveHash.bind Mild.trans fun frame => ?_
    split
    · exact (mild_report _).bind Mild.trans fun _ => keeps_pure Mild.refl _
    · exact keeps_pure Mild.refl _
  case h_4 | h_6 | h_7 => cases h
  case h_2 | h_5 | h_8 => exact keeps_pure Mild.refl _

theorem grows_enterPart (p : Phrase) (i : Nat) : Keeps Grows (enterPart p i) := by
  by_cases h : p.changesScope = false
  · exact fun a r a' hstep => (mild_enterPart h i a r a' hstep).1
  · unfold enterPart
    split
    case h_3 => exact grows_openScope.bind Grows.trans fun _ => grows_declareParams _
    case h_5 =>
      split
      · exact grows_declare _ _
      · exact keeps_pure Grows.refl ()
    case h_6 => exact grows_openScope
    case h_1 | h_2 | h_4 => exact absurd rfl h
    case h_7 => exact keeps_pure Grows.refl ()

theorem grows_leavePhrase (p : Phrase) (bindings : List Binding) : Keeps Grows (leavePhrase p bindings) := by
  by_cases h : p.changesScope = false
  · exact fun a r a' hstep => (mild_leavePhrase h bindings a r a' hstep).1
  · unfold leavePhrase
    split
    case h_4 | h_7 => exact grows_closeScope.bind Grows.trans fun _ => keeps_pure Grows.refl _
    case h_6 =>
      split
      · exact keeps_pure Grows.refl _
      · exact (grows_declare _ _).bind Grows.trans fun _ => keeps_pure Grows.refl _
    case h_1 | h_2 | h_3 | h_5 => exact absurd rfl h
    case h_8 => exact keeps_pure Grows.refl _

variable {a a' : Analyzer}

/-- A name that is declared without an error is a new declaration. -/
theorem table_of_declare {name : Ident} {binding : Binding} (h : declare name binding a = .ok ((), a')) (hclean : a'.Clean) :
    a'.table = a.table.add ⟨name.name, binding, name.span, false⟩ := by
  cases h
  simp only [DeclarationTable.declare] at hclean ⊢
  cases hfirst : a.table.innermost[name.name]?.bind fun place => a.table.declarations[place]? with
  | some first =>
    simp only [hfirst] at hclean
    cases hclean _ Array.mem_push_self
  | none => rfl

theorem scopes_of_closeScope (h : closeScope a = .ok ((), a')) : a'.table.scopes = a.table.scopes.tail := by
  unfold closeScope at h
  split at h
  case h_1 table hclose =>
    cases h
    exact DeclarationTable.scopes_closeScope? hclose
  case h_2 => cases h

/-- No visit takes an error or a declaration back. -/
theorem grows_run {p : Phrase} {r : Binding} (h : analysis.run p a = .ok (r, a')) : a.Grows a' :=
  Pass.run_rel (P := analysis) Grows.refl (fun _ _ _ => Grows.trans) (fun p i => grows_enterPart p i)
    (fun p _ bindings => grows_leavePhrase p bindings) p a r a' h

theorem exists_through {p : Phrase} {r : Binding} {i : Nat} (h : analysis.run p a = .ok (r, a'))
    (hi : i ≤ p.parts.length) : ∃ bindings a₁, analysis.through p i a = .ok (bindings, a₁) ∧ a₁.Grows a' :=
  Pass.exists_through (P := analysis) Grows.refl (fun _ _ _ => Grows.trans) (fun p i => grows_enterPart p i)
    (fun p _ bindings => grows_leavePhrase p bindings) h hi

end Analyzer

end MonkeyLang
