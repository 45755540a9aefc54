import MonkeyLang.Proofs.NameChecking
/-!
# Runs on a table of declarations

A table is used by opening and closing scopes, declaring names and marking them, in any order. `TableRun` is such a run, with its
history: what was done, the last event first. A history tells by itself what is visible: looking back from its end, and passing over
what was done in scopes that have been closed since, the first declaration of a name that one comes to is the visible one. The table
agrees with this, and so the declarations that it has as unused are those that were never visible when their names were marked.
-/

namespace MonkeyLang

/-- What is done with a table. A declaration is accepted or refused. -/
inductive TableEvent where
  | opened
  | closed
  | declared (d : Declaration)
  | refused (name : String)
  | marked (name : String)

/-- Events, the last one first. -/
abbrev TableHistory := List TableEvent

namespace TableHistory

def accepted : TableHistory → List Declaration
  | [] => []
  | .declared d :: earlier => accepted earlier ++ [d]
  | _ :: earlier => accepted earlier

/-- The number of scopes that have been opened and are still open, unless a scope was closed that had been open before. -/
def openScopes? : TableHistory → Option Nat
  | [] => some 0
  | .opened :: earlier => (openScopes? earlier).map (· + 1)
  | .closed :: earlier => (openScopes? earlier).bind fun count => if count = 0 then none else some (count - 1)
  | _ :: earlier => openScopes? earlier

/-- The place of the declaration of a name that is visible if so many scopes are closed after the events. What is declared in a scope
that is closed is passed over. -/
def visible? (name : String) : Nat → TableHistory → Option Nat
  | _, [] => builtins.findIdx? fun b => b.name == name
  | closed, .closed :: earlier => visible? name (closed + 1) earlier
  | closed, .opened :: earlier => visible? name (closed - 1) earlier
  | 0, .declared d :: earlier =>
    if d.name = name then some (builtins.length + (accepted earlier).length) else visible? name 0 earlier
  | closed, _ :: earlier => visible? name closed earlier

/-- The places of the declarations that were visible when their names were marked. -/
def used : TableHistory → List Nat
  | [] => []
  | .marked name :: earlier => (visible? name 0 earlier).toList ++ used earlier
  | _ :: earlier => used earlier

/-- What a declaration at a place has become after the events. -/
def recorded (events : TableHistory) (d : Declaration) (place : Nat) : Declaration :=
  { d with used := d.used || decide (place ∈ used events) }

/-- The accepted declarations that never were visible when their names were marked, in order. -/
def unused (events : TableHistory) : List Declaration :=
  (((accepted events).zipIdx builtins.length).filter fun entry => entry.2 ∉ used events).map Prod.fst

/-- Only what has been declared is visible. -/
theorem visible?_lt {name : String} {closed place : Nat} {events : TableHistory} (h : visible? name closed events = some place) :
    place < builtins.length + (accepted events).length := by
  induction events generalizing closed with
  | nil => exact Nat.lt_add_right _ (List.findIdx?_eq_some_iff_getElem.mp h).1
  | cons event earlier ih =>
    cases event with
    | closed => exact ih h
    | opened => exact ih h
    | refused other => exact ih (by simpa only [visible?] using h)
    | marked other => exact ih (by simpa only [visible?] using h)
    | declared d =>
      rw [accepted, List.length_append, List.length_singleton]
      cases closed with
      | zero =>
        rw [visible?] at h
        split at h
        · cases h
          omega
        · exact Nat.lt_succ_of_lt (ih h)
      | succ closed => exact Nat.lt_succ_of_lt (ih h)

theorem lt_of_mem_used {place : Nat} {events : TableHistory} (h : place ∈ used events) :
    place < builtins.length + (accepted events).length := by
  induction events with
  | nil => cases h
  | cons event earlier ih =>
    cases event with
    | marked name =>
      rcases List.mem_append.mp h with h | h
      · exact visible?_lt (Option.mem_toList.mp h)
      · exact ih h
    | declared d =>
      rw [accepted, List.length_append]
      exact Nat.lt_of_lt_of_le (ih h) (by omega)
    | opened | closed | refused => exact ih h

end TableHistory

/-- A run on a table, from one state of it to another. -/
inductive TableRun (s : DeclarationTable) : TableHistory → DeclarationTable → Prop
  | start : TableRun s [] s
  | openScope {events t} (h : TableRun s events t) : TableRun s (.opened :: events) t.openScope
  | closeScope {events t t'} (h : TableRun s events t) (hclose : t.closeScope? = some t') : TableRun s (.closed :: events) t'
  | declare {events t name binding span d t'} (h : TableRun s events t) (hdeclare : t.declare name binding span = (.ok d, t')) :
      TableRun s (.declared d :: events) t'
  | refuse {events t name binding span cause t'} (h : TableRun s events t)
      (hdeclare : t.declare name binding span = (.error cause, t')) : TableRun s (.refused name :: events) t'
  | markUsed {events t} (h : TableRun s events t) (name : String) : TableRun s (.marked name :: events) (t.markUsed name)

/-! ### Single steps -/

/-- A declaration is still there, and used if it was. -/
structure Declaration.Stays (d d' : Declaration) : Prop where
  name : d'.name = d.name
  binding : d'.binding = d.binding
  span : d'.span = d.span
  used : d.used = true → d'.used = true

namespace DeclarationTable

variable {t t' : DeclarationTable} {d : Declaration}

theorem eq_add_of_declare {name : String} {binding : Binding} {span : Span} (h : t.declare name binding span = (.ok d, t')) :
    d = ⟨name, binding, span, false⟩ ∧ t' = t.add d := by
  unfold declare at h
  split at h
  · cases h
  · cases h
    exact ⟨rfl, rfl⟩

/-- A declaration that is refused changes nothing. -/
theorem eq_of_declare_eq_error {name : String} {binding : Binding} {span : Span} {cause : CompilationError}
    (h : t.declare name binding span = (.error cause, t')) : t' = t := by
  unfold declare at h
  split at h
  · cases h
    rfl
  · cases h

theorem declarations_closeScope? (h : t.closeScope? = some t') : t'.declarations = t.declarations := by
  unfold closeScope? at h
  split at h
  · cases h
  · cases h
    rfl

theorem getElem?_add (t : DeclarationTable) (d : Declaration) (place : Nat) :
    (t.add d).declarations[place]? = if place = t.declarations.size then some d else t.declarations[place]? := by
  unfold add
  split <;> exact Array.getElem?_push

theorem getElem?_markUsed (t : DeclarationTable) (name : String) (place : Nat) : (t.markUsed name).declarations[place]? =
    t.declarations[place]?.map fun d => if t.place? name = some place then { d with used := true } else d := by
  unfold markUsed
  cases t.place? name with
  | none => simp
  | some found =>
    rw [Array.getElem?_modify]
    by_cases hplace : found = place <;> simp [hplace]

/-- Every place in a scope is that of a declaration of the name. -/
def Indexed (t : DeclarationTable) : Prop :=
  ∀ scope ∈ t.scopes, ∀ (name : String) place, scope[name]? = some place → ∃ d, t.declarations[place]? = some d ∧ d.name = name

namespace Indexed

theorem openScope (h : t.Indexed) : t.openScope.Indexed := by
  intro scope hscope name place hplace
  rcases List.mem_cons.mp hscope with rfl | hscope
  · simp at hplace
  · exact h scope hscope name place hplace

theorem closeScope? (h : t.Indexed) (hclose : t.closeScope? = some t') : t'.Indexed := by
  intro scope hscope
  rw [scopes_closeScope? hclose] at hscope
  rw [declarations_closeScope? hclose]
  exact h scope (List.mem_of_mem_tail hscope)

theorem add (h : t.Indexed) (d : Declaration) : (t.add d).Indexed := by
  obtain ⟨outer, hscopes⟩ := t.exists_scopes_eq
  intro scope hscope name place hplace
  rw [scopes_add hscopes] at hscope
  rw [getElem?_add]
  have hold (scope : NameScope) (hscope : scope ∈ t.scopes) (hplace : scope[name]? = some place) :
      ∃ d', (if place = t.declarations.size then some d else t.declarations[place]?) = some d' ∧ d'.name = name := by
    obtain ⟨d', hd', hname⟩ := h scope hscope name place hplace
    have hlt := (Array.getElem?_eq_some_iff.mp hd').1
    exact ⟨d', by rw [if_neg (by omega), hd'], hname⟩
  rcases List.mem_cons.mp hscope with rfl | hscope
  · by_cases hname : d.name = name
    · rw [hname, Std.TreeMap.getElem?_insert_self, Option.some.injEq] at hplace
      exact ⟨d, by rw [if_pos hplace.symm], hname⟩
    · rw [getElem?_insert_of_ne hname] at hplace
      exact hold t.innermost (by rw [hscopes]; exact List.mem_cons_self) hplace
  · exact hold scope (by rw [hscopes]; exact List.mem_cons_of_mem _ hscope) hplace

theorem markUsed (h : t.Indexed) (name : String) : (t.markUsed name).Indexed := by
  intro scope hscope other place hplace
  rw [scopes_markUsed] at hscope
  obtain ⟨d, hd, hname⟩ := h scope hscope other place hplace
  rw [getElem?_markUsed, hd]
  refine ⟨_, rfl, ?_⟩
  split <;> exact hname

theorem initial : DeclarationTable.initial.Indexed := by
  have hbuiltins (bs : List Builtin) (t : DeclarationTable) (h : t.Indexed) :
      (bs.foldl (fun t b => t.add ⟨b.name, .function b.arity, default, true⟩) t).Indexed := by
    induction bs generalizing t with
    | nil => exact h
    | cons b bs ih => exact ih _ (h.add _)
  refine hbuiltins builtins _ fun scope hscope name place hplace => ?_
  obtain rfl := List.mem_singleton.mp hscope
  simp at hplace

end Indexed

/-- All declarations stay at their places. -/
def Extends (t t' : DeclarationTable) : Prop :=
  ∀ (place : Nat) d, t.declarations[place]? = some d → ∃ d', t'.declarations[place]? = some d' ∧ d.Stays d'

namespace Extends

theorem of_eq (h : t'.declarations = t.declarations) : t.Extends t' :=
  fun _ d hd => ⟨d, h ▸ hd, rfl, rfl, rfl, id⟩

theorem trans {t'' : DeclarationTable} (h : t.Extends t') (h' : t'.Extends t'') : t.Extends t'' := by
  intro place d hd
  obtain ⟨d', hd', hstays⟩ := h place d hd
  obtain ⟨d'', hd'', hstays'⟩ := h' place d' hd'
  exact ⟨d'', hd'', hstays'.name.trans hstays.name, hstays'.binding.trans hstays.binding, hstays'.span.trans hstays.span,
    fun hused => hstays'.used (hstays.used hused)⟩

theorem add (t : DeclarationTable) (d : Declaration) : t.Extends (t.add d) := by
  intro place d' hd'
  have hlt := (Array.getElem?_eq_some_iff.mp hd').1
  exact ⟨d', by rw [getElem?_add, if_neg (by omega), hd'], rfl, rfl, rfl, id⟩

theorem markUsed (t : DeclarationTable) (name : String) : t.Extends (t.markUsed name) := by
  intro place d hd
  refine ⟨_, by rw [getElem?_markUsed, hd, Option.map_some], ?_⟩
  split
  · exact ⟨rfl, rfl, rfl, fun _ => rfl⟩
  · exact ⟨rfl, rfl, rfl, id⟩

/-- What was found is still found, where the scopes are the same. -/
theorem find? (h : t.Extends t') (hscopes : t'.scopes = t.scopes) {name : String} (hfind : t.find? name = some d) :
    ∃ d', t'.find? name = some d' ∧ d.Stays d' := by
  obtain ⟨place, hplace, hd⟩ := Option.bind_eq_some_iff.mp hfind
  obtain ⟨d', hd', hstays⟩ := h place d hd
  have hplace' : t'.place? name = some place := by rwa [place?, hscopes]
  exact ⟨d', Option.bind_eq_some_iff.mpr ⟨place, hplace', hd'⟩, hstays⟩

end Extends

end DeclarationTable

/-! ### Runs -/

namespace TableRun

open DeclarationTable TableHistory

variable {s t : DeclarationTable} {events : TableHistory}

theorem indexed (h : TableRun s events t) (hstart : s.Indexed) : t.Indexed := by
  induction h with
  | start => exact hstart
  | openScope _ ih => exact ih.openScope
  | closeScope _ hclose ih => exact ih.closeScope? hclose
  | declare _ hdeclare ih =>
    rw [(eq_add_of_declare hdeclare).2]
    exact ih.add _
  | refuse _ hdeclare ih => exact eq_of_declare_eq_error hdeclare ▸ ih
  | markUsed _ name ih => exact ih.markUsed name

theorem extended (h : TableRun s events t) : s.Extends t := by
  induction h with
  | start => exact .of_eq rfl
  | openScope _ ih => exact ih.trans (.of_eq rfl)
  | closeScope _ hclose ih => exact ih.trans (.of_eq (declarations_closeScope? hclose))
  | declare _ hdeclare ih =>
    rw [(eq_add_of_declare hdeclare).2]
    exact ih.trans (.add _ _)
  | refuse _ hdeclare ih => exact eq_of_declare_eq_error hdeclare ▸ ih
  | markUsed _ name ih => exact ih.trans (.markUsed _ name)

/-- The scopes outside of the innermost one are not touched. -/
theorem scopes_drop {count : Nat} (h : TableRun s events t) (hopen : openScopes? events = some count) :
    t.scopes.drop (count + 1) = s.scopes.drop 1 ∧ t.scopes.length = s.scopes.length + count := by
  induction h generalizing count with
  | start =>
    cases hopen
    exact ⟨rfl, rfl⟩
  | openScope _ ih =>
    obtain ⟨count, hcount, rfl⟩ := Option.map_eq_some_iff.mp hopen
    obtain ⟨hdrop, hlength⟩ := ih hcount
    exact ⟨hdrop, congrArg (· + 1) hlength⟩
  | closeScope _ hclose ih =>
    obtain ⟨outside, houtside, hcount⟩ := Option.bind_eq_some_iff.mp hopen
    obtain ⟨hdrop, hlength⟩ := ih houtside
    split at hcount
    case isTrue => cases hcount
    case isFalse hpos =>
      -- What is closed was opened in the run, so the scopes of the start are still further out.
      cases hcount
      rw [scopes_closeScope? hclose, List.drop_tail, List.length_tail, hlength]
      rw [show outside - 1 + 1 = outside by omega]
      exact ⟨hdrop, by omega⟩
  | @declare _ t _ _ _ d _ _ hdeclare ih =>
    obtain ⟨hdrop, hlength⟩ := ih hopen
    obtain ⟨outer, hscopes⟩ := t.exists_scopes_eq
    rw [hscopes] at hdrop hlength
    rw [(eq_add_of_declare hdeclare).2, scopes_add hscopes]
    exact ⟨hdrop, hlength⟩
  | refuse _ hdeclare ih => exact eq_of_declare_eq_error hdeclare ▸ ih hopen
  | markUsed _ name ih =>
    rw [scopes_markUsed]
    exact ih hopen

/-- A run that ends in the scope it has opened can close it, and the scopes are then as before. -/
theorem exists_closeScope? (h : TableRun s.openScope events t) (hopen : openScopes? events = some 0) :
    ∃ t', t.closeScope? = some t' ∧ t'.scopes = s.scopes ∧ s.Extends t' := by
  have hdrop : t.scopes.tail = s.scopes := by
    rw [← List.drop_one]
    exact (h.scopes_drop hopen).1
  obtain ⟨outer, hscopes⟩ := s.exists_scopes_eq
  obtain ⟨rest, hrest⟩ := t.exists_scopes_eq
  obtain rfl : rest = s.innermost :: outer := by rw [← hscopes, ← hdrop, hrest, List.tail_cons]
  obtain ⟨t', hclose, hdeclarations, hscopes'⟩ := DeclarationTable.exists_closeScope? hrest
  exact ⟨t', hclose, hscopes'.trans hscopes.symm, h.extended.trans (.of_eq hdeclarations)⟩

theorem size_eq (h : TableRun .initial events t) : t.declarations.size = builtins.length + (accepted events).length := by
  induction h with
  | start => rfl
  | openScope _ ih => exact ih
  | closeScope _ hclose ih => exact (size_closeScope? hclose).trans ih
  | declare _ hdeclare ih =>
    rw [(eq_add_of_declare hdeclare).2, size_add, ih, accepted, List.length_append, List.length_singleton, Nat.add_assoc]
  | refuse _ hdeclare ih => exact eq_of_declare_eq_error hdeclare ▸ ih
  | markUsed _ name ih => exact (size_markUsed _ name).trans ih

/-- The table finds what is visible by its history, also in scopes further out. -/
theorem findSome?_drop_scopes (h : TableRun .initial events t) (name : String) {closed : Nat} (hclosed : closed < t.scopes.length) :
    ((t.scopes.drop closed).findSome? fun scope => scope[name]?) = visible? name closed events := by
  -- Looking back past a closing, one more scope is passed over, and past an opening one less.
  induction h generalizing closed with
  | start =>
    obtain rfl : closed = 0 := Nat.lt_one_iff.mp hclosed
    rw [visible?, ← outermost_initial]
    change ([initial.outermost].findSome? fun scope => scope[name]?) = _
    simp
  | openScope h ih =>
    cases closed with
    | zero =>
      change ((∅ :: DeclarationTable.scopes _).findSome? fun scope => scope[name]?) = _
      rw [List.findSome?_cons_of_isNone (by simp)]
      exact @ih 0 (by simp [scopes])
    | succ closed => exact ih (Nat.lt_of_succ_lt_succ hclosed)
  | closeScope _ hclose ih =>
    rw [scopes_closeScope? hclose, List.length_tail] at hclosed
    rw [scopes_closeScope? hclose, List.drop_tail]
    exact ih (by omega)
  | @declare _ t _ _ _ d _ h hdeclare ih =>
    obtain ⟨outer, hscopes⟩ := t.exists_scopes_eq
    rw [(eq_add_of_declare hdeclare).2, scopes_add hscopes] at hclosed ⊢
    rw [hscopes] at ih
    cases closed with
    | zero =>
      rw [visible?, ← h.size_eq, List.drop_zero, List.findSome?_cons]
      by_cases hname : d.name = name
      · rw [hname, Std.TreeMap.getElem?_insert_self, if_pos rfl]
      · rw [getElem?_insert_of_ne hname, if_neg hname, ← ih (by simp), List.drop_zero, List.findSome?_cons]
    | succ closed => exact ih hclosed
  | refuse _ hdeclare ih =>
    obtain rfl := eq_of_declare_eq_error hdeclare
    rw [ih hclosed]
    cases closed <;> rfl
  | markUsed _ other ih =>
    rw [scopes_markUsed] at hclosed ⊢
    rw [ih hclosed]
    cases closed <;> rfl

theorem place?_eq (h : TableRun .initial events t) (name : String) : t.place? name = visible? name 0 events := by
  rw [← h.findSome?_drop_scopes name (by simp [scopes]), List.drop_zero]
  rfl

theorem used_of_mem_accepted (h : TableRun s events t) : ∀ d ∈ accepted events, d.used = false := by
  induction h with
  | start => exact fun d hd => absurd hd List.not_mem_nil
  | declare _ hdeclare ih =>
    refine List.forall_mem_append.mpr ⟨ih, List.forall_mem_singleton.mpr ?_⟩
    rw [(eq_add_of_declare hdeclare).1]
  | openScope _ ih | closeScope _ _ ih | refuse _ _ ih | markUsed _ _ ih => exact ih

/-- What the table has of a declaration: it is as it was accepted, and used if it was visible when its name was marked. -/
theorem getElem?_declarations (h : TableRun .initial events t) (place : Nat) : t.declarations[place]? =
    (DeclarationTable.initial.declarations.toList ++ accepted events)[place]?.map fun d => recorded events d place := by
  induction h with
  | start => simp [accepted, recorded, used]
  | openScope _ ih => exact ih
  | closeScope _ hclose ih =>
    rw [declarations_closeScope? hclose]
    exact ih
  | @declare events t _ _ _ d _ h hdeclare ih =>
    have hlength : (DeclarationTable.initial.declarations.toList ++ accepted events).length = t.declarations.size := by
      rw [List.length_append, h.size_eq]
      rfl
    have hrecorded : recorded (.declared d :: events) = recorded events := rfl
    rw [(eq_add_of_declare hdeclare).2, getElem?_add, ih, accepted, hrecorded, ← List.append_assoc]
    -- The new declaration comes behind all others, and nothing can have marked its place before.
    generalize DeclarationTable.initial.declarations.toList ++ accepted events = before at hlength
    rcases Nat.lt_trichotomy place t.declarations.size with hplace | hplace | hplace
    · rw [if_neg (by omega), List.getElem?_append_left (by omega)]
    · have hnew : place ∉ used events := fun hmem => Nat.lt_irrefl _ (hplace ▸ h.size_eq ▸ lt_of_mem_used hmem)
      have hlast : (before ++ [d])[place]? = some d := by rw [hplace, ← hlength, List.getElem?_concat_length]
      rw [if_pos hplace, hlast, Option.map_some, recorded, decide_eq_false hnew, Bool.or_false]
    · have hbeyond : (before ++ [d]).length ≤ place := by
        rw [List.length_append, List.length_singleton]
        omega
      rw [if_neg (by omega), List.getElem?_eq_none (by omega), List.getElem?_eq_none hbeyond]
  | refuse _ hdeclare ih => exact eq_of_declare_eq_error hdeclare ▸ ih
  | @markUsed events t h name ih =>
    rw [getElem?_markUsed, ih, h.place?_eq, Option.map_map]
    congr 1
    funext d
    by_cases hvisible : visible? name 0 events = some place <;> simp [recorded, used, hvisible]

theorem unused_eq (h : TableRun .initial events t) : t.unused = events.unused := by
  have hdeclarations : t.declarations.toList =
      ((DeclarationTable.initial.declarations.toList ++ accepted events).zipIdx).map fun x => recorded events x.1 x.2 := by
    apply List.ext_getElem?
    intro place
    rw [Array.getElem?_toList, h.getElem?_declarations, List.getElem?_map, List.getElem?_zipIdx, Option.map_map, Nat.zero_add]
    rfl
  have hbuiltins : (DeclarationTable.initial.declarations.toList.zipIdx).filter
      ((fun d => !d.used) ∘ fun x => recorded events x.1 x.2) = [] := by
    have hused : ∀ d ∈ DeclarationTable.initial.declarations.toList, d.used = true := by decide +kernel
    refine List.filter_eq_nil_iff.mpr fun x hx => ?_
    simp [recorded, hused x.1 (List.fst_mem_of_mem_zipIdx hx)]
  have haccepted : ∀ x ∈ (accepted events).zipIdx builtins.length,
      (!(recorded events x.1 x.2).used) = decide (x.2 ∉ used events) := by
    intro x hx
    simp [recorded, h.used_of_mem_accepted x.1 (List.fst_mem_of_mem_zipIdx hx)]
  rw [DeclarationTable.unused, hdeclarations, List.filter_map, List.zipIdx_append, List.filter_append, hbuiltins, List.nil_append]
  change (((accepted events).zipIdx builtins.length).filter fun x => !(recorded events x.1 x.2).used).map _ = _
  rw [List.filter_congr haccepted]
  refine List.map_congr_left fun x hx => ?_
  have hnever : x.2 ∉ used events := of_decide_eq_true (List.mem_filter.mp hx).2
  simp [recorded, hnever]

end TableRun

/-- The laws of a table, after any run: scopes give places of declarations of their names; a scope that is opened and closed leaves
all names with their declarations; declarations stay as they are, but for their use; one that is refused changes nothing; and those
that are unused were never visible when their names were marked. -/
theorem declaration_table_laws {events : TableHistory} {t : DeclarationTable} (h : TableRun .initial events t) :
    t.Indexed ∧
    (∀ inside u, TableRun t.openScope inside u → inside.openScopes? = some 0 → ∃ t', u.closeScope? = some t' ∧
      ∀ name, t'.place? name = t.place? name ∧ ∀ d, t.find? name = some d → ∃ d', t'.find? name = some d' ∧ d.Stays d') ∧
    (∀ later u, TableRun t later u → t.Extends u) ∧
    (∀ name binding span cause, (t.declare name binding span).1 = .error cause → (t.declare name binding span).2 = t) ∧
    (∀ (a : Analyzer) name binding cause, a.table = t → (t.declare name.name binding name.span).1 = .error cause →
      ∃ a', Analyzer.declare name binding a = .ok ((), a') ∧ a'.table = t) ∧
    (∀ name, t.place? name = events.visible? name 0) ∧
    t.unused = events.unused := by
  have hrefuse (name : String) (binding : Binding) (span : Span) (cause : CompilationError)
      (hrefused : (t.declare name binding span).1 = .error cause) : (t.declare name binding span).2 = t :=
    DeclarationTable.eq_of_declare_eq_error (Prod.ext hrefused rfl)
  refine ⟨h.indexed .initial, ?_, fun _ _ => TableRun.extended, hrefuse, ?_, h.place?_eq, h.unused_eq⟩
  · intro inside u hinside hopen
    obtain ⟨t', hclose, hscopes, hextends⟩ := hinside.exists_closeScope? hopen
    refine ⟨t', hclose, fun name => ⟨?_, fun d => hextends.find? hscopes⟩⟩
    rw [DeclarationTable.place?, hscopes, DeclarationTable.place?]
  · rintro a name binding cause rfl hrefused
    have hdeclare : a.table.declare name.name binding name.span = (.error cause, a.table) :=
      Prod.ext hrefused (hrefuse _ _ _ _ hrefused)
    refine ⟨{ a with errors := a.errors.push cause }, ?_, rfl⟩
    rw [Analyzer.declare, Analyzer.modify_apply, hdeclare]

/-- A name and, in a scope of its own, another declaration of it. -/
def outerDeclaration : Declaration := ⟨"x", .value, ⟨1, 5, 1⟩, false⟩
def innerDeclaration : Declaration := ⟨"x", .array 2, ⟨3, 9, 1⟩, false⟩

/-- The name is declared twice, but only once with success. -/
def shadowedTable : DeclarationTable := DeclarationTable.initial.add outerDeclaration

/-- The name is declared in another scope, and used there. -/
def shadowingTable : DeclarationTable := (shadowedTable.openScope.add innerDeclaration).markUsed "x"

theorem declaration_table_laws_shadowedTable :
    ∃ t', shadowingTable.closeScope? = some t' ∧
      TableRun .initial [.closed, .marked "x", .declared innerDeclaration, .opened, .refused "x", .declared outerDeclaration] t' ∧
      t'.Indexed ∧ t'.place? "x" = shadowedTable.place? "x" ∧ (∃ d, t'.find? "x" = some d ∧ outerDeclaration.Stays d) ∧
      shadowedTable.Extends shadowingTable ∧ t'.unused = [outerDeclaration] ∧
      (shadowedTable.declare "x" .value ⟨2, 5, 1⟩).2 = shadowedTable ∧
      ∃ a', Analyzer.declare ⟨"x", ⟨2, 5, 1⟩⟩ .value ⟨shadowedTable, .empty, #[]⟩ = .ok ((), a') ∧ a'.table = shadowedTable := by
  have houter : DeclarationTable.initial.declare "x" .value ⟨1, 5, 1⟩ = (.ok outerDeclaration, shadowedTable) := rfl
  have hrefused : shadowedTable.declare "x" .value ⟨2, 5, 1⟩ = (.error (.redeclared "x" ⟨1, 5, 1⟩ ⟨2, 5, 1⟩), shadowedTable) := rfl
  have hinner : shadowedTable.openScope.declare "x" (.array 2) ⟨3, 9, 1⟩ =
      (.ok innerDeclaration, shadowedTable.openScope.add innerDeclaration) := rfl
  have hbefore := (TableRun.start.declare houter).refuse hrefused
  have hinside : TableRun shadowedTable.openScope _ shadowingTable := (TableRun.start.declare hinner).markUsed "x"
  obtain ⟨-, hrestored, hextended, hrefuse, hkept, -⟩ := declaration_table_laws hbefore
  obtain ⟨t', hclose, hname⟩ := hrestored _ _ hinside rfl
  have hafter := ((hbefore.openScope.declare hinner).markUsed "x").closeScope hclose
  obtain ⟨hindexed, -, -, -, -, -, hunused⟩ := declaration_table_laws hafter
  exact ⟨t', hclose, hafter, hindexed, (hname "x").1, (hname "x").2 _ (by decide +kernel),
    hextended _ _ ((TableRun.start.openScope.declare hinner).markUsed "x"), hunused.trans (by decide +kernel),
    hrefuse _ _ _ _ (congrArg Prod.fst hrefused), hkept _ _ _ _ rfl (congrArg Prod.fst hrefused)⟩

end MonkeyLang
