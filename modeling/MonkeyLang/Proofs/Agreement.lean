import MonkeyLang.Proofs.Origin
/-!
# Agreement of scopes

Generation keeps the names of each function in a table of its own, seen here as a map for each open block, and copies in what
is captured. Analysis keeps one map for each open scope. At every moment the two have the same shape, function by function
and block by block, and each name stands for the same origin in both. There is one exception: analysis declares a function
literal before its body, generation only behind it, so while the literal is walked its name is pending. Nobody sees the
difference, since inside of the literal the name is taken by the literal itself.
-/

namespace MonkeyLang

/-! ### Names of one scope -/

theorem getElem?_insert_of_ne {β : Type} {m : Std.TreeMap String β} {name other : String} {value : β} (h : name ≠ other) :
    (m.insert name value)[other]? = m[other]? := by
  rw [Std.TreeMap.getElem?_insert, if_neg]
  rwa [Std.LawfulEqOrd.compare_eq_iff_eq]

/-- What a name stands for in generation agrees with where analysis finds its declaration, here or further out. -/
def NameAgrees (stands : Storage → Nat → Prop) (outer here : Option Nat) : Option Storage → Prop
  | some storage => ∃ place, here.or outer = some place ∧ stands storage place
  | none => here = none

/-- Blocks of a function, innermost first, agree with scopes. The name of a `let` statement that is pending is left out
in the innermost one. -/
inductive NamesAgree (stands : Storage → Nat → Prop) (outer : String → Option Nat) :
    Option String → List SymbolMap → List NameScope → Prop
  | base {pending m s} (hnames : ∀ name, pending ≠ some name → NameAgrees stands (outer name) s[name]? m[name]?) :
      NamesAgree stands outer pending [m] [s]
  | block {pending m ms s ss} (hnames : ∀ name, pending ≠ some name → NameAgrees stands none s[name]? m[name]?)
      (hrest : NamesAgree stands outer none ms ss) : NamesAgree stands outer pending (m :: ms) (s :: ss)

namespace NamesAgree

variable {stands stands' : Storage → Nat → Prop} {outer : String → Option Nat} {pending : Option String}
  {m m' : SymbolMap} {ms blocks : List SymbolMap} {s s' : NameScope} {ss : List NameScope} {name : String}

theorem find? (h : NamesAgree stands outer pending ms ss) (hname : pending ≠ some name) :
    NameAgrees stands (outer name) (ss.findSome? fun s => s[name]?) (ms.findSome? fun m => m[name]?) := by
  induction h with
  | @base pending m s hnames =>
    have hbase := hnames name hname
    rw [List.findSome?_cons, List.findSome?_cons]
    cases hm : m[name]? <;> cases hs : s[name]? <;> rw [hm, hs] at hbase <;> exact hbase
  | @block pending m ms s ss hnames _ ih =>
    have hblock := hnames name hname
    rw [List.findSome?_cons, List.findSome?_cons]
    cases hm : m[name]? with
    | none =>
      rw [hm] at hblock
      have hs : s[name]? = none := hblock
      rw [hs]
      exact ih (by simp)
    | some storage =>
      rw [hm] at hblock
      obtain ⟨place, hplace, hstands⟩ := hblock
      rw [Option.or_none] at hplace
      rw [hplace]
      exact ⟨place, rfl, hstands⟩

theorem mono (h : NamesAgree stands outer pending ms ss)
    (hstands : ∀ storage place, stands storage place → stands' storage place) :
    NamesAgree stands' outer pending ms ss := by
  have hname {outer here : Option Nat} {storage? : Option Storage} (hagrees : NameAgrees stands outer here storage?) :
      NameAgrees stands' outer here storage? := by
    cases storage? with
    | none => exact hagrees
    | some storage =>
      obtain ⟨place, hplace, hstorage⟩ := hagrees
      exact ⟨place, hplace, hstands storage place hstorage⟩
  induction h with
  | base hnames => exact .base fun name hne => hname (hnames name hne)
  | block hnames _ ih => exact .block (fun name hne => hname (hnames name hne)) ih

/-- The innermost block and scope change together: each name is as it was, or stands for what is declared. -/
theorem update {pending' : Option String} (h : NamesAgree stands outer pending (m :: ms) (s :: ss))
    (hchange : ∀ name, pending' ≠ some name → (pending ≠ some name ∧ m'[name]? = m[name]? ∧ s'[name]? = s[name]?) ∨
      ∃ storage place, m'[name]? = some storage ∧ s'[name]? = some place ∧ stands storage place) :
    NamesAgree stands outer pending' (m' :: ms) (s' :: ss) := by
  have hname {name : String} {further : Option Nat} (hne : pending' ≠ some name)
      (hold : pending ≠ some name → NameAgrees stands further s[name]? m[name]?) :
      NameAgrees stands further s'[name]? m'[name]? := by
    rcases hchange name hne with ⟨hne', hm, hs⟩ | ⟨storage, place, hm, hs, hstands⟩
    · rw [hm, hs]
      exact hold hne'
    · rw [hm, hs]
      exact ⟨place, rfl, hstands⟩
  cases h with
  | base hnames => exact .base fun name hne => hname hne (hnames name)
  | block hnames hrest => exact .block (fun name hne => hname hne (hnames name)) hrest

theorem length_eq (h : NamesAgree stands outer pending ms ss) : ss.length = ms.length := by
  induction h with
  | base _ => rfl
  | block _ _ ih => rw [List.length_cons, List.length_cons, ih]

theorem openBlock (h : NamesAgree stands outer none ms ss) : NamesAgree stands outer none (∅ :: ms) (∅ :: ss) := by
  refine .block ?_ h
  intro name _
  simp [NameAgrees]

/-- A name that is nowhere in a function is captured from further out. -/
theorem capture {base : SymbolMap} {storage : Storage} (h : NamesAgree stands outer pending (blocks ++ [base]) ss)
    (hbase : base[name]? = none) {place : Nat} (hplace : outer name = some place) (hstands : stands storage place) :
    NamesAgree stands outer pending (blocks ++ [base.insert name storage]) ss := by
  induction blocks generalizing pending ss with
  | nil =>
    cases h with
    | base hnames =>
      refine .base ?_
      intro other hother
      have hold := hnames other hother
      by_cases hname : name = other
      · subst hname
        rw [hbase] at hold
        have hs : _ = none := hold
        rw [SymbolMap.getElem?_insert_self, hs]
        exact ⟨place, hplace, hstands⟩
      · rw [SymbolMap.getElem?_insert_of_ne hname]
        exact hold
    | block _ hrest => cases hrest
  | cons block blocks ih =>
    rw [List.cons_append] at h ⊢
    generalize hms : blocks ++ [base] = ms at h
    cases h with
    | base _ => simp at hms
    | block hnames hrest =>
      subst hms
      exact .block hnames (ih hrest)

end NamesAgree

/-! ### Levels -/

/-- The place of the declaration that a name has in some scopes. -/
def placeIn (scopes : List NameScope) (name : String) : Option Nat := scopes.findSome? fun s => s[name]?

/-- A function that a walk is in, or the top level. -/
structure Level where
  function : Path
  /-- A name that is declared and not defined yet, with its `let` statement. -/
  pending : Option (String × Path) := none
  /-- The number of open blocks. -/
  depth : Nat := 0

/-- A storage stands for what is declared at a place. -/
def Stands (program : Program) (done : Path → Prop) (fs : List FunctionScope) (functions : List Path) (storage : Storage)
    (place : Nat) : Prop :=
  ∃ origin : Origin, origin.place? program = some place ∧ origin.Denoted program done storage fs functions

/-- The names of a function agree with the scopes of its blocks, when the functions and scopes around are given. -/
structure LevelAgrees (program : Program) (done : Path → Prop) (ls : List Level) (fs : List FunctionScope)
    (outer : List NameScope) (l : Level) (f : FunctionScope) (inner : List NameScope) : Prop where
  names : NamesAgree (Stands program done (f :: fs) (l.function :: ls.map Level.function)) (placeIn outer)
    (l.pending.map Prod.fst) f.maps inner
  pending : ∀ name path, l.pending = some (name, path) →
    ∃ s place, inner.head? = some s ∧ s[name]? = some place ∧ (Origin.letStmt path).place? program = some place
  depth : f.blocks.length = l.depth

/-- Functions, innermost first, agree with scopes. A name that is pending in a function is taken in the one inside. -/
inductive ScopesAgree (program : Program) (done : Path → Prop) :
    List Level → List FunctionScope → List NameScope → Prop
  | topLevel {l f inner} (hlevel : LevelAgrees program done [] [] [] l f inner) : ScopesAgree program done [l] [f] inner
  | function {l l' ls f f' fs inner outer} (hlevel : LevelAgrees program done (l' :: ls) (f' :: fs) outer l f inner)
      (houter : ScopesAgree program done (l' :: ls) (f' :: fs) outer)
      (htaken : ∀ name path, l'.pending = some (name, path) → f.base[name]? ≠ none) :
      ScopesAgree program done (l :: l' :: ls) (f :: f' :: fs) (inner ++ outer)

variable {program : Program} {done done' : Path → Prop} {ls : List Level} {fs fs' : List FunctionScope}
  {outer inner : List NameScope} {l : Level} {f : FunctionScope} {s : NameScope} {name : String} {storage : Storage}
  {place : Nat}

theorem Stands.mono {functions : List Path} (h : Stands program done fs functions storage place)
    (hdone : ∀ path, done path → done' path) (hgrow : ScopesGrow fs fs') :
    Stands program done' fs' functions storage place := by
  obtain ⟨origin, hplace, hdenoted⟩ := h
  exact ⟨origin, hplace, hdenoted.mono hdone hgrow⟩

theorem placeIn_append (inner outer : List NameScope) (name : String) :
    placeIn (inner ++ outer) name = (placeIn inner name).or (placeIn outer name) := List.findSome?_append

namespace LevelAgrees

theorem mono (h : LevelAgrees program done ls fs outer l f inner) (hdone : ∀ path, done path → done' path)
    (hgrow : ScopesGrow fs fs') : LevelAgrees program done' ls fs' outer l f inner where
  names := h.names.mono fun _ _ hstands => hstands.mono hdone (.cons (.refl f) hgrow)
  pending := h.pending
  depth := h.depth

theorem length_eq (h : LevelAgrees program done ls fs outer l f inner) : inner.length = l.depth + 1 := by
  rw [h.names.length_eq, FunctionScope.maps, List.length_append, h.depth]
  rfl

theorem exists_cons (h : LevelAgrees program done ls fs outer l f inner) : ∃ s rest, inner = s :: rest :=
  List.exists_cons_of_length_eq_add_one h.length_eq

/-- What a name stands for in a function is what is declared, and if it stands for nothing, it is declared further out. -/
theorem find? (h : LevelAgrees program done ls fs outer l f inner) (hname : l.pending.map Prod.fst ≠ some name)
    (hplace : placeIn (inner ++ outer) name = some place) :
    match f.find? name with
    | some storage => Stands program done (f :: fs) (l.function :: ls.map Level.function) storage place
    | none => placeIn outer name = some place := by
  have hfind := h.names.find? hname
  rw [← FunctionScope.find?_eq] at hfind
  rw [placeIn_append] at hplace
  cases hstorage : f.find? name with
  | some storage =>
    rw [hstorage] at hfind
    obtain ⟨found, hfound, hstands⟩ := hfind
    cases hplace.symm.trans hfound
    exact hstands
  | none =>
    rw [hstorage] at hfind
    have hinner : placeIn inner name = none := hfind
    rwa [hinner, Option.none_or] at hplace

/-- A function is entered with names that are declared further out. -/
theorem entered {function : Path} (hdepth : f.names.depth = 0) (h : ∀ name storage, f.find? name = some storage →
      ∃ place, placeIn outer name = some place ∧
        Stands program done (f :: fs) (function :: ls.map Level.function) storage place) :
    LevelAgrees program done ls fs outer { function } f [∅] where
  names := by
    rw [FunctionScope.maps_of_depth_eq_zero hdepth]
    refine .base ?_
    intro name _
    rw [FunctionScope.getElem?_base_of_depth_eq_zero hdepth]
    cases hfind : f.find? name with
    | none => simp [NameAgrees]
    | some storage =>
      obtain ⟨place, hplace, hstands⟩ := h name storage hfind
      exact ⟨place, by simpa using hplace, hstands⟩
  pending := nofun
  depth := f.length_blocks.trans hdepth

theorem openBlock (h : LevelAgrees program done ls fs outer l f inner) (hpending : l.pending = none) :
    LevelAgrees program done ls fs outer { l with depth := l.depth + 1 } f.openBlock (∅ :: inner) where
  names := by
    have hnames := h.names
    rw [hpending] at hnames
    change NamesAgree _ _ (l.pending.map Prod.fst) _ _
    rw [hpending, FunctionScope.maps_openBlock]
    refine NamesAgree.mono hnames.openBlock ?_
    intro storage place hstands
    exact hstands.mono (fun _ hpath => hpath) (.cons ⟨Nat.le_refl _, List.prefix_rfl⟩ (ScopesGrow.refl fs))
  pending name path hsome := by
    change l.pending = _ at hsome
    rw [hpending] at hsome
    cases hsome
  depth := by rw [FunctionScope.blocks_openBlock, List.length_cons, h.depth]

theorem closeBlock (h : LevelAgrees program done ls fs outer { l with depth := l.depth + 1 } f inner)
    (hpending : l.pending = none) : LevelAgrees program done ls fs outer l f.closeBlock inner.tail := by
  have hnames := h.names
  have hdepth : f.blocks.length = l.depth + 1 := h.depth
  obtain ⟨block, blocks, hblocks⟩ := List.exists_cons_of_length_eq_add_one hdepth
  have hclose : f.closeBlock.maps = blocks ++ [f.base] := by
    rw [FunctionScope.maps_closeBlock (by simp [hblocks]), FunctionScope.maps, hblocks, List.cons_append, List.tail_cons]
  refine ⟨?_, ?_, ?_⟩
  · rw [FunctionScope.maps, hblocks, List.cons_append] at hnames
    rw [hclose]
    generalize blocks ++ [f.base] = ms at hnames hclose
    cases hnames with
    | base _ =>
      have := congrArg List.length hclose
      simp [FunctionScope.maps] at this
    | block _ hrest =>
      rw [hpending]
      exact hrest.mono fun _ _ hstands =>
        hstands.mono (fun _ hpath => hpath) (.cons ⟨Nat.le_refl _, List.prefix_rfl⟩ (ScopesGrow.refl fs))
  · intro name path hsome
    rw [hpending] at hsome
    cases hsome
  · rw [FunctionScope.blocks_closeBlock, List.length_tail, hdepth, Nat.add_sub_cancel]

/-- A name gets a slot and is declared at once. -/
theorem define (h : LevelAgrees program done ls fs outer l f (s :: inner)) (hpending : l.pending = none) {slots : Nat}
    (hslots : f.slots ≤ slots) (hdone : ∀ path, done path → done' path)
    (hstands : Stands program done' (f :: fs) (l.function :: ls.map Level.function) storage place) :
    LevelAgrees program done' ls fs outer l { f.insert name storage with slots } (s.insert name place :: inner) where
  names := by
    have hgrow : f.Grows { f.insert name storage with slots } := ⟨hslots, by simp⟩
    have hnames := h.names.mono fun _ _ hold => hold.mono hdone (.cons hgrow (ScopesGrow.refl fs))
    obtain ⟨m, hmaps, hinsert⟩ := f.maps_insert name storage
    change NamesAgree _ _ _ (f.insert name storage).maps _
    rw [hpending] at hnames ⊢
    rw [hmaps] at hnames
    rw [hinsert]
    refine hnames.update ?_
    intro other _
    by_cases hname : name = other
    · subst hname
      refine .inr ⟨storage, place, SymbolMap.getElem?_insert_self .., Std.TreeMap.getElem?_insert_self, ?_⟩
      exact hstands.mono (fun _ hpath => hpath) (.cons hgrow (ScopesGrow.refl fs))
    · exact .inl ⟨by simp, SymbolMap.getElem?_insert_of_ne hname, getElem?_insert_of_ne hname⟩
  pending other path hsome := by
    rw [hpending] at hsome
    cases hsome
  depth := (FunctionScope.length_blocks _).trans (f.length_blocks.symm.trans h.depth)

/-- A name is declared and left pending. -/
theorem declare (h : LevelAgrees program done ls fs outer l f (s :: inner)) (hpending : l.pending = none) {path : Path}
    (hplace : (Origin.letStmt path).place? program = some place) :
    LevelAgrees program done ls fs outer { l with pending := some (name, path) } f (s.insert name place :: inner) where
  names := by
    have hnames := h.names
    obtain ⟨m, hmaps, -⟩ := f.maps_insert name .running
    rw [hpending, hmaps] at hnames
    rw [hmaps]
    refine hnames.update ?_
    intro other hother
    exact .inl ⟨by simp, rfl, getElem?_insert_of_ne fun hname => hother (congrArg some hname)⟩
  pending other path' hsome := by
    cases hsome
    exact ⟨_, place, rfl, Std.TreeMap.getElem?_insert_self, hplace⟩
  depth := h.depth

/-- The name that is pending gets a slot. -/
theorem definePending {path : Path} (h : LevelAgrees program done ls fs outer { l with pending := some (name, path) } f inner)
    (hpending : l.pending = none) {slots : Nat} (hslots : f.slots ≤ slots) (hdone : ∀ path, done path → done' path)
    (hdenoted : (Origin.letStmt path).Denoted program done' storage (f :: fs) (l.function :: ls.map Level.function)) :
    LevelAgrees program done' ls fs outer l { f.insert name storage with slots } inner where
  names := by
    have hgrow : f.Grows { f.insert name storage with slots } := ⟨hslots, by simp⟩
    have hnames := h.names.mono fun _ _ hold => hold.mono hdone (.cons hgrow (ScopesGrow.refl fs))
    obtain ⟨m, hmaps, hinsert⟩ := f.maps_insert name storage
    obtain ⟨s, place, hhead, hs, hplace⟩ := h.pending name path rfl
    obtain ⟨rest, rfl⟩ := List.head?_eq_some_iff.mp hhead
    change NamesAgree _ _ _ (f.insert name storage).maps _
    rw [hpending]
    rw [hmaps] at hnames
    rw [hinsert]
    refine hnames.update ?_
    intro other _
    by_cases hname : name = other
    · subst hname
      refine .inr ⟨storage, place, SymbolMap.getElem?_insert_self .., hs, .letStmt path, hplace, ?_⟩
      exact hdenoted.mono (fun _ hpath => hpath) (.cons hgrow (ScopesGrow.refl fs))
    · exact .inl ⟨by simpa using hname, SymbolMap.getElem?_insert_of_ne hname, rfl⟩
  pending other path hsome := by
    rw [hpending] at hsome
    cases hsome
  depth := (FunctionScope.length_blocks _).trans (f.length_blocks.symm.trans h.depth)

/-- A name that stands for nothing in a function is captured from further out. -/
theorem capture {entry : Entry} (h : LevelAgrees program done ls fs outer l f inner)
    (hnew : f.names.entries[name]? = none) (hplace : placeIn outer name = some place)
    (hstands : Stands program done fs (ls.map Level.function) entry.storage place) :
    LevelAgrees program done ls fs outer l (f.capture name entry hnew) inner ∧
      Stands program done (f.capture name entry hnew :: fs) (l.function :: ls.map Level.function)
        (.captured f.captures.length) place := by
  have hgrow : f.Grows (f.capture name entry hnew) := ⟨Nat.le_refl _, List.prefix_append _ _⟩
  have hcaptured : Stands program done (f.capture name entry hnew :: fs) (l.function :: ls.map Level.function)
      (.captured f.captures.length) place := by
    obtain ⟨origin, horigin, hdenoted⟩ := hstands
    have hsymbol : (f.capture name entry hnew).captures[f.captures.length]? = some ⟨entry, name⟩ := List.getElem?_concat_length
    exact ⟨origin, horigin, .captured hsymbol hdenoted⟩
  have hbase : f.base[name]? = none :=
    FunctionScope.find?_eq_none_iff.mp (FunctionScope.getElem?_entries_eq_none_iff.mp hnew) _ f.base_mem_maps
  have hnames := h.names.mono fun _ _ hold => hold.mono (fun _ hpath => hpath) (.cons hgrow (ScopesGrow.refl fs))
  refine ⟨⟨?_, h.pending, ?_⟩, hcaptured⟩
  · rw [FunctionScope.maps, FunctionScope.blocks_capture, FunctionScope.base_capture]
    exact hnames.capture hbase hplace hcaptured
  · rw [FunctionScope.blocks_capture, h.depth]

end LevelAgrees

/-! ### All levels -/

namespace ScopesAgree

theorem mono {scopes : List NameScope} (h : ScopesAgree program done ls fs scopes)
    (hdone : ∀ path, done path → done' path) : ScopesAgree program done' ls fs scopes := by
  induction h with
  | topLevel hlevel => exact .topLevel (hlevel.mono hdone (ScopesGrow.refl _))
  | function hlevel _ htaken ih => exact .function (hlevel.mono hdone (ScopesGrow.refl _)) ih htaken

/-- The innermost level can be exchanged for another one, as long as no name outside of all blocks goes. -/
theorem innermost {scopes : List NameScope} (h : ScopesAgree program done (l :: ls) (f :: fs) scopes)
    (hdone : ∀ path, done path → done' path) :
    ∃ inner outer, scopes = inner ++ outer ∧ LevelAgrees program done ls fs outer l f inner ∧
      ∀ l' f' inner', LevelAgrees program done' ls fs outer l' f' inner' →
        (∀ name : String, f.base[name]? ≠ none → f'.base[name]? ≠ none) →
        ScopesAgree program done' (l' :: ls) (f' :: fs) (inner' ++ outer) := by
  cases h with
  | topLevel hlevel =>
    refine ⟨scopes, [], (List.append_nil _).symm, hlevel, ?_⟩
    intro l' f' inner' hlevel' _
    rw [List.append_nil]
    exact .topLevel hlevel'
  | function hlevel houter htaken =>
    refine ⟨_, _, rfl, hlevel, ?_⟩
    intro l' f' inner' hlevel' hbase
    exact .function hlevel' (houter.mono hdone) fun name path hpending => hbase name (htaken name path hpending)

theorem resolves {scopes : List NameScope} (h : ScopesAgree program done (l :: ls) (f :: fs) scopes)
    (hname : l.pending.map Prod.fst ≠ some name) (hplace : placeIn scopes name = some place) :
    ∃ entry f' fs', Resolves name f fs (some entry) f' fs' ∧
      ScopesAgree program done (l :: ls) (f' :: fs') scopes ∧ ScopesGrow (f :: fs) (f' :: fs') ∧
      Stands program done (f' :: fs') (l.function :: ls.map Level.function) entry.storage place := by
  induction fs generalizing l ls f scopes with
  | nil =>
    cases h with
    | topLevel hlevel =>
      rw [← List.append_nil scopes] at hplace
      have hfind := hlevel.find? hname hplace
      rw [FunctionScope.find?] at hfind
      cases hentry : f.names.entries[name]? with
      | some entry =>
        rw [hentry] at hfind
        exact ⟨entry, f, [], .here hentry, .topLevel hlevel, ScopesGrow.refl _, hfind⟩
      | none =>
        rw [hentry] at hfind
        cases hfind
  | cons f₁ fs ih =>
    cases h with
    | @function _ l₁ ls _ _ _ inner outer hlevel houter htaken =>
      have hfind := hlevel.find? hname hplace
      rw [FunctionScope.find?] at hfind
      cases hentry : f.names.entries[name]? with
      | some entry =>
        rw [hentry] at hfind
        exact ⟨entry, f, f₁ :: fs, .here hentry, .function hlevel houter htaken, ScopesGrow.refl _, hfind⟩
      | none =>
        rw [hentry] at hfind
        -- What is pending around the function is taken in it, so the search did not come this far for it.
        have hname₁ : l₁.pending.map Prod.fst ≠ some name := by
          intro hsome
          obtain ⟨⟨other, path⟩, hpending, heq⟩ := Option.map_eq_some_iff.mp hsome
          cases heq
          exact htaken other path hpending
            (FunctionScope.find?_eq_none_iff.mp (FunctionScope.getElem?_entries_eq_none_iff.mp hentry) _ f.base_mem_maps)
        obtain ⟨entry, f₁', fs', hresolves, hagree, hgrow, hstands⟩ := ih houter hname₁ hfind
        have hlevel' := hlevel.mono (fun _ hpath => hpath) hgrow
        by_cases hcall : entry.storage.OfCall
        · obtain ⟨hcaptured, hstands'⟩ := hlevel'.capture hentry hfind hstands
          refine ⟨_, _, f₁' :: fs', .capture hentry hresolves hcall, .function hcaptured hagree ?_, .cons ?_ hgrow, hstands'⟩
          · intro other path hpending
            rw [FunctionScope.base_capture]
            exact SymbolMap.getElem?_insert_ne_none (htaken other path hpending)
          · exact ⟨Nat.le_refl _, List.prefix_append _ _⟩
        · refine ⟨entry, f, f₁' :: fs', .shared hentry hresolves hcall, .function hlevel' hagree htaken, .cons (.refl f) hgrow, ?_⟩
          obtain ⟨origin, horigin, hdenoted⟩ := hstands
          exact ⟨origin, horigin, hdenoted.inside hcall⟩

/-- A declared name is resolved to a symbol that stands for the declaration. -/
theorem resolve {scope : SymbolScope} {scopes : List NameScope}
    (h : ScopesAgree program done (l :: ls) scope.functions scopes) (hname : l.pending.map Prod.fst ≠ some name)
    (hplace : placeIn scopes name = some place) :
    ∃ symbol scope', scope.resolve name = (some symbol, scope') ∧
      ScopesAgree program done (l :: ls) scope'.functions scopes ∧
      Stands program done scope'.functions ((l :: ls).map Level.function) symbol.storage place := by
  obtain ⟨entry, f, fs, hresolves, hagree, -, hstands⟩ := h.resolves hname hplace
  refine ⟨⟨entry, name⟩, ⟨f, fs⟩, ?_, hagree, hstands⟩
  rw [SymbolScope.resolve, SymbolScope.resolveFrom_eq_iff.mpr hresolves]
  rfl

end ScopesAgree

end MonkeyLang
