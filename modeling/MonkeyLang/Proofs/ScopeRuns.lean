import MonkeyLang.Proofs.Captures
/-!
# Runs on a scope

The scope of a function is used in whatever order its body asks for: names are defined and resolved, blocks are opened and closed,
and functions inside are entered, used in the same way and left again. `ScopeRun` is such a run, from one state of the scope to
another, with the number of blocks that are open since and the symbols that have been defined.

What is done inside a function changes the functions around it in one way only, `CapturesMore`. What is done inside a block leaves the
maps of the blocks around it as they are, but for names that are captured there, which belong to the function as such: `InBlock` holds
all through the block, and closing it gives `Keeps`. Since the entry of a name is that of the innermost map with the name, what was
visible before the block is then visible again, with the depth that it had.
-/

namespace MonkeyLang

namespace FunctionScope

/-! ### What functions inside do to a function -/

/-- A later state of a function that has only captured names it did not know. -/
inductive CapturesMore (f : FunctionScope) : FunctionScope → Prop
  | refl : CapturesMore f f
  | capture {f' name} (h : CapturesMore f f') (hnew : f'.names.entries[name]? = none) (entry : Entry) :
      CapturesMore f (f'.capture name entry hnew)

namespace CapturesMore

variable {f f' f'' : FunctionScope}

theorem trans (h : f.CapturesMore f') (h' : f'.CapturesMore f'') : f.CapturesMore f'' := by
  induction h' with
  | refl => exact h
  | capture _ hnew entry ih => exact .capture ih hnew entry

theorem keeps (h : f.CapturesMore f') : f.Keeps f' := by
  induction h with
  | refl => exact .refl f
  | capture _ hnew entry ih => exact ih.trans (.capture hnew entry)

theorem capturesNamed (h : f.CapturesMore f') (hnamed : f.CapturesNamed) : f'.CapturesNamed := by
  induction h with
  | refl => exact hnamed
  | capture _ hnew entry ih => exact ih.capture hnew entry

theorem slots_eq (h : f.CapturesMore f') : f'.slots = f.slots := by
  induction h with
  | refl => rfl
  | capture _ _ _ ih => exact ih

end CapturesMore

/-! ### Names inside a block -/

/-- A state of a function inside of blocks that are open in it, one of them and so many more. -/
structure InBlock (f : FunctionScope) (more : Nat) (f' : FunctionScope) : Prop where
  depth : f'.names.depth = f.names.depth + (more + 1)
  captures : f.captures <+: f'.captures
  blocks : f'.blocks.drop (more + 1) = f.blocks
  base : ∀ name : String, f'.base[name]? = f.base[name]? ∨
    f.find? name = none ∧ ∃ index, f'.base[name]? = some (.captured index)

namespace InBlock

variable {f f' f'' : FunctionScope} {more : Nat}

theorem start (f : FunctionScope) : f.InBlock 0 f.openBlock where
  depth := rfl
  captures := List.prefix_rfl
  blocks := by rw [blocks_openBlock, List.drop_one, List.tail_cons]
  base := fun _ => .inl rfl

theorem blocks_ne_nil (h : f.InBlock more f') : f'.blocks ≠ [] := by
  rw [ne_eq, blocks_eq_nil_iff, h.depth]
  omega

/-- Names are put into the innermost block. -/
theorem insert (h : f.InBlock more f') (name : String) (storage : Storage) (slots : Nat) :
    f.InBlock more { f'.insert name storage with slots } where
  depth := h.depth
  captures := h.captures
  blocks := by
    change (f'.insert name storage).blocks.drop (more + 1) = f.blocks
    rw [blocks_insert, ← List.drop_tail, List.tail_modifyHead, List.drop_tail, h.blocks]
  base := by
    have hbase : FunctionScope.base { f'.insert name storage with slots } = f'.base :=
      (f'.base_insert name storage).trans (if_neg h.blocks_ne_nil)
    rw [hbase]
    exact h.base

theorem openBlock (h : f.InBlock more f') : f.InBlock (more + 1) f'.openBlock where
  depth := congrArg (· + 1) h.depth
  captures := h.captures
  blocks := by rw [blocks_openBlock, List.drop_succ_cons, h.blocks]
  base := h.base

theorem closeBlock (h : f.InBlock (more + 1) f') : f.InBlock more f'.closeBlock where
  depth := congrArg (· - 1) h.depth
  captures := h.captures
  blocks := by rw [blocks_closeBlock, List.drop_tail, h.blocks]
  base := base_closeBlock h.blocks_ne_nil ▸ h.base

/-- A name that is found outside of some blocks is found inside of them. -/
theorem find?_eq_none (h : f.InBlock more f') {name : String} (hnone : f'.find? name = none) : f.find? name = none := by
  rw [find?_eq_none_iff] at hnone
  rw [find?_eq_or, Option.or_eq_none_iff, List.findSome?_eq_none_iff]
  constructor
  · intro block hblock
    rw [← h.blocks] at hblock
    exact hnone block (List.mem_append_left _ (List.mem_of_mem_drop hblock))
  · have hbase := hnone f'.base f'.base_mem_maps
    rcases h.base name with hsame | ⟨-, index, hcaptured⟩
    · exact hsame ▸ hbase
    · rw [hbase] at hcaptured
      cases hcaptured

theorem capturesMore (h : f.InBlock more f') (hmore : f'.CapturesMore f'') : f.InBlock more f'' where
  depth := by rw [← length_blocks, hmore.keeps.blocks, length_blocks, h.depth]
  captures := h.captures.trans hmore.keeps.captures
  blocks := by rw [hmore.keeps.blocks, h.blocks]
  base := by
    intro name
    rcases hmore.keeps.base name with hsame | ⟨hnone, hcaptured⟩
    · rw [hsame]
      exact h.base name
    · exact .inr ⟨h.find?_eq_none hnone, hcaptured⟩

/-- The block is closed. -/
theorem keeps_closeBlock (h : f.InBlock 0 f') : f.Keeps f'.closeBlock where
  captures := h.captures
  blocks := by rw [blocks_closeBlock, ← List.drop_one, h.blocks]
  base := base_closeBlock h.blocks_ne_nil ▸ h.base

end InBlock

/-! ### Visible names -/

theorem entryIn?_of_none {name : String} {base base' : SymbolMap} {blocks : List SymbolMap}
    (h : entryIn? name (blocks ++ [base]) = none) : entryIn? name (blocks ++ [base']) = base'[name]?.map (⟨·, 0⟩) := by
  induction blocks with
  | nil =>
    rw [List.nil_append, entryIn?]
    cases base'[name]? <;> rfl
  | cons m blocks ih =>
    simp only [List.cons_append, entryIn?] at h ⊢
    cases hm : m[name]? with
    | none =>
      rw [hm] at h
      exact ih h
    | some storage =>
      rw [hm] at h
      cases h

namespace Keeps

variable {f f' : FunctionScope} {name : String} {entry : Entry}

/-- What has become visible is captured. -/
theorem getElem?_entries_of_none (h : f.Keeps f') (hnone : f.names.entries[name]? = none)
    (hentry : f'.names.entries[name]? = some entry) : ∃ index, entry = ⟨.captured index, 0⟩ := by
  have hmaps := hnone
  rw [FunctionScope.getElem?_entries] at hmaps
  rw [FunctionScope.getElem?_entries, maps, h.blocks, entryIn?_of_none hmaps, Option.map_eq_some_iff] at hentry
  obtain ⟨storage, hstorage, rfl⟩ := hentry
  rcases h.base name with hbase | ⟨-, index, hcaptured⟩
  · have hold := find?_eq_none_iff.mp (getElem?_entries_eq_none_iff.mp hnone) f.base f.base_mem_maps
    rw [hbase, hold] at hstorage
    cases hstorage
  · rw [hcaptured, Option.some.injEq] at hstorage
    exact ⟨index, by rw [← hstorage]⟩

end Keeps

end FunctionScope

open FunctionScope

/-! ### Runs -/

/-- The slot of a symbol that was defined. -/
def Storage.slot? : Storage → Option Nat
  | global slot | frame slot => some slot
  | builtin _ | captured _ | running => none

/-- A run on the scope of a function: from a state of it to another one, with the number of blocks that have been opened since and
are still open, and with the symbols that have been defined in this function. Functions inside are entered and left again. -/
inductive ScopeRun : SymbolScope → Nat → List Symbol → SymbolScope → Prop
  | start {s} : ScopeRun s 0 [] s
  | define {s depth defined t} (h : ScopeRun s depth defined t) (name : String) :
      ScopeRun s depth (defined ++ [(t.define name).1]) (t.define name).2
  | defineRunning {s depth defined t} (h : ScopeRun s depth defined t) (name : String) :
      ScopeRun s depth defined (t.defineRunning name).2
  | resolve {s depth defined t} (h : ScopeRun s depth defined t) (name : String) : ScopeRun s depth defined (t.resolve name).2
  | openBlock {s depth defined t} (h : ScopeRun s depth defined t) : ScopeRun s (depth + 1) defined t.openBlock
  | closeBlock {s depth defined t} (h : ScopeRun s (depth + 1) defined t) : ScopeRun s depth defined t.closeBlock
  | function {s depth defined t depth' defined' u f v} (h : ScopeRun s depth defined t)
      (hinside : ScopeRun t.enter depth' defined' u) (hleave : u.leave? = some (f, v)) : ScopeRun s depth defined v

namespace SymbolScope

/-- Looking a name up makes functions capture it, if it does anything. -/
theorem resolves_capturesMore {name : String} {f f' : FunctionScope} {outer outer' : List FunctionScope} {found : Option Entry}
    (h : Resolves name f outer found f' outer') : List.Forall₂ CapturesMore (f :: outer) (f' :: outer') := by
  induction h with
  | here | nowhere => exact List.forall₂_same.mpr fun _ _ => .refl
  | unknown _ _ ih | shared _ _ _ ih => exact .cons .refl ih
  | @capture _ _ _ entry _ _ hfind _ _ ih => exact .cons (.capture .refl hfind entry) ih

theorem resolve_capturesMore (s : SymbolScope) (name : String) : s.current.CapturesMore (s.resolve name).2.current ∧
    List.Forall₂ CapturesMore s.enclosing (s.resolve name).2.enclosing :=
  List.forall₂_cons.mp (resolves_capturesMore (resolves_resolveFrom name s.current s.enclosing))

theorem enclosing_of_leave? {s t : SymbolScope} {f : FunctionScope} (h : s.leave? = some (f, t)) :
    s.enclosing = t.current :: t.enclosing := by
  unfold leave? at h
  split at h
  case h_1 => cases h
  case h_2 outer rest hsplit =>
    cases h
    exact hsplit

end SymbolScope

namespace ScopeRun

variable {s t u : SymbolScope} {depth depth' : Nat} {defined defined' : List Symbol}

theorem trans (h : ScopeRun s depth defined t) (h' : ScopeRun t depth' defined' u) :
    ScopeRun s (depth + depth') (defined ++ defined') u := by
  induction h' with
  | start => rwa [List.append_nil]
  | define _ name ih =>
    rw [← List.append_assoc]
    exact (ih h).define name
  | defineRunning _ name ih => exact (ih h).defineRunning name
  | resolve _ name ih => exact (ih h).resolve name
  | openBlock _ ih => exact (ih h).openBlock
  | closeBlock _ ih => exact (ih h).closeBlock
  | function _ hinside hleave ih => exact (ih h).function hinside hleave

/-- The functions around only capture. -/
theorem enclosing (h : ScopeRun s depth defined t) : List.Forall₂ CapturesMore s.enclosing t.enclosing := by
  have htrans {fs fs' fs'' : List FunctionScope} (h : List.Forall₂ CapturesMore fs fs') (h' : List.Forall₂ CapturesMore fs' fs'') :
      List.Forall₂ CapturesMore fs fs'' := by
    induction h generalizing fs'' with
    | nil => exact h'
    | cons hf _ ih =>
      cases h' with
      | cons hf' hrest => exact .cons (hf.trans hf') (ih hrest)
  induction h with
  | start => exact List.forall₂_same.mpr fun _ _ => .refl
  | define _ _ ih | defineRunning _ _ ih | openBlock _ ih | closeBlock _ ih => exact ih
  | @resolve _ _ _ t _ name ih => exact htrans ih (t.resolve_capturesMore name).2
  | function _ _ hleave ih ihinside =>
    -- The first function around the one that is left is where the run goes on; the others are around both.
    rw [SymbolScope.enclosing_of_leave? hleave] at ihinside
    exact htrans ih (List.forall₂_cons.mp ihinside).2

/-- A function that is entered and left again makes the function around it capture. -/
theorem capturesMore_of_leave? {f : FunctionScope} (h : ScopeRun s.enter depth defined t) (hleave : t.leave? = some (f, u)) :
    s.current.CapturesMore u.current := by
  have henclosing := h.enclosing
  rw [SymbolScope.enclosing_of_leave? hleave] at henclosing
  exact (List.forall₂_cons.mp henclosing).1

theorem inBlock {f : FunctionScope} (h : ScopeRun s depth defined t) (hstart : f.InBlock 0 s.current) :
    f.InBlock depth t.current := by
  induction h with
  | start => exact hstart
  | define _ name ih => exact (ih hstart).insert ..
  | defineRunning _ name ih => exact (ih hstart).insert ..
  | @resolve _ _ _ t _ name ih => exact (ih hstart).capturesMore (t.resolve_capturesMore name).1
  | openBlock _ ih => exact (ih hstart).openBlock
  | closeBlock _ ih => exact (ih hstart).closeBlock
  | function _ hinside hleave ih _ => exact (ih hstart).capturesMore (hinside.capturesMore_of_leave? hleave)

theorem depth_eq (h : ScopeRun s depth defined t) : t.depth = s.depth + depth := by
  have hmore {f f' : FunctionScope} (h : f.CapturesMore f') : f'.names.depth = f.names.depth := by
    rw [← length_blocks, h.keeps.blocks, length_blocks]
  induction h with
  | start => rfl
  | define _ name ih | defineRunning _ name ih => exact ih
  | @resolve _ _ _ t _ name ih => exact (hmore (t.resolve_capturesMore name).1).trans ih
  | openBlock _ ih => exact congrArg (· + 1) ih
  | closeBlock _ ih => exact congrArg (· - 1) ih
  | function _ hinside hleave ih _ => exact (hmore (hinside.capturesMore_of_leave? hleave)).trans ih

theorem capturesNamed (h : ScopeRun s depth defined t) (hstart : s.current.CapturesNamed) : t.current.CapturesNamed := by
  induction h with
  | start => exact hstart
  | @define _ _ _ t _ name ih =>
    refine (ih hstart).insert name (fun index => ?_) _
    cases t.isTopLevel <;> simp
  | defineRunning _ name ih => exact (ih hstart).insert name (fun index => by simp) _
  | @resolve _ _ _ t _ name ih => exact (t.resolve_capturesMore name).1.capturesNamed (ih hstart)
  | openBlock _ ih => exact (ih hstart).openBlock
  | closeBlock h ih =>
    refine (ih hstart).closeBlock ?_
    have hdepth := h.depth_eq
    rw [ne_eq, blocks_eq_nil_iff]
    unfold SymbolScope.depth at hdepth
    omega
  | function _ hinside hleave ih _ => exact (hinside.capturesMore_of_leave? hleave).capturesNamed (ih hstart)

/-- The slots that are handed out follow each other. -/
theorem slots (h : ScopeRun s depth defined t) : t.current.slots = s.current.slots + defined.length ∧
    defined.map (fun symbol => symbol.storage.slot?) = (List.range' s.current.slots defined.length).map some := by
  induction h with
  | start => exact ⟨rfl, rfl⟩
  | @define _ _ defined t _ name ih =>
    have hslot : (t.define name).1.storage.slot? = some t.current.slots := by
      unfold SymbolScope.define
      cases t.isTopLevel <;> rfl
    rw [List.length_append, List.length_singleton, List.map_append, List.map_singleton, hslot, ih.2, ih.1,
      List.range'_1_concat, List.map_append, List.map_singleton]
    exact ⟨congrArg (· + 1) ih.1, rfl⟩
  | defineRunning _ name ih => exact ⟨(slots_insert ..).trans ih.1, ih.2⟩
  | @resolve _ _ _ t _ name ih => exact ⟨(t.resolve_capturesMore name).1.slots_eq.trans ih.1, ih.2⟩
  | openBlock _ ih => exact ih
  | closeBlock _ ih => exact ⟨(slots_closeBlock _).trans ih.1, ih.2⟩
  | function _ hinside hleave ih _ => exact ⟨(hinside.capturesMore_of_leave? hleave).slots_eq.trans ih.1, ih.2⟩

theorem nodup_slots (h : ScopeRun s depth defined t) : (defined.map fun symbol => symbol.storage.slot?).Nodup := by
  rw [h.slots.2]
  exact (List.nodup_range' ..).map fun _ _ => Option.some.inj

end ScopeRun

/-- The scope of a function that has just been entered, or the top level. -/
def SymbolScope.Fresh (s : SymbolScope) : Prop := s = .topLevel ∨ ∃ outer : SymbolScope, s = outer.enter

theorem SymbolScope.Fresh.capturesNamed {s : SymbolScope} (h : s.Fresh) : s.current.CapturesNamed := by
  rcases h with rfl | ⟨outer, rfl⟩
  · exact SymbolScope.topLevel_wired.capturesNamed
  · refine ⟨List.nodup_nil, fun symbol hsymbol => absurd hsymbol List.not_mem_nil, ?_⟩
    intro m hm name index hfound
    cases (getElem?_of_mem_maps_empty hm name).symm.trans hfound

/-- Opening a block in any state of a scope, any run on the scope that ends in this block, and closing it: the depth is what it was, and
all names that were visible have the entries that they had. What has become visible besides is captured. Names are captured at the end of
the list, each once, and no two symbols that the function defines at any time have the same slot. -/
theorem block_restores_scope {origin s t : SymbolScope} {depth : Nat} {before inside : List Symbol} (horigin : origin.Fresh)
    (hbefore : ScopeRun origin depth before s) (hinside : ScopeRun s.openBlock 0 inside t) :
    t.closeBlock.depth = s.depth ∧
    (∀ (name : String) entry, s.current.names.entries[name]? = some entry →
      t.closeBlock.current.names.entries[name]? = some entry) ∧
    (∀ (name : String) entry, s.current.names.entries[name]? = none → t.closeBlock.current.names.entries[name]? = some entry →
      ∃ index symbol, entry = ⟨.captured index, 0⟩ ∧ t.closeBlock.current.captures[index]? = some symbol ∧ symbol.name = name) ∧
    (s.current.captures <+: t.closeBlock.current.captures ∧ (t.closeBlock.current.captures.map Symbol.name).Nodup) ∧
    ((before ++ inside).map fun symbol => symbol.storage.slot?).Nodup := by
  have hkeeps : s.current.Keeps t.closeBlock.current := (hinside.inBlock (.start s.current)).keeps_closeBlock
  have hrun : ScopeRun origin depth (before ++ inside) t.closeBlock := (hbefore.openBlock.trans hinside).closeBlock
  have hnamed := hrun.capturesNamed horigin.capturesNamed
  refine ⟨congrArg (· - 1) hinside.depth_eq, fun name entry => hkeeps.getElem?_entries, ?_, ⟨hkeeps.captures, hnamed.nodup⟩,
    hrun.nodup_slots⟩
  intro name entry hnone hentry
  obtain ⟨index, rfl⟩ := hkeeps.getElem?_entries_of_none hnone hentry
  have hfind : t.closeBlock.current.find? name = some (.captured index) := by rw [find?, hentry, Option.map_some]
  obtain ⟨symbol, hsymbol, hname⟩ := hnamed.find? hfind
  exact ⟨index, symbol, rfl, hsymbol, hname⟩

/-- A function with a name, in a function with another name. -/
def shadowedScope : SymbolScope := ((SymbolScope.topLevel.enter.define "x").2.enter.define "y").2

/-- A block of the function gives the name another meaning, and a function in the block uses both names. -/
def shadowingScope : SymbolScope := (((shadowedScope.openBlock.define "y").2.enter.resolve "y").2.resolve "x").2

theorem block_restores_shadowedScope : ∃ f t, shadowingScope.leave? = some (f, t) ∧
    t.current.names.entries["y"]? = some ⟨.frame 1, 1⟩ ∧ t.current.names.shadowed.length = 1 ∧
    shadowedScope.current.names.entries["x"]? = none ∧
    t.closeBlock.depth = shadowedScope.depth ∧ t.closeBlock.current.names.entries["y"]? = some ⟨.frame 0, 0⟩ ∧
    (∃ index symbol, t.closeBlock.current.names.entries["x"]? = some ⟨.captured index, 0⟩ ∧
      t.closeBlock.current.captures[index]? = some symbol ∧ symbol.name = "x") ∧
    (t.closeBlock.current.captures.map Symbol.name).Nodup ∧
    ([Symbol.mk ⟨.frame 0, 0⟩ "y", ⟨⟨.frame 1, 1⟩, "y"⟩].map (·.storage.slot?)).Nodup := by
  have hbefore : ScopeRun (SymbolScope.topLevel.enter.define "x").2.enter 0 _ shadowedScope := ScopeRun.start.define "y"
  have hfunction : ScopeRun (shadowedScope.openBlock.define "y").2.enter 0 [] shadowingScope :=
    (ScopeRun.start.resolve "y").resolve "x"
  have hleave : shadowingScope.leave? =
      some (shadowingScope.current, ⟨shadowingScope.enclosing.headD {}, shadowingScope.enclosing.tail⟩) := rfl
  have hinside := (ScopeRun.start.define "y").function hfunction hleave
  obtain ⟨hdepth, hkept, hgained, ⟨-, hcaptures⟩, hslots⟩ := block_restores_scope (.inr ⟨_, rfl⟩) hbefore hinside
  have hnew : shadowedScope.current.names.entries["x"]? = none := by decide +kernel
  refine ⟨_, _, hleave, by decide +kernel, by decide +kernel, hnew, hdepth, hkept "y" _ (by decide +kernel), ?_, hcaptures, hslots⟩
  have hfound : (SymbolScope.mk (shadowingScope.enclosing.headD {}) shadowingScope.enclosing.tail).closeBlock.current.names.entries["x"]? =
      some ⟨.captured 0, 0⟩ := by decide +kernel
  obtain ⟨index, symbol, hindex, hsymbol⟩ := hgained "x" _ hnew hfound
  exact ⟨index, symbol, hfound.trans (congrArg some hindex), hsymbol⟩

end MonkeyLang
