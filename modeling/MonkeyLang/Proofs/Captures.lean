import Mathlib.Data.List.Induction
import Mathlib.Data.List.Nodup
import MonkeyLang.Proofs.NameResolution
/-!
# Names that are captured

While code is generated inside of a function, the functions around it change in one way only: they capture. A name that
they knew stands for what it stood for, and a name that they did not know may have become a captured one. The same is true
of the function itself behind an expression, since the names of a block go with the block. `Generates.wired` says so of
every phrase, along with what this leads to: each captured symbol is what the function around finds for its name, as long
as the function is open, and no name is captured twice.
-/

namespace MonkeyLang

namespace FunctionScope

/-- A later state of a function with the same names, but for some that have been captured since. -/
structure Keeps (f f' : FunctionScope) : Prop where
  captures : f.captures <+: f'.captures
  blocks : f'.blocks = f.blocks
  base : ∀ name : String, f'.base[name]? = f.base[name]? ∨
    f.find? name = none ∧ ∃ index, f'.base[name]? = some (.captured index)

namespace Keeps

variable {f f' f'' : FunctionScope} {name : String} {storage : Storage}

theorem refl (f : FunctionScope) : f.Keeps f := ⟨List.prefix_rfl, rfl, fun _ => .inl rfl⟩

theorem getElem?_entries (h : f.Keeps f') {entry : Entry} (hentry : f.names.entries[name]? = some entry) : f'.names.entries[name]? = some entry := by
  rcases h.base name with hbase | ⟨hnone, -⟩
  · rw [← hentry, FunctionScope.getElem?_entries, FunctionScope.getElem?_entries, maps, maps, h.blocks, entryIn?_congr hbase]
  · rw [getElem?_entries_eq_none_iff.mpr hnone] at hentry
    cases hentry

theorem find? (h : f.Keeps f') (hfind : f.find? name = some storage) : f'.find? name = some storage := by
  obtain ⟨entry, hentry, rfl⟩ := Option.map_eq_some_iff.mp hfind
  exact find?_of_getElem?_entries (h.getElem?_entries hentry)

theorem trans (h : f.Keeps f') (h' : f'.Keeps f'') : f.Keeps f'' := by
  refine ⟨h.captures.trans h'.captures, h'.blocks.trans h.blocks, ?_⟩
  intro name
  rcases h'.base name with hbase | ⟨hnone, hcaptured⟩
  · rw [hbase]
    exact h.base name
  · refine .inr ⟨?_, hcaptured⟩
    cases hfind : f.find? name with
    | none => rfl
    | some storage =>
      rw [h.find? hfind] at hnone
      cases hnone

/-- What a name stands for is old, unless it is captured. -/
theorem exists_map (h : f.Keeps f') {m : SymbolMap} (hm : m ∈ f'.maps) (hfound : m[name]? = some storage)
    (hstorage : ∀ index, storage ≠ .captured index) : ∃ m ∈ f.maps, m[name]? = some storage := by
  rcases List.mem_append.mp hm with hm | hm
  · rw [h.blocks] at hm
    exact ⟨m, List.mem_append_left _ hm, hfound⟩
  · rw [List.mem_singleton.mp hm] at hfound
    rcases h.base name with hbase | ⟨-, index, hcaptured⟩
    · exact ⟨f.base, f.base_mem_maps, hbase ▸ hfound⟩
    · rw [hcaptured, Option.some.injEq] at hfound
      exact absurd hfound.symm (hstorage index)

theorem capture (hnew : f.names.entries[name]? = none) (entry : Entry) : f.Keeps (f.capture name entry hnew) := by
  refine ⟨List.prefix_append _ _, f.blocks_capture entry hnew, ?_⟩
  intro other
  rw [base_capture]
  by_cases hname : name = other
  · subst hname
    exact .inr ⟨getElem?_entries_eq_none_iff.mp hnew, _, SymbolMap.getElem?_insert_self ..⟩
  · exact .inl (SymbolMap.getElem?_insert_of_ne hname)

/-- A block that is closed at once leaves nothing behind. -/
theorem openBlock_closeBlock (f : FunctionScope) : f.Keeps f.openBlock.closeBlock := by
  refine ⟨List.prefix_rfl, by rw [blocks_closeBlock, blocks_openBlock, List.tail_cons], fun name => .inl ?_⟩
  rw [base_closeBlock f.blocks_openBlock_ne_nil, base_openBlock]

theorem closeBlock (h : f.Keeps f') (hblocks : f.blocks ≠ []) : f.closeBlock.Keeps f'.closeBlock := by
  refine ⟨h.captures, by rw [blocks_closeBlock, blocks_closeBlock, h.blocks], fun name => ?_⟩
  rw [base_closeBlock hblocks, base_closeBlock (h.blocks ▸ hblocks)]
  refine (h.base name).imp_right (And.imp_left fun hnone => ?_)
  rw [find?_eq_none_iff] at hnone ⊢
  rw [maps_closeBlock hblocks]
  exact fun m hm => hnone m (List.mem_of_mem_tail hm)

end Keeps

/-- A later state of a function with the same blocks, where outside of the innermost one names have been kept. -/
structure Continues (f f' : FunctionScope) : Prop where
  captures : f.captures <+: f'.captures
  depth : f'.blocks.length = f.blocks.length
  outside : f.blocks ≠ [] → f.closeBlock.Keeps f'.closeBlock

namespace Continues

variable {f f' f'' : FunctionScope}

theorem of_keeps (h : f.Keeps f') : f.Continues f' := 
  ⟨h.captures, congrArg List.length h.blocks, h.closeBlock⟩

theorem blocks_ne_nil (h : f.Continues f') (hblocks : f.blocks ≠ []) : f'.blocks ≠ [] := by
  rw [← List.length_pos_iff] at hblocks ⊢
  rwa [h.depth]

theorem trans (h : f.Continues f') (h' : f'.Continues f'') : f.Continues f'' :=
  ⟨h.captures.trans h'.captures, h'.depth.trans h.depth, fun hblocks => (h.outside hblocks).trans (h'.outside (h.blocks_ne_nil hblocks))⟩

theorem insert (f : FunctionScope) (name : String) (storage : Storage) (slots : Nat) :
    f.Continues { f.insert name storage with slots } := by
  refine ⟨List.prefix_rfl, (length_blocks _).trans f.length_blocks.symm, fun hblocks => ⟨List.prefix_rfl, ?_, fun other => .inl ?_⟩⟩
  · rw [blocks_closeBlock, blocks_closeBlock]
    change (f.insert name storage).blocks.tail = _
    rw [blocks_insert, List.tail_modifyHead]
  · have hinserted : (f.insert name storage).blocks ≠ [] := by rwa [blocks_insert, ne_eq, List.modifyHead_eq_nil_iff]
    change (f.insert name storage).closeBlock.base[other]? = _
    rw [base_closeBlock hblocks, base_closeBlock hinserted, base_insert, if_neg hblocks]

/-- A block that was opened can be closed again. -/
theorem keeps_closeBlock (h : f.openBlock.Continues f') : f.Keeps f'.closeBlock :=
  (Keeps.openBlock_closeBlock f).trans (h.outside f.blocks_openBlock_ne_nil)

end Continues

/-- The captured symbols of a function have different names, and the function finds them by these. -/
structure CapturesNamed (f : FunctionScope) : Prop where
  nodup : (f.captures.map Symbol.name).Nodup
  knows : ∀ symbol ∈ f.captures, f.base[symbol.name]? ≠ none
  named : ∀ m ∈ f.maps, ∀ (name : String) index, m[name]? = some (.captured index) →
    ∃ symbol, f.captures[index]? = some symbol ∧ symbol.name = name

namespace CapturesNamed

variable {f : FunctionScope}

theorem find? (h : f.CapturesNamed) {name : String} {index : Nat} (hfind : f.find? name = some (.captured index)) :
    ∃ symbol, f.captures[index]? = some symbol ∧ symbol.name = name := by
  obtain ⟨m, hm, hfound⟩ := exists_map_of_find? hfind
  exact h.named m hm name index hfound

theorem insert (h : f.CapturesNamed) (name : String) {storage : Storage} (hstorage : ∀ index, storage ≠ .captured index)
    (slots : Nat) : CapturesNamed { f.insert name storage with slots } := by
  refine ⟨?_, ?_, ?_⟩
  · rw [captures_insert]
    exact h.nodup
  · rw [captures_insert]
    exact fun symbol hsymbol => base_insert_ne_none (h.knows symbol hsymbol)
  · rw [captures_insert]
    intro m hm other index hfound
    rcases mem_maps_insert hm with hm | ⟨m', hm', rfl⟩
    · exact h.named m hm other index hfound
    · by_cases hname : name = other
      · rw [hname, SymbolMap.getElem?_insert_self, Option.some.injEq] at hfound
        exact absurd hfound (hstorage index)
      · rw [SymbolMap.getElem?_insert_of_ne hname] at hfound
        exact h.named m' hm' other index hfound

theorem openBlock (h : f.CapturesNamed) : f.openBlock.CapturesNamed := by
  refine ⟨h.nodup, h.knows, ?_⟩
  intro m hm name index hfound
  rcases List.mem_cons.mp (f.maps_openBlock ▸ hm) with rfl | hm
  · simp at hfound
  · exact h.named m hm name index hfound

theorem closeBlock (h : f.CapturesNamed) (hblocks : f.blocks ≠ []) : f.closeBlock.CapturesNamed := by
  refine ⟨?_, ?_, ?_⟩
  · rw [captures_closeBlock]
    exact h.nodup
  · rw [captures_closeBlock, base_closeBlock hblocks]
    exact h.knows
  · rw [captures_closeBlock]
    intro m hm name index hfound
    rcases mem_maps_closeBlock hm with hm | rfl
    · exact h.named m hm name index hfound
    · simp at hfound

/-- A name that is not known is captured. -/
theorem capture (h : f.CapturesNamed) {name : String} (hnew : f.names.entries[name]? = none) (entry : Entry) :
    (f.capture name entry hnew).CapturesNamed := by
  have hbase : f.base[name]? = none := find?_eq_none_iff.mp (getElem?_entries_eq_none_iff.mp hnew) _ f.base_mem_maps
  refine ⟨?_, ?_, ?_⟩
  · change ((f.captures ++ [Symbol.mk entry name]).map Symbol.name).Nodup
    rw [List.map_append, List.map_singleton, ← List.concat_eq_append, List.nodup_concat]
    refine ⟨?_, h.nodup⟩
    intro hmem
    obtain ⟨other, hother, hname⟩ := List.mem_map.mp hmem
    exact h.knows other hother (hname ▸ hbase)
  · intro other hother
    rw [base_capture]
    rcases List.mem_append.mp hother with hother | hother
    · exact SymbolMap.getElem?_insert_ne_none (h.knows other hother)
    · rw [List.mem_singleton.mp hother, SymbolMap.getElem?_insert_self]
      exact Option.some_ne_none _
  · intro m hm other index hfound
    change ∃ found, (f.captures ++ [Symbol.mk entry name])[index]? = some found ∧ found.name = other
    have hold (m : SymbolMap) (hm : m ∈ f.maps) (hfound : m[other]? = some (.captured index)) :
        ∃ found, (f.captures ++ [Symbol.mk entry name])[index]? = some found ∧ found.name = other := by
      obtain ⟨found, hfound, hname⟩ := h.named m hm other index hfound
      refine ⟨found, ?_, hname⟩
      rw [List.getElem?_append_left (List.getElem?_eq_some_iff.mp hfound).1, hfound]
    rw [maps, blocks_capture, base_capture] at hm
    rcases List.mem_append.mp hm with hm | hm
    · exact hold m (List.mem_append_left _ hm) hfound
    · rw [List.mem_singleton.mp hm] at hfound
      by_cases hname : name = other
      · rw [hname, SymbolMap.getElem?_insert_self, Option.some.injEq, Storage.captured.injEq] at hfound
        exact ⟨⟨entry, name⟩, hfound ▸ List.getElem?_concat_length, hname⟩
      · rw [SymbolMap.getElem?_insert_of_ne hname] at hfound
        exact hold f.base f.base_mem_maps hfound

end CapturesNamed

end FunctionScope

open FunctionScope

/-- Later states of functions in which names have been kept. -/
abbrev ScopesKeep : List FunctionScope → List FunctionScope → Prop := List.Forall₂ Keeps

theorem ScopesKeep.refl (fs : List FunctionScope) : ScopesKeep fs fs := List.forall₂_same.mpr fun f _ => .refl f

theorem ScopesKeep.trans {fs fs' fs'' : List FunctionScope} (h : ScopesKeep fs fs') (h' : ScopesKeep fs' fs'') :
    ScopesKeep fs fs'' := by
  induction h generalizing fs'' with
  | nil => exact h'
  | cons hf _ ih =>
    cases h' with
    | cons hf' hrest => exact .cons (hf.trans hf') (ih hrest)

/-- Each captured symbol of some functions is what the function around finds for its name, in one of its calls. -/
inductive ScopesWired : List FunctionScope → Prop
  | topLevel {f} (hnamed : f.CapturesNamed) : ScopesWired [f]
  | function {f next rest} (hnamed : f.CapturesNamed)
      (hfound : ∀ symbol ∈ f.captures, symbol.storage.OfCall ∧ next.names.entries[symbol.name]? = some symbol.toEntry)
      (houter : ScopesWired (next :: rest)) : ScopesWired (f :: next :: rest)

namespace ScopesWired

variable {f f' next : FunctionScope} {rest outer outer' : List FunctionScope}

theorem capturesNamed (h : ScopesWired (f :: outer)) : f.CapturesNamed := by
  cases h with
  | topLevel hnamed => exact hnamed
  | function hnamed _ _ => exact hnamed

/-- Another state of the innermost function. -/
theorem update (h : ScopesWired (f :: outer)) (hnamed : f'.CapturesNamed) (hcaptures : f'.captures = f.captures) :
    ScopesWired (f' :: outer) := by
  cases h with
  | topLevel _ => exact .topLevel hnamed
  | function _ hfound houter => exact .function hnamed (hcaptures ▸ hfound) houter

/-- Later states of the functions around. -/
theorem around (h : ScopesWired (f :: next :: rest)) (houter' : ScopesWired outer')
    (hkeep : ScopesKeep (next :: rest) outer') : ScopesWired (f :: outer') := by
  cases hkeep with
  | cons hnext _ =>
    cases h with
    | function hnamed hfound _ =>
      exact .function hnamed (fun symbol hsymbol => (hfound symbol hsymbol).imp_right hnext.getElem?_entries) houter'

theorem of_cons (h : ScopesWired (f :: next :: rest)) : ScopesWired (next :: rest) := by
  cases h with
  | function _ _ houter => exact houter

theorem capture (h : ScopesWired (f :: next :: rest)) {name : String} (hnew : f.names.entries[name]? = none) {entry : Entry}
    (hcall : entry.storage.OfCall) (hentry : next.names.entries[name]? = some entry) :
    ScopesWired (f.capture name entry hnew :: next :: rest) := by
  cases h with
  | function hnamed hfound houter =>
    refine .function (hnamed.capture hnew entry) ?_ houter
    intro other hother
    rcases List.mem_append.mp hother with hother | hother
    · exact hfound other hother
    · rw [List.mem_singleton.mp hother]
      exact ⟨hcall, hentry⟩

end ScopesWired

namespace SymbolScope

/-- Looking a name up captures it in each function that does not know it, and gives what the first one finds then. -/
theorem resolves_wired {name : String} {f f' : FunctionScope} {outer outer' : List FunctionScope} {found : Option Entry}
    (hresolves : Resolves name f outer found f' outer') (h : ScopesWired (f :: outer)) :
    ScopesWired (f' :: outer') ∧ ScopesKeep (f :: outer) (f' :: outer') ∧
      ∀ entry ∈ found, entry.storage.OfCall → f'.names.entries[name]? = some entry := by
  induction hresolves with
  | here hfind =>
    refine ⟨h, .refl _, ?_⟩
    rintro _ ⟨⟩ -
    exact hfind
  | nowhere hfind => exact ⟨h, .refl _, fun _ hsome => by cases hsome⟩
  | @unknown f _ _ _ _ hfind _ ih =>
    obtain ⟨hwired, hkeep, -⟩ := ih h.of_cons
    exact ⟨h.around hwired hkeep, .cons (.refl f) hkeep, fun _ hsome => by cases hsome⟩
  | @shared f _ _ entry _ _ hfind _ hshared ih =>
    obtain ⟨hwired, hkeep, -⟩ := ih h.of_cons
    refine ⟨h.around hwired hkeep, .cons (.refl f) hkeep, ?_⟩
    rintro _ ⟨⟩ hcall
    exact absurd hcall hshared
  | @capture f _ _ entry _ _ hfind _ hcall ih =>
    obtain ⟨hwired, hkeep, hfound⟩ := ih h.of_cons
    refine ⟨(h.around hwired hkeep).capture hfind hcall (hfound entry rfl hcall), .cons (.capture hfind entry) hkeep, ?_⟩
    rintro _ ⟨⟩ -
    exact f.getElem?_entries_capture entry hfind

theorem resolve_wired {s s' : SymbolScope} {name : String} {symbol : Symbol} (h : ScopesWired s.functions)
    (hresolve : s.resolve name = (some symbol, s')) :
    ScopesWired s'.functions ∧ ScopesKeep s.functions s'.functions ∧ symbol.name = name ∧
      (symbol.storage.OfCall → s'.current.names.entries[name]? = some symbol.toEntry) := by
  obtain ⟨hname, hresolves⟩ := resolves_of_resolve hresolve
  obtain ⟨hwired, hkeep, hfound⟩ := resolves_wired hresolves h
  exact ⟨hwired, hkeep, hname, hfound symbol.toEntry rfl⟩

theorem define_wired {s : SymbolScope} (name : String) (h : ScopesWired s.functions) :
    ScopesWired (s.define name).2.functions ∧ s.current.Continues (s.define name).2.current := by
  have hstorage (index : Nat) : (s.define name).1.storage ≠ .captured index := by
    rw [define]
    cases s.isTopLevel <;> simp
  exact ⟨h.update (h.capturesNamed.insert name hstorage _) rfl, .insert ..⟩

/-- A function is entered with names for its parameters, and for itself if it has one. -/
theorem enterFunction_names (s : SymbolScope) (name : Option String) (params : List Ident) :
    (s.enterFunction name params).current.captures = [] ∧
      (s.enterFunction name params).current.slots = params.length ∧
      ∀ m ∈ (s.enterFunction name params).current.maps, ∀ (name : String) storage, m[name]? = some storage →
        storage = .running ∨ ∃ slot < params.length, storage = .frame slot := by
  induction params using List.reverseRecOn with
  | nil =>
    cases name with
    | none =>
      refine ⟨rfl, rfl, ?_⟩
      intro m hm name storage hfound
      cases (getElem?_of_mem_maps_empty hm name).symm.trans hfound
    | some self =>
      refine ⟨rfl, rfl, ?_⟩
      intro m hm name storage hfound
      rcases mem_maps_insert hm with hm | ⟨m, hempty, rfl⟩
      · cases (getElem?_of_mem_maps_empty hm name).symm.trans hfound
      · rw [SymbolMap.getElem?_insert, getElem?_of_mem_maps_empty hempty] at hfound
        split at hfound
        · exact .inl (Option.some.inj hfound).symm
        · cases hfound
  | append_singleton params param ih =>
    obtain ⟨hcaptures, hslots, hnames⟩ := ih
    have htop : (s.enterFunction name params).isTopLevel = false := by
      rw [isTopLevel, enclosing_enterFunction]
      rfl
    rw [enterFunction_append, define, htop, hslots, List.length_append, List.length_singleton]
    refine ⟨by simp [hcaptures], rfl, ?_⟩
    intro m hm other storage hfound
    have hold (m : SymbolMap) (hm : m ∈ (s.enterFunction name params).current.maps) (hfound : m[other]? = some storage) :
        storage = .running ∨ ∃ slot < params.length + 1, storage = .frame slot := by
      refine (hnames m hm other storage hfound).imp_right ?_
      rintro ⟨slot, hslot, rfl⟩
      exact ⟨slot, by omega, rfl⟩
    rcases mem_maps_insert hm with hm | ⟨m', hm', rfl⟩
    · exact hold m hm hfound
    · by_cases hname : param.name = other
      · rw [hname, SymbolMap.getElem?_insert_self, Option.some.injEq] at hfound
        exact .inr ⟨params.length, Nat.lt_succ_self _, hfound.symm⟩
      · rw [SymbolMap.getElem?_insert_of_ne hname] at hfound
        exact hold m' hm' hfound

theorem enterFunction_wired {s : SymbolScope} (name : Option String) (params : List Ident)
    (h : ScopesWired s.functions) : ScopesWired (s.enterFunction name params).functions := by
  obtain ⟨hcaptures, -, hnames⟩ := s.enterFunction_names name params
  rw [functions, enclosing_enterFunction]
  refine .function ⟨?_, ?_, ?_⟩ ?_ h
  · rw [hcaptures]
    exact List.nodup_nil
  · rw [hcaptures]
    exact fun symbol hsymbol => absurd hsymbol List.not_mem_nil
  · intro m hm other index hfound
    rcases hnames m hm other _ hfound with hstorage | ⟨slot, -, hstorage⟩ <;> cases hstorage
  · rw [hcaptures]
    exact fun symbol hsymbol => absurd hsymbol List.not_mem_nil

theorem topLevel_wired : ScopesWired topLevel.functions := by
  refine .topLevel ⟨List.nodup_nil, fun symbol hsymbol => absurd hsymbol List.not_mem_nil, ?_⟩
  intro m hm name index hfound
  obtain rfl := List.mem_singleton.mp (maps_of_depth_eq_zero (f := topLevel.current) rfl ▸ hm)
  rw [topLevel_base] at hfound
  obtain ⟨_, _, hstorage⟩ := Option.map_eq_some_iff.mp hfound
  cases hstorage

end SymbolScope

/-! ### Along a derivation -/

/-- Whether the names that a phrase introduces are in scope behind it. -/
def Phrase.introduces : Phrase → Bool
  | stmt _ | stmts _ | valueStmts _ | functionStmts _ => true
  | expr _ _ | operands _ | exprs _ | pairs _ | otherwise _ | valueBlock _ => false

/-- What generating a phrase does to the functions it is in. -/
structure Phrase.Preserves (p : Phrase) (s s' : SymbolScope) : Prop where
  wired : ScopesWired s'.functions
  current : s.current.Continues s'.current
  keeps : p.introduces = false → s.current.Keeps s'.current
  around : ScopesKeep s.enclosing s'.enclosing

namespace Phrase.Preserves

variable {p q r : Phrase} {s s₁ s' : SymbolScope}

theorem of_keep (hwired : ScopesWired s'.functions) (hkeep : ScopesKeep s.functions s'.functions) : p.Preserves s s' := by
  cases hkeep with
  | cons hcurrent haround => exact ⟨hwired, .of_keeps hcurrent, fun _ => hcurrent, haround⟩

theorem refl (h : ScopesWired s.functions) : p.Preserves s s := of_keep h (.refl _)

theorem keep (h : p.Preserves s s') (hp : p.introduces = false) : ScopesKeep s.functions s'.functions :=
  .cons (h.keeps hp) h.around

/-- Two phrases, one behind the other, that make up a third. -/
theorem trans (h : p.Preserves s s₁) (h' : q.Preserves s₁ s')
    (hr : r.introduces = true ∨ p.introduces = false ∧ q.introduces = false) : r.Preserves s s' := by
  refine ⟨h'.wired, h.current.trans h'.current, ?_, h.around.trans h'.around⟩
  intro hkeeps
  obtain ⟨hp, hq⟩ := hr.resolve_left (by simp [hkeeps])
  exact (h.keeps hp).trans (h'.keeps hq)

theorem widen (h : p.Preserves s s') (hr : r.introduces = true ∨ p.introduces = false) : r.Preserves s s' :=
  ⟨h.wired, h.current, fun hkeeps => h.keeps (hr.resolve_left (by simp [hkeeps])), h.around⟩

/-- The statements of a block, when the block is closed behind them. -/
theorem closeBlock (h : p.Preserves s.openBlock s') : r.Preserves s s'.closeBlock := by
  have hblocks : s'.current.blocks ≠ [] := h.current.blocks_ne_nil s.current.blocks_openBlock_ne_nil
  have hkeeps : s.current.Keeps s'.closeBlock.current := h.current.keeps_closeBlock
  refine ⟨?_, .of_keeps hkeeps, fun _ => hkeeps, h.around⟩
  exact h.wired.update (h.wired.capturesNamed.closeBlock hblocks) (captures_closeBlock _)

end Phrase.Preserves

/-- Inside of a function, the functions around it do nothing but capture. -/
theorem SymbolScope.keep_of_leave? {p : Phrase} {s entered inside s' : SymbolScope} {f : FunctionScope}
    (h : p.Preserves entered inside) (hentered : entered.enclosing = s.functions)
    (hleave : inside.leave? = some (f, s')) : ScopesWired s'.functions ∧ ScopesKeep s.functions s'.functions ∧
      f.CapturesNamed ∧
      ∀ symbol ∈ f.captures, symbol.storage.OfCall ∧ s'.current.names.entries[symbol.name]? = some symbol.toEntry := by
  have hfunctions := functions_of_leave? hleave
  have henclosing : inside.enclosing = s'.functions := (List.cons.inj hfunctions).2
  have hkeep := h.around
  rw [hentered, henclosing] at hkeep
  have hwired := h.wired
  rw [hfunctions] at hwired
  cases hwired with
  | function hnamed hfound houter => exact ⟨houter, hkeep, hnamed, hfound⟩

/-- Generation keeps captures in order, and changes the names of the functions around by captures only. -/
theorem Generates.wired {p : Phrase} {g g' : Generator} {code : List CodeLine} (h : Generates p g code g')
    (hwired : ScopesWired g.scope.functions) : p.Preserves g.scope g'.scope := by
  induction h with
  | constant | bool | operandsNil | exprsNil | pairsNil | otherwiseNone | stmtsNil | valueNil | functionNil =>
    exact .refl hwired
  | ident hresolve hload =>
    obtain ⟨hresolved, hkeep, -⟩ := SymbolScope.resolve_wired hwired hresolve
    exact .of_keep hresolved hkeep
  | chain hfirst hrest ihfirst ihrest | call hfirst hrest _ ihfirst ihrest | index hfirst hrest ihfirst ihrest
  | exprsCons hfirst hrest ihfirst ihrest | operandsCons hfirst hrest ihfirst ihrest =>
    exact (ihfirst hwired).trans (ihrest (ihfirst hwired).wired) (.inr ⟨rfl, rfl⟩)
  | stmtsCons hfirst hrest ihfirst ihrest | valueCons hfirst hrest ihfirst ihrest
  | functionCons hfirst hrest ihfirst ihrest =>
    exact (ihfirst hwired).trans (ihrest (ihfirst hwired).wired) (.inl rfl)
  | unary _ ih | array _ _ ih | hash _ _ ih | paren _ ih | otherwiseSome _ ih => exact (ih hwired).widen (.inr rfl)
  | returnStmt _ ih | exprStmt _ ih | valueExpr _ ih | valueLast _ _ ih | functionExpr _ ih | functionReturn _ ih
  | functionLet _ ih => exact (ih hwired).widen (.inl rfl)
  | @function name params body blockSpan span g c g₁ f scope loads hbody hleave htarget hloads hentry hparams hlocals
      hfree ih =>
    have hinside := ih (SymbolScope.enterFunction_wired name params hwired)
    obtain ⟨hleft, hkeep, -⟩ :=
      SymbolScope.keep_of_leave? hinside (SymbolScope.enclosing_enterFunction g.scope name params) hleave
    exact .of_keep hleft hkeep
  | ifElse hcondition hthen hskip helse hleave ihcondition ihthen ihelse
  | pairsCons hcondition hthen helse ihcondition ihthen ihelse =>
    have hfirst := ihcondition hwired
    have hsecond := ihthen hfirst.wired
    have hboth := hfirst.trans (r := .exprs []) hsecond (.inr ⟨rfl, rfl⟩)
    exact hboth.trans (ihelse hsecond.wired) (.inr ⟨rfl, rfl⟩)
  | @letStmt name value span g c g₁ i hvalue hstore ih =>
    have hfirst := ih hwired
    obtain ⟨hdefined, hcontinues⟩ := SymbolScope.define_wired name.name hfirst.wired
    exact ⟨hdefined, hfirst.current.trans hcontinues, fun hkeeps => (by cases hkeeps), hfirst.around⟩
  | valueBlock hbody ih =>
    exact (ih (hwired.update hwired.capturesNamed.openBlock rfl)).closeBlock

end MonkeyLang
