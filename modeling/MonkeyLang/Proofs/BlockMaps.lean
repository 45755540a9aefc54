import MonkeyLang.Symbol
/-!
# The maps of the open blocks

A symbol table has the names of all open blocks in one map, with a stack for what is hidden. Here it is taken apart into one map for
each open block, the innermost first, and one for the names outside of all blocks: `FunctionScope.maps`. The entries that a table has
for a name, the one in the map and those that are hidden, come from different blocks, which is why there is such a map for every block.
Opening a block, introducing a name, capturing one and closing a block each do to the maps what they say; the other proofs know the
table through these lemmas only.
-/

namespace MonkeyLang

@[ext] structure SymbolMap where
  get? : String → Option Storage

namespace SymbolMap

instance : EmptyCollection SymbolMap := ⟨⟨fun _ => none⟩⟩

instance : GetElem? SymbolMap String Storage fun m name => (m.get? name).isSome where
  getElem m name h := (m.get? name).get h
  getElem? m name := m.get? name

def insert (m : SymbolMap) (name : String) (storage : Storage) : SymbolMap :=
  ⟨fun other => if name = other then some storage else m[other]?⟩

variable {m m' : SymbolMap} {name other : String} {storage : Storage}

theorem ext_getElem? (h : ∀ name : String, m[name]? = m'[name]?) : m = m' := SymbolMap.ext (funext h)

@[simp] theorem getElem?_empty (name : String) : (∅ : SymbolMap)[name]? = none := rfl

theorem getElem?_insert (m : SymbolMap) (name : String) (storage : Storage) (other : String) :
    (m.insert name storage)[other]? = if name = other then some storage else m[other]? := rfl

@[simp] theorem getElem?_insert_self (m : SymbolMap) (name : String) (storage : Storage) :
    (m.insert name storage)[name]? = some storage := if_pos rfl

theorem getElem?_insert_of_ne (h : name ≠ other) : (m.insert name storage)[other]? = m[other]? := if_neg h

theorem getElem?_insert_ne_none (h : m[name]? ≠ none) : (m.insert other storage)[name]? ≠ none := by
  by_cases hname : other = name
  · rw [hname, getElem?_insert_self]
    exact Option.some_ne_none _
  · rwa [getElem?_insert_of_ne hname]

end SymbolMap

namespace SymbolTable

/-! ### The entries of a name -/

/-- All entries of a name, from the inside to the outside. -/
def versions (t : SymbolTable) (name : String) : List Entry := t.entries[name]?.toList ++ (t.hidden name).map Shadowed.entry

theorem Linked.depth_lt {depth : Nat} {stack : List Shadowed} (h : Linked depth stack) :
    ∀ entry ∈ stack.map Shadowed.entry, entry.depth < depth := by
  induction stack generalizing depth with
  | nil => exact fun entry hmem => absurd hmem List.not_mem_nil
  | cons first rest ih =>
    obtain ⟨-, hentry, hrest⟩ := h
    intro entry hmem
    rcases List.mem_cons.mp hmem with rfl | hmem
    · exact hentry
    · exact Nat.lt_trans (ih hrest entry hmem) hentry

theorem Linked.pairwise {depth : Nat} {stack : List Shadowed} (h : Linked depth stack) :
    (stack.map Shadowed.entry).Pairwise fun inner outer => outer.depth < inner.depth := by
  induction stack generalizing depth with
  | nil => exact .nil
  | cons first rest ih => exact List.pairwise_cons.mpr ⟨h.2.2.depth_lt, ih h.2.2⟩

theorem Linked.filter_entries {depth bound : Nat} {stack : List Shadowed} (h : Linked depth stack) (hdepth : depth ≤ bound) :
    (stack.map Shadowed.entry).filter (·.depth < bound) = stack.map Shadowed.entry :=
  List.filter_eq_self.mpr fun entry hmem => decide_eq_true (Nat.lt_of_lt_of_le (h.depth_lt entry hmem) hdepth)

variable {t : SymbolTable} {name : String}

theorem versions_of_some {entry : Entry} (h : t.entries[name]? = some entry) :
    t.versions name = entry :: (t.hidden name).map Shadowed.entry := by
  rw [versions, h]
  rfl

namespace Consistent

theorem versions_of_none (h : t.Consistent) (hnone : t.entries[name]? = none) : t.versions name = [] := by
  rw [versions, hnone, h.unknown name hnone]
  rfl

theorem head?_versions (h : t.Consistent) (name : String) : (t.versions name).head? = t.entries[name]? := by
  cases hentry : t.entries[name]? with
  | none => rw [h.versions_of_none hentry, List.head?_nil]
  | some entry => rw [versions_of_some hentry, List.head?_cons]

theorem pairwise_versions (h : t.Consistent) (name : String) :
    (t.versions name).Pairwise fun inner outer => outer.depth < inner.depth := by
  cases hentry : t.entries[name]? with
  | none => rw [h.versions_of_none hentry]; exact .nil
  | some entry =>
    have hlinked := (h.linked name entry hentry).2
    rw [versions_of_some hentry]
    exact List.pairwise_cons.mpr ⟨hlinked.depth_lt, hlinked.pairwise⟩

theorem depth_le_of_mem_versions (h : t.Consistent) : ∀ entry ∈ t.versions name, entry.depth ≤ t.depth := by
  cases hentry : t.entries[name]? with
  | none => rw [h.versions_of_none hentry]; exact fun entry hmem => absurd hmem List.not_mem_nil
  | some found =>
    obtain ⟨hdepth, hlinked⟩ := h.linked name found hentry
    rw [versions_of_some hentry]
    intro entry hmem
    rcases List.mem_cons.mp hmem with rfl | hmem
    · exact hdepth
    · exact Nat.le_trans (Nat.le_of_lt (hlinked.depth_lt entry hmem)) hdepth

/-- A new entry takes the place of one from the same block, and hides those from outside. -/
theorem versions_insert (h : t.Consistent) (name : String) (storage : Storage) (other : String) :
    (t.insert name storage).versions other =
      if name = other then ⟨storage, t.depth⟩ :: (t.versions other).filter (·.depth < t.depth) else t.versions other := by
  rw [versions, hidden_insert, SymbolTable.insert, Std.TreeMap.getElem?_insert]
  by_cases hname : name = other
  · subst hname
    rw [if_pos rfl, if_pos rfl, if_pos (by simp), List.map_append, Option.toList_some, List.singleton_append, hides?]
    congr 1
    cases hentry : t.entries[name]? with
    | none =>
      rw [h.versions_of_none hentry, h.unknown name hentry]
      rfl
    | some old =>
      obtain ⟨hdepth, hlinked⟩ := h.linked name old hentry
      rw [versions_of_some hentry]
      by_cases hlt : old.depth < t.depth
      · rw [Option.filter_some_pos (by simpa using hlt), List.filter_cons_of_pos (by simpa using hlt), hlinked.filter_entries hdepth]
        rfl
      · rw [Option.filter_some_neg (by simpa using hlt), List.filter_cons_of_neg (by simpa using hlt), hlinked.filter_entries hdepth]
        rfl
  · rw [if_neg hname, if_neg (by simpa using hname), if_neg hname, List.nil_append, versions]

theorem versions_insertOutside (h : t.Consistent) (hnew : t.entries[name]? = none) (storage : Storage) (other : String) :
    (t.insertOutside name storage).versions other = if name = other then [⟨storage, 0⟩] else t.versions other := by
  change (t.entries.insert name ⟨storage, 0⟩)[other]?.toList ++ (t.hidden other).map Shadowed.entry = _
  rw [Std.TreeMap.getElem?_insert]
  by_cases hname : name = other
  · subst hname
    rw [if_pos rfl, if_pos (by simp), h.unknown name hnew]
    rfl
  · rw [if_neg hname, if_neg (by simpa using hname), versions]

/-- The entries of the block that ends go. -/
theorem versions_closeBlock (h : t.Consistent) (name : String) :
    t.closeBlock.versions name = (t.versions name).filter (·.depth < t.depth) := by
  rw [versions, h.hidden_closeBlock]
  cases hentry : t.entries[name]? with
  | none =>
    rw [h.getElem?_closeBlock_of_none hentry, h.versions_of_none hentry, h.unknown name hentry]
    rfl
  | some entry =>
    obtain ⟨hdepth, hlinked⟩ := h.linked name entry hentry
    rw [h.getElem?_closeBlock hentry, versions_of_some hentry]
    by_cases hlt : entry.depth < t.depth
    · rw [if_pos hlt, hlinked.filter_eq_self hlt, List.filter_cons_of_pos (by simpa using hlt), hlinked.filter_entries hdepth]
      rfl
    · have heq : entry.depth = t.depth := by omega
      rw [if_neg hlt, List.filter_cons_of_neg (by simpa using hlt), hlinked.filter_entries hdepth, ← heq]
      cases hhidden : t.hidden name with
      | nil => rfl
      | cons first rest =>
        rw [hhidden] at hlinked
        rw [hlinked.filter_cons]
        rfl

end Consistent

/-! ### The names of a block -/

/-- The names that the open block at a depth has introduced. -/
def level (t : SymbolTable) (depth : Nat) : SymbolMap :=
  ⟨fun name => ((t.versions name).find? (·.depth = depth)).map Entry.storage⟩

theorem getElem?_level (t : SymbolTable) (depth : Nat) (name : String) :
    (t.level depth)[name]? = ((t.versions name).find? (·.depth = depth)).map Entry.storage := rfl

theorem level_empty (depth : Nat) : level {} depth = ∅ := by
  apply SymbolMap.ext_getElem?
  intro name
  rw [getElem?_level, consistent_empty.versions_of_none (by simp)]
  rfl

theorem find?_filter_lt {depth bound : Nat} (h : depth < bound) (entries : List Entry) :
    (entries.filter (·.depth < bound)).find? (·.depth = depth) = entries.find? (·.depth = depth) := by
  rw [List.find?_filter]
  congr 1
  funext entry
  by_cases hentry : entry.depth = depth
  · simp [hentry, h]
  · simp [hentry]

namespace Consistent

variable {depth : Nat}

theorem level_of_lt (h : t.Consistent) (hdepth : t.depth < depth) : t.level depth = ∅ := by
  apply SymbolMap.ext_getElem?
  intro name
  have hnone : (t.versions name).find? (·.depth = depth) = none := by
    rw [List.find?_eq_none]
    intro entry hmem
    have := h.depth_le_of_mem_versions entry hmem
    simp only [decide_eq_true_eq]
    omega
  rw [getElem?_level, hnone]
  rfl

theorem level_insert (h : t.Consistent) (name : String) (storage : Storage) :
    (t.insert name storage).level t.depth = (t.level t.depth).insert name storage := by
  apply SymbolMap.ext_getElem?
  intro other
  rw [getElem?_level, h.versions_insert, SymbolMap.getElem?_insert]
  by_cases hname : name = other
  · rw [if_pos hname, if_pos hname, List.find?_cons_of_pos (by simp)]
    rfl
  · rw [if_neg hname, if_neg hname, getElem?_level]

theorem level_insert_of_lt (h : t.Consistent) (hdepth : depth < t.depth) (name : String) (storage : Storage) :
    (t.insert name storage).level depth = t.level depth := by
  apply SymbolMap.ext_getElem?
  intro other
  rw [getElem?_level, h.versions_insert, getElem?_level]
  by_cases hname : name = other
  · rw [if_pos hname, List.find?_cons_of_neg (by simp only [decide_eq_true_eq]; omega), find?_filter_lt hdepth]
  · rw [if_neg hname]

theorem level_insertOutside (h : t.Consistent) (hnew : t.entries[name]? = none) (storage : Storage) :
    (t.insertOutside name storage).level 0 = (t.level 0).insert name storage := by
  apply SymbolMap.ext_getElem?
  intro other
  rw [getElem?_level, h.versions_insertOutside hnew, SymbolMap.getElem?_insert]
  by_cases hname : name = other
  · rw [if_pos hname, if_pos hname]
    rfl
  · rw [if_neg hname, if_neg hname, getElem?_level]

theorem level_insertOutside_of_pos (h : t.Consistent) (hnew : t.entries[name]? = none) (hdepth : 0 < depth) (storage : Storage) :
    (t.insertOutside name storage).level depth = t.level depth := by
  apply SymbolMap.ext_getElem?
  intro other
  rw [getElem?_level, h.versions_insertOutside hnew, getElem?_level]
  by_cases hname : name = other
  · subst hname
    rw [if_pos rfl, h.versions_of_none hnew, List.find?_cons_of_neg (by simp only [decide_eq_true_eq]; omega)]
  · rw [if_neg hname]

theorem level_closeBlock (h : t.Consistent) (hdepth : depth < t.depth) : t.closeBlock.level depth = t.level depth := by
  apply SymbolMap.ext_getElem?
  intro name
  rw [getElem?_level, h.versions_closeBlock, find?_filter_lt hdepth, getElem?_level]

end Consistent

end SymbolTable

/-! ### The maps of a function -/

namespace FunctionScope

variable {f : FunctionScope} {name : String} {storage : Storage}

def blocks (f : FunctionScope) : List SymbolMap := (List.range f.names.depth).reverse.map fun depth => f.names.level (depth + 1)

def base (f : FunctionScope) : SymbolMap := f.names.level 0

/-- The names of the open blocks, innermost first, and those outside of all blocks. -/
def maps (f : FunctionScope) : List SymbolMap := f.blocks ++ [f.base]

@[simp] theorem length_blocks (f : FunctionScope) : f.blocks.length = f.names.depth := by simp [blocks]

theorem blocks_eq_nil_iff : f.blocks = [] ↔ f.names.depth = 0 := by rw [← List.length_eq_zero_iff, length_blocks]

theorem base_mem_maps (f : FunctionScope) : f.base ∈ f.maps := List.mem_append_right _ List.mem_cons_self

theorem maps_eq (f : FunctionScope) : f.maps = (List.range (f.names.depth + 1)).reverse.map f.names.level := by
  rw [maps, blocks, base, List.range_succ_eq_map, List.reverse_cons, List.map_append, ← List.map_reverse, List.map_map]
  rfl

/-- What the innermost of some maps with a name has for it, and how many maps are around that one. -/
def entryIn? (name : String) : List SymbolMap → Option Entry
  | [] => none
  | m :: outer =>
    match m[name]? with
    | some storage => some ⟨storage, outer.length⟩
    | none => entryIn? name outer

theorem map_entryIn? (name : String) (maps : List SymbolMap) :
    (entryIn? name maps).map Entry.storage = maps.findSome? fun m => m[name]? := by
  induction maps with
  | nil => rfl
  | cons m outer ih =>
    rw [entryIn?, List.findSome?_cons]
    cases m[name]? with
    | none => exact ih
    | some storage => rfl

/-- Outside of all blocks only what stands for the name matters. -/
theorem entryIn?_congr {name : String} {base base' : SymbolMap} (h : base'[name]? = base[name]?) (blocks : List SymbolMap) :
    entryIn? name (blocks ++ [base']) = entryIn? name (blocks ++ [base]) := by
  induction blocks with
  | nil => simp only [List.nil_append, entryIn?, h]
  | cons m blocks ih => simp only [List.cons_append, entryIn?, ih, List.length_append, List.length_singleton]

/-- The first of some entries is that of the innermost block, if they come from the inside to the outside. -/
theorem entryIn?_levels {depth : Nat} (t : SymbolTable) (hsorted : (t.versions name).Pairwise fun inner outer => outer.depth < inner.depth)
    (hdepth : ∀ entry ∈ t.versions name, entry.depth < depth) :
    entryIn? name ((List.range depth).reverse.map t.level) = (t.versions name).head? := by
  induction depth with
  | zero =>
    cases hversions : t.versions name with
    | nil => rfl
    | cons first rest => exact absurd (hdepth first (hversions ▸ List.mem_cons_self)) (Nat.not_lt_zero _)
  | succ depth ih =>
    rw [List.range_succ, List.reverse_append, List.reverse_singleton, List.singleton_append, List.map_cons, entryIn?,
      SymbolTable.getElem?_level]
    cases hfound : (t.versions name).find? (·.depth = depth) with
    | none =>
      -- The block has no entry, so that all of them come from further outside.
      refine ih fun entry hmem => ?_
      have hne := List.find?_eq_none.mp hfound entry hmem
      have hlt := hdepth entry hmem
      simp only [decide_eq_true_eq] at hne
      omega
    | some entry =>
      have hentry : entry.depth = depth := by simpa using List.find?_some hfound
      have hmem := List.mem_of_find?_eq_some hfound
      cases hversions : t.versions name with
      | nil =>
        rw [hversions] at hmem
        cases hmem
      | cons first rest =>
        rw [hversions] at hmem hsorted hdepth
        rw [List.pairwise_cons] at hsorted
        rcases List.mem_cons.mp hmem with rfl | hmem
        · simp [← hentry]
        · have := hsorted.1 entry hmem
          have := hdepth first List.mem_cons_self
          omega

/-- The entry of a name is what the innermost block with the name has for it. -/
theorem getElem?_entries (f : FunctionScope) (name : String) : f.names.entries[name]? = entryIn? name f.maps := by
  rw [maps_eq, entryIn?_levels f.names (f.consistent.pairwise_versions name) fun entry hmem =>
    Nat.lt_succ_of_le (f.consistent.depth_le_of_mem_versions entry hmem), f.consistent.head?_versions]

theorem find?_eq (f : FunctionScope) (name : String) : f.find? name = f.maps.findSome? fun m => m[name]? := by
  rw [find?, getElem?_entries, map_entryIn?]

theorem find?_eq_or (f : FunctionScope) (name : String) :
    f.find? name = (f.blocks.findSome? fun block => block[name]?).or f.base[name]? := by
  rw [find?_eq, maps, List.findSome?_append]
  simp

theorem find?_of_getElem?_entries {entry : Entry} (h : f.names.entries[name]? = some entry) : f.find? name = some entry.storage := by
  rw [find?, h, Option.map_some]

theorem getElem?_entries_eq_none_iff : f.names.entries[name]? = none ↔ f.find? name = none := by
  rw [find?, Option.map_eq_none_iff]

theorem find?_eq_none_iff : f.find? name = none ↔ ∀ m ∈ f.maps, m[name]? = none := by
  rw [find?_eq, List.findSome?_eq_none_iff]

theorem exists_map_of_find? (h : f.find? name = some storage) : ∃ m ∈ f.maps, m[name]? = some storage := by
  rw [find?_eq] at h
  exact List.exists_of_findSome?_eq_some h

theorem maps_of_depth_eq_zero (h : f.names.depth = 0) : f.maps = [f.base] := by
  rw [maps, blocks_eq_nil_iff.mpr h, List.nil_append]

theorem getElem?_base_of_depth_eq_zero (h : f.names.depth = 0) (name : String) : f.base[name]? = f.find? name := by
  rw [find?_eq_or, blocks_eq_nil_iff.mpr h, List.findSome?_nil, Option.none_or]

/-! ### What the operations do to the maps -/

theorem find?_empty (name : String) : ({} : FunctionScope).find? name = none := by simp [find?]

theorem maps_empty : ({} : FunctionScope).maps = [∅] := congrArg (fun m => [m]) (SymbolTable.level_empty 0)

theorem getElem?_of_mem_maps_empty {m : SymbolMap} (hm : m ∈ ({} : FunctionScope).maps) (name : String) : m[name]? = none := by
  obtain rfl := List.mem_singleton.mp (maps_empty ▸ hm)
  simp

theorem blocks_openBlock (f : FunctionScope) : f.openBlock.blocks = ∅ :: f.blocks := by
  change (List.range (f.names.depth + 1)).reverse.map (fun depth => f.names.level (depth + 1)) = _
  rw [List.range_succ, List.reverse_append, List.reverse_singleton, List.singleton_append, List.map_cons,
    f.consistent.level_of_lt (Nat.lt_succ_self _), blocks]

theorem blocks_openBlock_ne_nil (f : FunctionScope) : f.openBlock.blocks ≠ [] := by
  rw [blocks_openBlock]
  exact List.cons_ne_nil _ _

theorem base_openBlock (f : FunctionScope) : f.openBlock.base = f.base := rfl

theorem maps_openBlock (f : FunctionScope) : f.openBlock.maps = ∅ :: f.maps := by
  rw [maps, blocks_openBlock, base_openBlock, List.cons_append, maps]

theorem blocks_insert (f : FunctionScope) (name : String) (storage : Storage) :
    (f.insert name storage).blocks = f.blocks.modifyHead (·.insert name storage) := by
  change (List.range f.names.depth).reverse.map (fun depth => (f.names.insert name storage).level (depth + 1)) = _
  rw [blocks]
  cases hdepth : f.names.depth with
  | zero => rfl
  | succ depth =>
    rw [List.range_succ, List.reverse_append, List.reverse_singleton, List.singleton_append, List.map_cons, List.map_cons,
      List.modifyHead_cons, ← hdepth, f.consistent.level_insert]
    congr 1
    refine List.map_congr_left fun other hother => f.consistent.level_insert_of_lt ?_ name storage
    have := List.mem_range.mp (List.mem_reverse.mp hother)
    omega

theorem base_insert (f : FunctionScope) (name : String) (storage : Storage) :
    (f.insert name storage).base = if f.blocks = [] then f.base.insert name storage else f.base := by
  split
  case isTrue hblocks =>
    have hlevel := f.consistent.level_insert name storage
    rwa [blocks_eq_nil_iff.mp hblocks] at hlevel
  case isFalse hblocks =>
    exact f.consistent.level_insert_of_lt (Nat.pos_of_ne_zero (mt blocks_eq_nil_iff.mpr hblocks)) name storage

theorem maps_insert (f : FunctionScope) (name : String) (storage : Storage) :
    ∃ m, f.maps = m :: f.maps.tail ∧ (f.insert name storage).maps = m.insert name storage :: f.maps.tail := by
  rw [maps, maps, blocks_insert, base_insert]
  cases f.blocks with
  | nil => exact ⟨f.base, rfl, rfl⟩
  | cons block outer => exact ⟨block, rfl, rfl⟩

theorem mem_maps_insert {m : SymbolMap} (hm : m ∈ (f.insert name storage).maps) :
    m ∈ f.maps ∨ ∃ m' ∈ f.maps, m = m'.insert name storage := by
  obtain ⟨m', hmaps, hinsert⟩ := f.maps_insert name storage
  rw [hinsert] at hm
  rw [hmaps]
  rcases List.mem_cons.mp hm with rfl | hm
  · exact .inr ⟨m', List.mem_cons_self, rfl⟩
  · exact .inl (List.mem_cons_of_mem _ hm)

theorem find?_insert (f : FunctionScope) (name : String) (storage : Storage) (other : String) :
    (f.insert name storage).find? other = if name = other then some storage else f.find? other := by
  change (f.names.entries.insert name _)[other]?.map Entry.storage = _
  rw [Std.TreeMap.getElem?_insert]
  by_cases hname : name = other
  · rw [if_pos hname, if_pos (by simpa using hname), Option.map_some]
  · rw [if_neg hname, if_neg (by simpa using hname), find?]

theorem base_insert_ne_none {other : String} (h : f.base[other]? ≠ none) : (f.insert name storage).base[other]? ≠ none := by
  rw [base_insert]
  split
  · exact SymbolMap.getElem?_insert_ne_none h
  · exact h

theorem blocks_closeBlock (f : FunctionScope) : f.closeBlock.blocks = f.blocks.tail := by
  change (List.range (f.names.depth - 1)).reverse.map (fun depth => f.names.closeBlock.level (depth + 1)) = _
  rw [blocks]
  cases hdepth : f.names.depth with
  | zero => rfl
  | succ depth =>
    rw [List.range_succ, List.reverse_append, List.reverse_singleton, List.singleton_append, List.map_cons, List.tail_cons,
      Nat.add_sub_cancel]
    refine List.map_congr_left fun other hother => f.consistent.level_closeBlock ?_
    have := List.mem_range.mp (List.mem_reverse.mp hother)
    omega

theorem base_closeBlock (h : f.blocks ≠ []) : f.closeBlock.base = f.base :=
  f.consistent.level_closeBlock (Nat.pos_of_ne_zero (mt blocks_eq_nil_iff.mpr h))

theorem maps_closeBlock (h : f.blocks ≠ []) : f.closeBlock.maps = f.maps.tail := by
  rw [maps, blocks_closeBlock, base_closeBlock h, maps, List.tail_append_of_ne_nil h]

/-- A block that is not open has no names. -/
theorem mem_maps_closeBlock {m : SymbolMap} (hm : m ∈ f.closeBlock.maps) : m ∈ f.maps ∨ m = ∅ := by
  by_cases hblocks : f.blocks = []
  · rw [maps, blocks_closeBlock, hblocks, List.tail_nil, List.nil_append, List.mem_singleton] at hm
    have hdepth := blocks_eq_nil_iff.mp hblocks
    refine .inr (hm.trans (SymbolMap.ext_getElem? fun name => ?_))
    have hnone : (f.names.versions name).filter (·.depth < f.names.depth) = [] := by simp [hdepth]
    change ((f.names.closeBlock.versions name).find? _).map _ = none
    rw [f.consistent.versions_closeBlock, hnone]
    rfl
  · rw [maps_closeBlock hblocks] at hm
    exact .inl (List.mem_of_mem_tail hm)

theorem blocks_capture (f : FunctionScope) (entry : Entry) (hnew : f.names.entries[name]? = none) :
    (f.capture name entry hnew).blocks = f.blocks :=
  List.map_congr_left fun _ _ => f.consistent.level_insertOutside_of_pos hnew (Nat.succ_pos _) _

theorem base_capture (f : FunctionScope) (entry : Entry) (hnew : f.names.entries[name]? = none) :
    (f.capture name entry hnew).base = f.base.insert name (.captured f.captures.length) :=
  f.consistent.level_insertOutside hnew _

theorem getElem?_entries_capture (f : FunctionScope) (entry : Entry) (hnew : f.names.entries[name]? = none) :
    (f.capture name entry hnew).names.entries[name]? = some ⟨.captured f.captures.length, 0⟩ :=
  Std.TreeMap.getElem?_insert_self

end FunctionScope

/-! ### Resolving a name -/

/-- Whether something belongs to one call of a function, so that a function inside has to capture it. -/
def Storage.OfCall : Storage → Prop
  | .frame _ | .captured _ | .running => True
  | .global _ | .builtin _ => False

/-- What looking a name up does: it is found in the function, or in one around it, and then captured if it belongs to a call. -/
inductive Resolves (name : String) :
    FunctionScope → List FunctionScope → Option Entry → FunctionScope → List FunctionScope → Prop
  | here {f outer entry} (hfind : f.names.entries[name]? = some entry) : Resolves name f outer (some entry) f outer
  | nowhere {f} (hfind : f.names.entries[name]? = none) : Resolves name f [] none f []
  | unknown {f next rest next' rest'} (hfind : f.names.entries[name]? = none) (houter : Resolves name next rest none next' rest') :
      Resolves name f (next :: rest) none f (next' :: rest')
  | shared {f next rest entry next' rest'} (hfind : f.names.entries[name]? = none)
      (houter : Resolves name next rest (some entry) next' rest') (hshared : ¬ entry.storage.OfCall) :
      Resolves name f (next :: rest) (some entry) f (next' :: rest')
  | capture {f next rest entry next' rest'} (hfind : f.names.entries[name]? = none)
      (houter : Resolves name next rest (some entry) next' rest') (hcall : entry.storage.OfCall) :
      Resolves name f (next :: rest) (some ⟨.captured f.captures.length, 0⟩) (f.capture name entry hfind) (next' :: rest')

theorem SymbolScope.resolves_resolveFrom (name : String) (f : FunctionScope) (outer : List FunctionScope) :
    Resolves name f outer (resolveFrom name f outer).1 (resolveFrom name f outer).2.1 (resolveFrom name f outer).2.2 := by
  induction outer generalizing f with
  | nil =>
    rw [resolveFrom]
    cases hfind : f.names.entries[name]? with
    | none => exact .nowhere hfind
    | some entry => exact .here hfind
  | cons next rest ih =>
    have houter := ih next
    rw [resolveFrom]
    split
    case h_1 entry hfind => exact .here hfind
    case h_2 hfind =>
      generalize resolveFrom name next rest = found at houter
      obtain ⟨entry, next', rest'⟩ := found
      cases entry with
      | none => exact .unknown hfind houter
      | some entry =>
        obtain ⟨storage, depth⟩ := entry
        cases storage with
        | global | builtin => exact .shared hfind houter fun hcall => hcall
        | frame | captured | running => exact .capture hfind houter trivial

theorem SymbolScope.resolveFrom_eq_iff {name : String} {f f' : FunctionScope} {outer outer' : List FunctionScope} {found : Option Entry} :
    resolveFrom name f outer = (found, f', outer') ↔ Resolves name f outer found f' outer' := by
  constructor
  · intro h
    have hresolves := resolves_resolveFrom name f outer
    rwa [h] at hresolves
  · intro h
    induction h with
    | @here f outer entry hfind =>
      cases outer with
      | nil => rw [resolveFrom, hfind]
      | cons next rest =>
        rw [resolveFrom]
        split <;> simp_all
    | nowhere hfind => rw [resolveFrom, hfind]
    | unknown hfind _ ih =>
      rw [resolveFrom]
      split <;> simp_all
    | @shared _ _ _ entry _ _ hfind _ hshared ih =>
      rw [resolveFrom, ih]
      obtain ⟨storage, depth⟩ := entry
      cases storage with
      | global | builtin => split <;> simp_all
      | frame | captured | running => exact absurd trivial hshared
    | @capture _ _ _ entry _ _ hfind _ hcall ih =>
      rw [resolveFrom, ih]
      obtain ⟨storage, depth⟩ := entry
      cases storage with
      | global | builtin => exact hcall.elim
      | frame | captured | running => split <;> simp_all

theorem SymbolScope.resolves_of_resolve {s s' : SymbolScope} {name : String} {symbol : Symbol}
    (h : s.resolve name = (some symbol, s')) :
    symbol.name = name ∧ Resolves name s.current s.enclosing (some symbol.toEntry) s'.current s'.enclosing := by
  have hresolves := resolves_resolveFrom name s.current s.enclosing
  obtain ⟨hsymbol, rfl⟩ := Prod.mk.inj h
  obtain ⟨entry, hentry, rfl⟩ := Option.map_eq_some_iff.mp hsymbol
  rw [hentry] at hresolves
  exact ⟨rfl, hresolves⟩

end MonkeyLang
