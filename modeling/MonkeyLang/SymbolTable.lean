import MonkeyLang.Builtin
import Std.Data.TreeMap
/-!
# Symbol tables

The names of a function, those of the blocks that are open in it among them, are kept in one map. Each entry has the depth of the
block that introduced it. A block that gives a new meaning to a name from outside puts the old entry on a stack, together with its own
depth. When the block ends, its entries go and those that it put on the stack come back.

Which entry comes back depends on the map, the stack and the depth at once: `Consistent` is what ties them together. The entries that
are hidden under a name are those of the blocks around, from the inside to the outside, and each of them is on the stack with the depth
of the block that hides it. All operations keep this.
-/

namespace MonkeyLang

/-- Where a value is kept. -/
inductive Storage where
  | global (slot : Nat)
  | frame (slot : Nat)
  | builtin (index : Nat)
  | captured (index : Nat)
  /-- The closure that is running. -/
  | running
deriving DecidableEq, Repr

/-- What a name stands for, and the depth of the block that says so. -/
structure Entry where
  storage : Storage
  depth : Nat
deriving DecidableEq, Repr

/-- An entry that is hidden, and the depth of the block that hides it. -/
structure Shadowed where
  depth : Nat
  name : String
  entry : Entry

structure SymbolTable where
  entries : Std.TreeMap String Entry := ∅
  /-- The number of blocks that are open. -/
  depth : Nat := 0
  /-- The hidden entries, the last one first. -/
  shadowed : List Shadowed := []

namespace SymbolTable

def openBlock (t : SymbolTable) : SymbolTable := { t with depth := t.depth + 1 }

/-- The entry from outside of the innermost block that a new one for a name hides. -/
def hides? (t : SymbolTable) (name : String) : Option Shadowed :=
  (t.entries[name]?.filter fun old => old.depth < t.depth).map fun old => ⟨t.depth, name, old⟩

/-- Introduces a name in the innermost block. -/
def insert (t : SymbolTable) (name : String) (storage : Storage) : SymbolTable :=
  { t with entries := t.entries.insert name ⟨storage, t.depth⟩, shadowed := (t.hides? name).toList ++ t.shadowed }

/-- Introduces a name outside of all blocks. -/
def insertOutside (t : SymbolTable) (name : String) (storage : Storage) : SymbolTable :=
  { t with entries := t.entries.insert name ⟨storage, 0⟩ }

def restore (depth : Nat) (entries : Std.TreeMap String Entry) : List Shadowed → Std.TreeMap String Entry × List Shadowed
  | [] => (entries, [])
  | hidden :: rest =>
    if hidden.depth = depth then restore depth (entries.insert hidden.name hidden.entry) rest
    else (entries, hidden :: rest)

/-- Ends the innermost block. Outside of all blocks, all names go. -/
def closeBlock (t : SymbolTable) : SymbolTable :=
  let restored := restore t.depth (t.entries.filter fun _ entry => entry.depth < t.depth) t.shadowed
  ⟨restored.1, t.depth - 1, restored.2⟩

/-! ### Consistency -/

/-- What is hidden under a name, from the inside to the outside. -/
def hidden (t : SymbolTable) (name : String) : List Shadowed := t.shadowed.filter (·.name = name)

/-- Entries hide each other: the first is hidden by a block of the given depth, and each of the others by the block of the one before. -/
def Linked : Nat → List Shadowed → Prop
  | _, [] => True
  | depth, hidden :: rest => hidden.depth = depth ∧ hidden.entry.depth < depth ∧ Linked hidden.entry.depth rest

/-- The map, the stack and the depth belong together. -/
structure Consistent (t : SymbolTable) : Prop where
  ordered : t.shadowed.Pairwise fun inner outer => outer.depth ≤ inner.depth
  bounded : ∀ hidden ∈ t.shadowed, hidden.depth ≤ t.depth
  unknown : ∀ name : String, t.entries[name]? = none → t.hidden name = []
  linked : ∀ (name : String) entry, t.entries[name]? = some entry → entry.depth ≤ t.depth ∧ Linked entry.depth (t.hidden name)

theorem Linked.depth_le {depth : Nat} {stack : List Shadowed} (h : Linked depth stack) : ∀ hidden ∈ stack, hidden.depth ≤ depth := by
  induction stack generalizing depth with
  | nil => exact fun hidden hmem => absurd hmem List.not_mem_nil
  | cons first rest ih =>
    obtain ⟨hfirst, hentry, hrest⟩ := h
    intro hidden hmem
    rcases List.mem_cons.mp hmem with rfl | hmem
    · exact Nat.le_of_eq hfirst
    · exact Nat.le_trans (ih hrest hidden hmem) (Nat.le_of_lt hentry)

theorem Linked.filter_eq_self {depth bound : Nat} {stack : List Shadowed} (h : Linked depth stack) (hdepth : depth < bound) :
    stack.filter (·.depth < bound) = stack :=
  List.filter_eq_self.mpr fun hidden hmem => decide_eq_true (Nat.lt_of_le_of_lt (h.depth_le hidden hmem) hdepth)

theorem Linked.filter_cons {depth : Nat} {first : Shadowed} {rest : List Shadowed} (h : Linked depth (first :: rest)) :
    (first :: rest).filter (·.depth < depth) = rest := by
  obtain ⟨hfirst, hentry, hrest⟩ := h
  rw [List.filter_cons_of_neg (by simp [hfirst]), hrest.filter_eq_self hentry]

/-- Everything on the stack that a block has hidden is on top of it. -/
theorem restore_snd {depth : Nat} {stack : List Shadowed} (hordered : stack.Pairwise fun inner outer => outer.depth ≤ inner.depth)
    (hbounded : ∀ hidden ∈ stack, hidden.depth ≤ depth) (entries : Std.TreeMap String Entry) :
    (restore depth entries stack).2 = stack.filter (·.depth < depth) := by
  induction stack generalizing entries with
  | nil => rfl
  | cons first rest ih =>
    rw [List.pairwise_cons] at hordered
    have hfirst := hbounded first List.mem_cons_self
    rw [restore]
    split
    case isTrue heq =>
      rw [ih hordered.2 fun hidden hmem => hbounded hidden (List.mem_cons_of_mem _ hmem), List.filter_cons_of_neg (by simp [heq])]
    case isFalse hne =>
      refine (List.filter_eq_self.mpr fun hidden hmem => decide_eq_true ?_).symm
      rcases List.mem_cons.mp hmem with rfl | hmem
      · omega
      · have := hordered.1 hidden hmem
        omega

/-- Of what is hidden under a name, the first comes back if the block has hidden it, and nothing else. -/
theorem getElem?_restore_fst {depth level : Nat} {stack : List Shadowed} {name : String}
    (hordered : stack.Pairwise fun inner outer => outer.depth ≤ inner.depth) (hbounded : ∀ hidden ∈ stack, hidden.depth ≤ depth)
    (hlinked : Linked level (stack.filter (·.name = name))) (entries : Std.TreeMap String Entry) :
    (restore depth entries stack).1[name]? =
      (if level = depth then (stack.filter (·.name = name)).head?.map Shadowed.entry else none).or entries[name]? := by
  induction stack generalizing entries level with
  | nil => simp [restore]
  | cons first rest ih =>
    rw [List.pairwise_cons] at hordered
    have hrest := fun hidden hmem => hbounded hidden (List.mem_cons_of_mem first hmem)
    rw [restore]
    split
    case isTrue heq =>
      by_cases hname : first.name = name
      · rw [List.filter_cons_of_pos (by simp [hname])] at hlinked ⊢
        obtain ⟨hfirst, hentry, hlinked⟩ := hlinked
        rw [ih hordered.2 hrest hlinked, if_neg (by omega), if_pos (by omega)]
        simp [hname]
      · rw [List.filter_cons_of_neg (by simp [hname])] at hlinked ⊢
        rw [ih hordered.2 hrest hlinked]
        simp [Std.TreeMap.getElem?_insert, hname]
    case isFalse hne =>
      split
      case isFalse => rfl
      case isTrue heq =>
        -- Nothing on the stack is hidden by the block, so nothing is hidden under the name.
        have hfirst := hbounded first List.mem_cons_self
        cases hhidden : (first :: rest).filter (·.name = name) with
        | nil => rfl
        | cons hidden others =>
          rw [hhidden] at hlinked
          have hmem : hidden ∈ first :: rest := (List.mem_filter.mp (hhidden ▸ List.mem_cons_self)).1
          have hdepth := hlinked.1
          rcases List.mem_cons.mp hmem with rfl | hmem
          · omega
          · have := hordered.1 hidden hmem
            omega

/-! ### Operations -/

variable {t : SymbolTable} {name : String}

theorem consistent_empty : Consistent {} where
  ordered := .nil
  bounded := fun hidden hmem => absurd hmem List.not_mem_nil
  unknown := fun _ _ => rfl
  linked := fun name entry hentry => by simp at hentry

theorem Consistent.openBlock (h : t.Consistent) : t.openBlock.Consistent where
  ordered := h.ordered
  bounded := fun hidden hmem => Nat.le_succ_of_le (h.bounded hidden hmem)
  unknown := h.unknown
  linked := fun name entry hentry => (h.linked name entry hentry).imp_left Nat.le_succ_of_le

/-- A new entry hides one of its own name, if it hides one. -/
theorem hidden_insert (t : SymbolTable) (name : String) (storage : Storage) (other : String) :
    (t.insert name storage).hidden other = (if name = other then (t.hides? name).toList else []) ++ t.hidden other := by
  rw [hidden, insert, List.filter_append, hidden]
  congr 1
  unfold hides?
  cases t.entries[name]?.filter fun old => old.depth < t.depth with
  | none => simp
  | some old => by_cases hname : name = other <;> simp [hname]

theorem Consistent.insert (h : t.Consistent) (name : String) (storage : Storage) : (t.insert name storage).Consistent := by
  have hdepth (hidden : Shadowed) (hmem : hidden ∈ (t.hides? name).toList) : hidden.depth = t.depth := by
    obtain ⟨old, -, rfl⟩ := Option.map_eq_some_iff.mp (Option.mem_toList.mp hmem)
    rfl
  refine ⟨?_, ?_, ?_, ?_⟩
  · refine List.pairwise_append.mpr ⟨?_, h.ordered, fun inner hinner outer houter => ?_⟩
    · cases t.hides? name with
      | none => exact .nil
      | some hidden => exact List.pairwise_singleton _ _
    · rw [hdepth inner hinner]
      exact h.bounded outer houter
  · intro hidden hmem
    rcases List.mem_append.mp hmem with hmem | hmem
    · exact Nat.le_of_eq (hdepth hidden hmem)
    · exact h.bounded hidden hmem
  · intro other hother
    change (t.entries.insert name ⟨storage, t.depth⟩)[other]? = none at hother
    rw [Std.TreeMap.getElem?_insert] at hother
    split at hother
    · cases hother
    case isFalse hname =>
      rw [hidden_insert, if_neg (by simpa using hname), List.nil_append]
      exact h.unknown other hother
  · intro other entry hother
    change (t.entries.insert name ⟨storage, t.depth⟩)[other]? = some entry at hother
    rw [Std.TreeMap.getElem?_insert] at hother
    rw [hidden_insert]
    split at hother
    case isFalse hname =>
      rw [if_neg (by simpa using hname), List.nil_append]
      exact h.linked other entry hother
    case isTrue hname =>
      obtain rfl : name = other := by simpa using hname
      cases hother
      refine ⟨Nat.le_refl _, ?_⟩
      rw [if_pos rfl, hides?]
      cases hold : t.entries[name]? with
      | none =>
        rw [h.unknown name hold]
        exact True.intro
      | some old =>
        obtain ⟨hle, hlinked⟩ := h.linked name old hold
        by_cases hlt : old.depth < t.depth
        · rw [Option.filter_some_pos (by simpa using hlt)]
          exact ⟨rfl, hlt, hlinked⟩
        · rw [Option.filter_some_neg (by simpa using hlt), show t.depth = old.depth by omega]
          exact hlinked

/-- A name that is not known can be introduced outside of all blocks. -/
theorem Consistent.insertOutside (h : t.Consistent) (hnew : t.entries[name]? = none) (storage : Storage) :
    (t.insertOutside name storage).Consistent := by
  refine ⟨h.ordered, h.bounded, ?_, ?_⟩
  · intro other hother
    change (t.entries.insert name ⟨storage, 0⟩)[other]? = none at hother
    rw [Std.TreeMap.getElem?_insert] at hother
    split at hother
    · cases hother
    · exact h.unknown other hother
  · intro other entry hother
    change (t.entries.insert name ⟨storage, 0⟩)[other]? = some entry at hother
    rw [Std.TreeMap.getElem?_insert] at hother
    split at hother
    case isFalse => exact h.linked other entry hother
    case isTrue hname =>
      obtain rfl : name = other := by simpa using hname
      cases hother
      refine ⟨Nat.zero_le _, ?_⟩
      change Linked 0 (t.hidden name)
      rw [h.unknown name hnew]
      exact True.intro

/-- What is hidden under a name after a block has ended. -/
theorem Consistent.hidden_closeBlock (h : t.Consistent) (name : String) :
    t.closeBlock.hidden name = (t.hidden name).filter (·.depth < t.depth) := by
  rw [hidden, closeBlock, restore_snd h.ordered h.bounded, List.filter_filter, hidden, List.filter_filter]
  simp only [Bool.and_comm]

/-- An entry from outside of the block stays, and one of the block gives way to what it has hidden. -/
theorem Consistent.getElem?_closeBlock (h : t.Consistent) {entry : Entry} (hentry : t.entries[name]? = some entry) :
    t.closeBlock.entries[name]? =
      if entry.depth < t.depth then some entry else (t.hidden name).head?.map Shadowed.entry := by
  obtain ⟨hdepth, hlinked⟩ := h.linked name entry hentry
  rw [closeBlock, getElem?_restore_fst h.ordered h.bounded hlinked, Std.TreeMap.getElem?_filter', hentry]
  by_cases hlt : entry.depth < t.depth
  · rw [if_neg (Nat.ne_of_lt hlt), if_pos hlt, Option.filter_some_pos (by simpa using hlt), Option.none_or]
  · rw [if_pos (by omega), if_neg hlt, Option.filter_some_neg (by simpa using hlt), Option.or_none, hidden]

theorem Consistent.getElem?_closeBlock_of_none (h : t.Consistent) (hnone : t.entries[name]? = none) :
    t.closeBlock.entries[name]? = none := by
  have hhidden := h.unknown name hnone
  have hlinked : Linked 0 (t.hidden name) := by
    rw [hhidden]
    exact True.intro
  rw [closeBlock, getElem?_restore_fst h.ordered h.bounded hlinked, Std.TreeMap.getElem?_filter', hnone]
  rw [hidden] at hhidden
  simp [hhidden]

theorem Consistent.closeBlock (h : t.Consistent) : t.closeBlock.Consistent := by
  refine ⟨?_, ?_, ?_, ?_⟩
  · rw [SymbolTable.closeBlock, restore_snd h.ordered h.bounded]
    exact h.ordered.filter _
  · rw [SymbolTable.closeBlock, restore_snd h.ordered h.bounded]
    intro hidden hmem
    have := of_decide_eq_true (List.mem_filter.mp hmem).2
    simp only
    omega
  · intro name hnone
    rw [h.hidden_closeBlock]
    cases hentry : t.entries[name]? with
    | none => rw [h.unknown name hentry, List.filter_nil]
    | some entry =>
      obtain ⟨hdepth, hlinked⟩ := h.linked name entry hentry
      rw [h.getElem?_closeBlock hentry] at hnone
      split at hnone
      · cases hnone
      · rw [Option.map_eq_none_iff, List.head?_eq_none_iff] at hnone
        rw [hnone, List.filter_nil]
  · intro name found hfound
    change found.depth ≤ t.depth - 1 ∧ _
    rw [h.hidden_closeBlock]
    cases hentry : t.entries[name]? with
    | none =>
      rw [h.getElem?_closeBlock_of_none hentry] at hfound
      cases hfound
    | some entry =>
      obtain ⟨hdepth, hlinked⟩ := h.linked name entry hentry
      rw [h.getElem?_closeBlock hentry] at hfound
      split at hfound
      case isTrue hlt =>
        cases hfound
        rw [hlinked.filter_eq_self hlt]
        exact ⟨by omega, hlinked⟩
      case isFalse hle =>
        -- The entry was of the block itself.
        have heq : entry.depth = t.depth := by omega
        cases hhidden : t.hidden name with
        | nil =>
          rw [hhidden] at hfound
          cases hfound
        | cons first rest =>
          rw [hhidden] at hfound hlinked
          cases hfound
          rw [← heq, hlinked.filter_cons]
          obtain ⟨-, hlt, hrest⟩ := hlinked
          exact ⟨by omega, hrest⟩

end SymbolTable

end MonkeyLang
