import Mathlib.Data.List.Induction
import Mathlib.Data.List.Nodup
import MonkeyLang.Proofs.Resources
/-!
# What a pool holds

A pool that is filled by adding constants holds each of them once, in the order in which they came first. Whether a constant is
there already is looked up in the places, so the argument rests on the places being complete: `Indexed`. A constant that is
there changes nothing, so the pool of some constants is also the pool of those that came first.
-/

namespace MonkeyLang

/-! ### First occurrences -/

section

variable {α : Type} [BEq α] [LawfulBEq α] {xs : List α} {x : α}

theorem eraseDups_concat_of_mem (h : x ∈ xs) : (xs ++ [x]).eraseDups = xs.eraseDups := by
  rw [List.eraseDups_append]
  simp [List.removeAll, h]

theorem eraseDups_concat_of_not_mem (h : x ∉ xs) : (xs ++ [x]).eraseDups = xs.eraseDups ++ [x] := by
  rw [List.eraseDups_append]
  simp [List.removeAll, h, List.eraseDups_cons]

theorem length_eraseDups_le (xs : List α) : xs.eraseDups.length ≤ xs.length := by
  induction xs using List.reverseRecOn with
  | nil => exact Nat.le_refl _
  | append_singleton xs x ih =>
    rw [List.length_append, List.length_singleton]
    by_cases h : x ∈ xs
    · rw [eraseDups_concat_of_mem h]
      omega
    · rw [eraseDups_concat_of_not_mem h, List.length_append, List.length_singleton]
      omega

theorem nodup_eraseDups (xs : List α) : xs.eraseDups.Nodup := by
  induction xs using List.reverseRecOn with
  | nil => exact List.nodup_nil
  | append_singleton xs x ih =>
    by_cases h : x ∈ xs
    · rwa [eraseDups_concat_of_mem h]
    · rw [eraseDups_concat_of_not_mem h, List.nodup_append_comm, List.singleton_append, List.nodup_cons]
      exact ⟨fun hmem => h (List.mem_eraseDups.mp hmem), ih⟩

theorem eraseDups_eq_self_iff : xs.eraseDups = xs ↔ xs.Nodup := by
  constructor
  · intro h
    rw [← h]
    exact nodup_eraseDups xs
  · intro h
    induction xs using List.reverseRecOn with
    | nil => rfl
    | append_singleton xs x ih =>
      rw [List.nodup_append_comm, List.singleton_append, List.nodup_cons] at h
      rw [eraseDups_concat_of_not_mem h.1, ih h.2]

end

/-! ### Pools -/

namespace ConstantPool

/-- A pool has places for exactly the constants that it holds. -/
def Indexed (p : ConstantPool) : Prop := ∀ c, p.places[c]? = none ↔ c ∉ p.toList

variable {p : ConstantPool} {c : Constant}

theorem indexed_empty : empty.Indexed := by
  intro c
  simp [empty, toList]

theorem add_of_mem (h : p.Indexed) (hc : c ∈ p.toList) : (p.add c).2 = p := by
  unfold add
  cases hplace : p.places[c]? with
  | some place => rfl
  | none => exact absurd hc ((h c).mp hplace)

theorem toList_add_of_not_mem (h : p.Indexed) (hc : c ∉ p.toList) : (p.add c).2.toList = p.toList ++ [c] := by
  unfold add
  rw [(h c).mpr hc]
  exact Array.toList_push

theorem Indexed.add (h : p.Indexed) (c : Constant) : (p.add c).2.Indexed := by
  by_cases hc : c ∈ p.toList
  · rwa [add_of_mem h hc]
  · intro d
    rw [toList_add_of_not_mem h hc, List.mem_append, List.mem_singleton, not_or]
    unfold ConstantPool.add
    rw [(h c).mpr hc]
    simp only [Std.TreeMap.getElem?_insert, Std.LawfulEqOrd.compare_eq_iff_eq]
    by_cases hd : c = d
    · simp [hd]
    · rw [if_neg hd, h d]
      exact ⟨fun hmem => ⟨hmem, fun heq => hd heq.symm⟩, And.left⟩

theorem ofList_concat (cs : List Constant) (c : Constant) : ofList (cs ++ [c]) = ((ofList cs).add c).2 :=
  List.foldl_concat _ _ _ _

/-- The pool of some constants is the pool of their first occurrences, and these are what it holds. -/
theorem ofList_spec (cs : List Constant) :
    (ofList cs).Indexed ∧ (ofList cs).toList = cs.eraseDups ∧ ofList cs.eraseDups = ofList cs := by
  induction cs using List.reverseRecOn with
  | nil => exact ⟨indexed_empty, rfl, rfl⟩
  | append_singleton cs c ih =>
    obtain ⟨hindexed, hlist, hfirst⟩ := ih
    have hmem : c ∈ (ofList cs).toList ↔ c ∈ cs := by rw [hlist, List.mem_eraseDups]
    rw [ofList_concat]
    refine ⟨hindexed.add c, ?_⟩
    by_cases hc : c ∈ cs
    · rw [eraseDups_concat_of_mem hc, add_of_mem hindexed (hmem.mpr hc)]
      exact ⟨hlist, hfirst⟩
    · rw [eraseDups_concat_of_not_mem hc, toList_add_of_not_mem hindexed (mt hmem.mp hc), ofList_concat, hlist, hfirst]
      exact ⟨rfl, rfl⟩

theorem toList_ofList (cs : List Constant) : (ofList cs).toList = cs.eraseDups := (ofList_spec cs).2.1

theorem ofList_eraseDups (cs : List Constant) : ofList cs.eraseDups = ofList cs := (ofList_spec cs).2.2

end ConstantPool

end MonkeyLang
