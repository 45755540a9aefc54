import MonkeyLang.Proofs.Pools
/-!
# Runs of additions to a pool

Constants are added to a pool one after the other, and a place is given for each of them. `PoolRun` is such a run, with what was added
and the places that were given for it. All through a run the places of a pool and its constants are inverse to each other, and the
place that a pool has for a constant is the one that was given when it came first. So places are given again for the same constants,
never for others, and no addition moves what is there.
-/

namespace MonkeyLang

/-- Additions to a pool, from one state of it to another: the constants in order, each with the place that was given for it. -/
inductive PoolRun (p : ConstantPool) : List (Constant × Nat) → ConstantPool → Prop
  | start : PoolRun p [] p
  | add {added q} (h : PoolRun p added q) (c : Constant) : PoolRun p (added ++ [(c, (q.add c).1)]) (q.add c).2

namespace ConstantPool

variable {p : ConstantPool} {c : Constant}

/-- In a pool that holds each constant once, constants and places are inverse to each other. -/
theorem getElem?_places_iff (hsound : p.Sound) (hindexed : p.Indexed) (hnodup : p.toList.Nodup) {place : Nat} :
    p.places[c]? = some place ↔ p.get? place = some c := by
  refine ⟨hsound c place, fun hget => ?_⟩
  have hlist : p.toList[place]? = some c := Array.getElem?_toList.trans hget
  cases hplace : p.places[c]? with
  | none => exact absurd (List.mem_of_getElem? hlist) ((hindexed c).mp hplace)
  | some other =>
    have hother : p.toList[other]? = some c := Array.getElem?_toList.trans (hsound c other hplace)
    have hlt := (List.getElem?_eq_some_iff.mp hother).1
    rw [(List.getElem?_inj hlt hnodup).mp (hother.trans hlist.symm)]

/-- An addition gives the place that the pool has for the constant, and the next free one if it has none. -/
theorem add_fst (c : Constant) (hsize : p.size < 4294967296) : (p.add c).1 = p.places[c]?.getD p.size := by
  obtain ⟨place, hplace, hadd⟩ | ⟨hplace, hadd⟩ := p.add_cases c <;> rw [hplace, hadd]
  · rfl
  · exact UInt32.toNat_ofNat_of_lt' hsize

/-- Only the constant that is added gets a place. -/
theorem getElem?_places_add (p : ConstantPool) (c d : Constant) :
    (p.add c).2.places[d]? = p.places[d]?.or (if d = c then some (p.add c).1 else none) := by
  unfold add
  cases hplace : p.places[c]? with
  | some place =>
    by_cases hd : d = c
    · simp [hd, hplace]
    · simp [hd]
  | none =>
    simp only [Std.TreeMap.getElem?_insert, Std.LawfulEqOrd.compare_eq_iff_eq]
    by_cases hd : d = c
    · simp [hd, hplace]
    · simp [hd, Ne.symm hd]

end ConstantPool

namespace PoolRun

open ConstantPool

variable {p q : ConstantPool} {added : List (Constant × Nat)} {c : Constant} {place : Nat}

/-- Nothing moves. -/
theorem grows (h : PoolRun p added q) : p.Grows q := by
  induction h with
  | start => exact .refl p
  | @add _ q _ c ih => exact ih.trans (q.grows_add c)

theorem sound (h : PoolRun p added q) (hsound : p.Sound) (hsize : q.size ≤ 4294967296) : q.Sound := by
  induction h with
  | start => exact hsound
  | @add _ q _ c ih => exact (add_spec (ih (Nat.le_trans (size_le_of_grows (q.grows_add c)) hsize)) hsize).1

/-- The places that were given are those of the constants. -/
theorem get?_of_mem (h : PoolRun p added q) (hsound : p.Sound) (hsize : q.size ≤ 4294967296) (hmem : (c, place) ∈ added) :
    q.get? place = some c := by
  induction h with
  | start => cases hmem
  | @add _ q h d ih =>
    have hle := Nat.le_trans (size_le_of_grows (q.grows_add d)) hsize
    rcases List.mem_append.mp hmem with hmem | hmem
    · exact q.grows_add d place c (ih hle hmem)
    · obtain ⟨rfl, rfl⟩ := Prod.mk.inj (List.mem_singleton.mp hmem)
      exact (add_spec (h.sound hsound hle) hsize).2

/-- A run from the start makes the pool of its constants. -/
theorem eq_ofList (h : PoolRun .empty added p) : p = ofList (added.map Prod.fst) := by
  induction h with
  | start => rfl
  | add _ c ih => rw [List.map_append, List.map_singleton, ofList_concat, ← ih]

/-- The place of a constant is the one that was given when it came first. -/
theorem getElem?_places (h : PoolRun .empty added p) (c : Constant) : p.places[c]? = added.lookup c := by
  induction h with
  | start => simp [empty]
  | add _ d ih =>
    rw [getElem?_places_add, ih, List.lookup_append, List.lookup_cons, List.lookup_nil]
    by_cases hc : c = d
    · simp [hc]
    · simp [hc, beq_eq_false_iff_ne.mpr hc]

end PoolRun

/-- The laws of a pool, after any run of additions: it holds the constants that were added, each of them once, in the order in which
they came first; constants and places are inverse to each other; the place that was given for a constant has it then and ever after;
an addition gives the next place if and only if the constant is new, and the place that was given first if it is not. A pool made
from some constants holds just these if none of them comes twice. -/
theorem constant_pool_laws {added : List (Constant × Nat)} {p : ConstantPool} (h : PoolRun .empty added p)
    (hsize : p.size < 4294967296) :
    p.toList.Nodup ∧
    p.toList = (added.map Prod.fst).eraseDups ∧
    (∀ c place, p.places[c]? = some place ↔ p.get? place = some c) ∧
    (∀ c place, (c, place) ∈ added → place < 4294967296 ∧ ∀ later q, PoolRun p later q → q.get? place = some c) ∧
    (∀ c, ((p.add c).1 = p.size ↔ c ∉ added.map Prod.fst) ∧
      (c ∈ added.map Prod.fst → added.lookup c = some (p.add c).1)) ∧
    ∀ cs, (ConstantPool.ofList cs).toList = cs ↔ cs.Nodup := by
  have hsound := h.sound ConstantPool.sound_empty (Nat.le_of_lt hsize)
  have hindexed : p.Indexed := h.eq_ofList ▸ (ConstantPool.ofList_spec _).1
  have hlist : p.toList = (added.map Prod.fst).eraseDups := h.eq_ofList ▸ ConstantPool.toList_ofList _
  have hnodup : p.toList.Nodup := hlist ▸ nodup_eraseDups _
  refine ⟨hnodup, hlist, fun c place => ConstantPool.getElem?_places_iff hsound hindexed hnodup, ?_, ?_, ?_⟩
  · intro c place hmem
    have hget := h.get?_of_mem ConstantPool.sound_empty (Nat.le_of_lt hsize) hmem
    exact ⟨Nat.lt_trans (ConstantPool.lt_size_of_get? hget) hsize, fun later q hlater => hlater.grows place c hget⟩
  · intro c
    have hnew : p.places[c]? = none ↔ c ∉ added.map Prod.fst := by rw [hindexed c, hlist, List.mem_eraseDups]
    rw [ConstantPool.add_fst c hsize, ← h.getElem?_places]
    cases hplace : p.places[c]? with
    | none =>
      have hc := hnew.mp hplace
      exact ⟨iff_of_true rfl hc, fun hmem => absurd hmem hc⟩
    | some place =>
      have hlt := ConstantPool.lt_size_of_get? (hsound c place hplace)
      have hc : ¬ c ∉ added.map Prod.fst := fun hc => Option.some_ne_none place (hplace.symm.trans (hnew.mpr hc))
      exact ⟨iff_of_false (Nat.ne_of_lt hlt) hc, fun _ => rfl⟩
  · intro cs
    rw [ConstantPool.toList_ofList, eraseDups_eq_self_iff]

/-- A number is added again behind the text that spells it. -/
theorem constant_pool_laws_numberAndText :
    ∃ p, PoolRun .empty [(.int 42, 0), (.string "42", 1), (.int 42, 0)] p ∧ p.size < 4294967296 ∧
      p.toList = [.int 42, .string "42"] ∧ p.places[Constant.string "42"]? = some 1 ∧
      (∀ later q, PoolRun p later q → q.get? 0 = some (.int 42)) ∧ (p.add (.int 7)).1 = 2 := by
  have hrun : PoolRun .empty [(.int 42, 0), (.string "42", 1), (.int 42, 0)] (.ofList [.int 42, .string "42", .int 42]) :=
    ((PoolRun.start.add (.int 42)).add (.string "42")).add (.int 42)
  obtain ⟨-, hlist, hinverse, hkept, hnext, -⟩ := constant_pool_laws hrun (by decide)
  exact ⟨_, hrun, by decide, hlist.trans (by decide), (hinverse _ _).mpr (by decide), (hkept _ _ (by decide)).2,
    (hnext _).1.mpr (by decide)⟩

end MonkeyLang
