import MonkeyLang.Proofs.Derivation
/-!
# Instructions of one sort

The instructions of one sort in the code of a program, in order. What is known of each of them is known of the steps of that sort
in the chunk: `forall₂_steps`.
-/

namespace MonkeyLang

def pick (isPicked : Instruction → Bool) (code : List CodeLine) : List CodeLine := code.filter fun l => isPicked l.instruction

section

variable {isPicked : Instruction → Bool}

@[simp] theorem pick_nil : pick isPicked [] = [] := rfl

@[simp] theorem pick_append (code rest : List CodeLine) :
    pick isPicked (code ++ rest) = pick isPicked code ++ pick isPicked rest :=
  List.filter_append code rest

@[simp] theorem pick_cons (l : CodeLine) (code : List CodeLine) :
    pick isPicked (l :: code) = if isPicked l.instruction then l :: pick isPicked code else pick isPicked code :=
  List.filter_cons

theorem pick_cons_of_pos {l : CodeLine} (h : isPicked l.instruction = true) (code : List CodeLine) :
    pick isPicked (l :: code) = l :: pick isPicked code :=
  List.filter_cons_of_pos h

theorem pick_cons_of_neg {l : CodeLine} (h : isPicked l.instruction = false) (code : List CodeLine) :
    pick isPicked (l :: code) = pick isPicked code :=
  List.filter_cons_of_neg (Bool.eq_false_iff.mp h)

end

/-! ### Loads and stores -/

def Instruction.isLoad : Instruction → Bool
  | getGlobal _ | getLocal _ | getBuiltin _ | getFree _ | currentClosure => true
  | _ => false

theorem Storage.isLoad_of_load? {s : Storage} {i : Instruction} (h : s.load? = some i) : i.isLoad = true := by
  cases s with
  | running =>
    cases h
    rfl
  | _ =>
    obtain ⟨-, heq⟩ := Option.ite_none_right_eq_some.mp h
    cases heq
    rfl

theorem Storage.eq_of_store? {s : Storage} {i : Instruction} (h : s.store? = some i) :
    (∃ slot, i = .setGlobal slot) ∨ ∃ slot, i = .setLocal slot := by
  cases s with
  | builtin | captured | running => cases h
  | frame slot =>
    obtain ⟨-, heq⟩ := Option.ite_none_right_eq_some.mp h
    exact .inr ⟨_, (Option.some.inj heq).symm⟩
  | _ slot =>
    obtain ⟨-, heq⟩ := Option.ite_none_right_eq_some.mp h
    exact .inl ⟨_, (Option.some.inj heq).symm⟩

theorem pick_loads {isPicked : Instruction → Bool} (hloads : ∀ i, i.isLoad = true → isPicked i = false) {symbols : List Symbol}
    {loads : List Instruction} (h : List.Forall₂ (fun symbol i => symbol.storage.load? = some i) symbols loads) (line : Nat) :
    pick isPicked (loads.map fun i => ⟨line, i⟩) = [] := by
  induction h with
  | nil => rfl
  | cons hload _ ih => rw [List.map_cons, pick_cons_of_neg (hloads _ (Storage.isLoad_of_load? hload)), ih]

/-! ### Steps -/

theorem forall₂_located {α : Type} {R : CodeLine → α → Prop} {S : Nat × Step → α → Prop} {isPicked : Instruction → Bool}
    {picks : Step → Bool} (hpicks : ∀ i : Instruction, picks i.step = isPicked i) {front code : List CodeLine} {xs : List α}
    (h : List.Forall₂ R (pick isPicked code) xs)
    (hstep : ∀ before l behind x, front ++ code = before ++ l :: behind → R l x →
      S (codeSize before, l.instruction.step) x) :
    List.Forall₂ S (((located (codeSize front) code).map fun s => (s.1, s.2.step)).filter fun s => picks s.2) xs := by
  -- The code that was passed is kept in front, so that offsets can be read off it.
  induction code generalizing front xs with
  | nil => simpa using h
  | cons l code ih =>
    have hnext : codeSize front + l.instruction.size = codeSize (front ++ [l]) := by simp
    have hrest : ∀ before l' behind x, front ++ [l] ++ code = before ++ l' :: behind → R l' x →
        S (codeSize before, l'.instruction.step) x := by
      intro before l' behind x heq
      exact hstep before l' behind x (by simpa using heq)
    rw [located_cons, List.map_cons, List.filter_cons, hpicks, hnext]
    cases hl : isPicked l.instruction with
    | true =>
      rw [pick_cons_of_pos hl] at h
      cases h with
      | cons hfirst h => exact .cons (hstep front l code _ rfl hfirst) (ih h hrest)
    | false =>
      rw [pick_cons_of_neg hl] at h
      exact ih h hrest

/-- What is known of the instructions of some sort in code is known of the steps of that sort in its chunk. -/
theorem forall₂_steps {α : Type} {R : CodeLine → α → Prop} {S : Nat × Step → α → Prop} {isPicked : Instruction → Bool}
    {picks : Step → Bool} (hpicks : ∀ i : Instruction, picks i.step = isPicked i) {code : Code} {xs : List α}
    (h : List.Forall₂ R (pick isPicked code.toList) xs)
    (hstep : ∀ before l behind x, code.toList = before ++ l :: behind → R l x → S (codeSize before, l.instruction.step) x) :
    List.Forall₂ S (code.toChunk.steps.filter fun s => picks s.2) xs := by
  rw [steps_toChunk, ← codeSize_nil]
  exact forall₂_located hpicks h hstep

end MonkeyLang
