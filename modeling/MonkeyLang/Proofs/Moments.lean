import Mathlib.Data.List.Infix
import Mathlib.Data.List.Nodup
import MonkeyLang.Proofs.ErrorOrder
/-!
# The moments of a walk

A walk comes to a phrase, goes through its parts one after the other, and leaves it. `Phrase.moments` lists the moments at
which it does something of its own: before each part, and behind the last one. Each phrase of a program has its moments, and
each moment comes once.

`Pass.Carries` is the principle of induction that goes with it. To know the state in which a walk ends, it is enough to say
what one moment does to a state in which the walk can be then; for analysis, `Program.exists_knows` says which these are.
-/

namespace MonkeyLang

/-- A walk is at the phrase at a path, and some of its parts are done. -/
structure Moment where
  path : Path
  phrase : Phrase
  done : Nat

namespace Phrase

def moments (path : Path) (p : Phrase) : List Moment :=
  (p.parts.attach.mapIdx fun i q => ⟨path, p, i⟩ :: moments (i :: path) q.1).flatten ++ [⟨path, p, p.parts.length⟩]
termination_by p.size
decreasing_by exact size_lt_of_mem_parts q.2

/-- The moments of a walk over a phrase until some parts are done. -/
def momentsThrough (path : Path) (p : Phrase) (count : Nat) : List Moment :=
  ((p.parts.take count).mapIdx fun i q => ⟨path, p, i⟩ :: q.moments (i :: path)).flatten

variable {p q : Phrase} {path : Path} {i : Nat} {m : Moment}

theorem momentsThrough_zero (path : Path) (p : Phrase) : p.momentsThrough path 0 = [] := rfl

theorem moments_eq (path : Path) (p : Phrase) :
    p.moments path = p.momentsThrough path p.parts.length ++ [⟨path, p, p.parts.length⟩] := by
  have hparts : p.parts.attach.mapIdx (fun i q => (⟨path, p, i⟩ : Moment) :: moments (i :: path) q.1) =
      p.parts.mapIdx fun i q => ⟨path, p, i⟩ :: q.moments (i :: path) := by
    apply List.ext_getElem
    · simp
    · intro i _ _
      simp
  rw [moments, momentsThrough, hparts, List.take_length]

theorem momentsThrough_succ (path : Path) (hq : p.parts[i]? = some q) :
    p.momentsThrough path (i + 1) = p.momentsThrough path i ++ ⟨path, p, i⟩ :: q.moments (i :: path) := by
  obtain ⟨hi, rfl⟩ := List.getElem?_eq_some_iff.mp hq
  have hlength : (p.parts.take i).length = i := List.length_take_of_le (Nat.le_of_lt hi)
  rw [momentsThrough, List.take_succ_eq_append_getElem hi, List.mapIdx_concat, List.flatten_concat, hlength,
    momentsThrough]

/-- A walk comes to a moment behind those of the parts before. -/
theorem momentsThrough_isPrefix (path : Path) (hi : i ≤ p.parts.length) :
    p.momentsThrough path i ++ [⟨path, p, i⟩] <+: p.moments path := by
  rw [moments_eq]
  rcases Nat.lt_or_eq_of_le hi with hi | rfl
  · have hthrough : p.momentsThrough path (i + 1) <+: p.momentsThrough path p.parts.length := by
      rw [momentsThrough, momentsThrough, List.take_length]
      nth_rewrite 2 [← List.take_append_drop (i + 1) p.parts]
      rw [List.mapIdx_append, List.flatten_append]
      exact List.prefix_append _ _
    apply List.IsPrefix.trans ?_ (hthrough.trans (List.prefix_append _ _))
    rw [momentsThrough_succ path (List.getElem?_eq_getElem hi), List.prefix_append_right_inj]
    exact List.prefix_append [_] _
  · exact List.prefix_rfl

theorem mem_moments_self (path : Path) (hi : i ≤ p.parts.length) : ⟨path, p, i⟩ ∈ p.moments path :=
  (momentsThrough_isPrefix path hi).subset (List.mem_append_right _ (List.mem_singleton_self _))

theorem moments_subset_of_part (path : Path) (hq : p.parts[i]? = some q) : q.moments (i :: path) ⊆ p.moments path := by
  have hi : i < p.parts.length := (List.getElem?_eq_some_iff.mp hq).1
  have hprefix := momentsThrough_isPrefix path (Nat.succ_le_of_lt hi)
  rw [momentsThrough_succ path hq] at hprefix
  intro m hm
  apply hprefix.subset
  simp [hm]

/-- The moments of a walk through some parts are those of the phrase itself, and those of the parts. -/
theorem mem_momentsThrough (hi : i ≤ p.parts.length) :
    m ∈ p.momentsThrough path i ↔
      ∃ j < i, m = ⟨path, p, j⟩ ∨ ∃ q, p.parts[j]? = some q ∧ m ∈ q.moments (j :: path) := by
  induction i with
  | zero => simp [momentsThrough_zero]
  | succ i ih =>
    have hq := List.getElem?_eq_getElem hi
    rw [momentsThrough_succ path hq, List.mem_append, List.mem_cons, ih (Nat.le_of_succ_le hi)]
    constructor
    · rintro (⟨j, hj, hm⟩ | rfl | hm)
      · exact ⟨j, Nat.lt_succ_of_lt hj, hm⟩
      · exact ⟨i, Nat.lt_succ_self i, .inl rfl⟩
      · exact ⟨i, Nat.lt_succ_self i, .inr ⟨_, hq, hm⟩⟩
    · rintro ⟨j, hj, hm⟩
      rcases Nat.lt_succ_iff_lt_or_eq.mp hj with hj | rfl
      · exact .inl ⟨j, hj, hm⟩
      · rcases hm with rfl | ⟨q, hq', hm⟩
        · exact .inr (.inl rfl)
        · cases hq.symm.trans hq'
          exact .inr (.inr hm)

theorem suffix_of_mem_moments (h : m ∈ p.moments path) : path <:+ m.path := by
  induction p using partsInduction generalizing path with
  | step p ih =>
    rw [moments_eq, List.mem_append, mem_momentsThrough (Nat.le_refl _), List.mem_singleton] at h
    rcases h with ⟨j, -, rfl | ⟨q, hq, hm⟩⟩ | rfl
    · exact List.suffix_rfl
    · exact (List.suffix_cons j path).trans (ih q (List.mem_of_getElem? hq) hm)
    · exact List.suffix_rfl

theorem not_mem_moments_part (p q : Phrase) (path : Path) (i j : Nat) : ⟨path, p, i⟩ ∉ q.moments (j :: path) := by
  intro hm
  have hle : (j :: path).length ≤ path.length := (suffix_of_mem_moments hm).length_le
  rw [List.length_cons] at hle
  omega

/-- What is done in a part is not done before it. -/
theorem not_mem_momentsThrough (q : Phrase) (hi : i ≤ p.parts.length) (h : m ∈ q.moments (i :: path)) :
    m ∉ p.momentsThrough path i := by
  intro hbefore
  obtain ⟨j, hj, rfl | ⟨q', -, hm⟩⟩ := (mem_momentsThrough hi).mp hbefore
  · exact not_mem_moments_part p q path j i h
  · -- The paths of two parts differ in their last turn.
    have heq : j :: path = i :: path :=
      (List.suffix_of_suffix_length_le (suffix_of_mem_moments hm) (suffix_of_mem_moments h) (by simp)).eq_of_length
        (by simp)
    cases heq
    exact Nat.lt_irrefl i hj

theorem self_not_mem_momentsThrough (path : Path) (hi : i ≤ p.parts.length) : ⟨path, p, i⟩ ∉ p.momentsThrough path i := by
  intro hbefore
  obtain ⟨j, hj, heq | ⟨q, -, hm⟩⟩ := (mem_momentsThrough hi).mp hbefore
  · cases heq
    exact Nat.lt_irrefl i hj
  · exact not_mem_moments_part p q path i j hm

theorem nodup_momentsThrough (path : Path) (hparts : ∀ q ∈ p.parts, ∀ path, (q.moments path).Nodup)
    (hi : i ≤ p.parts.length) : (p.momentsThrough path i).Nodup := by
  induction i with
  | zero => exact List.nodup_nil
  | succ i ih =>
    have hbefore := Nat.le_of_succ_le hi
    rw [momentsThrough_succ path (List.getElem?_eq_getElem hi), List.nodup_append]
    refine ⟨ih hbefore, List.nodup_cons.mpr ⟨not_mem_moments_part p _ path i i, hparts _ (List.getElem_mem hi) _⟩, ?_⟩
    rintro m hm _ hm' rfl
    rcases List.mem_cons.mp hm' with rfl | hm'
    · exact self_not_mem_momentsThrough path hbefore hm
    · exact not_mem_momentsThrough _ hbefore hm' hm

/-- No moment comes twice. -/
theorem nodup_moments (p : Phrase) : ∀ path, (p.moments path).Nodup := by
  induction p using partsInduction with
  | step p ih =>
    intro path
    rw [moments_eq, List.nodup_append]
    refine ⟨nodup_momentsThrough path ih (Nat.le_refl _), List.nodup_singleton _, ?_⟩
    rintro m hm _ hm' rfl
    cases List.mem_singleton.mp hm'
    exact self_not_mem_momentsThrough path (Nat.le_refl _) hm

end Phrase

namespace Program

def moments (program : Program) : List Moment := program.root.moments []

variable {program : Program} {path : Path} {p : Phrase} {m : Moment}

theorem phraseAt_of_mem_moments (hphrase : program.phraseAt path = some p) (h : m ∈ p.moments path) :
    program.phraseAt m.path = some m.phrase ∧ m.done ≤ m.phrase.parts.length := by
  induction p using Phrase.partsInduction generalizing path with
  | step p ih =>
    rw [Phrase.moments_eq, List.mem_append, Phrase.mem_momentsThrough (Nat.le_refl _), List.mem_singleton] at h
    rcases h with ⟨j, hj, rfl | ⟨q, hq, hm⟩⟩ | rfl
    · exact ⟨hphrase, Nat.le_of_lt hj⟩
    · apply ih q (List.mem_of_getElem? hq) ?_ hm
      rw [phraseAt, hphrase, Option.bind_some, hq]
    · exact ⟨hphrase, Nat.le_refl _⟩

theorem moments_subset (hphrase : program.phraseAt path = some p) : p.moments path ⊆ program.moments := by
  induction path generalizing p with
  | nil =>
    cases hphrase
    exact List.Subset.refl _
  | cons i path ih =>
    rw [phraseAt, Option.bind_eq_some_iff] at hphrase
    obtain ⟨around, haround, hpart⟩ := hphrase
    exact List.Subset.trans (Phrase.moments_subset_of_part path hpart) (ih haround)

/-- Each phrase of a program has its moments. -/
theorem mem_moments : m ∈ program.moments ↔ program.phraseAt m.path = some m.phrase ∧ m.done ≤ m.phrase.parts.length := by
  constructor
  · exact phraseAt_of_mem_moments rfl
  · rintro ⟨hphrase, hdone⟩
    exact moments_subset hphrase (Phrase.mem_moments_self m.path hdone)

theorem nodup_moments (program : Program) : program.moments.Nodup := program.root.nodup_moments []

/-- What is found at one moment of a phrase at most is found at each path once. -/
theorem nodup_paths {α : Type} {find : Moment → Option α} {pathOf : α → Path} (program : Program) (done : Phrase → Nat)
    (hfind : ∀ m x, find m = some x → pathOf x = m.path ∧ m.done = done m.phrase) :
    ((program.moments.filterMap find).map pathOf).Nodup := by
  rw [List.Nodup, List.pairwise_map, List.pairwise_filterMap]
  apply program.nodup_moments.imp_of_mem
  intro m m' hm hm' hne x hx x' hx' heq
  have hphrase := (mem_moments.mp hm).1
  have hphrase' := (mem_moments.mp hm').1
  obtain ⟨hpath, hdone⟩ := hfind m x hx
  obtain ⟨hpath', hdone'⟩ := hfind m' x' hx'
  obtain ⟨path, p, i⟩ := m
  obtain ⟨path', p', i'⟩ := m'
  obtain rfl : path = path' := hpath.symm.trans (heq.trans hpath')
  cases hphrase.symm.trans hphrase'
  cases hdone.trans hdone'.symm
  exact hne rfl

end Program

/-! ### Induction along a walk -/

namespace Pass

variable {σ ε α : Type} {P : Pass σ ε α} {root : Phrase} {start : σ} {inv : List Moment → σ → Prop}

/-- What is true of the moments passed and the state stays true from each moment of a walk to the next. -/
structure Carries (P : Pass σ ε α) (root : Phrase) (start : σ) (inv : List Moment → σ → Prop) : Prop where
  enter : ∀ {path p s i results s₁ s₂ found}, P.reach root start path = some (p, s) → i < p.parts.length →
    P.through p i s = .ok (results, s₁) → P.enter p i s₁ = .ok ((), s₂) → inv found s₁ → inv (found ++ [⟨path, p, i⟩]) s₂
  leave : ∀ {path p s results s₁ r s₂ found}, P.reach root start path = some (p, s) →
    P.through p p.parts.length s = .ok (results, s₁) → P.leave p s results s₁ = .ok (r, s₂) → inv found s₁ →
      inv (found ++ [⟨path, p, p.parts.length⟩]) s₂

namespace Carries

variable {path : Path} {p : Phrase} {s s' : σ} {found : List Moment} {i : Nat}

theorem through_of_parts (h : P.Carries root start inv)
    (hparts : ∀ q ∈ p.parts, ∀ {path s r s' found}, P.reach root start path = some (q, s) → inv found s →
      P.run q s = .ok (r, s') → inv (found ++ q.moments path) s')
    (hreach : P.reach root start path = some (p, s)) (hinv : inv found s) (hi : i ≤ p.parts.length) {results : List α}
    (hthrough : P.through p i s = .ok (results, s')) : inv (found ++ p.momentsThrough path i) s' := by
  induction i generalizing results s' with
  | zero =>
    cases hthrough
    rwa [Phrase.momentsThrough_zero, List.append_nil]
  | succ i ih =>
    have hq := List.getElem?_eq_getElem hi
    obtain ⟨results₁, s₁, s₂, result, s₃, hbefore, henter, hrun, heq⟩ := (through_succ_eq_ok hq).mp hthrough
    cases heq
    -- The walk comes to the part in the state behind this moment, and the part carries on from there.
    have hentered := h.enter hreach hi hbefore henter (ih (Nat.le_of_succ_le hi) hbefore)
    have hpart := reach_cons_eq_some.mpr ⟨p, s, results₁, s₁, hreach, hq, hbefore, henter⟩
    have hdone := hparts _ (List.getElem_mem hi) hpart hentered hrun
    rwa [List.append_assoc, List.append_assoc, List.singleton_append, ← Phrase.momentsThrough_succ path hq] at hdone

/-- What each moment carries on is true behind a phrase, with the moments of the phrase. -/
theorem run (h : P.Carries root start inv) (p : Phrase) : ∀ {path s r s' found}, P.reach root start path = some (p, s) →
    inv found s → P.run p s = .ok (r, s') → inv (found ++ p.moments path) s' := by
  induction p using Phrase.partsInduction with
  | step p ih =>
    intro path s r s' found hreach hinv hrun
    obtain ⟨results, s₁, hthrough, hleave⟩ := run_eq_ok.mp hrun
    have hparts := h.through_of_parts ih hreach hinv (Nat.le_refl _) hthrough
    rw [Phrase.moments_eq, ← List.append_assoc]
    exact h.leave hreach hthrough hleave hparts

theorem through (h : P.Carries root start inv) (hreach : P.reach root start path = some (p, s)) (hinv : inv found s)
    (hi : i ≤ p.parts.length) {results : List α} (hthrough : P.through p i s = .ok (results, s')) :
    inv (found ++ p.momentsThrough path i) s' :=
  h.through_of_parts (fun q _ => h.run q) hreach hinv hi hthrough

theorem run_root {program : Program} {r : α} (h : P.Carries program.root start inv) (hinv : inv [] start)
    (hrun : P.run program.root start = .ok (r, s')) : inv program.moments s' :=
  have hroot : P.reach program.root start [] = some (program.root, start) := rfl
  h.run program.root hroot hinv hrun

/-- It is true of every state in which a walk comes to a phrase. -/
theorem reached (h : P.Carries root start inv) (hinv : inv [] start) (hreach : P.reach root start path = some (p, s)) :
    ∃ found, inv found s := by
  induction path generalizing p s with
  | nil =>
    cases hreach
    exact ⟨[], hinv⟩
  | cons i path ih =>
    obtain ⟨around, s₀, results, s₁, haround, hq, hthrough, henter⟩ := reach_cons_eq_some.mp hreach
    have hi : i < around.parts.length := (List.getElem?_eq_some_iff.mp hq).1
    obtain ⟨found, hfound⟩ := ih haround
    exact ⟨_, h.enter haround hi hthrough henter (h.through haround hfound (Nat.le_of_lt hi) hthrough)⟩

end Carries

end Pass

/-! ### Names -/

def Moment.sites (m : Moment) : List NameSite :=
  (if m.done = 0 then m.phrase.sitesEntering m.path else []) ++
    if m.done = m.phrase.parts.length then m.phrase.sitesLeaving m.path else []

namespace Phrase

variable {p : Phrase} {path : Path} {i : Nat}

theorem sitesBefore_eq_flatMap (hparts : ∀ q ∈ p.parts, ∀ path, q.sites path = (q.moments path).flatMap Moment.sites)
    (hi : i < p.parts.length) : p.sitesBefore path (i + 1) = (p.momentsThrough path (i + 1)).flatMap Moment.sites := by
  have hpart := hparts _ (List.getElem_mem hi) (i :: path)
  induction i with
  | zero =>
    have hfirst : Moment.sites ⟨path, p, 0⟩ = p.sitesEntering path := by
      simp only [Moment.sites, if_true, if_neg (Nat.ne_of_lt hi), List.append_nil]
    rw [sitesBefore_succ path (List.getElem?_eq_getElem hi), momentsThrough_succ path (List.getElem?_eq_getElem hi),
      momentsThrough_zero, List.nil_append, List.flatMap_cons, hfirst, hpart]
    simp [sitesBefore]
  | succ i ih =>
    have hi' := Nat.lt_of_succ_lt hi
    have hbetween : Moment.sites ⟨path, p, i + 1⟩ = [] := by
      simp only [Moment.sites, Nat.succ_ne_zero, if_false, if_neg (Nat.ne_of_lt hi), List.append_nil]
    rw [sitesBefore_succ path (List.getElem?_eq_getElem hi), momentsThrough_succ path (List.getElem?_eq_getElem hi),
      List.flatMap_append, List.flatMap_cons, hbetween, List.nil_append, hpart,
      ih hi' (hparts _ (List.getElem_mem hi') (i :: path))]

/-- The sites of a phrase are those of its moments. -/
theorem sites_eq_flatMap (p : Phrase) : ∀ path, p.sites path = (p.moments path).flatMap Moment.sites := by
  induction p using partsInduction with
  | step p ih =>
    intro path
    rw [sites_eq, moments_eq, List.flatMap_append, List.flatMap_singleton]
    cases hlength : p.parts.length with
    | zero =>
      have hnone : p.sitesEntering path = [] := sitesEntering_of_parts_eq_nil (List.eq_nil_of_length_eq_zero hlength)
      simp [sitesBefore, momentsThrough, Moment.sites, hlength, hnone]
    | succ n =>
      have hlast : Moment.sites ⟨path, p, n + 1⟩ = p.sitesLeaving path := by
        simp [Moment.sites, hlength]
      rw [sitesBefore_eq_flatMap ih (by omega), hlast]

end Phrase

namespace Program

variable {program : Program} {path : Path} {p : Phrase} {a a' : Analyzer} {i : Nat} {bindings : List Binding}

theorem sites_eq_flatMap (program : Program) : program.sites = program.moments.flatMap Moment.sites :=
  program.root.sites_eq_flatMap []

/-- At every moment the table shows what is in force, and the sites of that moment are the next ones. -/
theorem exists_knows (hreach : program.analyzedAt path = some (p, a)) (hi : i ≤ p.parts.length)
    (hthrough : analysis.through p i a = .ok (bindings, a')) : ∃ found depth,
      a'.Knows program found (p.scopingThrough path (program.scopingAt path) i) depth ∧
        found ++ Moment.sites ⟨path, p, i⟩ <+: program.sites := by
  have hphrase := phraseAt_of_reach hreach
  obtain ⟨found, depth, a₀, hreach₀, h, hfront⟩ := exists_analyzedAt hphrase
  cases hreach.symm.trans hreach₀
  rw [p.sites_eq_flatMap path] at hfront
  have hmoment := (Phrase.momentsThrough_isPrefix path hi).flatMap Moment.sites
  rw [List.flatMap_append, List.flatMap_singleton] at hmoment
  cases i with
  | zero =>
    cases hthrough
    refine ⟨found, depth, h, List.IsPrefix.trans ?_ hfront⟩
    exact (List.prefix_append_right_inj found).mpr hmoment
  | succ i =>
    obtain ⟨results, a₁, a₂, hbefore, henter, h'⟩ := Analyzer.Knows.entered (fun q _ => Analyzer.Knows.run q) hphrase h hi
    obtain ⟨results', a₃, hthrough', h''⟩ := Analyzer.Knows.through_succ (fun q _ => Analyzer.Knows.run q) hphrase
      (List.getElem?_eq_getElem hi) hbefore henter h'
    cases hthrough.symm.trans hthrough'
    refine ⟨_, _, h'', List.IsPrefix.trans ?_ hfront⟩
    rw [Phrase.sitesBefore_eq_flatMap (fun q _ => q.sites_eq_flatMap) hi, List.append_assoc]
    exact (List.prefix_append_right_inj found).mpr hmoment

end Program

/-! ### Errors -/

def CompilationError.isCall : CompilationError → Bool
  | argumentCountMismatch _ _ _ _ | notCallable _ _ _ => true
  | redeclared _ _ _ | undeclared _ _ | inconsistentHashKeys _ | unusedDeclaration _ _ | internal _ => false

def CompilationError.isHashKeys : CompilationError → Bool
  | inconsistentHashKeys _ => true
  | _ => false

namespace Analyzer

variable {α β : Type} {m : Walk α} {k : α → Walk β} {test : CompilationError → Bool} {p : Phrase} {i : Nat}

theorem isCall_of_callError? {name : Ident} {binding : Binding} {args : Nat} {span : Span} {e : CompilationError}
    (h : callError? name binding args span = some e) : e.isCall = true := by
  unfold callError? at h
  repeat' split at h
  all_goals cases h
  all_goals rfl

theorem closeScope_eq_ok {a a' : Analyzer} : closeScope a = .ok ((), a') ↔
    ∃ table, a.table.closeScope? = some table ∧ a' = { a with table } := by
  unfold closeScope
  cases a.table.closeScope? with
  | none => simp
  | some table => simp [eq_comm]

/-- A step of analysis reports nothing that passes a test. -/
def Silent (test : CompilationError → Bool) (m : Walk α) : Prop :=
  Keeps (fun a a' => a'.errors.toList.filter test = a.errors.toList.filter test) m

namespace Silent

theorem pure (r : α) : Silent test (Pure.pure r) := by
  apply keeps_pure
  intro a
  rfl

theorem bind (h : Silent test m) (hk : ∀ r, Silent test (k r)) : Silent test (m >>= k) :=
  Keeps.bind (fun h h' => h'.trans h) h hk

theorem of_errors (h : ∀ a r a', m a = .ok (r, a') → a'.errors = a.errors) : Silent test m := by
  intro a r a' hrun
  rw [h a r a' hrun]

theorem of_adds {P : CompilationError → Prop} (h : Adds P m) (htest : ∀ e, P e → test e = false) : Silent test m := by
  intro a r a' hrun
  obtain ⟨-, hsame | ⟨e, he, hpush⟩⟩ := h a r a' hrun
  · rw [hsame]
  · rw [hpush, Array.toList_push, List.filter_append, List.filter_singleton, htest e he]
    exact List.append_nil _

theorem openScope : Silent test Analyzer.openScope := by
  apply of_errors
  rintro a _ _ ⟨⟩
  rfl

theorem closeScope : Silent test Analyzer.closeScope := by
  apply of_errors
  intro a r a' h
  obtain ⟨table, -, rfl⟩ := closeScope_eq_ok.mp h
  rfl

theorem report {e : CompilationError} (he : test e = false) : Silent test (Analyzer.report e) := by
  rintro a _ _ ⟨⟩
  show (a.errors.push e).toList.filter test = _
  rw [Array.toList_push, List.filter_append, List.filter_singleton, he]
  exact List.append_nil _

theorem checkCall (hcalls : ∀ e, e.isCall = true → test e = false) (callee : Expr) (args : Nat) (span : Span) :
    Silent test (Analyzer.checkCall callee args span) := by
  intro a _ a' h
  obtain ⟨a₁, hcheck, rfl | ⟨name, d, e, -, -, he, rfl⟩⟩ := exists_checkCall callee args span a
  · cases h.symm.trans hcheck
    rfl
  · cases h.symm.trans hcheck
    have htest := hcalls e (isCall_of_callError? he)
    rw [Array.toList_push, List.filter_append, List.filter_singleton, htest]
    exact List.append_nil _

section

variable (hnames : ∀ e, e.isScoping = true → test e = false)

include hnames

theorem declare (name : Ident) (binding : Binding) : Silent test (Analyzer.declare name binding) := by
  apply of_adds (adds_declare name binding)
  rintro e ⟨first, rfl⟩
  exact hnames _ rfl

theorem declareParams (params : List Ident) : Silent test (Analyzer.declareParams params) := by
  induction params with
  | nil => exact pure ()
  | cons param rest ih => exact (declare hnames param .parameter).bind fun _ => ih

/-- Only calls are checked when a part of a phrase is come to, apart from names. -/
theorem enterPart (hcall : ∀ context callee args span, p = .expr context (.call callee args span) → i = 1 →
    ∀ e, e.isCall = true → test e = false) : Silent test (Analyzer.enterPart p i) := by
  unfold Analyzer.enterPart
  split
  case h_1 context callee args span => exact checkCall (hcall context callee args span rfl rfl) callee args.length span
  case h_2 | h_4 =>
    apply of_errors
    rintro a _ _ ⟨⟩
    rfl
  case h_3 => exact openScope.bind fun _ => declareParams hnames _
  case h_5 =>
    split
    · exact declare hnames _ _
    · exact pure ()
  case h_6 => exact openScope
  case h_7 => exact pure ()

/-- Only keys are checked when a phrase is left, apart from names. -/
theorem leavePhrase (hhash : ∀ context ps brace span, p = .expr context (.hash ps brace span) →
    ∀ e, e.isHashKeys = true → test e = false) (bindings : List Binding) :
    Silent test (Analyzer.leavePhrase p bindings) := by
  unfold Analyzer.leavePhrase
  split
  case h_1 name =>
    apply of_adds (adds_refer name)
    rintro e rfl
    exact hnames _ rfl
  case h_3 context ps brace span =>
    refine bind (of_errors ?_) fun frame => ?_
    · intro a _ a' h
      obtain ⟨outer, -, rfl⟩ := leaveHash_eq_ok.mp h
      rfl
    · split
      · exact (report (hhash context ps brace span rfl _ rfl)).bind fun _ => pure _
      · exact pure _
  case h_4 | h_7 => exact closeScope.bind fun _ => pure _
  case h_6 =>
    split
    · exact pure _
    · exact (declare hnames _ _).bind fun _ => pure _
  case h_2 | h_5 | h_8 => exact pure _

end

theorem run (henter : ∀ p i, Silent test (Analyzer.enterPart p i))
    (hleave : ∀ p bindings, Silent test (Analyzer.leavePhrase p bindings)) (p : Phrase) : Silent test (analysis.run p) := by
  apply Pass.run_rel
  · intro a
    rfl
  · intro a a₁ a₂ h h'
    exact h'.trans h
  · exact henter
  · intro p _ bindings
    exact hleave p bindings

end Silent

end Analyzer

end MonkeyLang
