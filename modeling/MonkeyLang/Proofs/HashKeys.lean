import MonkeyLang.Proofs.Moments
/-!
# The keys of hash literals

The keys of a hash literal are fine if all of them are integers, or all of them strings; every other literal is reported. The
literals that analysis is in share one stack, but what is observed inside a key or a value goes to frames that are closed
again before the next key. So a literal depends on the forms of its own keys only.
-/

namespace MonkeyLang

/-! ### What is known of keys -/

namespace Expr

variable {e : Expr}

/-- An integer literal, negated or not, parentheses apart. -/
def IsIntegerKey (e : Expr) : Prop :=
  (∃ value span, e.unparen = .int value span) ∨
    ∃ operand span value inner, e.unparen = .unary .neg operand span ∧ operand.unparen = .int value inner

/-- A string literal, parentheses apart. -/
def IsStringKey (e : Expr) : Prop := ∃ value span, e.unparen = .string value span

theorem keyTypeOf_eq_integer : Analyzer.keyTypeOf e = .integer ↔ e.IsIntegerKey := by
  unfold Analyzer.keyTypeOf IsIntegerKey
  split
  case h_3 operand span hform =>
    split
    case h_1 hinner => simp [hform, hinner]
    case h_2 hinner =>
      simp only [hform, reduceCtorEq, exists_false, false_or, false_iff]
      rintro ⟨_, _, value, inner, ⟨⟩, heq⟩
      exact hinner value inner heq
  case h_1 hform | h_2 hform => simp [hform]
  case h_4 hint _ hneg =>
    simp only [reduceCtorEq, false_iff, not_or, not_exists, not_and]
    exact ⟨hint, fun operand span _ _ heq => absurd heq (hneg operand span)⟩

theorem keyTypeOf_eq_string : Analyzer.keyTypeOf e = .string ↔ e.IsStringKey := by
  unfold Analyzer.keyTypeOf IsStringKey
  split
  case h_3 hform => split <;> simp [hform]
  case h_1 hform | h_2 hform => simp [hform]
  case h_4 _ hstring _ => simpa using hstring

theorem keyTypeOf_ne_unknown (e : Expr) : Analyzer.keyTypeOf e ≠ .unknown := by
  unfold Analyzer.keyTypeOf
  repeat' split
  all_goals exact nofun

instance : DecidablePred IsIntegerKey := fun _ => decidable_of_iff _ keyTypeOf_eq_integer

instance : DecidablePred IsStringKey := fun _ => decidable_of_iff _ keyTypeOf_eq_string

end Expr

namespace KeyType

/-- A type that is known stays as long as the keys agree with it. -/
theorem foldl_refine {t : KeyType} (ht : t ≠ .unknown) (keys : List KeyType) :
    keys.foldl refine t = if ∀ k ∈ keys, k = t then t else .complex := by
  induction keys generalizing t with
  | nil => simp
  | cons key rest ih =>
    have hrefine : t.refine key = if t = key then t else .complex := by
      cases t with
      | unknown => exact absurd rfl ht
      | integer | string | complex => rfl
    -- A key that disagrees makes the type complex, and from there on it stays the same whether or not the rest agrees.
    rw [List.foldl_cons, hrefine]
    by_cases hkey : t = key
    · subst hkey
      rw [if_pos rfl, ih ht]
      simp
    · have hsome : ¬ ∀ k ∈ key :: rest, k = t := fun hall => hkey (hall key List.mem_cons_self).symm
      rw [if_neg hkey, ih (by decide), if_neg hsome]
      split <;> rfl

/-- Keys are of no type unless all are integers or all are strings. -/
theorem foldl_refine_unknown {keys : List KeyType} (hkeys : .unknown ∉ keys) :
    keys.foldl refine .unknown = .complex ↔ ¬ (∀ k ∈ keys, k = .integer) ∧ ¬ ∀ k ∈ keys, k = .string := by
  cases keys with
  | nil => simp
  | cons key rest =>
    have hkey : key ≠ .unknown := by
      rintro rfl
      exact hkeys List.mem_cons_self
    rw [List.foldl_cons, refine, foldl_refine hkey]
    cases key with
    | unknown => exact absurd rfl hkey
    | integer | string | complex => simp

end KeyType

structure HashSite where
  path : Path
  pairs : List (Expr × Expr)
  brace : Span

namespace HashSite

/-- The keys are neither all integers nor all strings. -/
def Mixed (h : HashSite) : Prop :=
  ¬ (∀ pair ∈ h.pairs, pair.1.IsIntegerKey) ∧ ¬ ∀ pair ∈ h.pairs, pair.1.IsStringKey

instance : DecidablePred Mixed := fun _ => instDecidableAnd

def keys (h : HashSite) : List KeyType := h.pairs.map fun pair => Analyzer.keyTypeOf pair.1

theorem mixed_iff {h : HashSite} : h.Mixed ↔ ¬ (∀ k ∈ h.keys, k = .integer) ∧ ¬ ∀ k ∈ h.keys, k = .string := by
  simp only [Mixed, keys, List.forall_mem_map, Expr.keyTypeOf_eq_integer, Expr.keyTypeOf_eq_string]

theorem foldl_keys (h : HashSite) : h.keys.foldl KeyType.refine .unknown = .complex ↔ h.Mixed := by
  rw [mixed_iff, KeyType.foldl_refine_unknown]
  intro hunknown
  obtain ⟨pair, -, hpair⟩ := List.mem_map.mp hunknown
  exact pair.1.keyTypeOf_ne_unknown hpair

/-- Neither the order of the pairs counts nor anything in them but the forms of the keys. -/
theorem Mixed.perm {h h' : HashSite} (hkeys : h.keys.Perm h'.keys) : h.Mixed ↔ h'.Mixed := by
  simp only [mixed_iff, hkeys.mem_iff]

end HashSite

/-! ### The stack of literals -/

theorem HashTracker.foldl_observe (keys : List KeyType) (frame : HashFrame) (outer : List HashFrame) :
    keys.foldl observe ⟨frame :: outer⟩ = ⟨{ frame with keys := keys.foldl KeyType.refine frame.keys } :: outer⟩ := by
  induction keys generalizing frame with
  | nil => rfl
  | cons key rest ih => exact ih _

namespace Phrase

/-- The keys that a phrase shows to the literal around it. -/
def ownKeys : Phrase → List KeyType
  | pairs ps => ps.map fun pair => Analyzer.keyTypeOf pair.1
  | _ => []

variable {p q : Phrase}

theorem ownKeys_of_ne_pairs (hpairs : ∀ ps, p ≠ pairs ps) : p.ownKeys = [] := by
  unfold ownKeys
  split
  case h_1 ps => exact absurd rfl (hpairs ps)
  case h_2 => rfl

theorem ownKeys_of_mem_parts (hhash : ∀ context ps brace span, p ≠ expr context (.hash ps brace span))
    (hpairs : ∀ ps, p ≠ pairs ps) (hq : q ∈ p.parts) : q.ownKeys = [] := by
  fun_cases parts p <;> simp only [parts, List.mem_cons, List.not_mem_nil, or_false] at hq
  all_goals first
    | exact absurd rfl (hhash _ _ _ _)
    | exact absurd rfl (hpairs _)
    | (rcases hq with rfl | rfl | rfl <;> rfl)

end Phrase

namespace Analyzer

variable {a a' : Analyzer} {p : Phrase} {i : Nat} {r : Binding} {bindings : List Binding} {context : Option String}
  {ps : List (Expr × Expr)} {brace span : Span}

theorem hashes_closeScope (h : closeScope a = .ok ((), a')) : a'.hashes = a.hashes := by
  obtain ⟨table, -, rfl⟩ := closeScope_eq_ok.mp h
  rfl

theorem hashes_refer {name : Ident} (h : refer name a = .ok (r, a')) : a'.hashes = a.hashes := by
  unfold refer at h
  split at h <;> cases h <;> rfl

theorem hashes_declare {name : Ident} {binding : Binding} (h : declare name binding a = .ok ((), a')) :
    a'.hashes = a.hashes := by
  cases h
  dsimp only
  split <;> rfl

theorem hashes_declareParams {params : List Ident} (h : declareParams params a = .ok ((), a')) : a'.hashes = a.hashes := by
  induction params generalizing a with
  | nil =>
    cases h
    rfl
  | cons param rest ih =>
    obtain ⟨⟨⟩, a₁, hdeclare, hrest⟩ := bind_eq_ok.mp h
    rw [ih hrest, hashes_declare hdeclare]

section

variable (hhash : ∀ context ps brace span, p ≠ .expr context (.hash ps brace span))

include hhash

theorem hashes_enterPart (hpairs : ∀ ps, p ≠ .pairs ps) (h : enterPart p i a = .ok ((), a')) : a'.hashes = a.hashes := by
  unfold enterPart at h
  split at h
  case h_1 context callee args span =>
    obtain ⟨a₁, hcheck, rfl | ⟨_, _, _, -, -, -, rfl⟩⟩ := exists_checkCall callee args.length span a <;>
    · cases h.symm.trans hcheck
      rfl
  case h_2 => exact absurd rfl (hhash _ _ _ _)
  case h_3 context params body span =>
    obtain ⟨⟨⟩, a₁, hopen, hparams⟩ := bind_eq_ok.mp h
    cases hopen
    exact (hashes_declareParams hparams).trans rfl
  case h_4 => exact absurd rfl (hpairs _)
  case h_5 name value span =>
    cases hvalue : value.function? with
    | some literal =>
      simp only [hvalue] at h
      exact hashes_declare h
    | none =>
      simp only [hvalue] at h
      cases h
      rfl
  case h_6 | h_7 =>
    cases h
    rfl

theorem hashes_leavePhrase (h : leavePhrase p bindings a = .ok (r, a')) : a'.hashes = a.hashes := by
  unfold leavePhrase at h
  split at h
  case h_1 => exact hashes_refer h
  case h_3 => exact absurd rfl (hhash _ _ _ _)
  case h_4 | h_7 =>
    obtain ⟨⟨⟩, a₁, hclose, hreturn⟩ := bind_eq_ok.mp h
    cases hreturn
    exact hashes_closeScope hclose
  case h_6 name value span =>
    split at h
    · cases h
      rfl
    · obtain ⟨⟨⟩, a₁, hdeclare, hreturn⟩ := bind_eq_ok.mp h
      cases hreturn
      exact hashes_declare hdeclare
  case h_2 | h_5 | h_8 =>
    cases h
    rfl

/-- The parts of a phrase that is neither a literal nor its pairs leave the stack as it is. -/
theorem hashes_through (hpairs : ∀ ps, p ≠ .pairs ps)
    (hparts : ∀ q ∈ p.parts, ∀ a r a', analysis.run q a = .ok (r, a') → a'.hashes = a.hashes) (hi : i ≤ p.parts.length)
    (h : analysis.through p i a = .ok (bindings, a')) : a'.hashes = a.hashes := by
  induction i generalizing bindings a' with
  | zero =>
    cases h
    rfl
  | succ i ih =>
    obtain ⟨_, a₁, a₂, r, a₃, hbefore, henter, hrun, heq⟩ :=
      (Pass.through_succ_eq_ok (List.getElem?_eq_getElem hi)).mp h
    cases heq
    rw [hparts _ (List.getElem_mem hi) _ _ _ hrun, hashes_enterPart hhash hpairs henter,
      ih (Nat.le_of_succ_le hi) hbefore]

end

/-- A hash literal is left with the forms of its own keys, whatever its pairs contain. -/
theorem frames_through_hash
    (hpairs : ∀ a r a', analysis.run (.pairs ps) a = .ok (r, a') →
      a'.hashes = (Phrase.pairs ps).ownKeys.foldl HashTracker.observe a.hashes)
    (h : analysis.through (.expr context (.hash ps brace span)) 1 a = .ok (bindings, a')) :
    a'.hashes.frames = ⟨some brace, (Phrase.pairs ps).ownKeys.foldl KeyType.refine .unknown⟩ :: a.hashes.frames := by
  obtain ⟨_, a₁, a₂, r, a₃, hbefore, henter, hrun, heq⟩ := (Pass.through_succ_eq_ok rfl).mp h
  cases heq
  cases hbefore
  cases henter
  rw [hpairs _ _ _ hrun]
  show ((Phrase.pairs ps).ownKeys.foldl HashTracker.observe ⟨⟨some brace, .unknown⟩ :: a.hashes.frames⟩).frames = _
  rw [HashTracker.foldl_observe]

/-- Leaving a literal takes its frame off the stack, and reports it if it is complex. -/
theorem leave_hash {a₀ : Analyzer} {frame : HashFrame} {outer : List HashFrame}
    (hframes : a.hashes.frames = frame :: outer)
    (h : analysis.leave (.expr context (.hash ps brace span)) a₀ bindings a = .ok (r, a')) :
    a'.hashes = ⟨outer⟩ ∧ a'.errors.toList = a.errors.toList ++
      if frame.keys = .complex then [.inconsistentHashKeys (frame.anchor.getD span)] else [] := by
  obtain ⟨_, a₁, hleave, hreport⟩ := bind_eq_ok.mp h
  obtain ⟨_, hframes', rfl⟩ := leaveHash_eq_ok.mp hleave
  cases hframes.symm.trans hframes'
  by_cases hkeys : frame.keys = .complex
  · rw [if_pos hkeys] at hreport ⊢
    cases hreport
    exact ⟨rfl, Array.toList_push⟩
  · rw [if_neg hkeys] at hreport ⊢
    cases hreport
    exact ⟨rfl, (List.append_nil _).symm⟩

/-- A pair shows its key to the literal, if what it contains shows nothing. -/
theorem hashes_walkPairs_cons {key value : Expr} (hkey : ∀ a r a', walkExpr key a = .ok (r, a') → a'.hashes = a.hashes)
    (hvalue : ∀ a r a', walkExpr value a = .ok (r, a') → a'.hashes = a.hashes)
    (hrest : ∀ a a', walkPairs ps a = .ok ((), a') →
      a'.hashes = (Phrase.pairs ps).ownKeys.foldl HashTracker.observe a.hashes)
    (h : walkPairs ((key, value) :: ps) a = .ok ((), a')) :
    a'.hashes = (Phrase.pairs ((key, value) :: ps)).ownKeys.foldl HashTracker.observe a.hashes := by
  simp only [walkPairs, discard_eq, bind_assoc, pure_bind] at h
  obtain ⟨⟨⟩, a₁, hobserve, hpair⟩ := bind_eq_ok.mp h
  obtain ⟨_, a₂, hvisitKey, hpair⟩ := bind_eq_ok.mp hpair
  obtain ⟨_, a₃, hvisitValue, hpairs⟩ := bind_eq_ok.mp hpair
  rw [hrest _ _ hpairs, hvalue _ _ _ hvisitValue, hkey _ _ _ hvisitKey]
  cases hobserve
  rfl

/-- Behind a phrase the literal around it has observed the keys of the phrase, and all else on the stack is as before. -/
theorem hashes_run (p : Phrase) : ∀ a r a', analysis.run p a = .ok (r, a') →
    a'.hashes = p.ownKeys.foldl HashTracker.observe a.hashes := by
  induction p using Phrase.partsInduction with
  | step p ih =>
    intro a r a' hrun
    obtain ⟨bindings, a₁, hthrough, hleave⟩ := Pass.run_eq_ok.mp hrun
    -- A literal takes its own frame off again, pairs show their keys to it, and no other phrase has pairs for a part.
    by_cases hhash : ∃ context ps brace span, p = .expr context (.hash ps brace span)
    · obtain ⟨context, ps, brace, span, rfl⟩ := hhash
      exact (leave_hash (frames_through_hash (ih _ List.mem_cons_self) hthrough) hleave).1
    by_cases hpairs : ∃ ps, p = .pairs ps
    · obtain ⟨ps, rfl⟩ := hpairs
      obtain ⟨⟨⟩, _, hvisit, hreturn⟩ := bind_eq_ok.mp hrun
      cases hreturn
      cases ps with
      | nil =>
        cases hvisit
        rfl
      | cons pair rest =>
        apply hashes_walkPairs_cons (ih (.expr none pair.1) (by simp [Phrase.parts]))
          (ih (.expr none pair.2) (by simp [Phrase.parts])) ?_ hvisit
        intro a a' hrest
        apply ih (.pairs rest) (by simp [Phrase.parts]) a .value a'
        exact bind_eq_ok.mpr ⟨(), a', hrest, rfl⟩
    · simp only [not_exists] at hhash hpairs
      have hparts : ∀ q ∈ p.parts, ∀ a r a', analysis.run q a = .ok (r, a') → a'.hashes = a.hashes := by
        intro q hq a r a' hrun
        rw [ih q hq a r a' hrun, Phrase.ownKeys_of_mem_parts hhash hpairs hq, List.foldl_nil]
      rw [hashes_leavePhrase hhash hleave, hashes_through hhash hpairs hparts (Nat.le_refl _) hthrough,
        Phrase.ownKeys_of_ne_pairs hpairs, List.foldl_nil]

end Analyzer

/-! ### The literals of a program -/

/-- The hash literal that is left at a moment. -/
def Moment.hash? (m : Moment) : Option HashSite :=
  match m.phrase, m.done with
  | .expr _ (.hash pairs brace _), 1 => some ⟨m.path, pairs, brace⟩
  | _, _ => none

theorem Moment.hash?_eq_some {m : Moment} {h : HashSite} : m.hash? = some h ↔
    ∃ context span, m = ⟨h.path, .expr context (.hash h.pairs h.brace span), 1⟩ := by
  obtain ⟨path, p, i⟩ := m
  constructor
  · intro hm
    unfold hash? at hm
    split at hm
    case h_1 context pairs brace span hp hi =>
      cases hm
      cases hp
      cases hi
      exact ⟨context, span, rfl⟩
    case h_2 => cases hm
  · rintro ⟨context, span, heq⟩
    cases heq
    rfl

namespace Program

variable (program : Program)

/-- The hash literals of a program, in the order in which they end. -/
def hashLiterals : List HashSite := program.moments.filterMap Moment.hash?

theorem mem_hashLiterals {h : HashSite} : h ∈ program.hashLiterals ↔
    ∃ context span, program.phraseAt h.path = some (.expr context (.hash h.pairs h.brace span)) := by
  rw [hashLiterals, List.mem_filterMap]
  constructor
  · rintro ⟨m, hm, hhash⟩
    obtain ⟨context, span, rfl⟩ := Moment.hash?_eq_some.mp hhash
    exact ⟨context, span, (mem_moments.mp hm).1⟩
  · rintro ⟨context, span, hphrase⟩
    exact ⟨_, mem_moments.mpr ⟨hphrase, Nat.le_refl 1⟩, Moment.hash?_eq_some.mpr ⟨context, span, rfl⟩⟩

theorem nodup_hashLiterals : (program.hashLiterals.map HashSite.path).Nodup := by
  apply program.nodup_paths fun _ => 1
  intro m h hhash
  obtain ⟨context, span, rfl⟩ := Moment.hash?_eq_some.mp hhash
  exact ⟨rfl, rfl⟩

end Program

def HashSite.errors (hs : List HashSite) : List CompilationError :=
  (hs.filter (·.Mixed)).map fun h => .inconsistentHashKeys h.brace

theorem HashSite.errors_concat (hs : List HashSite) (h : HashSite) :
    errors (hs ++ [h]) = errors hs ++ if h.Mixed then [.inconsistentHashKeys h.brace] else [] := by
  rw [errors, List.filter_append, List.map_append, errors]
  by_cases hmixed : h.Mixed <;> simp [hmixed]

theorem Analyzer.isHashKeys_eq_false_of_isScoping (e : CompilationError) (he : e.isScoping = true) :
    e.isHashKeys = false := by
  cases e <;> trivial

/-- At every moment of analysis the literals that have ended are reported if their keys are mixed. -/
theorem Analyzer.carries_hashes (program : Program) : analysis.Carries program.root .initial fun found a =>
    a.errors.toList.filter (·.isHashKeys) = HashSite.errors (found.filterMap Moment.hash?) where
  enter := by
    intro path p a i bindings a₁ a₂ found hreach hi hthrough henter h
    have hnone : Moment.hash? ⟨path, p, i⟩ = none := by
      rw [Option.eq_none_iff_forall_ne_some]
      intro c hhash
      obtain ⟨context, span, heq⟩ := Moment.hash?_eq_some.mp hhash
      cases heq
      exact Nat.lt_irrefl 1 hi
    rw [List.filterMap_append, List.filterMap_cons_none hnone, List.filterMap_nil, List.append_nil, ← h]
    refine Silent.enterPart isHashKeys_eq_false_of_isScoping ?_ a₁ () a₂ henter
    intro _ _ _ _ _ _ e he
    cases e <;> trivial
  leave := by
    intro path p a bindings a₁ r a₂ found hreach hthrough hleave h
    rw [List.filterMap_append]
    cases hhash : Moment.hash? ⟨path, p, p.parts.length⟩ with
    | none =>
      rw [List.filterMap_cons_none hhash, List.filterMap_nil, List.append_nil, ← h]
      refine Silent.leavePhrase isHashKeys_eq_false_of_isScoping ?_ bindings a₁ r a₂ hleave
      rintro context ps brace span rfl
      cases hhash
    | some literal =>
      rw [List.filterMap_cons_some hhash, List.filterMap_nil, HashSite.errors_concat, ← h]
      obtain ⟨context, span, heq⟩ := Moment.hash?_eq_some.mp hhash
      cases heq
      have hframes : a₁.hashes.frames =
          ⟨some literal.brace, literal.keys.foldl KeyType.refine .unknown⟩ :: a.hashes.frames :=
        frames_through_hash (hashes_run _) hthrough
      rw [(leave_hash hframes hleave).2, List.filter_append]
      simp only [literal.foldl_keys, Option.getD_some]
      by_cases hmixed : literal.Mixed
      · rw [if_pos hmixed]
        rfl
      · rw [if_neg hmixed]
        rfl

/-- Analysis never fails, and it reports a hash literal, at its brace, if and only if its keys are mixed. -/
theorem hash_keys_checked_exactly (options : AnalysisOptions) (program : Program) : ∃ result,
    analyze options program = .ok result ∧
      result.errors.filter (·.isHashKeys) =
        (program.hashLiterals.filter (·.Mixed)).map (fun h => .inconsistentHashKeys h.brace) ∧
      (∀ h, h ∈ program.hashLiterals ↔
        ∃ context span, program.phraseAt h.path = some (.expr context (.hash h.pairs h.brace span))) ∧
      (program.hashLiterals.map HashSite.path).Nodup ∧
      ∀ h h' : HashSite, h.keys.Perm h'.keys → (h.Mixed ↔ h'.Mixed) := by
  have hroot : program.phraseAt [] = some program.root := rfl
  obtain ⟨r, a, hrun, -⟩ := Analyzer.Knows.run program.root hroot (.initial program)
  have hreports := (Analyzer.carries_hashes program).run_root rfl hrun
  obtain ⟨result, hanalyze, herrors⟩ := exists_analyze_of_run options hrun
  refine ⟨result, hanalyze, ?_, fun _ => program.mem_hashLiterals, program.nodup_hashLiterals,
    fun _ _ => HashSite.Mixed.perm⟩
  rw [herrors _ fun _ => rfl]
  exact hreports

/-- A literal with integer keys, in a key of which stands a literal with mixed keys, in the value of a third one. -/
def nestedLiterals : Program :=
  let mixed : Expr := .hash [(.unary .neg (.int 1 ⟨1, 9, 1⟩) ⟨1, 8, 2⟩, .int 2 ⟨1, 12, 1⟩),
    (.string "a" ⟨1, 15, 3⟩, .int 3 ⟨1, 20, 1⟩)] ⟨1, 7, 1⟩ ⟨1, 7, 15⟩
  let strings : Expr := .hash [(.string "b" ⟨1, 25, 3⟩, mixed), (.paren (.string "c" ⟨1, 31, 3⟩) ⟨1, 30, 5⟩, mixed)]
    ⟨1, 24, 1⟩ ⟨1, 24, 20⟩
  ⟨[.exprStmt (.hash [(.int 0 ⟨1, 2, 1⟩, strings), (.int 1 ⟨1, 50, 1⟩, .hash [] ⟨1, 53, 1⟩ ⟨1, 53, 2⟩)] ⟨1, 1, 1⟩ ⟨1, 1, 60⟩)
    ⟨1, 1, 61⟩], ⟨1, 1, 61⟩⟩

theorem hash_keys_checked_nestedLiterals :
    (nestedLiterals.hashLiterals.filter (·.Mixed)).map HashSite.brace = [⟨1, 7, 1⟩, ⟨1, 7, 1⟩] := by
  obtain ⟨result, hanalyze, herrors, -⟩ := hash_keys_checked_exactly {} nestedLiterals
  have hresult : analyze {} nestedLiterals =
      .ok ⟨[.inconsistentHashKeys ⟨1, 7, 1⟩, .inconsistentHashKeys ⟨1, 7, 1⟩], []⟩ := rfl
  rw [hresult] at hanalyze
  cases hanalyze
  have hinjective : Function.Injective CompilationError.inconsistentHashKeys := by
    rintro _ _ ⟨⟩
    rfl
  apply hinjective.list_map
  rw [List.map_map]
  exact herrors.symm

end MonkeyLang
