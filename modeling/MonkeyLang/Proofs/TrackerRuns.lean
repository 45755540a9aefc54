import MonkeyLang.Proofs.HashKeys
/-!
# Runs on the stack of hash literals

Literals are entered and left, and in between anchors are set and keys observed, in any order. `HashTracker.run` makes such calls one
after the other and collects the frames of the literals that are left. What goes to which frame can be told from the calls alone:
`Within` reads off the anchors and keys of one literal from the calls between entering and leaving it, and passes over the literals
inside. Calls of this kind change the innermost frame and no other, so each literal is left with the frame that its own calls make up.
-/

namespace MonkeyLang

inductive TrackerCall where
  | enter
  | setAnchor (span : Span)
  | observe (key : KeyType)
  | leave
deriving DecidableEq, Repr

namespace TrackerCall

/-- Calls made while a literal is open, with the anchors and the keys that go to this literal. The literals inside are entered and left
again, and what is done in them does not count. -/
inductive Within : List TrackerCall → List Span → List KeyType → Prop
  | nil : Within [] [] []
  | setAnchor {span calls anchors keys} (h : Within calls anchors keys) :
      Within (.setAnchor span :: calls) (span :: anchors) keys
  | observe {key calls anchors keys} (h : Within calls anchors keys) : Within (.observe key :: calls) anchors (key :: keys)
  | literal {inside anchors' keys' calls anchors keys} (hinside : Within inside anchors' keys') (h : Within calls anchors keys) :
      Within (.enter :: (inside ++ .leave :: calls)) anchors keys

/-- Wherever a literal is left, more literals have been entered before than left. -/
def Matched (calls : List TrackerCall) : Prop :=
  ∀ n < calls.length, calls[n]? = some .leave → (calls.take n).count .leave < (calls.take n).count .enter

instance : DecidablePred Matched := fun _ => Nat.decidableBallLT _ _

/-! ### Calls that belong together -/

namespace Within

variable {calls calls' : List TrackerCall} {anchors anchors' : List Span} {keys keys' : List KeyType}

theorem append (h : Within calls anchors keys) (h' : Within calls' anchors' keys') :
    Within (calls ++ calls') (anchors ++ anchors') (keys ++ keys') := by
  induction h with
  | nil => exact h'
  | setAnchor _ ih => exact .setAnchor ih
  | observe _ ih => exact .observe ih
  | literal hinside _ _ ih =>
    rw [List.cons_append, List.append_assoc, List.cons_append]
    exact .literal hinside ih

theorem count_leave (h : Within calls anchors keys) : calls.count .leave = calls.count .enter := by
  induction h with
  | nil => rfl
  | setAnchor _ ih | observe _ ih => simpa using ih
  | literal _ _ ihinside ih =>
    simp only [ne_eq, reduceCtorEq, not_false_eq_true, List.count_cons_of_ne, List.count_append, List.count_cons_self, ihinside, ih]
    omega

end Within

namespace Matched

variable {before after : List TrackerCall}

theorem of_append (h : Matched (before ++ after)) : Matched before := by
  intro n hn hleave
  have hmatched := h n (by rw [List.length_append]; omega)
  rw [List.getElem?_append_left hn, List.take_append_of_le_length (Nat.le_of_lt hn)] at hmatched
  exact hmatched hleave

theorem count_lt (h : Matched (before ++ .leave :: after)) : before.count .leave < before.count .enter := by
  simpa using h before.length (by simp) (by simp)

end Matched

/-- Where more literals have been entered than left, one is open, and the calls since it was entered are calls within it. -/
theorem exists_within {calls : List TrackerCall} (h : calls.count .leave < calls.count .enter) :
    ∃ (outside inside : List TrackerCall) (anchors : List Span) (keys : List KeyType),
      calls = outside ++ .enter :: inside ∧ Within inside anchors keys := by
  induction hlength : calls.length using Nat.strong_induction_on generalizing calls with
  | _ length ih =>
    subst hlength
    -- The last call decides. If it leaves a literal, that one is inside the literal that was open when it was entered.
    rcases List.eq_nil_or_concat calls with rfl | ⟨before, call, rfl⟩
    · exact absurd h (Nat.lt_irrefl _)
    · rw [List.concat_eq_append] at h ih ⊢
      have hshorter : before.length < (before ++ [call]).length := by simp
      cases call with
      | enter => exact ⟨before, [], [], [], rfl, .nil⟩
      | setAnchor span =>
        have hbefore : before.count .leave < before.count .enter := by simpa using h
        obtain ⟨outside, inside, anchors, keys, rfl, hinside⟩ := ih _ hshorter hbefore rfl
        exact ⟨outside, _, _, _, List.append_assoc _ _ _, hinside.append (.setAnchor .nil)⟩
      | observe key =>
        have hbefore : before.count .leave < before.count .enter := by simpa using h
        obtain ⟨outside, inside, anchors, keys, rfl, hinside⟩ := ih _ hshorter hbefore rfl
        exact ⟨outside, _, _, _, List.append_assoc _ _ _, hinside.append (.observe .nil)⟩
      | leave =>
        have hbefore : before.count .leave + 1 < before.count .enter := by simpa using h
        obtain ⟨outer, inside, anchors, keys, rfl, hinside⟩ := ih _ hshorter (Nat.lt_of_succ_lt hbefore) rfl
        have houter : outer.count .leave < outer.count .enter := by
          have hcount := hinside.count_leave
          have hparts : outer.count .leave + inside.count .leave + 1 < outer.count .enter + (inside.count .enter + 1) := by
            simpa using hbefore
          omega
        rw [List.length_append] at hshorter
        obtain ⟨outside, around, anchors', keys', rfl, haround⟩ := ih outer.length (by omega) houter rfl
        refine ⟨outside, _, _, _, ?_, haround.append (.literal hinside .nil)⟩
        simp only [List.append_assoc, List.cons_append]

end TrackerCall

open TrackerCall (Matched Within exists_within)

/-! ### Runs -/

namespace HashTracker

/-- Makes some calls: the frames of the literals that were left, in order, and the tracker behind the calls. Nothing comes of calls
that leave a literal where none is open. -/
def run : List TrackerCall → HashTracker → Option (List HashFrame × HashTracker)
  | [], t => some ([], t)
  | .enter :: calls, t => run calls t.enter
  | .setAnchor span :: calls, t => run calls (t.setAnchor span)
  | .observe key :: calls, t => run calls (t.observe key)
  | .leave :: calls, t => t.leave?.bind fun (frame, t) => (run calls t).map fun (frames, t) => (frame :: frames, t)

variable {t t' : HashTracker} {calls calls' : List TrackerCall} {frames : List HashFrame}

theorem run_append (calls calls' : List TrackerCall) (t : HashTracker) :
    run (calls ++ calls') t =
      (run calls t).bind fun (frames, t) => (run calls' t).map fun (frames', t) => (frames ++ frames', t) := by
  induction calls generalizing t with
  | nil => simp [run]
  | cons call calls ih =>
    cases call with
    | enter | setAnchor | observe => exact ih _
    | leave =>
      rw [List.cons_append, run, run]
      cases t.leave? with
      | none => rfl
      | some left =>
        simp only [Option.bind_some, ih]
        cases run calls left.2 with
        | none => rfl
        | some found => simp [Function.comp_def]

/-- Calls that come to something, in two parts. -/
theorem exists_of_run_append (h : run (calls ++ calls') t = some (frames, t')) :
    ∃ first u second, run calls t = some (first, u) ∧ run calls' u = some (second, t') ∧ frames = first ++ second := by
  rw [run_append] at h
  obtain ⟨⟨first, u⟩, hfirst, h⟩ := Option.bind_eq_some_iff.mp h
  obtain ⟨⟨second, v⟩, hsecond, heq⟩ := Option.map_eq_some_iff.mp h
  cases heq
  exact ⟨first, u, second, hfirst, hsecond, rfl⟩

theorem depth_of_leave? {frame : HashFrame} (h : t.leave? = some (frame, t')) : t.depth = t'.depth + 1 := by
  unfold leave? at h
  split at h
  case h_1 => cases h
  case h_2 hframes =>
    cases h
    rw [depth, hframes, List.length_cons, depth]

/-- A frame is collected for each literal that is left, and the others are still open. -/
theorem depth_of_run (h : run calls t = some (frames, t')) :
    frames.length = calls.count .leave ∧ t'.depth + calls.count .leave = t.depth + calls.count .enter := by
  induction calls generalizing t frames with
  | nil =>
    cases h
    exact ⟨rfl, rfl⟩
  | cons call calls ih =>
    cases call with
    | enter =>
      obtain ⟨hlength, hdepth⟩ := ih h
      rw [depth_enter] at hdepth
      simp only [ne_eq, reduceCtorEq, not_false_eq_true, List.count_cons_of_ne, List.count_cons_self]
      omega
    | setAnchor span =>
      obtain ⟨hlength, hdepth⟩ := ih h
      rw [depth_setAnchor] at hdepth
      simpa using ⟨hlength, hdepth⟩
    | observe key =>
      obtain ⟨hlength, hdepth⟩ := ih h
      rw [depth_observe] at hdepth
      simpa using ⟨hlength, hdepth⟩
    | leave =>
      obtain ⟨⟨frame, u⟩, hleave, h⟩ := Option.bind_eq_some_iff.mp h
      obtain ⟨⟨rest, v⟩, hrest, heq⟩ := Option.map_eq_some_iff.mp h
      cases heq
      obtain ⟨hlength, hdepth⟩ := ih hrest
      rw [depth_of_leave? hleave]
      simp only [ne_eq, reduceCtorEq, not_false_eq_true, List.count_cons_of_ne, List.count_cons_self, List.length_cons]
      omega

/-- Where every literal that is left has been entered before, the calls come to something. -/
theorem exists_run_of_matched (h : Matched calls) (t : HashTracker) : ∃ frames t', run calls t = some (frames, t') := by
  induction calls using List.reverseRecOn with
  | nil => exact ⟨[], t, rfl⟩
  | append_singleton before call ih =>
    obtain ⟨frames, u, hrun⟩ := ih h.of_append
    rw [run_append, hrun]
    cases call with
    | enter | setAnchor | observe => exact ⟨_, _, rfl⟩
    | leave =>
      have hlt := h.count_lt
      obtain ⟨-, hdepth⟩ := depth_of_run hrun
      obtain ⟨frame, v, hleave, -⟩ := exists_leave? (t := u) (n := u.depth - 1) (by omega)
      exact ⟨frames ++ [frame], v, by simp [run, hleave]⟩

/-- Calls within a literal change its frame, and leave the frames around it as they are. -/
theorem run_of_within {anchors : List Span} {keys : List KeyType} (h : Within calls anchors keys) (frame : HashFrame)
    (outer : List HashFrame) : ∃ frames, run calls ⟨frame :: outer⟩ =
      some (frames, ⟨⟨anchors.getLast?.or frame.anchor, keys.foldl KeyType.refine frame.keys⟩ :: outer⟩) := by
  induction h generalizing frame outer with
  | nil => exact ⟨[], rfl⟩
  | @setAnchor span calls anchors keys _ ih =>
    obtain ⟨frames, hrun⟩ := ih { frame with anchor := some span } outer
    refine ⟨frames, hrun.trans ?_⟩
    cases anchors <;> simp [List.getLast?_cons]
  | observe _ ih => exact ih _ outer
  | @literal _ anchors' keys' _ _ _ _ _ ihinside ih =>
    obtain ⟨inner, hinside⟩ := ihinside {} (frame :: outer)
    obtain ⟨frames, hrun⟩ := ih frame outer
    refine ⟨inner ++ ⟨anchors'.getLast?.or none, keys'.foldl KeyType.refine .unknown⟩ :: frames, ?_⟩
    simp only [run, enter, run_append, hinside, leave?, Option.bind_some, hrun, Option.map_some]

/-- The frame that a literal is left with. -/
theorem frame_of_run {outside inside after : List TrackerCall} {anchors : List Span} {keys : List KeyType}
    (h : run (outside ++ .enter :: (inside ++ .leave :: after)) t = some (frames, t')) (hinside : Within inside anchors keys) :
    frames[(outside ++ inside).count .leave]? = some ⟨anchors.getLast?, keys.foldl KeyType.refine .unknown⟩ := by
  obtain ⟨first, u, rest, hfirst, hrest, rfl⟩ := exists_of_run_append h
  obtain ⟨second, v, rest, hsecond, hrest, rfl⟩ := exists_of_run_append (t := u.enter) hrest
  obtain ⟨inner, hwithin⟩ := run_of_within hinside {} u.frames
  cases hsecond.symm.trans hwithin
  obtain ⟨⟨third, w⟩, -, heq⟩ := Option.map_eq_some_iff.mp hrest
  cases heq
  rw [List.count_append, ← (depth_of_run hfirst).1, ← (depth_of_run hsecond).1]
  simp

end HashTracker

/-! ### What keys come to -/

namespace KeyType

variable {keys keys' : List KeyType}

theorem foldl_cons_refine {key : KeyType} (h : .unknown ∉ key :: keys) :
    (key :: keys).foldl refine .unknown = if ∀ k ∈ keys, k = key then key else .complex := by
  have hkey : key ≠ .unknown := by
    rintro rfl
    exact h List.mem_cons_self
  rw [List.foldl_cons, refine, foldl_refine hkey]

theorem foldl_refine_eq_iff {t : KeyType} (ht : t ≠ .unknown) (ht' : t ≠ .complex) (h : .unknown ∉ keys) :
    keys.foldl refine .unknown = t ↔ keys ≠ [] ∧ ∀ k ∈ keys, k = t := by
  cases keys with
  | nil => exact iff_of_false (Ne.symm ht) fun hkeys => hkeys.1 rfl
  | cons key rest =>
    rw [foldl_cons_refine h, List.forall_mem_cons]
    split
    case isTrue hall =>
      constructor
      · rintro rfl
        exact ⟨List.cons_ne_nil _ _, rfl, hall⟩
      · exact fun hkeys => hkeys.2.1
    case isFalse hall =>
      refine iff_of_false (Ne.symm ht') ?_
      rintro ⟨-, rfl, hrest⟩
      exact hall hrest

theorem foldl_refine_eq_unknown_iff (h : .unknown ∉ keys) : keys.foldl refine .unknown = .unknown ↔ keys = [] := by
  cases keys with
  | nil => exact iff_of_true rfl rfl
  | cons key rest =>
    refine iff_of_false ?_ (List.cons_ne_nil _ _)
    rw [foldl_cons_refine h]
    split
    · rintro rfl
      exact h List.mem_cons_self
    · decide

theorem refine_right_comm {a b : KeyType} (ha : a ≠ .unknown) (hb : b ≠ .unknown) (t : KeyType) :
    (t.refine a).refine b = (t.refine b).refine a := by
  revert ha hb
  cases t <;> cases a <;> cases b <;> decide

theorem foldl_refine_perm (h : .unknown ∉ keys) (hperm : keys.Perm keys') :
    keys.foldl refine .unknown = keys'.foldl refine .unknown :=
  hperm.foldl_eq' (fun _ ha _ hb => refine_right_comm (ne_of_mem_of_not_mem ha h) (ne_of_mem_of_not_mem hb h)) _

end KeyType

/-- In calls that leave only what they have entered, every literal is left with the frame that its own calls make up: the last anchor
that was set within it, and the keys that were observed within it, one after the other. Keys that are known come to integers or
strings if there are some and all of them are, to nothing if there are none, and to no type otherwise, in whatever order they come. -/
theorem hash_frames_apart {calls : List TrackerCall} (h : Matched calls) (t : HashTracker) :
    (∃ frames t', t.run calls = some (frames, t') ∧ frames.length = calls.count .leave ∧
      (∀ before after : List TrackerCall, calls = before ++ .leave :: after →
        ∃ (outside inside : List TrackerCall) (anchors : List Span) (keys : List KeyType),
          before = outside ++ .enter :: inside ∧ Within inside anchors keys) ∧
      ∀ (outside inside after : List TrackerCall) (anchors : List Span) (keys : List KeyType),
        calls = outside ++ .enter :: (inside ++ .leave :: after) → Within inside anchors keys →
        frames[(outside ++ inside).count .leave]? = some ⟨anchors.getLast?, keys.foldl KeyType.refine .unknown⟩) ∧
    ∀ keys : List KeyType, .unknown ∉ keys →
      (keys.foldl KeyType.refine .unknown = .integer ↔ keys ≠ [] ∧ ∀ k ∈ keys, k = .integer) ∧
      (keys.foldl KeyType.refine .unknown = .string ↔ keys ≠ [] ∧ ∀ k ∈ keys, k = .string) ∧
      (keys.foldl KeyType.refine .unknown = .unknown ↔ keys = []) ∧
      (keys.foldl KeyType.refine .unknown = .complex ↔ ¬ (∀ k ∈ keys, k = .integer) ∧ ¬ ∀ k ∈ keys, k = .string) ∧
      ∀ keys', keys.Perm keys' → keys.foldl KeyType.refine .unknown = keys'.foldl KeyType.refine .unknown := by
  refine ⟨?_, fun keys hkeys => ?_⟩
  · obtain ⟨frames, t', hrun⟩ := HashTracker.exists_run_of_matched h t
    refine ⟨frames, t', hrun, (HashTracker.depth_of_run hrun).1, ?_, ?_⟩
    · rintro before after rfl
      exact exists_within h.count_lt
    · rintro outside inside after anchors keys rfl hinside
      exact HashTracker.frame_of_run hrun hinside
  · refine ⟨?_, ?_, KeyType.foldl_refine_eq_unknown_iff hkeys, KeyType.foldl_refine_unknown hkeys, fun _ =>
      KeyType.foldl_refine_perm hkeys⟩
    · exact KeyType.foldl_refine_eq_iff (by decide) (by decide) hkeys
    · exact KeyType.foldl_refine_eq_iff (by decide) (by decide) hkeys

/-- The calls for a literal with strings as keys that has one with mixed keys inside. -/
def nestedCalls : List TrackerCall :=
  [.enter, .setAnchor ⟨1, 1, 1⟩, .observe .string, .enter, .setAnchor ⟨1, 9, 1⟩, .setAnchor ⟨1, 10, 1⟩, .observe .integer,
    .observe .string, .leave, .observe .string, .leave]

theorem hash_frames_apart_nestedCalls :
    Matched nestedCalls ∧ ∃ frames t', HashTracker.empty.run nestedCalls = some (frames, t') ∧ frames.length = 2 ∧
      frames[0]? = some ⟨some ⟨1, 10, 1⟩, .complex⟩ ∧ frames[1]? = some ⟨some ⟨1, 1, 1⟩, .string⟩ := by
  have hmatched : Matched nestedCalls := by decide
  obtain ⟨⟨frames, t', hrun, hlength, -, hframe⟩, -⟩ := hash_frames_apart hmatched .empty
  have hinner : Within [.setAnchor ⟨1, 9, 1⟩, .setAnchor ⟨1, 10, 1⟩, .observe .integer, .observe .string] _ _ :=
    .setAnchor (.setAnchor (.observe (.observe .nil)))
  have houter : Within (.setAnchor ⟨1, 1, 1⟩ :: .observe .string :: .enter :: (_ ++ [.leave, .observe .string])) _ _ :=
    .setAnchor (.observe (.literal hinner (.observe .nil)))
  exact ⟨hmatched, frames, t', hrun, hlength, hframe [.enter, .setAnchor ⟨1, 1, 1⟩, .observe .string] _ _ _ _ rfl hinner,
    hframe [] _ [] _ _ rfl houter⟩

end MonkeyLang
