import Mathlib.Data.List.Nodup
import MonkeyLang.Proofs.Decoding
/-!
# Annotated code

A property of every path through some code is proved by annotating the code: each instruction gets a state, and each
instruction has to lead from its own state to the states of those that may come next. `Annotates` says this of a piece of
code whose exits, the places behind it that control may go to, are given with the states expected there, and `Flow` that
there are such states. Pieces are put together with `Flow.append`, where the first piece leads only to what the second one
starts with; `Flow.branch` and `Flow.function` do the same for the two forms of code that jump.
-/

namespace MonkeyLang

namespace Opcode

/-- Where the machine may go on behind an instruction, when the next one is at `next`. -/
def successors (op : Opcode) (operands : List Nat) (next : Nat) : List Nat :=
  match op with
  | jump => operands
  | jumpIfFalse => next :: operands
  | returnValue | returnNull => []
  | _ => [next]

/-- The entry of the body of a closure that an instruction makes. -/
def entries (op : Opcode) (operands : List Nat) : List Nat :=
  match op with
  | closure => operands.take 1
  | _ => []

end Opcode

namespace Instruction

def successors (i : Instruction) (next : Nat) : List Nat := i.opcode.successors i.operands next

def entries (i : Instruction) : List Nat := i.opcode.entries i.operands

/-- Whether the machine always goes on with the next instruction, and no body is entered later. -/
def Plain (i : Instruction) : Prop := (∀ next, i.successors next = [next]) ∧ i.entries = []

end Instruction

/-- What annotations have to respect. -/
structure Transfer (State : Type) where
  /-- Whether an instruction may be executed in a state. -/
  allows : Instruction → State → Prop
  /-- Whether a state may be expected behind an instruction that is executed in a state. -/
  leads : Instruction → State → State → Prop
  /-- Whether a state may be expected at the entry of a closure that is made in a state. -/
  enters : Instruction → State → State → Prop

/-- An instruction at an offset, with the state it is executed in. -/
structure Point (State : Type) where
  offset : Nat
  instruction : Instruction
  state : State

variable {State : Type} {T : Transfer State}

/-- The offsets that a state is known for: those of the points, and the exits. -/
def known (points : List (Point State)) (exits : List (Nat × State)) : List (Nat × State) :=
  (points.map fun a => (a.offset, a.state)) ++ exits

theorem mem_known {points : List (Point State)} {exits : List (Nat × State)} {x : Nat × State} :
    x ∈ known points exits ↔ (∃ a ∈ points, (a.offset, a.state) = x) ∨ x ∈ exits := by
  simp [known]

/-- A point leads to known states only. -/
structure Point.Sound (T : Transfer State) (states : List (Nat × State)) (a : Point State) : Prop where
  allows : T.allows a.instruction a.state
  leads : ∀ target ∈ a.instruction.successors (a.offset + a.instruction.size),
    ∃ s, (target, s) ∈ states ∧ T.leads a.instruction a.state s
  enters : ∀ entry ∈ a.instruction.entries, ∃ s, (entry, s) ∈ states ∧ T.enters a.instruction a.state s

theorem Point.Sound.mono {states states' : List (Nat × State)} {a : Point State} (h : a.Sound T states)
    (hsub : ∀ x ∈ states, x ∈ states') : a.Sound T states' where
  allows := h.allows
  leads target htarget := by
    obtain ⟨s, hmem, hleads⟩ := h.leads target htarget
    exact ⟨s, hsub _ hmem, hleads⟩
  enters entry hentry := by
    obtain ⟨s, hmem, henters⟩ := h.enters entry hentry
    exact ⟨s, hsub _ hmem, henters⟩

/-- The points annotate the code at an offset, which is entered in a state and left at the exits. -/
structure Annotates (T : Transfer State) (points : List (Point State)) (offset : Nat) (code : List CodeLine)
    (state : State) (exits : List (Nat × State)) : Prop where
  covers : points.map (fun a => (a.offset, a.instruction)) = located offset code
  starts : (offset, state) ∈ known points exits
  sound : ∀ a ∈ points, a.Sound T (known points exits)

/-- The code at an offset can be annotated. -/
def Flow (T : Transfer State) (offset : Nat) (code : List CodeLine) (state : State) (exits : List (Nat × State)) :
    Prop :=
  ∃ points, Annotates T points offset code state exits

/-! ### Putting pieces together -/

theorem known_subset {A B : List (Point State)} {E exits : List (Nat × State)} (hsub : ∀ a ∈ A, a ∈ B)
    (hE : ∀ x ∈ E, x ∈ known B exits) : ∀ x ∈ known A E, x ∈ known B exits := by
  intro x hx
  rcases mem_known.mp hx with ⟨a, ha, rfl⟩ | hx
  · exact mem_known.mpr (.inl ⟨a, hsub a ha, rfl⟩)
  · exact hE x hx

theorem known_append_right {A B : List (Point State)} {exits : List (Nat × State)} {x : Nat × State}
    (hx : x ∈ known B exits) : x ∈ known (A ++ B) exits :=
  known_subset (fun _ => List.mem_append_right A) (fun _ hx => mem_known.mpr (.inr hx)) x hx

/-- Two pieces, one behind the other, whose exits lie in the two pieces or are exits of the whole. -/
theorem Annotates.join {A B : List (Point State)} {offset middle : Nat} {c d : List CodeLine} {state next : State}
    {E F exits : List (Nat × State)} (hA : Annotates T A offset c state E) (hB : Annotates T B middle d next F)
    (hmiddle : middle = offset + codeSize c) (hE : ∀ x ∈ E, x ∈ known (A ++ B) exits)
    (hF : ∀ x ∈ F, x ∈ known (A ++ B) exits) : Annotates T (A ++ B) offset (c ++ d) state exits := by
  have hknownA := known_subset (fun _ => List.mem_append_left B) hE
  have hknownB := known_subset (fun _ => List.mem_append_right A) hF
  refine ⟨?_, hknownA _ hA.starts, ?_⟩
  · rw [List.map_append, hA.covers, hB.covers, located_append, hmiddle]
  · intro a ha
    rcases List.mem_append.mp ha with ha | ha
    · exact (hA.sound a ha).mono hknownA
    · exact (hB.sound a ha).mono hknownB

/-- One instruction in front of code that knows the states it leads to. -/
theorem Annotates.cons {A : List (Point State)} {offset middle line : Nat} {i : Instruction} {code : List CodeLine}
    {state next : State} {exits : List (Nat × State)} (hA : Annotates T A middle code next exits)
    (hmiddle : middle = offset + i.size) (hsound : Point.Sound T (known A exits) ⟨offset, i, state⟩) :
    Annotates T (⟨offset, i, state⟩ :: A) offset (⟨line, i⟩ :: code) state exits where
  covers := by simp [hA.covers, hmiddle]
  starts := by simp [known]
  sound a ha := by
    rcases List.mem_cons.mp ha with rfl | ha
    · exact hsound.mono fun x hx => known_append_right (A := [_]) hx
    · exact (hA.sound a ha).mono fun x hx => known_append_right (A := [_]) hx

namespace Flow

theorem nil (offset : Nat) (state : State) : Flow T offset [] state [(offset, state)] :=
  ⟨[], rfl, by simp [known], fun a ha => by simp at ha⟩

/-- One instruction, with the states it leads to as its exits. -/
theorem instruction {offset line : Nat} {i : Instruction} {state : State} {exits : List (Nat × State)}
    (hsound : Point.Sound T exits ⟨offset, i, state⟩) : Flow T offset [⟨line, i⟩] state exits := by
  refine ⟨[⟨offset, i, state⟩], rfl, by simp [known], ?_⟩
  intro a ha
  obtain rfl := List.mem_singleton.mp ha
  exact hsound.mono fun x hx => mem_known.mpr (.inr hx)

/-- One instruction behind which the machine always goes on with the next one. -/
theorem plain {offset line : Nat} {i : Instruction} {state next : State} (hplain : i.Plain)
    (hallows : T.allows i state) (hleads : T.leads i state next) :
    Flow T offset [⟨line, i⟩] state [(offset + i.size, next)] := by
  refine instruction ⟨hallows, ?_, ?_⟩
  · intro target htarget
    rw [hplain.1, List.mem_singleton] at htarget
    exact ⟨next, by simp [htarget], hleads⟩
  · intro entry hentry
    simp [hplain.2] at hentry

/-- Two pieces of which the first one leads to the start of the second one. -/
theorem append {offset middle : Nat} {c d : List CodeLine} {state next : State} {exits : List (Nat × State)}
    (hc : Flow T offset c state [(middle, next)]) (hd : Flow T middle d next exits)
    (hmiddle : middle = offset + codeSize c) : Flow T offset (c ++ d) state exits := by
  obtain ⟨A, hA⟩ := hc
  obtain ⟨B, hB⟩ := hd
  refine ⟨A ++ B, hA.join hB hmiddle ?_ fun x hx => mem_known.mpr (.inr hx)⟩
  intro x hx
  rw [List.mem_singleton.mp hx]
  exact known_append_right hB.starts

/-- Another state is expected at the end of some code, which every way there leads to as well. -/
theorem exit {offset stop : Nat} {code : List CodeLine} {state last last' : State}
    (h : Flow T offset code state [(stop, last)]) (hstop : offset < stop)
    (hleads : ∀ i s, T.leads i s last → T.leads i s last') (henters : ∀ i s, T.enters i s last → T.enters i s last') :
    Flow T offset code state [(stop, last')] := by
  obtain ⟨points, hpoints⟩ := h
  refine ⟨points, hpoints.covers, ?_, fun a ha => ⟨(hpoints.sound a ha).allows, ?_, ?_⟩⟩
  · rcases mem_known.mp hpoints.starts with hpoint | hexit
    · exact mem_known.mpr (.inl hpoint)
    · have := (Prod.mk.inj (List.mem_singleton.mp hexit)).1
      omega
  · intro target htarget
    obtain ⟨s, hs, hlead⟩ := (hpoints.sound a ha).leads target htarget
    rcases mem_known.mp hs with hpoint | hexit
    · exact ⟨s, mem_known.mpr (.inl hpoint), hlead⟩
    · obtain ⟨rfl, rfl⟩ := Prod.mk.inj (List.mem_singleton.mp hexit)
      exact ⟨last', mem_known.mpr (.inr List.mem_cons_self), hleads _ _ hlead⟩
  · intro entry hentry
    obtain ⟨s, hs, henter⟩ := (hpoints.sound a ha).enters entry hentry
    rcases mem_known.mp hs with hpoint | hexit
    · exact ⟨s, mem_known.mpr (.inl hpoint), henter⟩
    · obtain ⟨rfl, rfl⟩ := Prod.mk.inj (List.mem_singleton.mp hexit)
      exact ⟨last', mem_known.mpr (.inr List.mem_cons_self), henters _ _ henter⟩

/-- A conditional: the first jump leads to the other branch, and the second one to the end. -/
theorem branch (skipLine leaveLine : Nat) {offset middle stop : Nat} {skip leave : UInt16} {c d e : List CodeLine}
    {state tested chosen left last : State} (hc : Flow T offset c state [(middle, tested)])
    (hmiddle : middle = offset + codeSize c) (hskip : T.allows (.jumpIfFalse skip) tested)
    (hchosen : T.leads (.jumpIfFalse skip) tested chosen) (hd : Flow T (middle + 3) d chosen [(stop, left)])
    (hstop : stop = middle + 3 + codeSize d) (hskipTarget : skip.toNat = stop + 3)
    (hleave : T.allows (.jump leave) left) (hlast : T.leads (.jump leave) left last)
    (he : Flow T (stop + 3) e chosen [(leave.toNat, last)]) :
    Flow T offset (c ++ ⟨skipLine, .jumpIfFalse skip⟩ :: (d ++ ⟨leaveLine, .jump leave⟩ :: e)) state
      [(leave.toNat, last)] := by
  obtain ⟨B, hB⟩ := hd
  obtain ⟨E, hE⟩ := he
  have hends : Annotates T (⟨stop, .jump leave, left⟩ :: E) stop (⟨leaveLine, .jump leave⟩ :: e) left
      [(leave.toNat, last)] := by
    refine hE.cons rfl ⟨hleave, ?_, by simp [Instruction.entries, Instruction.opcode, Opcode.entries]⟩
    intro target htarget
    obtain rfl := List.mem_singleton.mp htarget
    exact ⟨last, mem_known.mpr (.inr List.mem_cons_self), hlast⟩
  have hbranches : Annotates T (B ++ ⟨stop, .jump leave, left⟩ :: E) (middle + 3)
      (d ++ ⟨leaveLine, .jump leave⟩ :: e) chosen [(leave.toNat, last)] := by
    refine hB.join hends hstop ?_ fun x hx => mem_known.mpr (.inr hx)
    intro x hx
    rw [List.mem_singleton.mp hx]
    exact known_append_right hends.starts
  refine hc.append ⟨_, hbranches.cons rfl ⟨hskip, ?_, by simp [Instruction.entries, Instruction.opcode, Opcode.entries]⟩⟩
    hmiddle
  intro target htarget
  -- The machine goes on with the first branch, or with the other one, which starts behind the second jump.
  rcases List.mem_cons.mp htarget with rfl | htarget
  · exact ⟨chosen, hbranches.starts, hchosen⟩
  · obtain rfl := List.mem_singleton.mp htarget
    refine ⟨chosen, ?_, hchosen⟩
    rw [hskipTarget]
    exact known_append_right (known_append_right (A := [_]) hE.starts)

/-- A function: the jump leads over the body, which control enters only through the closure and never leaves. -/
theorem function (skipLine line : Nat) {offset middle : Nat} {after entry : UInt16} {params locals free : UInt8}
    {body loads : List CodeLine} {state skipped loaded last first : State}
    (hskip : T.allows (.jump after) state) (hskipped : T.leads (.jump after) state skipped)
    (hbody : Flow T (offset + 3) body first []) (hafter : after.toNat = offset + 3 + codeSize body)
    (hloads : Flow T after.toNat loads skipped [(middle, loaded)]) (hmiddle : middle = after.toNat + codeSize loads)
    (hallows : T.allows (.closure entry params locals free) loaded)
    (hleads : T.leads (.closure entry params locals free) loaded last)
    (henters : T.enters (.closure entry params locals free) loaded first) (hentry : entry.toNat = offset + 3) :
    Flow T offset (⟨skipLine, .jump after⟩ :: (body ++ loads ++ [⟨line, .closure entry params locals free⟩])) state
      [(middle + 6, last)] := by
  obtain ⟨B, hB⟩ := hbody
  have hmake : Flow T middle [⟨line, .closure entry params locals free⟩] loaded
      [(middle + 6, last), (entry.toNat, first)] := by
    refine instruction ⟨hallows, ?_, ?_⟩
    · intro target htarget
      obtain rfl := List.mem_singleton.mp htarget
      exact ⟨last, List.mem_cons_self, hleads⟩
    · intro target htarget
      obtain rfl := List.mem_singleton.mp htarget
      exact ⟨first, by simp, henters⟩
  obtain ⟨L, hL⟩ := hloads.append hmake hmiddle
  -- The entry of the closure is the start of the body.
  have hentries : ∀ x ∈ [(middle + 6, last), (entry.toNat, first)], x ∈ known (B ++ L) [(middle + 6, last)] := by
    intro x hx
    rcases List.mem_cons.mp hx with rfl | hx
    · exact mem_known.mpr (.inr List.mem_cons_self)
    · rw [List.mem_singleton.mp hx, hentry]
      exact known_subset (fun _ => List.mem_append_left L) (by simp) _ hB.starts
  have hrest := hB.join hL hafter (by simp) hentries
  rw [List.append_assoc]
  refine ⟨_, hrest.cons rfl ⟨hskip, ?_, by simp [Instruction.entries, Instruction.opcode, Opcode.entries]⟩⟩
  intro target htarget
  obtain rfl := List.mem_singleton.mp htarget
  exact ⟨skipped, known_subset (fun _ => List.mem_append_right B) hentries _ hL.starts, hskipped⟩

end Flow

/-! ### The states as a function of offsets -/

theorem fst_mem_located {points : List (Point State)} {offset : Nat} {code : List CodeLine} {state : State}
    {exits : List (Nat × State)} (h : Annotates T points offset code state exits) {a : Point State}
    (ha : a ∈ points) : (a.offset, a.instruction) ∈ located offset code := by
  rw [← h.covers]
  exact List.mem_map_of_mem ha

theorem exists_point {points : List (Point State)} {offset : Nat} {code : List CodeLine} {state : State}
    {exits : List (Nat × State)} (h : Annotates T points offset code state exits) {place : Nat} {i : Instruction}
    (hi : (place, i) ∈ located offset code) : ∃ a ∈ points, a.offset = place ∧ a.instruction = i := by
  rw [← h.covers, List.mem_map] at hi
  obtain ⟨a, ha, heq⟩ := hi
  exact ⟨a, ha, (Prod.mk.inj heq).1, (Prod.mk.inj heq).2⟩

theorem located_offsets_nodup (offset : Nat) (code : List CodeLine) : ((located offset code).map Prod.fst).Nodup := by
  induction code generalizing offset with
  | nil => simp
  | cons c code ih =>
    rw [located_cons, List.map_cons, List.nodup_cons]
    refine ⟨?_, ih _⟩
    intro hmem
    obtain ⟨⟨place, i⟩, hi, rfl⟩ := List.mem_map.mp hmem
    have := (bounds_of_mem_located hi).1
    have := c.instruction.size_pos
    simp only at *
    omega

/-- Code that is left at its end only has one state at each offset. -/
theorem Annotates.exists_assignment [Nonempty State] {points : List (Point State)} {offset : Nat}
    {code : List CodeLine} {state last : State}
    (h : Annotates T points offset code state [(offset + codeSize code, last)]) :
    ∃ assigned : Nat → State, ∀ x ∈ known points [(offset + codeSize code, last)], assigned x.1 = x.2 := by
  have hoffsets : (points.map fun a => (a.offset, a.state)).map Prod.fst = (located offset code).map Prod.fst := by
    rw [← h.covers, List.map_map, List.map_map]
    rfl
  have hnodup : ((known points [(offset + codeSize code, last)]).map Prod.fst).Nodup := by
    rw [known, List.map_append, hoffsets, List.map_singleton, ← List.concat_eq_append, List.nodup_concat]
    refine ⟨?_, located_offsets_nodup offset code⟩
    intro hmem
    obtain ⟨⟨place, i⟩, hi, heq⟩ := List.mem_map.mp hmem
    have := bounds_of_mem_located hi
    have := i.size_pos
    simp only at heq
    omega
  refine ⟨fun place => Classical.epsilon fun s => (place, s) ∈ known points [(offset + codeSize code, last)], ?_⟩
  intro x hx
  have hchosen := Classical.epsilon_spec (p := fun s => (x.1, s) ∈ known points [(offset + codeSize code, last)])
    ⟨x.2, hx⟩
  exact congrArg Prod.snd (List.inj_on_of_nodup_map hnodup hchosen hx rfl)

/-- Code that is all of a chunk has one state at each offset. -/
theorem Annotates.state_unique {points : List (Point State)} {code : List CodeLine} {state last : State}
    (h : Annotates T points 0 code state [(codeSize code, last)]) {offset : Nat} {s s' : State}
    (hs : (offset, s) ∈ known points [(codeSize code, last)])
    (hs' : (offset, s') ∈ known points [(codeSize code, last)]) : s = s' := by
  have hend : codeSize code = 0 + codeSize code := (Nat.zero_add _).symm
  have : Nonempty State := ⟨s⟩
  obtain ⟨assigned, hassigned⟩ := Annotates.exists_assignment (hend ▸ h)
  rw [← hend] at hassigned
  exact (hassigned _ hs).symm.trans (hassigned _ hs')

end MonkeyLang
