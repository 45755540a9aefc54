import MonkeyLang.Proofs.Resources
/-!
# Where the bodies of functions lie

The body of a function lies in the code that the function is part of, between a jump over it and the instructions that
make the closure. `Region` says where, and `Laid` what holds of a piece of code with the regions of the functions in it:
each region has its surroundings, regions lie one behind the other or one inside the other, jumps stay where they are, and
the operands of an instruction fit the function that it belongs to.

`Laid.append` puts two pieces together, `Laid.function` puts a body into the code around it. Both are used along the
derivation of a program's code.
-/

namespace MonkeyLang

/-- How many slots, captured values and constants the instructions of a function may name. -/
structure Limits where
  locals : Nat
  free : Nat
  constants : Nat

/-- The body of a function in some code, and the closure that is made of it. -/
structure Region where
  /-- The offset of the jump over the body. -/
  skipAt : Nat
  /-- The offset behind the body. -/
  stop : Nat
  /-- The offset of the instruction that makes the closure. -/
  closureAt : Nat
  params : Nat
  limits : Limits

namespace Region

def start (r : Region) : Nat := r.skipAt + 3

def Contains (r : Region) (place : Nat) : Prop := r.start ≤ place ∧ place < r.stop

instance (r : Region) (place : Nat) : Decidable (r.Contains place) :=
  inferInstanceAs (Decidable (_ ∧ _))

/-- The second region lies behind all that belongs to the first function, or inside the first one. -/
def Precedes (r r' : Region) : Prop :=
  r.closureAt + 6 ≤ r'.skipAt ∨ r.start ≤ r'.skipAt ∧ r'.closureAt + 6 ≤ r.stop

end Region

namespace Opcode

/-- Whether what an instruction names is there in a function. -/
def Fits (op : Opcode) (operands : List Nat) (limits : Limits) : Prop :=
  match op with
  | constant => ∀ place ∈ operands, place < limits.constants
  | getBuiltin => ∀ place ∈ operands, place < builtins.length
  | getLocal | setLocal => ∀ slot ∈ operands, slot < limits.locals
  | getFree => ∀ place ∈ operands, place < limits.free
  | _ => True

def targets (op : Opcode) (operands : List Nat) : List Nat :=
  match op with
  | jump | jumpIfFalse => operands
  | _ => []

def LoadsCapture (op : Opcode) : Prop := op = getLocal ∨ op = getFree ∨ op = currentClosure

theorem targets_of_loadsCapture {op : Opcode} (h : op.LoadsCapture) (operands : List Nat) :
    op.targets operands = [] := by
  rcases h with rfl | rfl | rfl <;> rfl

end Opcode

namespace Instruction

def Fits (i : Instruction) (limits : Limits) : Prop := i.opcode.Fits i.operands limits

def targets (i : Instruction) : List Nat := i.opcode.targets i.operands

/-- An instruction that stays in its function and fits it. -/
structure Settled (i : Instruction) (limits : Limits) : Prop where
  fits : i.Fits limits
  targets : i.targets = []
  closure : i.opcode ≠ .closure

theorem settled_bool (value : Bool) (limits : Limits) : (bool value).Settled limits := by
  cases value <;> exact ⟨trivial, rfl, by decide⟩

theorem settled_binary (op : BinaryOp) (limits : Limits) : (binary op).Settled limits := by
  cases op <;> exact ⟨trivial, rfl, by decide⟩

theorem settled_unary (op : UnaryOp) (limits : Limits) : (unary op).Settled limits := by
  cases op <;> exact ⟨trivial, rfl, by decide⟩

end Instruction

/-- The code around a region, when the code is at an offset. -/
structure Region.Site (r : Region) (offset : Nat) (code : List CodeLine) where
  front : List CodeLine
  skipLine : Nat
  after : UInt16
  body : List CodeLine
  returnLine : Nat
  last : Instruction
  loads : List CodeLine
  line : Nat
  entry : UInt16
  params : UInt8
  locals : UInt8
  free : UInt8
  back : List CodeLine
  split : code = front ++ ⟨skipLine, .jump after⟩ :: (body ++ [⟨returnLine, last⟩] ++ loads ++
    ⟨line, .closure entry params locals free⟩ :: back)
  skipAt : r.skipAt = offset + codeSize front
  stop : r.stop = r.start + codeSize (body ++ [⟨returnLine, last⟩])
  closureAt : r.closureAt = r.stop + codeSize loads
  after_eq : after.toNat = r.stop
  entry_eq : entry.toNat = r.start
  params_eq : params.toNat = r.params
  locals_eq : locals.toNat = r.limits.locals
  free_eq : free.toNat = r.limits.free
  params_le : r.params ≤ r.limits.locals
  returns : last = .returnValue ∨ last = .returnNull
  loads_length : loads.length = r.limits.free
  loads_capture : ∀ l ∈ loads, l.instruction.opcode.LoadsCapture

/-- The limits of the function that the instruction at a place belongs to, when regions are in the order of their starts
and what is outside of all regions belongs to a function with the given limits. -/
def limitsAt (limits : Limits) (regions : List Region) (place : Nat) : Limits :=
  regions.foldl (fun limits r => if r.Contains place then r.limits else limits) limits

/-- The regions are those of the functions in the code at an offset, which belongs to a function with the given limits and
is left through jumps to the exits only. -/
structure Laid (limits : Limits) (offset : Nat) (code : List CodeLine) (regions : List Region) (exits : List Nat) :
    Prop where
  formed : ∀ r ∈ regions, Nonempty (r.Site offset code)
  ordered : regions.Pairwise Region.Precedes
  closures : ∀ place i, (place, i) ∈ located offset code → i.opcode = .closure → ∃ r ∈ regions, r.closureAt = place
  shared : ∀ r ∈ regions, r.limits.constants = limits.constants
  fits : ∀ place i, (place, i) ∈ located offset code → i.Fits (limitsAt limits regions place)
  jumps : ∀ place i, (place, i) ∈ located offset code → ∀ target ∈ i.targets,
    place < target ∧ ((∃ j, (target, j) ∈ located offset code) ∨ target ∈ exits) ∧
      ∀ r ∈ regions, r.Contains place ↔ r.Contains target

/-! ### Regions within code -/

namespace Region

def Site.extend {r : Region} {offset : Nat} {c : List CodeLine} (site : r.Site offset c) (d : List CodeLine) :
    r.Site offset (c ++ d) :=
  { site with
    back := site.back ++ d
    split := by
      conv_lhs => rw [site.split]
      simp }

def Site.shift {r : Region} {offset middle : Nat} {d : List CodeLine} (site : r.Site middle d) (c : List CodeLine)
    (hmiddle : middle = offset + codeSize c) : r.Site offset (c ++ d) :=
  { site with
    front := c ++ site.front
    split := by
      conv_lhs => rw [site.split]
      simp
    skipAt := by
      have hskip := site.skipAt
      rw [codeSize_append]
      omega }

/-- What is located where around a region. -/
theorem Site.located_eq {r : Region} {offset : Nat} {code : List CodeLine} (site : r.Site offset code) :
    located offset code = located offset site.front ++ (r.skipAt, .jump site.after) ::
      (located r.start (site.body ++ [⟨site.returnLine, site.last⟩]) ++ located r.stop site.loads ++
        (r.closureAt, .closure site.entry site.params site.locals site.free) ::
          located (r.closureAt + 6) site.back) := by
  have hstart : r.start = offset + codeSize site.front + (Instruction.jump site.after).size := by
    rw [← site.skipAt]
    rfl
  have hstop := site.stop
  conv_lhs => rw [site.split]
  generalize site.body ++ [⟨site.returnLine, site.last⟩] = whole at hstop ⊢
  rw [located_append, located_cons, located_append, located_append, located_cons, codeSize_append, ← hstart,
    ← Nat.add_assoc, ← hstop, ← site.closureAt, ← site.skipAt]
  rfl

theorem Site.skip_mem_located {r : Region} {offset : Nat} {code : List CodeLine} (site : r.Site offset code) :
    (r.skipAt, .jump site.after) ∈ located offset code := by
  rw [site.located_eq]
  simp

theorem Site.closure_mem_located {r : Region} {offset : Nat} {code : List CodeLine} (site : r.Site offset code) :
    (r.closureAt, .closure site.entry site.params site.locals site.free) ∈ located offset code := by
  rw [site.located_eq]
  simp

theorem Site.bounds {r : Region} {offset : Nat} {code : List CodeLine} (site : r.Site offset code) :
    offset ≤ r.skipAt ∧ r.start < r.stop ∧ r.stop ≤ r.closureAt ∧ r.closureAt + 6 ≤ offset + codeSize code := by
  have hsize := congrArg codeSize site.split
  have hstop := site.stop
  have hlast := site.last.size_pos
  simp only [codeSize_append, codeSize_cons, codeSize_nil] at hsize hstop
  have := site.skipAt
  have := site.closureAt
  have : r.start = r.skipAt + 3 := rfl
  have : (Instruction.jump site.after).size = 3 := rfl
  have : (Instruction.closure site.entry site.params site.locals site.free).size = 6 := rfl
  omega

/-- The instructions of a function in the code around it. -/
theorem Site.cases {r : Region} {offset : Nat} {code : List CodeLine} (site : r.Site offset code)
    (hfront : site.front = []) (hback : site.back = []) {place : Nat} {i : Instruction}
    (hmem : (place, i) ∈ located offset code) :
    (place = r.skipAt ∧ i = .jump site.after) ∨
      (place, i) ∈ located r.start (site.body ++ [⟨site.returnLine, site.last⟩]) ∨
      (r.stop ≤ place ∧ ∃ l ∈ site.loads, i = l.instruction) ∨
      (place = r.closureAt ∧ i = .closure site.entry site.params site.locals site.free) := by
  rw [site.located_eq, hfront, hback, located_nil, located_nil, List.nil_append, List.mem_cons, List.mem_append,
    List.mem_append, List.mem_singleton, Prod.mk.injEq, Prod.mk.injEq] at hmem
  rcases hmem with h | (h | h) | h
  · exact .inl h
  · exact .inr (.inl h)
  · exact .inr (.inr (.inl ⟨(bounds_of_mem_located h).1, exists_line_of_mem_located h⟩))
  · exact .inr (.inr (.inr h))

/-- There is an instruction right behind a region. -/
theorem Site.exists_at_stop {r : Region} {offset : Nat} {code : List CodeLine} (site : r.Site offset code) :
    ∃ j, (r.stop, j) ∈ located offset code := by
  have hclosureAt := site.closureAt
  rw [site.located_eq]
  cases hloads : site.loads with
  | nil =>
    rw [hloads, codeSize_nil, Nat.add_zero] at hclosureAt
    rw [← hclosureAt]
    exact ⟨.closure site.entry site.params site.locals site.free, by simp⟩
  | cons l rest => exact ⟨l.instruction, by simp⟩

/-- A region in the body of a function is a region in the code around that. -/
theorem Site.within {r r' : Region} {offset : Nat} {code : List CodeLine} (site : r.Site offset code)
    (hfront : site.front = []) (inner : r'.Site r.start (site.body ++ [⟨site.returnLine, site.last⟩])) :
    Nonempty (r'.Site offset code) := by
  have hstart : r.start = offset + codeSize [⟨site.skipLine, .jump site.after⟩] := by
    have hskipAt := site.skipAt
    rw [hfront, codeSize_nil, Nat.add_zero] at hskipAt
    rw [start, hskipAt]
    rfl
  have hcode : code = [⟨site.skipLine, .jump site.after⟩] ++ (site.body ++ [⟨site.returnLine, site.last⟩]) ++
      (site.loads ++ ⟨site.line, .closure site.entry site.params site.locals site.free⟩ :: site.back) := by
    conv_lhs => rw [site.split, hfront]
    simp
  rw [hcode]
  exact ⟨(inner.shift _ hstart).extend _⟩

end Region

theorem limitsAt_append (limits : Limits) (R R' : List Region) (place : Nat) :
    limitsAt limits (R ++ R') place = limitsAt (limitsAt limits R place) R' place :=
  List.foldl_append

/-- Outside of all regions, code belongs to the function around. -/
theorem limitsAt_eq_of_not_contains {limits : Limits} {regions : List Region} {place : Nat}
    (h : ∀ r ∈ regions, ¬ r.Contains place) : limitsAt limits regions place = limits := by
  induction regions with
  | nil => rfl
  | cons r regions ih =>
    rw [limitsAt, List.foldl_cons, if_neg (h r List.mem_cons_self)]
    exact ih fun r' hr' => h r' (List.mem_cons_of_mem _ hr')

namespace Laid

variable {limits : Limits} {offset middle : Nat} {c d code : List CodeLine} {R R' regions : List Region}
  {E exits : List Nat}

theorem bounds (h : Laid limits offset code regions exits) {r : Region} (hr : r ∈ regions) :
    offset ≤ r.skipAt ∧ r.start < r.stop ∧ r.stop ≤ r.closureAt ∧ r.closureAt + 6 ≤ offset + codeSize code :=
  (h.formed r hr).elim fun site => site.bounds

theorem nil : Laid limits offset [] [] exits where
  formed r hr := by cases hr
  ordered := .nil
  closures _ _ hmem := by cases hmem
  shared r hr := by cases hr
  fits _ _ hmem := by cases hmem
  jumps _ _ hmem := by cases hmem

/-- One instruction that makes no closure. -/
theorem single {line : Nat} {i : Instruction} (hfits : i.Fits limits) (hclosure : i.opcode ≠ .closure)
    (hexits : ∀ target ∈ i.targets, offset < target ∧ target ∈ exits) : Laid limits offset [⟨line, i⟩] [] exits where
  formed r hr := by cases hr
  ordered := .nil
  closures place j hmem hop := by
    obtain ⟨-, rfl⟩ := Prod.mk.inj (List.mem_singleton.mp hmem)
    exact absurd hop hclosure
  shared r hr := by cases hr
  fits place j hmem := by
    obtain ⟨-, rfl⟩ := Prod.mk.inj (List.mem_singleton.mp hmem)
    exact hfits
  jumps place j hmem target htarget := by
    obtain ⟨rfl, rfl⟩ := Prod.mk.inj (List.mem_singleton.mp hmem)
    obtain ⟨hlater, hexit⟩ := hexits target htarget
    exact ⟨hlater, .inr hexit, fun r hr => by cases hr⟩

/-- Two pieces, one behind the other, of which the first one jumps to places outside of all regions. -/
theorem append (hc : Laid limits offset c R E) (hd : Laid limits middle d R' exits)
    (hmiddle : middle = offset + codeSize c)
    (hE : ∀ target ∈ E, middle ≤ target ∧ ((∃ j, (target, j) ∈ located middle d) ∨ target ∈ exits) ∧
      ∀ r ∈ R', ¬ r.Contains target) :
    Laid limits offset (c ++ d) (R ++ R') exits := by
  have hlocated : located offset (c ++ d) = located offset c ++ located middle d := by
    rw [located_append, hmiddle]
  have hfront : ∀ r ∈ R, ∀ place, middle ≤ place → ¬ r.Contains place := by
    intro r hr place hplace hcontains
    have := hc.bounds hr
    have := hcontains.2
    omega
  have hback : ∀ r ∈ R', ∀ place, place ≤ middle → ¬ r.Contains place := by
    intro r hr place hplace hcontains
    have := hd.bounds hr
    have := hcontains.1
    have : r.start = r.skipAt + 3 := rfl
    omega
  refine ⟨?_, ?_, ?_, ?_, ?_, ?_⟩
  · intro r hr
    rcases List.mem_append.mp hr with hr | hr
    · exact (hc.formed r hr).map fun site => site.extend d
    · exact (hd.formed r hr).map fun site => site.shift c hmiddle
  · refine List.pairwise_append.mpr ⟨hc.ordered, hd.ordered, ?_⟩
    intro r hr r' hr'
    have := hc.bounds hr
    have := hd.bounds hr'
    exact .inl (by omega)
  · intro place i hmem hop
    rw [hlocated, List.mem_append] at hmem
    rcases hmem with hmem | hmem
    · obtain ⟨r, hr, heq⟩ := hc.closures place i hmem hop
      exact ⟨r, List.mem_append_left _ hr, heq⟩
    · obtain ⟨r, hr, heq⟩ := hd.closures place i hmem hop
      exact ⟨r, List.mem_append_right _ hr, heq⟩
  · intro r hr
    rcases List.mem_append.mp hr with hr | hr
    · exact hc.shared r hr
    · exact hd.shared r hr
  · intro place i hmem
    rw [hlocated, List.mem_append] at hmem
    rw [limitsAt_append]
    rcases hmem with hmem | hmem
    · have hplace := bounds_of_mem_located hmem
      rw [limitsAt_eq_of_not_contains fun r hr => hback r hr place (by omega)]
      exact hc.fits place i hmem
    · have hplace := bounds_of_mem_located hmem
      rw [limitsAt_eq_of_not_contains fun r hr => hfront r hr place hplace.1]
      exact hd.fits place i hmem
  · intro place i hmem target htarget
    rw [hlocated] at hmem ⊢
    rcases List.mem_append.mp hmem with hmem | hmem
    · obtain ⟨hlater, hgoes, hstays⟩ := hc.jumps place i hmem target htarget
      have hplace := bounds_of_mem_located hmem
      rcases hgoes with ⟨j, hj⟩ | hexit
      · -- The target is in the first piece, so no region of the second one has to do with it.
        have htarget := bounds_of_mem_located hj
        refine ⟨hlater, .inl ⟨j, List.mem_append_left _ hj⟩, fun r hr => ?_⟩
        rcases List.mem_append.mp hr with hr | hr
        · exact hstays r hr
        · exact iff_of_false (hback r hr place (by omega)) (hback r hr target (by omega))
      · obtain ⟨hbehind, hgoes, houtside⟩ := hE target hexit
        refine ⟨hlater, hgoes.imp_left fun ⟨j, hj⟩ => ⟨j, List.mem_append_right _ hj⟩, fun r hr => ?_⟩
        rcases List.mem_append.mp hr with hr | hr
        · exact hstays r hr
        · exact iff_of_false (hback r hr place (by omega)) (houtside r hr)
    · obtain ⟨hlater, hgoes, hstays⟩ := hd.jumps place i hmem target htarget
      have hplace := bounds_of_mem_located hmem
      refine ⟨hlater, hgoes.imp_left fun ⟨j, hj⟩ => ⟨j, List.mem_append_right _ hj⟩, fun r hr => ?_⟩
      rcases List.mem_append.mp hr with hr | hr
      · exact iff_of_false (hfront r hr place hplace.1) (hfront r hr target (by omega))
      · exact hstays r hr

/-- Two pieces of which the first one is left at its end. -/
theorem andThen (hc : Laid limits offset c R E) (hd : Laid limits middle d R' exits)
    (hmiddle : middle = offset + codeSize c) (hE : ∀ target ∈ E, target = middle)
    (hexits : d = [] → ∀ target ∈ E, target ∈ exits) : Laid limits offset (c ++ d) (R ++ R') exits := by
  refine hc.append hd hmiddle ?_
  intro target htarget
  obtain rfl := hE target htarget
  refine ⟨Nat.le_refl _, ?_, ?_⟩
  · cases d with
    | nil => exact .inr (hexits rfl target htarget)
    | cons first rest => exact .inl ⟨first.instruction, by simp⟩
  · intro r hr hcontains
    have := hd.bounds hr
    have := hcontains.1
    have : r.start = r.skipAt + 3 := rfl
    omega

/-- A piece of code and a settled instruction behind it. -/
theorem andSettled {line : Nat} {i : Instruction} (hc : Laid limits offset c R E) (hmiddle : middle = offset + codeSize c)
    (hE : ∀ target ∈ E, target = middle) (hi : i.Settled limits) : Laid limits offset (c ++ [⟨line, i⟩]) R exits := by
  have hlast : Laid limits middle [⟨line, i⟩] [] exits := single hi.fits hi.closure (by simp [hi.targets])
  simpa using hc.andThen hlast hmiddle hE (by simp)

/-- A function in the code around it: a jump over the body, the body, the captured values, the closure. -/
theorem function {r : Region} (site : r.Site offset code) (hfront : site.front = []) (hback : site.back = [])
    (hshared : r.limits.constants = limits.constants)
    (hbody : Laid r.limits r.start (site.body ++ [⟨site.returnLine, site.last⟩]) R [])
    (hloads : ∀ l ∈ site.loads, l.instruction.Fits limits) : Laid limits offset code (r :: R) exits := by
  have hbounds := site.bounds
  have hstart : r.start = r.skipAt + 3 := rfl
  have hlocated := site.located_eq
  rw [hfront, hback, located_nil, located_nil, List.nil_append] at hlocated
  -- All that is in the body lies inside the region, and the rest outside of it.
  have hwithin : ∀ place i, (place, i) ∈ located r.start (site.body ++ [⟨site.returnLine, site.last⟩]) →
      r.Contains place := by
    intro place i hmem
    have hplace := bounds_of_mem_located hmem
    rw [← site.stop] at hplace
    exact ⟨hplace.1, Nat.lt_of_lt_of_le (Nat.lt_add_of_pos_right i.size_pos) hplace.2⟩
  have hinner : ∀ r' ∈ R, ∀ place, r'.Contains place → r.Contains place := by
    intro r' hr' place hcontains
    have := hbody.bounds hr'
    rw [← site.stop] at this
    have : r'.start = r'.skipAt + 3 := rfl
    exact ⟨by have := hcontains.1; omega, by have := hcontains.2; omega⟩
  have houter : ∀ place, place < r.start ∨ r.stop ≤ place → ∀ r' ∈ r :: R, ¬ r'.Contains place := by
    intro place hplace r' hr' hcontains
    obtain ⟨hleft, hright⟩ : r.Contains place := by
      rcases List.mem_cons.mp hr' with rfl | hr'
      · exact hcontains
      · exact hinner r' hr' place hcontains
    omega
  refine ⟨?_, ?_, ?_, ?_, ?_, ?_⟩
  · intro r' hr'
    rcases List.mem_cons.mp hr' with rfl | hr'
    · exact ⟨site⟩
    · exact (hbody.formed r' hr').elim fun inner => site.within hfront inner
  · refine List.pairwise_cons.mpr ⟨?_, hbody.ordered⟩
    intro r' hr'
    have := hbody.bounds hr'
    rw [← site.stop] at this
    exact .inr ⟨this.1, this.2.2.2⟩
  · intro place i hmem hop
    rcases site.cases hfront hback hmem with ⟨-, rfl⟩ | h | ⟨-, l, hl, rfl⟩ | ⟨rfl, -⟩
    · cases hop
    · obtain ⟨r', hr', heq⟩ := hbody.closures place i h hop
      exact ⟨r', List.mem_cons_of_mem _ hr', heq⟩
    · have hcapture := site.loads_capture l hl
      rw [hop] at hcapture
      simp [Opcode.LoadsCapture] at hcapture
    · exact ⟨r, List.mem_cons_self, rfl⟩
  · intro r' hr'
    rcases List.mem_cons.mp hr' with rfl | hr'
    · exact hshared
    · exact (hbody.shared r' hr').trans hshared
  · intro place i hmem
    rcases site.cases hfront hback hmem with ⟨rfl, rfl⟩ | h | ⟨hplace, l, hl, rfl⟩ | ⟨rfl, rfl⟩
    · trivial
    · rw [limitsAt, List.foldl_cons, if_pos (hwithin place i h)]
      exact hbody.fits place i h
    · rw [limitsAt_eq_of_not_contains (houter place (.inr hplace))]
      exact hloads l hl
    · trivial
  · intro place i hmem target htarget
    rcases site.cases hfront hback hmem with ⟨rfl, rfl⟩ | h | ⟨hplace, l, hl, rfl⟩ | ⟨rfl, rfl⟩
    · -- The jump leads to the first instruction behind the body.
      obtain rfl := List.mem_singleton.mp htarget
      rw [site.after_eq]
      refine ⟨by omega, .inl (site.exists_at_stop), fun r' hr' => ?_⟩
      exact iff_of_false (houter _ (.inl (by omega)) r' hr') (houter _ (.inr (Nat.le_refl _)) r' hr')
    · obtain ⟨hlater, hgoes, hstays⟩ := hbody.jumps place i h target htarget
      obtain ⟨j, hj⟩ := hgoes.resolve_right (by simp)
      refine ⟨hlater, .inl ⟨j, ?_⟩, fun r' hr' => ?_⟩
      · rw [hlocated]
        exact List.mem_cons_of_mem _ (List.mem_append_left _ (List.mem_append_left _ hj))
      · rcases List.mem_cons.mp hr' with rfl | hr'
        · exact iff_of_true (hwithin place i h) (hwithin target j hj)
        · exact hstays r' hr'
    · rw [Instruction.targets, Opcode.targets_of_loadsCapture (site.loads_capture l hl)] at htarget
      cases htarget
    · cases htarget

/-- A conditional: the first jump leads to the other branch, and the second one to the end. -/
theorem branch (skipLine leaveLine : Nat) {skip leave : UInt16} {stop : Nat} {e : List CodeLine} {R'' : List Region}
    (hc : Laid limits offset c R [middle]) (hmiddle : middle = offset + codeSize c)
    (hd : Laid limits (middle + 3) d R' [stop]) (hstop : stop = middle + 3 + codeSize d)
    (he : Laid limits (stop + 3) e R'' [leave.toNat]) (hleave : leave.toNat = stop + 3 + codeSize e)
    (hskip : skip.toNat = stop + 3) :
    Laid limits offset (c ++ ⟨skipLine, .jumpIfFalse skip⟩ :: (d ++ ⟨leaveLine, .jump leave⟩ :: e)) (R ++ (R' ++ R''))
      [leave.toNat] := by
  have hjump : Laid limits stop [⟨leaveLine, .jump leave⟩] [] [leave.toNat] := by
    refine single trivial (by simp [Instruction.opcode]) ?_
    intro target htarget
    obtain rfl := List.mem_singleton.mp htarget
    exact ⟨by omega, List.mem_cons_self⟩
  have hends : Laid limits stop (⟨leaveLine, .jump leave⟩ :: e) R'' [leave.toNat] := by
    refine hjump.append he rfl ?_
    intro target htarget
    obtain rfl := List.mem_singleton.mp htarget
    refine ⟨by omega, .inr List.mem_cons_self, ?_⟩
    intro r hr hcontains
    have := he.bounds hr
    have := hcontains.2
    omega
  have hbranches := hd.andThen hends hstop (by simp) (by simp)
  have htest : Laid limits middle [⟨skipLine, .jumpIfFalse skip⟩] [] [skip.toNat] := by
    refine single trivial (by simp [Instruction.opcode]) ?_
    intro target htarget
    obtain rfl := List.mem_singleton.mp htarget
    exact ⟨by omega, List.mem_cons_self⟩
  have htested : Laid limits middle (⟨skipLine, .jumpIfFalse skip⟩ :: (d ++ ⟨leaveLine, .jump leave⟩ :: e)) (R' ++ R'')
      [leave.toNat] := by
    refine htest.append hbranches rfl ?_
    intro target htarget
    obtain rfl := List.mem_singleton.mp htarget
    refine ⟨by omega, ?_, ?_⟩
    · cases e with
      | nil =>
        rw [codeSize_nil] at hleave
        exact .inr (List.mem_singleton.mpr (by omega))
      | cons first rest =>
        have hother : (stop + 3, first.instruction) ∈
            located (middle + 3) (d ++ ⟨leaveLine, .jump leave⟩ :: first :: rest) := by
          rw [located_append, ← hstop]
          exact List.mem_append_right _ (List.mem_cons_of_mem _ List.mem_cons_self)
        rw [hskip]
        exact .inl ⟨first.instruction, hother⟩
    · intro r hr hcontains
      have := hcontains.1
      have := hcontains.2
      have : r.start = r.skipAt + 3 := rfl
      rcases List.mem_append.mp hr with hr | hr
      · have := hd.bounds hr
        omega
      · have := he.bounds hr
        omega
  exact hc.andThen htested hmiddle (by simp) (by simp)

end Laid

end MonkeyLang
