import MonkeyLang.Proofs.Moments
/-!
# Where declarations are made, and which are used

Each `let` statement and each parameter is declared at one moment of a walk, so it has one place among the declarations that
are made. `Program.used` lists the declarations that the names of a program refer to.
-/

namespace MonkeyLang

open Scoping

namespace NameSite

/-- The place in the text that a declaration is made at. -/
def origin? : NameSite → Option Origin
  | use _ _ => none
  | declaration d => some d.origin

end NameSite

theorem Scoping.mem_params {path : Path} {names : List Ident} {d : Declared} :
    d ∈ params path names ↔ ∃ index, names[index]? = some d.ident ∧ d.origin = .param path index := by
  obtain ⟨ident, origin⟩ := d
  rw [params, List.mem_mapIdx]
  constructor
  · rintro ⟨index, hindex, heq⟩
    cases heq
    exact ⟨index, List.getElem?_eq_getElem hindex, rfl⟩
  · rintro ⟨index, hname, rfl⟩
    obtain ⟨hindex, rfl⟩ := List.getElem?_eq_some_iff.mp hname
    exact ⟨index, hindex, rfl⟩

/-- Parameters are declared when their function is entered, and the name of a `let` when the statement is entered or left. -/
theorem Moment.declaration_mem_sites {m : Moment} {d : Declared} : .declaration d ∈ m.sites ↔
    (∃ context names body span index, m.phrase = .expr context (.function names body span) ∧ m.done = 0 ∧
        names[index]? = some d.ident ∧ d.origin = .param m.path index) ∨
      ∃ value span, m.phrase = .stmt (.letStmt d.ident value span) ∧
        m.done = (if value.function?.isSome then 0 else 1) ∧ d.origin = .letStmt m.path := by
  obtain ⟨path, p, i⟩ := m
  cases p with
  | expr context e =>
    cases e with
    | function names body span =>
      by_cases hi : i = 0 <;>
        simp [Moment.sites, Phrase.sitesEntering, Phrase.sitesLeaving, Scoping.mem_params, hi]
    | _ => simp [Moment.sites, Phrase.sitesEntering, Phrase.sitesLeaving]
  | stmt s =>
    cases s with
    | letStmt name value span =>
      obtain ⟨ident, origin⟩ := d
      cases hvalue : value.function?.isSome <;>
        simp [Moment.sites, Phrase.sitesEntering, Phrase.sitesLeaving, Phrase.parts, hvalue, eq_comm (a := ident),
          and_left_comm]
    | _ => simp [Moment.sites, Phrase.sitesEntering, Phrase.sitesLeaving]
  | _ => simp [Moment.sites, Phrase.sitesEntering, Phrase.sitesLeaving]

theorem Scoping.origin_of_mem_initial {d : Declared} (h : d ∈ Scoping.initial.flatten) : ∃ i, d.origin = .builtin i := by
  rw [initial, List.flatten_singleton] at h
  obtain ⟨i, -, rfl⟩ := List.mem_mapIdx.mp h
  exact ⟨i, rfl⟩

theorem NameSite.mem_filterMap_origin? {sites : List NameSite} {o : Origin} :
    o ∈ sites.filterMap origin? ↔ ∃ d, .declaration d ∈ sites ∧ d.origin = o := by
  rw [List.mem_filterMap]
  constructor
  · rintro ⟨site, hsite, ho⟩
    cases site with
    | use path name => cases ho
    | declaration d => exact ⟨d, hsite, Option.some.inj ho⟩
  · rintro ⟨d, hd, rfl⟩
    exact ⟨_, hd, rfl⟩

theorem Scoping.origins_params (path : Path) (names : List Ident) :
    ((params path names).map NameSite.declaration).filterMap NameSite.origin? =
      (List.range names.length).map (Origin.param path) := by
  induction names using List.reverseRecOn with
  | nil => rfl
  | append_singleton names name ih =>
    rw [params, List.mapIdx_concat, List.map_append, List.filterMap_append, ← params, ih, List.length_append,
      List.length_singleton, List.range_succ, List.map_append]
    rfl

theorem Moment.nodup_origins (m : Moment) : (m.sites.filterMap NameSite.origin?).Nodup := by
  obtain ⟨path, p, i⟩ := m
  cases p with
  | expr context e =>
    cases e with
    | function names body span =>
      have hsites : Moment.sites ⟨path, .expr context (.function names body span), i⟩ =
          if i = 0 then (params path names).map .declaration else [] := by
        simp [Moment.sites, Phrase.sitesEntering, Phrase.sitesLeaving]
      rw [hsites]
      split
      · rw [origins_params]
        apply List.nodup_range.map
        intro j k heq
        cases heq
        rfl
      · exact List.nodup_nil
    | ident name =>
      by_cases hi : i = 0
      · subst hi
        exact List.nodup_nil
      · simp [Moment.sites, Phrase.parts, hi]
    | _ => simp [Moment.sites, Phrase.sitesEntering, Phrase.sitesLeaving]
  | stmt s =>
    cases s with
    | letStmt name value span =>
      cases hvalue : value.function?.isSome <;> by_cases hi : i = 0 <;> by_cases hi' : i = 1 <;>
        simp [Moment.sites, Phrase.sitesEntering, Phrase.sitesLeaving, Phrase.parts, NameSite.origin?, hvalue, hi, hi']
    | _ => simp [Moment.sites, Phrase.sitesEntering, Phrase.sitesLeaving]
  | _ => simp [Moment.sites, Phrase.sitesEntering, Phrase.sitesLeaving]

namespace Program

variable (program : Program)

/-- The `let` statements and parameters that are declared, in the order in which they are. -/
def declarations : List Declared := program.sites.filterMap (NameSite.accepted? program)

def Declares (d : Declared) : Prop :=
  match d.origin with
  | .builtin _ => False
  | .letStmt path => ∃ value span, program.phraseAt path = some (.stmt (.letStmt d.ident value span))
  | .param path index => ∃ context names body span,
      program.phraseAt path = some (.expr context (.function names body span)) ∧ names[index]? = some d.ident

theorem not_builtin_of_declares {d : Declared} {i : Nat} (h : program.Declares d) : d.origin ≠ .builtin i := by
  intro heq
  rw [Declares, heq] at h
  exact h

/-- A declaration is made at one moment only. -/
theorem nodup_origins : (program.sites.filterMap NameSite.origin?).Nodup := by
  rw [sites_eq_flatMap, List.filterMap_flatMap, List.nodup_flatMap]
  refine ⟨fun m _ => m.nodup_origins, program.nodup_moments.imp_of_mem ?_⟩
  intro m m' hm hm' hne o ho ho'
  have hphrase := (mem_moments.mp hm).1
  have hphrase' := (mem_moments.mp hm').1
  obtain ⟨path, p, i⟩ := m
  obtain ⟨path', p', i'⟩ := m'
  -- An origin has the path of the phrase that makes it, and a phrase makes its declarations at one moment.
  obtain ⟨⟨ident, _⟩, hd, rfl⟩ := NameSite.mem_filterMap_origin?.mp ho
  obtain ⟨⟨ident', _⟩, hd', heq⟩ := NameSite.mem_filterMap_origin?.mp ho'
  rcases Moment.declaration_mem_sites.mp hd with ⟨_, _, _, _, index, rfl, rfl, -, hd⟩ | ⟨value, _, rfl, rfl, hd⟩
  · rcases Moment.declaration_mem_sites.mp hd' with ⟨_, _, _, _, index', rfl, rfl, -, hd'⟩ | ⟨_, _, _, _, hd'⟩
    · cases hd.symm.trans (heq.symm.trans hd')
      cases hphrase.symm.trans hphrase'
      exact hne rfl
    · cases hd.symm.trans (heq.symm.trans hd')
  · rcases Moment.declaration_mem_sites.mp hd' with ⟨_, _, _, _, index', _, _, -, hd'⟩ | ⟨value', _, rfl, rfl, hd'⟩
    · cases hd.symm.trans (heq.symm.trans hd')
    · cases hd.symm.trans (heq.symm.trans hd')
      cases hphrase.symm.trans hphrase'
      exact hne rfl

/-- Every `let` statement and every parameter is declared somewhere. -/
theorem declaration_mem_sites {d : Declared} : .declaration d ∈ program.sites ↔ program.Declares d := by
  rw [sites_eq_flatMap, List.mem_flatMap]
  obtain ⟨ident, origin⟩ := d
  constructor
  · rintro ⟨m, hm, hd⟩
    have hphrase := (mem_moments.mp hm).1
    rcases Moment.declaration_mem_sites.mp hd with
      ⟨context, names, body, span, index, hp, -, hname, rfl⟩ | ⟨value, span, hp, -, rfl⟩
    · rw [hp] at hphrase
      exact ⟨context, names, body, span, hphrase, hname⟩
    · rw [hp] at hphrase
      exact ⟨value, span, hphrase⟩
  · intro h
    cases origin with
    | builtin index => exact absurd h id
    | letStmt path =>
      obtain ⟨value, span, hphrase⟩ := h
      refine ⟨⟨path, _, if value.function?.isSome then 0 else 1⟩, mem_moments.mpr ⟨hphrase, ?_⟩,
        Moment.declaration_mem_sites.mpr (.inr ⟨value, span, rfl, rfl, rfl⟩)⟩
      show (if value.function?.isSome then 0 else 1) ≤ 1
      split <;> omega
    | param path index =>
      obtain ⟨context, names, body, span, hphrase, hname⟩ := h
      exact ⟨⟨path, _, 0⟩, mem_moments.mpr ⟨hphrase, Nat.zero_le _⟩,
        Moment.declaration_mem_sites.mpr (.inl ⟨context, names, body, span, index, rfl, rfl, hname, rfl⟩)⟩

theorem mem_declarations {d : Declared} : d ∈ program.declarations ↔ program.Declares d ∧ program.taken? d = none := by
  rw [← declaration_mem_sites, declarations, List.mem_filterMap]
  constructor
  · rintro ⟨site, hsite, hd⟩
    cases site with
    | use path name => cases hd
    | declaration d' =>
      rw [NameSite.accepted?] at hd
      split at hd
      · cases hd
      · cases hd
        exact ⟨hsite, Option.not_isSome_iff_eq_none.mp ‹_›⟩
  · rintro ⟨hsite, hfree⟩
    exact ⟨_, hsite, by rw [NameSite.accepted?, hfree]; rfl⟩

/-- All declarations with those of the built-in functions, in the order of their places in the table. -/
def made : List Declared := program.accepted program.sites

theorem origins_declarations_sublist :
    (program.declarations.map Declared.origin).Sublist (program.sites.filterMap NameSite.origin?) := by
  unfold declarations
  induction program.sites with
  | nil => exact List.Sublist.slnil
  | cons site rest ih =>
    cases site with
    | use path name => exact ih
    | declaration d =>
      cases hd : (NameSite.declaration d).accepted? program with
      | none =>
        rw [List.filterMap_cons_none hd]
        exact ih.cons _
      | some d' =>
        have heq : d' = d := by
          rw [NameSite.accepted?] at hd
          split at hd
          · cases hd
          · exact (Option.some.inj hd).symm
        rw [List.filterMap_cons_some hd, List.map_cons, heq]
        exact ih.cons_cons _

theorem nodup_declarations : (program.declarations.map Declared.origin).Nodup :=
  program.nodup_origins.sublist program.origins_declarations_sublist

theorem nodup_made : program.made.Nodup := by
  apply List.Nodup.of_map Declared.origin
  show ((initial.flatten ++ program.declarations).map Declared.origin).Nodup
  rw [List.map_append, List.nodup_append]
  refine ⟨by decide, program.nodup_declarations, ?_⟩
  rintro o ho _ ho' rfl
  obtain ⟨b, hb, heq⟩ := List.mem_map.mp ho
  obtain ⟨d, hd, rfl⟩ := List.mem_map.mp ho'
  obtain ⟨i, hi⟩ := origin_of_mem_initial hb
  exact program.not_builtin_of_declares (program.mem_declarations.mp hd).1 (heq.symm.trans hi)

theorem eq_of_made {d : Declared} {i j : Nat} (hi : program.made[i]? = some d) (hj : program.made[j]? = some d) : i = j := by
  have hlt : i < program.made.length := (List.getElem?_eq_some_iff.mp hi).1
  exact (List.getElem?_inj hlt program.nodup_made).mp (hi.trans hj.symm)

end Program

/-- What the name at a moment refers to. -/
def Moment.target? (program : Program) (m : Moment) : Option Declared :=
  match m.phrase with
  | .expr _ (.ident name) => (program.scopingAt m.path).find? name.name
  | _ => none

theorem Moment.target?_of_not_ident {program : Program} {m : Moment}
    (h : ∀ context name, m.phrase = .expr context (.ident name) → False) : m.target? program = none := by
  rw [target?]
  split
  case h_1 context name hphrase => exact absurd hphrase (h context name)
  case h_2 => rfl

namespace Program

/-- The declarations that the names of a program refer to, name by name. -/
def used (program : Program) : List Declared := program.moments.filterMap (Moment.target? program)

theorem mem_used {program : Program} {d : Declared} : d ∈ program.used ↔
    ∃ path context name, program.phraseAt path = some (.expr context (.ident name)) ∧
      (program.scopingAt path).find? name.name = some d := by
  rw [used, List.mem_filterMap]
  constructor
  · rintro ⟨⟨path, p, i⟩, hm, htarget⟩
    rw [Moment.target?] at htarget
    split at htarget
    case h_1 context name hp =>
      have hphrase := (mem_moments.mp hm).1
      rw [hp] at hphrase
      exact ⟨path, context, name, hphrase, htarget⟩
    case h_2 => cases htarget
  · rintro ⟨path, context, name, hphrase, hfind⟩
    exact ⟨⟨path, _, 0⟩, mem_moments.mpr ⟨hphrase, Nat.le_refl _⟩, hfind⟩

end Program

end MonkeyLang
