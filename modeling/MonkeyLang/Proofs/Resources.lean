import Mathlib.Data.List.Forall2
import MonkeyLang.Proofs.BlockMaps
import MonkeyLang.Proofs.Derivation
/-!
# Slots, captures and constants

While code is generated, functions hand out slots and collect captured symbols, and the pool collects constants. Nothing
is ever taken back: `Generator.Grows` says so of two states. In a sound state every name stands for something that has been
handed out, and every captured symbol for something of the function around. Generation keeps states sound, so what the
operand of an instruction refers to is there in every later state as well.
-/

namespace MonkeyLang

/-! ### Constants -/

namespace Constant

theorem compare_int (a b : Int64) : compare (int a) (int b) = compare a b := rfl

theorem compare_string (a b : String) : compare (string a) (string b) = compare a b := rfl

instance : Std.LawfulEqOrd Constant where
  compare_self {a} := by
    cases a with
    | int value =>
      rw [compare_int]
      exact Std.ReflOrd.compare_self
    | string value =>
      rw [compare_string]
      exact Std.ReflOrd.compare_self
  eq_of_compare {a b} h := by
    cases a with
    | int value =>
      cases b with
      | int other =>
        rw [compare_int] at h
        rw [Std.LawfulEqOrd.eq_of_compare h]
      | string other => cases h
    | string value =>
      cases b with
      | int other => cases h
      | string other =>
        rw [compare_string] at h
        rw [Std.LawfulEqOrd.eq_of_compare h]

instance : Std.TransOrd Constant where
  eq_swap {a b} := by
    cases a with
    | int value =>
      cases b with
      | int other => exact Std.OrientedOrd.eq_swap (α := Int64)
      | string other => rfl
    | string value =>
      cases b with
      | int other => rfl
      | string other => exact Std.OrientedOrd.eq_swap (α := String)
  isLE_trans {a b c} hab hbc := by
    cases a with
    | int value =>
      cases c with
      | string other => rfl
      | int other =>
        cases b with
        | int middle => exact Std.TransOrd.isLE_trans (α := Int64) hab hbc
        | string middle => cases hbc
    | string value =>
      cases b with
      | int middle => cases hab
      | string middle =>
        cases c with
        | int other => cases hbc
        | string other => exact Std.TransOrd.isLE_trans (α := String) hab hbc

end Constant

namespace ConstantPool

/-- Every place that a pool finds for a constant holds that constant. -/
def Sound (p : ConstantPool) : Prop := ∀ c place, p.places[c]? = some place → p.get? place = some c

/-- No constant of a pool has gone from a later one. -/
def Grows (p p' : ConstantPool) : Prop := ∀ place c, p.get? place = some c → p'.get? place = some c

theorem Grows.refl (p : ConstantPool) : p.Grows p := fun _ _ h => h

theorem Grows.trans {p p' p'' : ConstantPool} (h : p.Grows p') (h' : p'.Grows p'') : p.Grows p'' :=
  fun place c hc => h' place c (h place c hc)

theorem sound_empty : empty.Sound := fun c place h => by simp [empty] at h

theorem lt_size_of_get? {p : ConstantPool} {place : Nat} {c : Constant} (h : p.get? place = some c) :
    place < p.size :=
  (Array.getElem?_eq_some_iff.mp h).1

/-- Where the next constant goes. -/
theorem nextPlace_eq {p : ConstantPool} (h : p.size < 4294967296) : p.size.toUInt32.toNat = p.size :=
  UInt32.toNat_ofNat_of_lt' h

theorem size_push (p : ConstantPool) (c : Constant) (places : Std.TreeMap Constant Nat) :
    size ⟨p.constants.push c, places⟩ = p.size + 1 :=
  Array.size_push ..

/-- What an addition can do: give the place that the pool has for a constant, or put the constant behind the others. -/
theorem add_cases (p : ConstantPool) (c : Constant) :
    (∃ place, p.places[c]? = some place ∧ p.add c = (place, p)) ∨
      p.places[c]? = none ∧
        p.add c = (p.size.toUInt32.toNat, ⟨p.constants.push c, p.places.insert c p.size.toUInt32.toNat⟩) := by
  unfold add
  cases hplace : p.places[c]? with
  | some place => exact .inl ⟨place, rfl, rfl⟩
  | none => exact .inr ⟨rfl, rfl⟩

/-- All constants stay where they were. -/
theorem grows_add (p : ConstantPool) (c : Constant) : p.Grows (p.add c).2 := by
  obtain ⟨place, -, hadd⟩ | ⟨-, hadd⟩ := p.add_cases c <;> rw [hadd]
  · exact .refl p
  · intro place d hd
    have hlt := lt_size_of_get? hd
    simp only [get?, size] at hd hlt ⊢
    rw [Array.getElem?_push, if_neg (by omega), hd]

theorem size_le_of_grows {p p' : ConstantPool} (h : p.Grows p') : p.size ≤ p'.size := by
  cases hsize : p.size with
  | zero => exact Nat.zero_le _
  | succ last =>
    have hlast : last < p.constants.size := by
      rw [size] at hsize
      omega
    exact lt_size_of_get? (h last _ (Array.getElem?_eq_getElem hlast))

/-- A constant is found where it was added, as long as no place is given twice. -/
theorem add_spec {p : ConstantPool} {c : Constant} (hsound : p.Sound) (hsize : (p.add c).2.size ≤ 4294967296) :
    (p.add c).2.Sound ∧ (p.add c).2.get? (p.add c).1 = some c := by
  have hgrows := p.grows_add c
  obtain ⟨place, hplace, hadd⟩ | ⟨-, hadd⟩ := p.add_cases c <;> rw [hadd] at hsize hgrows ⊢
  · exact ⟨hsound, hsound c place hplace⟩
  · rw [size_push] at hsize
    rw [nextPlace_eq hsize] at hgrows ⊢
    have hself : get? ⟨p.constants.push c, p.places.insert c p.size⟩ p.size = some c := Array.getElem?_push_size
    refine ⟨fun d place hd => ?_, hself⟩
    simp only [Std.TreeMap.getElem?_insert, Std.LawfulEqOrd.compare_eq_iff_eq] at hd
    split at hd
    case isTrue heq =>
      cases hd
      rwa [← heq]
    case isFalse hne => exact hgrows place d (hsound d place hd)

/-- A pool whose constants can all be loaded by instructions, whose operands have two bytes. -/
structure Loadable (p : ConstantPool) : Prop where
  sound : p.Sound
  size_le : p.size ≤ 65536

theorem loadable_empty : empty.Loadable := ⟨sound_empty, Nat.zero_le _⟩

/-- While all places fit two bytes, none is given twice. -/
theorem Loadable.add {p p' : ConstantPool} {c : Constant} {place : Nat} (h : p.Loadable) (hadd : p.add c = (place, p'))
    (hplace : place < 65536) : p'.Loadable ∧ p.Grows p' ∧ p'.get? place = some c := by
  have hsize : p'.size ≤ 65536 := by
    obtain ⟨_, -, hcase⟩ | ⟨-, hcase⟩ := p.add_cases c <;> cases hadd.symm.trans hcase
    · exact h.size_le
    · have hle := h.size_le
      rw [nextPlace_eq (by omega)] at hplace
      rw [size_push]
      omega
  have hspec := add_spec (c := c) h.sound (by rw [hadd]; exact Nat.le_trans hsize (by decide))
  have hgrows := p.grows_add c
  rw [hadd] at hspec hgrows
  exact ⟨⟨hspec.1, hsize⟩, hgrows, hspec.2⟩

end ConstantPool

/-! ### Scopes -/

/-- What a name of the first of some functions may stand for, when each function is inside the next and the last is the
top level. -/
def Storage.In : Storage → List FunctionScope → Prop
  | .global slot, fs => ∃ f ∈ fs.getLast?, slot < f.slots
  | .frame slot, fs => 2 ≤ fs.length ∧ ∃ f ∈ fs.head?, slot < f.slots
  | .builtin index, _ => index < builtins.length
  | .captured index, fs => ∃ f ∈ fs.head?, index < f.captures.length
  | .running, fs => 2 ≤ fs.length

namespace FunctionScope

/-- Nothing that a function has handed out or captured has gone in a later state of it. -/
structure Grows (f f' : FunctionScope) : Prop where
  slots : f.slots ≤ f'.slots
  captures : f.captures <+: f'.captures

theorem Grows.refl (f : FunctionScope) : f.Grows f := ⟨Nat.le_refl _, List.prefix_rfl⟩

theorem Grows.trans {f f' f'' : FunctionScope} (h : f.Grows f') (h' : f'.Grows f'') : f.Grows f'' :=
  ⟨Nat.le_trans h.slots h'.slots, h.captures.trans h'.captures⟩

@[simp] theorem slots_insert (f : FunctionScope) (name : String) (storage : Storage) : (f.insert name storage).slots = f.slots := rfl

@[simp] theorem captures_insert (f : FunctionScope) (name : String) (storage : Storage) :
    (f.insert name storage).captures = f.captures := rfl

@[simp] theorem slots_closeBlock (f : FunctionScope) : f.closeBlock.slots = f.slots := rfl

@[simp] theorem captures_closeBlock (f : FunctionScope) : f.closeBlock.captures = f.captures := rfl

end FunctionScope

/-- Later states of functions, one by one. -/
abbrev ScopesGrow : List FunctionScope → List FunctionScope → Prop := List.Forall₂ FunctionScope.Grows

theorem ScopesGrow.refl (fs : List FunctionScope) : ScopesGrow fs fs :=
  List.forall₂_same.mpr fun f _ => .refl f

theorem ScopesGrow.trans {fs fs' fs'' : List FunctionScope} (h : ScopesGrow fs fs') (h' : ScopesGrow fs' fs'') :
    ScopesGrow fs fs'' := by
  induction h generalizing fs'' with
  | nil => exact h'
  | cons hf _ ih =>
    cases h' with
    | cons hf' hrest => exact .cons (hf.trans hf') (ih hrest)

theorem ScopesGrow.head? {fs fs' : List FunctionScope} (h : ScopesGrow fs fs') {f : FunctionScope} (hf : f ∈ fs.head?) :
    ∃ f' ∈ fs'.head?, f.Grows f' := by
  cases h with
  | nil => cases hf
  | cons hgrows _ =>
    cases hf
    exact ⟨_, rfl, hgrows⟩

theorem ScopesGrow.getLast? {fs fs' : List FunctionScope} (h : ScopesGrow fs fs') {f : FunctionScope}
    (hf : f ∈ fs.getLast?) : ∃ f' ∈ fs'.getLast?, f.Grows f' := by
  rw [← List.head?_reverse] at hf ⊢
  exact ScopesGrow.head? (List.forall₂_reverse_iff.mpr h) hf

/-- What has been handed out stays. -/
theorem Storage.In.grow {storage : Storage} {fs fs' : List FunctionScope} (h : storage.In fs) (hgrow : ScopesGrow fs fs') :
    storage.In fs' := by
  cases storage with
  | global slot =>
    obtain ⟨f, hf, hslot⟩ := h
    obtain ⟨f', hf', hgrows⟩ := hgrow.getLast? hf
    exact ⟨f', hf', Nat.lt_of_lt_of_le hslot hgrows.slots⟩
  | frame slot =>
    obtain ⟨hlength, f, hf, hslot⟩ := h
    obtain ⟨f', hf', hgrows⟩ := hgrow.head? hf
    exact ⟨hgrow.length_eq ▸ hlength, f', hf', Nat.lt_of_lt_of_le hslot hgrows.slots⟩
  | builtin index => exact h
  | captured index =>
    obtain ⟨f, hf, hindex⟩ := h
    obtain ⟨f', hf', hgrows⟩ := hgrow.head? hf
    exact ⟨f', hf', Nat.lt_of_lt_of_le hindex hgrows.captures.length_le⟩
  | running => exact Nat.le_trans h (Nat.le_of_eq hgrow.length_eq)

/-- What the whole program shares is there in the functions inside as well. -/
theorem Storage.In.inside {storage : Storage} {next : FunctionScope} {rest : List FunctionScope} (h : storage.In (next :: rest))
    (hshared : ¬ storage.OfCall) (f : FunctionScope) : storage.In (f :: next :: rest) := by
  cases storage with
  | global slot => exact h
  | builtin index => exact h
  | frame | captured | running => exact absurd trivial hshared

/-- Every name of some blocks stands for something that is there. -/
def NamesIn (maps : List SymbolMap) (fs : List FunctionScope) : Prop :=
  ∀ m ∈ maps, ∀ (name : String) storage, m[name]? = some storage → storage.In fs

theorem NamesIn.grow {maps : List SymbolMap} {fs fs' : List FunctionScope} (h : NamesIn maps fs)
    (hgrow : ScopesGrow fs fs') : NamesIn maps fs' :=
  fun m hm name storage hfound => (h m hm name storage hfound).grow hgrow

theorem NamesIn.insert {m : SymbolMap} {maps : List SymbolMap} {fs : List FunctionScope} {name : String}
    {storage : Storage} (h : NamesIn maps fs) (hm : m ∈ maps) (hstorage : storage.In fs) :
    NamesIn [m.insert name storage] fs := by
  intro m' hm' other found hfound
  obtain rfl := List.mem_singleton.mp hm'
  rw [SymbolMap.getElem?_insert] at hfound
  split at hfound
  case isTrue =>
    cases hfound
    exact hstorage
  case isFalse => exact h m hm other found hfound

theorem namesIn_maps_insert {f : FunctionScope} {fs : List FunctionScope} {name : String} {storage : Storage}
    (h : NamesIn f.maps fs) (hstorage : storage.In fs) : NamesIn (f.insert name storage).maps fs := by
  intro m hm
  rcases FunctionScope.mem_maps_insert hm with hm | ⟨m', hm', rfl⟩
  · exact h m hm
  · exact h.insert hm' hstorage _ List.mem_cons_self

/-- Every name of the functions stands for something that is there, and so does every captured symbol in the function
around. -/
inductive ScopesSound : List FunctionScope → Prop
  | topLevel {f} (hnames : NamesIn f.maps [f]) (hcaptures : f.captures = []) : ScopesSound [f]
  | function {f outer} (hnames : NamesIn f.maps (f :: outer))
      (hcaptures : ∀ symbol ∈ f.captures, symbol.storage.OfCall ∧ symbol.storage.In outer)
      (houter : ScopesSound outer) : ScopesSound (f :: outer)

namespace ScopesSound

theorem names {f : FunctionScope} {outer : List FunctionScope} (h : ScopesSound (f :: outer)) :
    NamesIn f.maps (f :: outer) := by
  cases h with
  | topLevel hnames _ => exact hnames
  | function hnames _ _ => exact hnames

/-- Another state of the innermost function. -/
theorem update {f f' : FunctionScope} {outer : List FunctionScope} (h : ScopesSound (f :: outer))
    (hnames : NamesIn f'.maps (f' :: outer)) (hcaptures : f'.captures = f.captures) : ScopesSound (f' :: outer) := by
  cases h with
  | topLevel _ hnone => exact .topLevel hnames (hcaptures.trans hnone)
  | function _ hsymbols houter => exact .function hnames (hcaptures ▸ hsymbols) houter

theorem exists_topLevel {fs : List FunctionScope} (h : ScopesSound fs) (hlength : fs.length = 1) :
    ∃ f, fs = [f] ∧ f.captures = [] := by
  cases h with
  | topLevel _ hcaptures => exact ⟨_, rfl, hcaptures⟩
  | function _ _ houter => cases houter <;> simp at hlength

theorem find? {f : FunctionScope} {outer : List FunctionScope} (h : ScopesSound (f :: outer)) {name : String}
    {storage : Storage} (hfind : f.find? name = some storage) : storage.In (f :: outer) := by
  obtain ⟨m, hm, hfound⟩ := FunctionScope.exists_map_of_find? hfind
  exact h.names m hm name storage hfound

theorem of_cons {f next : FunctionScope} {rest : List FunctionScope} (h : ScopesSound (f :: next :: rest)) :
    ScopesSound (next :: rest) := by
  cases h with
  | function _ _ houter => exact houter

/-- Later states of the functions around. -/
theorem around {f next : FunctionScope} {rest outer' : List FunctionScope} (h : ScopesSound (f :: next :: rest))
    (houter' : ScopesSound outer') (hgrow : ScopesGrow (next :: rest) outer') : ScopesSound (f :: outer') := by
  cases h with
  | function hnames hcaptures _ =>
    exact .function (hnames.grow (.cons (.refl f) hgrow)) (fun s hs => (hcaptures s hs).imp_right (·.grow hgrow)) houter'

/-- A symbol of the function around is captured. -/
theorem capture {f next : FunctionScope} {rest : List FunctionScope} (h : ScopesSound (f :: next :: rest))
    {name : String} (hnew : f.names.entries[name]? = none) {entry : Entry} (hcall : entry.storage.OfCall)
    (hentry : entry.storage.In (next :: rest)) :
    ScopesSound (f.capture name entry hnew :: next :: rest) ∧ f.Grows (f.capture name entry hnew) ∧
      (Storage.captured f.captures.length).In (f.capture name entry hnew :: next :: rest) := by
  have hgrows : f.Grows (f.capture name entry hnew) := ⟨Nat.le_refl _, List.prefix_append _ _⟩
  have hstorage : (Storage.captured f.captures.length).In (f.capture name entry hnew :: next :: rest) := by
    simp [FunctionScope.capture, Storage.In]
  cases h with
  | function hnames hcaptures houter =>
    refine ⟨.function ?_ ?_ houter, hgrows, hstorage⟩
    · have hnames' := hnames.grow (.cons hgrows (ScopesGrow.refl _))
      intro m hm
      rw [FunctionScope.maps, FunctionScope.blocks_capture, FunctionScope.base_capture] at hm
      rcases List.mem_append.mp hm with hm | hm
      · exact hnames' m (List.mem_append_left _ hm)
      · rw [List.mem_singleton.mp hm]
        exact hnames'.insert f.base_mem_maps hstorage _ List.mem_cons_self
    · intro s hs
      rcases List.mem_append.mp hs with hs | hs
      · exact hcaptures s hs
      · rw [List.mem_singleton.mp hs]
        exact ⟨hcall, hentry⟩

end ScopesSound

namespace SymbolScope

def functions (s : SymbolScope) : List FunctionScope := s.current :: s.enclosing

theorem openBlock_spec {s : SymbolScope} (h : ScopesSound s.functions) :
    ScopesSound s.openBlock.functions ∧ ScopesGrow s.functions s.openBlock.functions := by
  have hgrow : ScopesGrow s.functions s.openBlock.functions := .cons ⟨Nat.le_refl _, List.prefix_rfl⟩ (ScopesGrow.refl _)
  refine ⟨h.update ?_ rfl, hgrow⟩
  intro m hm name storage hfound
  rcases List.mem_cons.mp (s.current.maps_openBlock ▸ hm) with rfl | hm
  · simp at hfound
  · exact (h.names.grow hgrow) m hm name storage hfound

theorem closeBlock_spec {s : SymbolScope} (h : ScopesSound s.functions) :
    ScopesSound s.closeBlock.functions ∧ ScopesGrow s.functions s.closeBlock.functions := by
  have hgrow : ScopesGrow s.functions s.closeBlock.functions :=
    .cons ⟨by simp [closeBlock], by simp [closeBlock]⟩ (ScopesGrow.refl _)
  refine ⟨h.update ?_ (FunctionScope.captures_closeBlock _), hgrow⟩
  intro m hm name storage hfound
  rcases FunctionScope.mem_maps_closeBlock hm with hm | rfl
  · exact (h.names.grow hgrow) m hm name storage hfound
  · simp at hfound

/-- A defined name stands for the slot that is handed out for it. -/
theorem define_spec {s : SymbolScope} (name : String) (h : ScopesSound s.functions) :
    ScopesSound (s.define name).2.functions ∧ ScopesGrow s.functions (s.define name).2.functions ∧
      (s.define name).1.storage.In (s.define name).2.functions := by
  have hgrow : ScopesGrow s.functions (s.define name).2.functions :=
    .cons ⟨Nat.le_succ _, by simp [define]⟩ (ScopesGrow.refl _)
  have hstorage : (s.define name).1.storage.In (s.define name).2.functions := by
    cases hs : s.enclosing with
    | nil => simp [define, isTopLevel, functions, hs, Storage.In]
    | cons outer rest => simp [define, isTopLevel, functions, hs, Storage.In]
  exact ⟨h.update (namesIn_maps_insert (h.names.grow hgrow) hstorage) (by simp [define]), hgrow, hstorage⟩

theorem defineAll_spec {s : SymbolScope} (params : List Ident) (h : ScopesSound s.functions) :
    ScopesSound (params.foldl (fun s param => (s.define param.name).2) s).functions ∧
      ScopesGrow s.functions (params.foldl (fun s param => (s.define param.name).2) s).functions ∧
      (params.foldl (fun s param => (s.define param.name).2) s).current.slots = s.current.slots + params.length := by
  induction params generalizing s with
  | nil => exact ⟨h, .refl _, rfl⟩
  | cons param params ih =>
    obtain ⟨hdefined, hgrow, -⟩ := define_spec param.name h
    obtain ⟨hsound, hrest, hslots⟩ := ih hdefined
    refine ⟨hsound, hgrow.trans hrest, hslots.trans ?_⟩
    simp [define, Nat.add_assoc, Nat.add_comm 1]

/-- A function is entered with one slot for each of its parameters. -/
theorem enterFunction_spec {s : SymbolScope} (name : Option String) (params : List Ident)
    (h : ScopesSound s.functions) :
    ScopesSound (s.enterFunction name params).functions ∧
      ScopesGrow s.functions (s.enterFunction name params).enclosing ∧
      (s.enterFunction name params).current.slots = params.length := by
  have hempty : NamesIn s.enter.current.maps s.enter.functions := by
    intro m hm name storage hfound
    cases (FunctionScope.getElem?_of_mem_maps_empty hm name).symm.trans hfound
  have hentered : ScopesSound s.enter.functions := .function hempty (fun symbol hsymbol => by cases hsymbol) h
  obtain ⟨inner, hinner, hnamed, henclosing, hslots⟩ : ∃ inner : SymbolScope,
      (s.enterFunction name params = params.foldl (fun s param => (s.define param.name).2) inner) ∧
        ScopesSound inner.functions ∧ inner.enclosing = s.functions ∧ inner.current.slots = 0 := by
    cases name with
    | none => exact ⟨s.enter, rfl, hentered, rfl, rfl⟩
    | some name =>
      have hgrow : ScopesGrow s.enter.functions (s.enter.defineRunning name).2.functions :=
        .cons ⟨Nat.le_refl _, List.prefix_rfl⟩ (ScopesGrow.refl _)
      have hrunning : Storage.running.In (s.enter.defineRunning name).2.functions := by
        simp [Storage.In, functions, defineRunning, enter]
      exact ⟨(s.enter.defineRunning name).2, rfl,
        hentered.update (namesIn_maps_insert (hentered.names.grow hgrow) hrunning) rfl, rfl, rfl⟩
  obtain ⟨hsound, hgrow, hparams⟩ := defineAll_spec params hnamed
  rw [hinner]
  refine ⟨hsound, ?_, by rw [hparams, hslots, Nat.zero_add]⟩
  cases hgrow with
  | cons _ hrest => exact henclosing ▸ hrest

/-- Looking a name up captures what it has to, and gives something that is there. -/
theorem resolves_spec {name : String} {f f' : FunctionScope} {outer outer' : List FunctionScope} {found : Option Entry}
    (hresolves : Resolves name f outer found f' outer') (h : ScopesSound (f :: outer)) :
    ScopesSound (f' :: outer') ∧ ScopesGrow (f :: outer) (f' :: outer') ∧ ∀ entry ∈ found, entry.storage.In (f' :: outer') := by
  induction hresolves with
  | @here f outer entry hfind =>
    refine ⟨h, .refl _, ?_⟩
    rintro _ ⟨⟩
    exact h.find? (by rw [FunctionScope.find?, hfind, Option.map_some])
  | nowhere hfind => exact ⟨h, .refl _, fun _ hsome => by cases hsome⟩
  | @unknown f _ _ _ _ hfind _ ih =>
    obtain ⟨hsound, hgrow, -⟩ := ih h.of_cons
    exact ⟨h.around hsound hgrow, .cons (.refl f) hgrow, fun _ hsome => by cases hsome⟩
  | @shared f _ _ entry _ _ hfind _ hshared ih =>
    obtain ⟨hsound, hgrow, hfound⟩ := ih h.of_cons
    refine ⟨h.around hsound hgrow, .cons (.refl f) hgrow, ?_⟩
    rintro _ ⟨⟩
    exact (hfound entry rfl).inside hshared f
  | @capture f _ _ entry _ _ hfind _ hcall ih =>
    obtain ⟨hsound, hgrow, hfound⟩ := ih h.of_cons
    obtain ⟨hcaptured, hgrows, hstorage⟩ := (h.around hsound hgrow).capture hfind hcall (hfound entry rfl)
    refine ⟨hcaptured, .cons hgrows hgrow, ?_⟩
    rintro _ ⟨⟩
    exact hstorage

theorem resolve_spec {s s' : SymbolScope} {name : String} {symbol : Symbol} (h : ScopesSound s.functions)
    (hresolve : s.resolve name = (some symbol, s')) :
    ScopesSound s'.functions ∧ ScopesGrow s.functions s'.functions ∧ symbol.storage.In s'.functions := by
  obtain ⟨hsound, hgrow, hfound⟩ := resolves_spec (resolves_of_resolve hresolve).2 h
  exact ⟨hsound, hgrow, hfound symbol.toEntry rfl⟩

theorem functions_of_leave? {s s' : SymbolScope} {f : FunctionScope} (hleave : s.leave? = some (f, s')) :
    s.functions = f :: s'.functions := by
  obtain ⟨current, enclosing⟩ := s
  cases enclosing with
  | nil => cases hleave
  | cons outer rest =>
    cases hleave
    rfl

/-- A function is left in later states of the functions around it. -/
theorem leave?_spec {s s' : SymbolScope} {f f₀ : FunctionScope} {fs : List FunctionScope}
    (h : ScopesSound s.functions) (hleave : s.leave? = some (f, s')) (hgrow : ScopesGrow (f₀ :: fs) s.functions) :
    ScopesSound s'.functions ∧ ScopesGrow fs s'.functions ∧ f₀.Grows f ∧
      ∀ symbol ∈ f.captures, symbol.storage.OfCall ∧ symbol.storage.In s'.functions := by
  rw [functions_of_leave? hleave] at h hgrow
  cases h with
  | function _ hcaptures houter =>
    cases hgrow with
    | cons hf hrest => exact ⟨houter, hrest, hf, hcaptures⟩

theorem findIdx?_builtins_eq_none {name : String} (h : name ∉ builtins.map (·.name)) :
    (builtins.findIdx? fun b => b.name == name) = none := by
  rw [List.findIdx?_eq_none_iff]
  intro b hb
  rw [beq_eq_false_iff_ne]
  intro heq
  exact h (heq ▸ List.mem_map_of_mem hb)

/-- The names of the top level are those of the built-in functions. -/
theorem topLevel_find? (name : String) :
    topLevel.current.find? name = (builtins.findIdx? fun b => b.name == name).map Storage.builtin := by
  by_cases hname : name ∈ builtins.map (·.name)
  · simp only [builtins, List.map_cons, List.map_nil, List.mem_cons, List.not_mem_nil, or_false] at hname
    rcases hname with rfl | rfl | rfl | rfl | rfl | rfl <;> decide +kernel
  · rw [findIdx?_builtins_eq_none hname]
    simp only [builtins, List.map_cons, List.map_nil, List.mem_cons, List.not_mem_nil, or_false, not_or] at hname
    simp [topLevel, builtins, FunctionScope.find?_insert, FunctionScope.find?_empty, @eq_comm _ _ name, hname]

theorem topLevel_base (name : String) :
    topLevel.current.base[name]? = (builtins.findIdx? fun b => b.name == name).map Storage.builtin := by
  rw [FunctionScope.getElem?_base_of_depth_eq_zero rfl, topLevel_find?]

theorem topLevel_sound : ScopesSound topLevel.functions := by
  refine .topLevel ?_ rfl
  intro m hm name storage hfound
  obtain rfl := List.mem_singleton.mp (FunctionScope.maps_of_depth_eq_zero (f := topLevel.current) rfl ▸ hm)
  rw [topLevel_base] at hfound
  obtain ⟨index, hindex, rfl⟩ := Option.map_eq_some_iff.mp hfound
  exact (List.findIdx?_eq_some_iff_getElem.mp hindex).1

end SymbolScope

/-! ### Generation -/

namespace Generator

/-- Names, captured symbols and places of constants stand for something that is there. -/
structure Sound (g : Generator) : Prop where
  scopes : ScopesSound g.scope.functions
  pool : g.pool.Loadable

/-- Nothing has been taken back in a later state. -/
structure Grows (g g' : Generator) : Prop where
  scopes : ScopesGrow g.scope.functions g'.scope.functions
  pool : g.pool.Grows g'.pool

theorem Grows.trans {g g' g'' : Generator} (h : g.Grows g') (h' : g'.Grows g'') : g.Grows g'' :=
  ⟨ScopesGrow.trans h.scopes h'.scopes, h.pool.trans h'.pool⟩

theorem initial_sound : initial.Sound := ⟨SymbolScope.topLevel_sound, ConstantPool.loadable_empty⟩

end Generator

open Generator

/-- Generation keeps states sound and takes nothing back. -/
theorem Generates.sound {p : Phrase} {g g' : Generator} {code : List CodeLine} (h : Generates p g code g')
    (hsound : g.Sound) : g'.Sound ∧ g.Grows g' := by
  induction h with
  | constant hconstant hadd hplace =>
    obtain ⟨hpool, hgrows, -⟩ := hsound.pool.add hadd hplace
    exact ⟨⟨hsound.scopes, hpool⟩, ⟨ScopesGrow.refl _, hgrows⟩⟩
  | bool | operandsNil | exprsNil | pairsNil | otherwiseNone | stmtsNil | valueNil | functionNil =>
    exact ⟨⟨hsound.scopes, hsound.pool⟩, ⟨ScopesGrow.refl _, .refl _⟩⟩
  | ident hresolve hload =>
    obtain ⟨hscopes, hgrows, -⟩ := SymbolScope.resolve_spec hsound.scopes hresolve
    exact ⟨⟨hscopes, hsound.pool⟩, ⟨hgrows, .refl _⟩⟩
  | chain hfirst hrest ihfirst ihrest | call hfirst hrest _ ihfirst ihrest | index hfirst hrest ihfirst ihrest 
  | exprsCons hfirst hrest ihfirst ihrest | stmtsCons hfirst hrest ihfirst ihrest 
  | valueCons hfirst hrest ihfirst ihrest | functionCons hfirst hrest ihfirst ihrest | operandsCons hfirst hrest ihfirst ihrest =>
    obtain ⟨hsound₁, hgrows₁⟩ := ihfirst ⟨hsound.scopes, hsound.pool⟩
    obtain ⟨hsound₂, hgrows₂⟩ := ihrest ⟨hsound₁.scopes, hsound₁.pool⟩
    exact ⟨⟨hsound₂.scopes, hsound₂.pool⟩, hgrows₁.trans ⟨hgrows₂.scopes, hgrows₂.pool⟩⟩
  | unary _ ih | array _ _ ih | hash _ _ ih | paren _ ih | otherwiseSome _ ih | returnStmt _ ih | exprStmt _ ih 
  | valueExpr _ ih | valueLast _ _ ih | functionExpr _ ih | functionReturn _ ih | functionLet _ ih =>
    obtain ⟨hsound₁, hgrows₁⟩ := ih ⟨hsound.scopes, hsound.pool⟩
    exact ⟨⟨hsound₁.scopes, hsound₁.pool⟩, ⟨hgrows₁.scopes, hgrows₁.pool⟩⟩
  | @function name params body blockSpan span g c g₁ f scope loads hbody hleave htarget hloads hentry hparams hlocals
      hfree ih =>
    obtain ⟨hentered, hgrows, -⟩ := SymbolScope.enterFunction_spec name params hsound.scopes
    obtain ⟨hsound₁, hgrows₁⟩ := ih ⟨hentered, hsound.pool⟩
    obtain ⟨hscopes, hgrows₂, -⟩ := SymbolScope.leave?_spec hsound₁.scopes hleave hgrows₁.scopes
    exact ⟨⟨hscopes, hsound₁.pool⟩, ⟨hgrows.trans hgrows₂, hgrows₁.pool⟩⟩
  | ifElse hcondition hthen hskip helse hleave ihcondition ihthen ihelse
  | pairsCons hcondition hthen helse ihcondition ihthen ihelse =>
    obtain ⟨hsound₁, hgrows₁⟩ := ihcondition hsound
    obtain ⟨hsound₂, hgrows₂⟩ := ihthen ⟨hsound₁.scopes, hsound₁.pool⟩
    obtain ⟨hsound₃, hgrows₃⟩ := ihelse ⟨hsound₂.scopes, hsound₂.pool⟩
    refine ⟨hsound₃, hgrows₁.trans ?_⟩
    exact Grows.trans ⟨hgrows₂.scopes, hgrows₂.pool⟩ ⟨hgrows₃.scopes, hgrows₃.pool⟩
  | @letStmt name value span g c g₁ i hvalue hstore ih =>
    obtain ⟨hsound₁, hgrows₁⟩ := ih ⟨hsound.scopes, hsound.pool⟩
    obtain ⟨hscopes, hgrows, -⟩ := SymbolScope.define_spec name.name hsound₁.scopes
    exact ⟨⟨hscopes, hsound₁.pool⟩, ⟨ScopesGrow.trans hgrows₁.scopes hgrows, hgrows₁.pool⟩⟩
  | valueBlock hbody ih =>
    obtain ⟨hopened, hgrows⟩ := SymbolScope.openBlock_spec hsound.scopes
    obtain ⟨hsound₁, hgrows₁⟩ := ih ⟨hopened, hsound.pool⟩
    obtain ⟨hclosed, hgrows₂⟩ := SymbolScope.closeBlock_spec hsound₁.scopes
    exact ⟨⟨hclosed, hsound₁.pool⟩, ⟨hgrows.trans (ScopesGrow.trans hgrows₁.scopes hgrows₂), hgrows₁.pool⟩⟩

end MonkeyLang
