import MonkeyLang.Proofs.Captures
/-!
# Code put together from parts

The code of a phrase is the code of its parts in order, with instructions of its own in front of each and behind the last.
So each phrase inside of a program has its place in the code of the program: the code of a part lies within that of the
phrase, and parts come one behind the other. A phrase is named by its path, and its place is where generation comes to it.
-/

namespace MonkeyLang

open Generator

def Captureless (code : List CodeLine) : Prop := ∀ l ∈ code, ∀ index, l.instruction ≠ .getFree index

namespace Captureless

theorem nil : Captureless [] := fun _ hl => absurd hl List.not_mem_nil

theorem single {line : Nat} {i : Instruction} (hi : ∀ index, i ≠ .getFree index) : Captureless [⟨line, i⟩] := by
  intro l hl
  rw [List.mem_singleton.mp hl]
  exact hi

end Captureless

/-- The code of the first parts of a phrase that is begun in a state, with the instructions in front of each, and the state
behind it. -/
inductive Assembled (p : Phrase) (g : Generator) : Nat → List CodeLine → Generator → Prop
  | none : Assembled p g 0 [] g
  | part {k code s q own s₁ c s₂} (hbefore : Assembled p g k code s) (hq : p.parts[k]? = some q)
      (henter : enterPart p k s = .ok ((), s₁)) (hown : s₁.offset = s.offset + codeSize own)
      (hcaptureless : Captureless own) (hpart : Generates q s₁ c s₂) : Assembled p g (k + 1) (code ++ (own ++ c)) s₂

namespace Assembled

variable {p q : Phrase} {g s s₁ s₂ : Generator} {k : Nat} {code c : List CodeLine}

/-- A part with no instruction in front of it. -/
theorem plain (hbefore : Assembled p g k code s) (hq : p.parts[k]? = some q) (henter : enterPart p k s = .ok ((), s₁))
    (hoffset : s₁.offset = s.offset + codeSize []) (hpart : Generates q s₁ c s₂) : Assembled p g (k + 1) (code ++ c) s₂ :=
  .part hbefore hq henter hoffset .nil hpart

theorem first (hq : p.parts[0]? = some q) (henter : enterPart p 0 g = .ok ((), s₁))
    (hoffset : s₁.offset = g.offset + codeSize []) (hpart : Generates q s₁ c s₂) : Assembled p g 1 c s₂ :=
  plain .none hq henter hoffset hpart

end Assembled

/-- Whether the code of a phrase has instructions of its own that look up names. -/
def Phrase.looksUp : Phrase → Bool
  | expr _ (.ident _) | expr _ (.function _ _ _) => true
  | _ => false

theorem discard_eq_ok {σ ε α : Type} {x : StateT σ (Except ε) α} {s s' : σ} :
    discard x s = .ok ((), s') ↔ ∃ a, x s = .ok (a, s') := by
  rw [discard_eq, bind_eq_ok]
  constructor
  · rintro ⟨a, s₁, hx, hpure⟩
    cases pure_eq_ok.mp hpure
    exact ⟨a, hx⟩
  · rintro ⟨a, hx⟩
    exact ⟨a, s', hx, rfl⟩

namespace Generator

theorem discard_emit {i : Instruction} {g : Generator} {size : Nat} (hsize : i.size = size) :
    discard (emit i) g = .ok ((), g.skip size) :=
  discard_eq_ok.mpr ⟨_, emit_eq_ok.mpr (by rw [hsize])⟩

theorem discard_emit_byte {op : Opcode} {make : UInt8 → Instruction} {operand : Nat} {g : Generator}
    (hoperand : operand < 256) : (checked (byteOperand op operand) >>= fun n => discard (emit (make n))) g =
      .ok ((), g.skip (make (.ofNat operand)).size) :=
  bind_eq_ok.mpr ⟨_, g, checked_eq_ok.mpr ⟨byteOperand_eq_ok.mpr ⟨hoperand, rfl⟩, rfl⟩, discard_emit rfl⟩

theorem discard_emit_word {op : Opcode} {make : UInt16 → Instruction} {operand : Nat} {g : Generator}
    (hoperand : operand < 65536) : (checked (wordOperand op operand) >>= fun n => discard (emit (make n))) g =
      .ok ((), g.skip (make (.ofNat operand)).size) :=
  bind_eq_ok.mpr ⟨_, g, checked_eq_ok.mpr ⟨wordOperand_eq_ok.mpr ⟨hoperand, rfl⟩, rfl⟩, discard_emit rfl⟩

theorem exists_loadAll {symbols : List Symbol} {loads : List Instruction}
    (h : List.Forall₂ (fun symbol i => symbol.storage.load? = some i) symbols loads) (code : Code) (g : Generator) :
    ∃ code', loadAll code symbols g = .ok (code', g.skip (codeSize (loads.map fun i => ⟨g.line, i⟩))) := by
  induction h generalizing code g with
  | nil => exact ⟨code, rfl⟩
  | @cons symbol i symbols loads hload _ ih =>
    obtain ⟨code', hrest⟩ := ih (code ++ #[⟨g.line, i⟩]) (g.skip i.size)
    refine ⟨code', bind_eq_ok.mpr ⟨_, _, load_eq_ok.mpr ⟨i, hload, rfl⟩, hrest.trans ?_⟩⟩
    simp [skip, Nat.add_assoc]

theorem enterPart_function (name : Option String) (params : List Ident) (body : Block) (span : Span) (g : Generator) :
    enterPart (.expr name (.function params body span)) 0 g =
      .ok ((), (g.skip 3).withScope (g.scope.enterFunction name params)) :=
  bind_eq_ok.mpr ⟨(), g.skip 3, rfl, enterFunction_eq_ok.mpr rfl⟩

end Generator

/-- The code of a phrase is assembled from its parts. -/
theorem Generates.assembled {p : Phrase} {g g' : Generator} {code : List CodeLine} (h : Generates p g code g') :
    ∃ front last s, code = front ++ last ∧ Assembled p g p.parts.length front s ∧ leavePhrase p g s = .ok ((), g') ∧
      (p.looksUp = true ∨ Captureless last) := by
  cases h with
  | @constant name e c _ place pool hconstant hadd hplace =>
    cases e with
    | int value span | string value span =>
      cases hconstant
      exact ⟨[], _, g, rfl, .none, discard_eq_ok.mpr ⟨_, constant_eq_ok.mpr ⟨_, _, hadd, hplace, rfl⟩⟩,
        .inr (.single (by rintro _ ⟨⟩))⟩
    | _ => cases hconstant
  | @bool name value span =>
    exact ⟨[], _, g, rfl, .none, discard_emit (by cases value <;> rfl), .inr (.single (by rintro _ ⟨⟩))⟩
  | ident hresolve hload =>
    exact ⟨[], _, g, rfl, .none, bind_eq_ok.mpr ⟨_, _, resolve_eq_ok.mpr ⟨_, hresolve, rfl⟩,
      discard_eq_ok.mpr ⟨_, load_eq_ok.mpr ⟨_, hload, rfl⟩⟩⟩, .inl rfl⟩
  | chain hfirst hrest | exprsCons hfirst hrest | stmtsCons hfirst hrest =>
    exact ⟨_, [], _, (List.append_nil _).symm, .plain (.first rfl rfl rfl hfirst) rfl rfl rfl hrest, rfl,
      .inr .nil⟩
  | @functionCons s next rest _ c g₁ d _ hfirst hrest | @valueCons s next rest _ c g₁ d _ hfirst hrest =>
    -- What kind of statement it is matters only if it is the last one.
    cases s <;> exact ⟨_, [], _, (List.append_nil _).symm, .plain (.first rfl rfl rfl hfirst) rfl rfl rfl hrest, rfl,
      .inr .nil⟩
  | @unary name op operand span _ c g₁ hoperand =>
    exact ⟨_, _, g₁, rfl, .first rfl rfl rfl hoperand, discard_emit (by cases op <;> rfl),
      .inr (.single (by rintro _ ⟨⟩))⟩
  | call hcallee hargs hcount =>
    exact ⟨_, _, _, rfl, .plain (.first rfl rfl rfl hcallee) rfl rfl rfl hargs, discard_emit_byte hcount,
      .inr (.single (by rintro _ ⟨⟩))⟩
  | index hobject hindex =>
    exact ⟨_, _, _, rfl, .plain (.first rfl rfl rfl hobject) rfl rfl rfl hindex, discard_emit rfl,
      .inr (.single (by rintro _ ⟨⟩))⟩
  | array helements hcount | hash helements hcount =>
    exact ⟨_, _, _, rfl, .first rfl rfl rfl helements, discard_emit_word hcount, .inr (.single (by rintro _ ⟨⟩))⟩
  | @function name params body blockSpan span _ c g₁ f scope loads hbody hleave htarget hloads hentry hparams hlocals
      hfree =>
    have henter := enterPart_function name params (.mk body blockSpan) span g
    have hjump : Captureless [⟨g.line, .jump (.ofNat g₁.offset)⟩] := .single (by rintro _ ⟨⟩)
    refine ⟨_, loads.map (fun i => ⟨span.line, i⟩) ++ [⟨span.line, .closure (.ofNat (g.offset + 3))
      (.ofNat params.length) (.ofNat f.slots) (.ofNat f.captures.length)⟩], g₁, ?_,
      .part .none rfl henter rfl hjump hbody, ?_, .inl rfl⟩
    · simp
    · obtain ⟨code', hloadAll⟩ := exists_loadAll hloads #[] ((g₁.withScope scope).withLine span.line)
      refine bind_eq_ok.mpr ⟨f, _, leaveFunction_eq_ok.mpr ⟨scope, hleave, rfl⟩, ?_⟩
      refine bind_eq_ok.mpr ⟨(), _, discard_eq_ok.mpr ⟨_, here_eq_ok.mpr ⟨htarget, rfl⟩⟩, ?_⟩
      refine bind_eq_ok.mpr ⟨(), _, setLine_eq_ok.mpr rfl, ?_⟩
      refine bind_eq_ok.mpr ⟨(), _, discard_eq_ok.mpr ⟨code', hloadAll⟩, ?_⟩
      exact discard_eq_ok.mpr ⟨_, closure_eq_ok.mpr ⟨hentry, hparams, hlocals, hfree, rfl⟩⟩
  | @ifElse name condition thenBlock elseBlock span _ c g₁ d g₂ e _ hcondition hthen hskip helse hleave =>
    have henter : enterPart (.expr name (.ifElse condition thenBlock elseBlock span)) 2 g₂ = .ok ((), g₂.skip 3) :=
      bind_eq_ok.mpr ⟨(), g₂.skip 3, rfl, discard_eq_ok.mpr ⟨_, here_eq_ok.mpr ⟨hskip, rfl⟩⟩⟩
    have hfirst : Captureless [⟨g₁.line, .jumpIfFalse (.ofNat (g₂.offset + 3))⟩] := .single (by rintro _ ⟨⟩)
    have hsecond : Captureless [⟨g₂.line, .jump (.ofNat g'.offset)⟩] := .single (by rintro _ ⟨⟩)
    refine ⟨_, [], g', ?_, .part (.part (.first rfl rfl rfl hcondition) rfl rfl rfl hfirst hthen) rfl henter rfl
      hsecond helse, discard_eq_ok.mpr ⟨_, here_eq_ok.mpr ⟨hleave, rfl⟩⟩, .inr .nil⟩
    simp
  | paren hinner | otherwiseSome hinner =>
    exact ⟨_, [], _, (List.append_nil _).symm, .first rfl rfl rfl hinner, rfl, .inr .nil⟩
  | operandsNil | exprsNil | pairsNil | stmtsNil => exact ⟨[], [], _, rfl, .none, rfl, .inr .nil⟩
  | @operandsCons op operand rest _ c g₁ d _ hoperand hrest =>
    have hbinary : Captureless [⟨g₁.line, .binary op⟩] := .single (by rintro _ ⟨⟩)
    have hsize : (Instruction.binary op).size = 1 := by cases op <;> rfl
    have hown : (g₁.skip 1).offset = g₁.offset + codeSize [⟨g₁.line, .binary op⟩] := by simp [hsize]
    refine ⟨_, [], g', ?_, .part (.first rfl rfl rfl hoperand) rfl (discard_emit hsize) hown hbinary hrest, rfl,
      .inr .nil⟩
    simp
  | pairsCons hkey hvalue hrest =>
    exact ⟨_, [], _, (List.append_nil _).symm,
      .plain (.plain (.first rfl rfl rfl hkey) rfl rfl rfl hvalue) rfl rfl rfl hrest, rfl, .inr .nil⟩
  | otherwiseNone | valueNil | functionNil =>
    exact ⟨[], _, _, rfl, .none, discard_emit rfl, .inr (.single (by rintro _ ⟨⟩))⟩
  | letStmt hvalue hstore =>
    refine ⟨_, _, _, rfl, .first rfl rfl rfl hvalue, bind_eq_ok.mpr ⟨_, _, define_eq_ok.mpr rfl,
      discard_eq_ok.mpr ⟨_, store_eq_ok.mpr ⟨_, hstore, rfl⟩⟩⟩, .inr (.single ?_)⟩
    rintro index rfl
    generalize (SymbolScope.define _ _).1.storage = storage at hstore
    cases storage <;> simp [Storage.store?] at hstore
  | returnStmt hvalue | exprStmt hvalue | functionExpr hvalue =>
    exact ⟨_, _, _, rfl, .first rfl rfl rfl hvalue, discard_emit rfl, .inr (.single (by rintro _ ⟨⟩))⟩
  | valueBlock hbody => exact ⟨_, [], _, (List.append_nil _).symm, .first rfl rfl rfl hbody, rfl, .inr .nil⟩
  | valueExpr hexpr => exact ⟨_, [], _, (List.append_nil _).symm, .first rfl rfl rfl hexpr, rfl, .inr .nil⟩
  | @valueLast s _ c g₁ hkind hlast =>
    cases s with
    | exprStmt e span => exact absurd rfl (hkind e span)
    | letStmt | returnStmt =>
      exact ⟨_, _, _, rfl, .first rfl rfl rfl hlast, discard_emit rfl, .inr (.single (by rintro _ ⟨⟩))⟩
  | functionReturn hvalue =>
    exact ⟨_, [], _, (List.append_nil _).symm, .first rfl rfl rfl (.returnStmt hvalue), rfl, .inr .nil⟩
  | functionLet hlast =>
    exact ⟨_, _, _, rfl, .first rfl rfl rfl hlast, discard_emit rfl, .inr (.single (by rintro _ ⟨⟩))⟩

/-! ### Generation of assembled code -/

namespace Assembled

variable {p q : Phrase} {g s : Generator} {n k : Nat} {code : List CodeLine}

theorem offset_eq (h : Assembled p g n code s) : s.offset = g.offset + codeSize code := by
  induction h with
  | none => rfl
  | part _ _ _ hown _ hpart ih =>
    rw [hpart.offset_eq, hown, ih]
    simp only [codeSize_append]
    omega

theorem through (h : Assembled p g n code s)
    (hrun : ∀ q ∈ p.parts, ∀ g c g', Generates q g c g' → generation.run q g = .ok ((), g')) :
    ∃ results, generation.through p n g = .ok (results, s) := by
  induction h with
  | none => exact ⟨[], rfl⟩
  | part _ hq henter _ _ hpart ih =>
    obtain ⟨results, hthrough⟩ := ih
    have hpart := hrun _ (List.mem_of_getElem? hq) _ _ _ hpart
    exact ⟨_, (Pass.through_succ_eq_ok hq).mpr ⟨results, _, _, (), _, hthrough, henter, hpart, rfl⟩⟩

end Assembled

/-- Where there is a derivation, generation succeeds with its state. -/
theorem Generates.run {p : Phrase} {g g' : Generator} {code : List CodeLine} (h : Generates p g code g') :
    generation.run p g = .ok ((), g') := by
  obtain ⟨front, last, s, -, hparts, hleave, -⟩ := h.assembled
  obtain ⟨results, hthrough⟩ := hparts.through fun q hq _ _ _ hpart =>
    have := Phrase.size_lt_of_mem_parts hq
    hpart.run
  exact Pass.run_eq_ok.mpr ⟨results, s, hthrough, hleave⟩
termination_by p.size

/-- What the scope is before a part of a phrase. -/
theorem scope_of_enterPart {p : Phrase} {k : Nat} {s s₁ : Generator} (h : enterPart p k s = .ok ((), s₁)) :
    s₁.scope = s.scope ∨
      (∃ name params body span, p = .expr name (.function params body span) ∧
        s₁.scope = s.scope.enterFunction name params) ∨
      (∃ block, p = .valueBlock block ∧ s₁.scope = s.scope.openBlock) := by
  cases hp : p.changesScope with
  | false => exact .inl ((Steady.enterPart hp k s).of_eq_ok h)
  | true =>
    unfold Phrase.changesScope at hp
    split at hp
    case h_1 name params body span =>
      cases k with
      | zero =>
        obtain ⟨_, _, hreserve, henter⟩ := bind_eq_ok.mp h
        cases hreserve
        cases enterFunction_eq_ok.mp henter
        exact .inr (.inl ⟨name, params, body, span, rfl, rfl⟩)
      | succ k =>
        cases pure_eq_ok.mp h
        exact .inl rfl
    case h_2 =>
      cases k with
      | zero =>
        cases setLine_eq_ok.mp h
        exact .inl rfl
      | succ k =>
        cases pure_eq_ok.mp h
        exact .inl rfl
    case h_3 block =>
      cases k with
      | zero =>
        cases modifyScope_eq_ok.mp h
        exact .inr (.inr ⟨block, rfl, rfl⟩)
      | succ k =>
        cases pure_eq_ok.mp h
        exact .inl rfl
    case h_4 => cases hp

theorem wired_of_enterPart {p : Phrase} {k : Nat} {s s₁ : Generator} (h : enterPart p k s = .ok ((), s₁))
    (hwired : ScopesWired s.scope.functions) : ScopesWired s₁.scope.functions := by
  rcases scope_of_enterPart h with hscope | ⟨name, params, _, _, -, hscope⟩ | ⟨_, -, hscope⟩
  · exact hscope ▸ hwired
  · exact hscope ▸ SymbolScope.enterFunction_wired name params hwired
  · exact hscope ▸ hwired.update hwired.capturesNamed.openBlock rfl

namespace Assembled

variable {p q : Phrase} {g s : Generator} {n k : Nat} {code : List CodeLine}

theorem wired (h : Assembled p g n code s) (hwired : ScopesWired g.scope.functions) : ScopesWired s.scope.functions := by
  induction h with
  | none => exact hwired
  | part _ _ henter _ _ hpart ih => exact (hpart.wired (wired_of_enterPart henter ih)).wired

/-- A part in assembled code, with what comes before it. Behind it, the function that it is in may capture more. -/
theorem exists_part (h : Assembled p g n code s) (hwired : ScopesWired g.scope.functions) (hk : k < n) :
    ∃ q before s₀ own s₁ c s₂ behind, p.parts[k]? = some q ∧ Assembled p g k before s₀ ∧
      enterPart p k s₀ = .ok ((), s₁) ∧ s₁.offset = s₀.offset + codeSize own ∧ Generates q s₁ c s₂ ∧
      code = before ++ (own ++ c) ++ behind ∧ s₂.scope.current.captures <+: s.scope.current.captures := by
  induction h with
  | none => exact absurd hk (Nat.not_lt_zero k)
  | @part n code s q own s₁ c s₂ hbefore hq henter hown hcaptureless hpart ih =>
    rcases Nat.lt_or_eq_of_le (Nat.le_of_lt_succ hk) with hlt | rfl
    · obtain ⟨q', before, s₀, own', s₁', c', s₂', behind, hq', hassembled, henter', hown', hpart', rfl, hcaptures⟩ := ih hlt
      refine ⟨q', before, s₀, own', s₁', c', s₂', behind ++ (own ++ c), hq', hassembled, henter', hown', hpart', by simp,
        hcaptures.trans ?_⟩
      obtain ⟨j, rfl⟩ := Nat.exists_eq_add_of_lt hlt
      have hscope : s₁.scope = s.scope :=
        (Steady.enterPart (Phrase.changesScope_of_part hq) _ s).of_eq_ok henter
      have hinside := hpart.wired (wired_of_enterPart henter (hbefore.wired hwired))
      rw [← hscope]
      exact hinside.current.captures
    · exact ⟨q, code, s, own, s₁, c, s₂, [], hq, hbefore, henter, hown, hpart, by simp, List.prefix_rfl⟩

/-- Captured values are used by the parts only. -/
theorem mem_located (h : Assembled p g n code s) {place : Nat} {index : UInt8}
    (hmem : (place, .getFree index) ∈ located g.offset code) :
    ∃ k q before s₀ own s₁ c s₂ behind, p.parts[k]? = some q ∧ Assembled p g k before s₀ ∧
      enterPart p k s₀ = .ok ((), s₁) ∧ s₁.offset = s₀.offset + codeSize own ∧ Generates q s₁ c s₂ ∧
      code = before ++ (own ++ c) ++ behind ∧ (place, .getFree index) ∈ located s₁.offset c := by
  induction h with
  | none => cases hmem
  | @part n code s q own s₁ c s₂ hbefore hq henter hown hcaptureless hpart ih =>
    rw [located_append, located_append, List.mem_append, List.mem_append] at hmem
    rcases hmem with hmem | hmem | hmem
    · obtain ⟨k, q', before, s₀, own', s₁', c', s₂', behind, hq', hassembled, henter', hown', hpart', rfl, hmem'⟩ := ih hmem
      exact ⟨k, q', before, s₀, own', s₁', c', s₂', behind ++ (own ++ c), hq', hassembled, henter', hown', hpart', by simp,
        hmem'⟩
    · obtain ⟨l, hl, hinstruction⟩ := exists_line_of_mem_located hmem
      exact absurd hinstruction.symm (hcaptureless l hl index)
    · rw [← hbefore.offset_eq, ← hown] at hmem
      exact ⟨n, q, code, s, own, s₁, c, s₂, [], hq, hbefore, henter, hown, hpart, by simp, hmem⟩

end Assembled

/-! ### Places of phrases -/

/-- Of two paths one leads on from the other, or one comes before the other. -/
theorem Path.comparable (path other : Path) :
    path <:+ other ∨ other <:+ path ∨ path.Precedes other ∨ other.Precedes path := by
  induction path with
  | nil => exact .inl (List.nil_suffix)
  | cons i path ih =>
    rcases ih with hsuffix | hsuffix | hprecedes | hprecedes
    · obtain ⟨turns, rfl⟩ := hsuffix
      rcases List.eq_nil_or_concat turns with rfl | ⟨more, j, rfl⟩
      · exact .inr (.inl (List.suffix_cons i path))
      · rw [List.concat_eq_append, List.append_assoc, List.singleton_append]
        have hother : j :: path <:+ more ++ j :: path := List.suffix_append more _
        rcases Nat.lt_trichotomy i j with hlt | rfl | hlt
        · exact .inr (.inr (.inl ⟨path, i, j, hlt, List.suffix_rfl, hother⟩))
        · exact .inl hother
        · exact .inr (.inr (.inr ⟨path, j, i, hlt, hother, List.suffix_rfl⟩))
    · exact .inr (.inl (hsuffix.trans (List.suffix_cons i path)))
    · obtain ⟨common, j, k, hlt, hpath, hother⟩ := hprecedes
      exact .inr (.inr (.inl ⟨common, j, k, hlt, hpath.trans (List.suffix_cons i path), hother⟩))
    · exact .inr (.inr (.inr (hprecedes.into i)))

/-- The phrase at a path of a program has its code in that of the program, from where generation comes to it. -/
structure Coded (program : Program) (whole : List CodeLine) (path : Path) (p : Phrase) (g : Generator)
    (code : List CodeLine) (g' : Generator) : Prop where
  reached : program.generatedAt path = some (p, g)
  derived : Generates p g code g'
  placed : CodeAt whole g.offset code
  wired : ScopesWired g.scope.functions

namespace Coded

variable {program : Program} {whole code c : List CodeLine} {path path' : Path} {p q : Phrase} {g g' g₁ g₂ : Generator}
  {k : Nat}

theorem root {last : Generator} (h : Generates program.root .initial whole last) :
    Coded program whole [] program.root .initial whole last :=
  ⟨rfl, h, ⟨[], [], by simp, rfl⟩, SymbolScope.topLevel_wired⟩

theorem unique (h : Coded program whole path p g code g') (h' : Coded program whole path q g₁ c g₂) :
    p = q ∧ g = g₁ ∧ g' = g₂ := by
  obtain ⟨rfl, rfl⟩ : p = q ∧ g = g₁ := by simpa using h.reached.symm.trans h'.reached
  have hrun := h.derived.run.symm.trans h'.derived.run
  exact ⟨rfl, rfl, (Prod.mk.inj (Except.ok.inj hrun)).2⟩

theorem reached_part (h : Coded program whole path p g code g') {before : List CodeLine} {s₀ : Generator}
    (hbefore : Assembled p g k before s₀) (hq : p.parts[k]? = some q) (henter : enterPart p k s₀ = .ok ((), g₁)) :
    program.generatedAt (k :: path) = some (q, g₁) := by
  obtain ⟨results, hthrough⟩ := hbefore.through fun _ _ _ _ _ hpart => hpart.run
  exact Pass.reach_cons_eq_some.mpr ⟨p, g, results, s₀, h.reached, hq, hthrough, henter⟩

theorem of_part (h : Coded program whole path p g code g') {before own behind : List CodeLine} {s₀ : Generator}
    (hbefore : Assembled p g k before s₀) (hq : p.parts[k]? = some q) (henter : enterPart p k s₀ = .ok ((), g₁))
    (hown : g₁.offset = s₀.offset + codeSize own) (hpart : Generates q g₁ c g₂)
    (hcode : code = before ++ (own ++ c) ++ behind) : Coded program whole (k :: path) q g₁ c g₂ := by
  refine ⟨h.reached_part hbefore hq henter, hpart, ?_, wired_of_enterPart henter (hbefore.wired h.wired)⟩
  have hsplit : code = before ++ own ++ (c ++ behind) := by simp [hcode]
  have hat := h.placed
  rw [hsplit] at hat
  refine (hat.right ?_).left
  rw [hown, hbefore.offset_eq, codeSize_append]
  omega

theorem part_unique (h : Coded program whole path p g code g') {before d : List CodeLine} {s₀ s₁ s₂ : Generator}
    {r : Phrase} (hbefore : Assembled p g k before s₀) (hr : p.parts[k]? = some r)
    (henter : enterPart p k s₀ = .ok ((), s₁)) (hpart : Generates r s₁ d s₂)
    (h' : Coded program whole (k :: path) q g₁ c g₂) : q = r ∧ g₁ = s₁ ∧ g₂ = s₂ := by
  obtain ⟨rfl, rfl⟩ : q = r ∧ g₁ = s₁ := by simpa using h'.reached.symm.trans (h.reached_part hbefore hr henter)
  have hrun := h'.derived.run.symm.trans hpart.run
  exact ⟨rfl, rfl, (Prod.mk.inj (Except.ok.inj hrun)).2⟩

/-- A part ends before those behind it are begun. -/
theorem end_le (h : Coded program whole path p g code g') {before : List CodeLine} {s₀ : Generator}
    (hbefore : Assembled p g k before s₀) {i : Nat} (hi : i < k) (h' : Coded program whole (i :: path) q g₁ c g₂) :
    g₂.offset ≤ s₀.offset := by
  obtain ⟨q', first, s, own, s₁, d, s₂, behind, hq', hfirst, henter, hown, hpart, rfl, -⟩ := hbefore.exists_part h.wired hi
  obtain ⟨rfl, rfl, rfl⟩ := h.part_unique hfirst hq' henter hpart h'
  rw [hbefore.offset_eq, hpart.offset_eq, hown, hfirst.offset_eq]
  simp only [codeSize_append]
  omega

/-- Each part of a phrase has its place within the phrase, behind all parts before it. -/
theorem exists_part (h : Coded program whole path p g code g') (hk : p.parts[k]? = some q) :
    ∃ before s₀ g₁ c g₂, Assembled p g k before s₀ ∧ Coded program whole (k :: path) q g₁ c g₂ ∧
      g.offset ≤ s₀.offset ∧ s₀.offset ≤ g₁.offset ∧ g₂.offset ≤ g'.offset := by
  obtain ⟨front, last, s, hcode, hparts, -, -⟩ := h.derived.assembled
  obtain ⟨hlt, -⟩ := List.getElem?_eq_some_iff.mp hk
  obtain ⟨q', before, s₀, own, s₁, c, s₂, behind, hq', hbefore, henter, hown, hpart, hfront, -⟩ :=
    hparts.exists_part h.wired hlt
  obtain rfl : q' = q := Option.some.inj (hq'.symm.trans hk)
  have hs₀ := hbefore.offset_eq
  have hsplit : code = before ++ (own ++ c) ++ (behind ++ last) := by rw [hcode, hfront, List.append_assoc]
  have hcoded := h.of_part hbefore hq' henter hown hpart hsplit
  refine ⟨before, s₀, s₁, c, s₂, hbefore, hcoded, by omega, by omega, ?_⟩
  have hend := h.derived.offset_eq
  rw [hpart.offset_eq, hown, hs₀, hend, hcode, hfront]
  simp only [codeSize_append]
  omega

theorem part_bounds (h : Coded program whole path p g code g') (h' : Coded program whole (k :: path) q g₁ c g₂) :
    p.parts[k]? = some q ∧ g.offset ≤ g₁.offset ∧ g₂.offset ≤ g'.offset := by
  obtain ⟨p', g₀, _, _, hreach, hq, -, -⟩ := Pass.reach_cons_eq_some.mp h'.reached
  obtain ⟨rfl, rfl⟩ : p' = p ∧ g₀ = g := by simpa using hreach.symm.trans h.reached
  obtain ⟨_, _, _, _, _, -, hpart, hle, hle', hge⟩ := h.exists_part hq
  obtain ⟨-, rfl, rfl⟩ := hpart.unique h'
  exact ⟨hq, Nat.le_trans hle hle', hge⟩

section

variable {last : Generator} (hroot : Generates program.root .initial whole last)

include hroot

theorem exists_of_reached (h : program.generatedAt path = some (p, g)) : ∃ code g', Coded program whole path p g code g' := by
  induction path generalizing p g with
  | nil =>
    cases h
    exact ⟨whole, last, root hroot⟩
  | cons k path ih =>
    obtain ⟨p', g₀, _, _, hreach, hq, -, -⟩ := Pass.reach_cons_eq_some.mp h
    obtain ⟨code, g', hcoded⟩ := ih hreach
    obtain ⟨_, _, g₁, c, g₂, -, hpart, -⟩ := hcoded.exists_part hq
    obtain ⟨-, rfl⟩ : p = p ∧ g = g₁ := by simpa using h.symm.trans hpart.reached
    exact ⟨c, g₂, hpart⟩

theorem exists_of_phraseAt (h : program.phraseAt path = some p) : ∃ g code g', Coded program whole path p g code g' := by
  induction path generalizing p with
  | nil =>
    cases h
    exact ⟨_, whole, last, root hroot⟩
  | cons k path ih =>
    obtain ⟨p', hphrase, hq⟩ := Option.bind_eq_some_iff.mp h
    obtain ⟨g, code, g', hcoded⟩ := ih hphrase
    obtain ⟨_, _, g₁, c, g₂, -, hpart, -⟩ := hcoded.exists_part hq
    exact ⟨g₁, c, g₂, hpart⟩

theorem exists_of_suffix (h : Coded program whole path' q g₁ c g₂) (hsuffix : path <:+ path') :
    ∃ p g code g', Coded program whole path p g code g' ∧ g.offset ≤ g₁.offset ∧ g₂.offset ≤ g'.offset := by
  induction path' generalizing q g₁ c g₂ with
  | nil =>
    cases List.suffix_nil.mp hsuffix
    exact ⟨q, g₁, c, g₂, h, Nat.le_refl _, Nat.le_refl _⟩
  | cons k path' ih =>
    rcases List.suffix_cons_iff.mp hsuffix with rfl | hsuffix
    · exact ⟨q, g₁, c, g₂, h, Nat.le_refl _, Nat.le_refl _⟩
    · obtain ⟨p', g₀, _, _, hreach, -⟩ := Pass.reach_cons_eq_some.mp h.reached
      obtain ⟨code', g₀', hparent⟩ := exists_of_reached hroot hreach
      obtain ⟨p, g, code, g', hcoded, hbounds⟩ := ih hparent hsuffix
      have hpart := hparent.part_bounds h
      exact ⟨p, g, code, g', hcoded, by omega, by omega⟩

/-- A phrase lies within those around it. -/
theorem within (h : Coded program whole path p g code g') (h' : Coded program whole path' q g₁ c g₂)
    (hsuffix : path <:+ path') : g.offset ≤ g₁.offset ∧ g₂.offset ≤ g'.offset := by
  obtain ⟨_, _, _, _, hcoded, hbounds⟩ := h'.exists_of_suffix hroot hsuffix
  obtain ⟨-, rfl, rfl⟩ := h.unique hcoded
  exact hbounds

/-- A phrase that comes before another one lies in front of it. -/
theorem le_of_precedes (h : Coded program whole path p g code g') (h' : Coded program whole path' q g₁ c g₂)
    (hprecedes : path.Precedes path') : g'.offset ≤ g₁.offset := by
  obtain ⟨common, i, j, hlt, hpath, hpath'⟩ := hprecedes
  -- The parts in which the two lie belong to one phrase, which has them in this order.
  obtain ⟨_, _, _, e, hfirst, -, hle⟩ := h.exists_of_suffix hroot hpath
  obtain ⟨_, _, _, _, hsecond, hge, -⟩ := h'.exists_of_suffix hroot hpath'
  obtain ⟨_, _, _, _, hcommon, -⟩ := hsecond.exists_of_suffix hroot (List.suffix_cons j common)
  obtain ⟨hq, -⟩ := hcommon.part_bounds hsecond
  obtain ⟨before, s₀, _, _, _, hbefore, hpart, -, hstart, -⟩ := hcommon.exists_part hq
  obtain ⟨-, rfl, -⟩ := hpart.unique hsecond
  have hend := hcommon.end_le hbefore hlt hfirst
  omega

end

end Coded

end MonkeyLang
