import MonkeyLang.Proofs.NameChecking
import MonkeyLang.Proofs.Positions
/-!
# The order of errors

The tokens of a source stand in the order of their places, and analysis reports errors at the first tokens of what they are
about. Most are reported before anything behind that token is visited, so they come in the order of the source as well. There
are two exceptions: a name that is taken already is reported behind the value it was to be given, and mixed keys are
reported behind the hash literal, although both point at the front. `errors_in_order` says that nothing else is out of order.
-/

namespace MonkeyLang

/-! ### Places in a source -/

namespace Position

instance : LE Position := ⟨fun p q => p.line < q.line ∨ p.line = q.line ∧ p.column ≤ q.column⟩

theorem le_def {p q : Position} : p ≤ q ↔ p.line < q.line ∨ p.line = q.line ∧ p.column ≤ q.column := Iff.rfl

instance (p q : Position) : Decidable (p ≤ q) := decidable_of_iff _ le_def.symm

theorem le_refl (p : Position) : p ≤ p := .inr ⟨rfl, Nat.le_refl _⟩

theorem le_trans {p q r : Position} (h : p ≤ q) (h' : q ≤ r) : p ≤ r := by
  rw [le_def] at h h' ⊢
  omega

theorem le_afterAll (p : Position) (cs : List Char) : p ≤ p.afterAll cs := by
  induction cs generalizing p with
  | nil => exact le_refl p
  | cons c cs ih =>
    apply le_trans ?_ (ih (p.after c))
    unfold after
    rw [le_def]
    by_cases hc : c = '\n'
    · rw [if_pos hc]
      exact .inl (Nat.lt_succ_self _)
    · rw [if_neg hc]
      exact .inr ⟨rfl, Nat.le_add_right _ _⟩

end Position

def Span.start (s : Span) : Position := ⟨s.line, s.column⟩

theorem Span.start_cover {s s' : Span} (h : s.start ≤ s'.start) : (s.cover s').start = s.start := by
  have hle := Position.le_def.mp h
  change s.line < s'.line ∨ s.line = s'.line ∧ s.column ≤ s'.column at hle
  unfold cover
  by_cases hline : s.line = s'.line
  · rw [if_pos hline]
    have hmin : min s.column s'.column = s.column := by omega
    simp only [start, hmin]
  · rw [if_neg hline]
    rfl

/-- Tokens stand in the order of their places. -/
def InSequence (ts : List Token) : Prop := ts.Pairwise fun t u => t.span.start ≤ u.span.start

theorem Lexeme.Scans.inSequence {cs : List Char} {p stop : Position} {lexemes : List Lexeme}
    (h : Scans cs p lexemes stop) : (∀ l ∈ lexemes, p ≤ l.toToken.span.start) ∧
      lexemes.Pairwise fun l m => l.toToken.span.start ≤ m.toToken.span.start := by
  induction h with
  | stop => exact ⟨nofun, .nil⟩
  | @step cs p lexeme left q lexemes stop hnext _ ih =>
    obtain ⟨gap, c, rest, form, taken, -, -, rfl, rfl⟩ := next?_cases hnext
    have hstart : (ofForm form (p.afterAll gap) taken).toToken.span.start = p.afterAll gap := by cases form <;> rfl
    have hfirst := Position.le_afterAll p gap
    have hbehind : ∀ l ∈ lexemes, p.afterAll gap ≤ l.toToken.span.start := fun l hl =>
      Position.le_trans (Position.le_afterAll _ taken) (ih.1 l hl)
    refine ⟨?_, List.pairwise_cons.mpr ⟨?_, ih.2⟩⟩
    · intro l hl
      rcases List.mem_cons.mp hl with rfl | hl
      · rwa [hstart]
      · exact Position.le_trans hfirst (hbehind l hl)
    · intro l hl
      rw [hstart]
      exact hbehind l hl

theorem inSequence_of_scan {source : String} {ts : List Token} (h : (Lexeme.scan source).1 = ts.map .token) :
    InSequence ts := by
  have hscans := Lexeme.scan_eq_iff.mp (Prod.ext h rfl : Lexeme.scan source = (ts.map .token, (Lexeme.scan source).2))
  have hsequence := hscans.inSequence.2
  rw [List.pairwise_map] at hsequence
  exact hsequence

/-- What starts at the first token and goes on to some token starts there still. -/
theorem InSequence.start_cover {t u : Token} {rest : List Token} {s s' : Span} (h : InSequence (t :: rest))
    (hu : u ∈ t :: rest) (hs : s.start = t.span.start) (hs' : s'.start = u.span.start) :
    (s.cover s').start = t.span.start := by
  have hle : s.start ≤ s'.start := by
    rw [hs, hs']
    rcases List.mem_cons.mp hu with rfl | hu
    · exact Position.le_refl _
    · exact List.rel_of_pairwise_cons h hu
  rw [Span.start_cover hle, hs]

theorem exists_mem_lastSpan {ts : List Token} (h : ts ≠ []) (s : Span) : ∃ t ∈ ts, lastSpan s ts = t.span := by
  induction ts generalizing s with
  | nil => exact absurd rfl h
  | cons t ts ih =>
    rw [lastSpan_cons]
    cases ts with
    | nil => exact ⟨t, List.mem_cons_self, rfl⟩
    | cons u ts =>
      obtain ⟨last, hlast, heq⟩ := ih (List.cons_ne_nil _ _) t.span
      exact ⟨last, List.mem_cons_of_mem _ hlast, heq⟩

def Node.span? : Node → Option Span
  | expr e => some e.span
  | block b => some b.span
  | stmt s => some s.span
  | _ => none

/-- An expression, a block or a statement starts where its first token starts. -/
theorem Spells.start_span {node : Node} {ts : List Token} (h : Spells node ts) (hts : InSequence ts) {s : Span}
    (hs : node.span? = some s) : ∃ t rest, ts = t :: rest ∧ s.start = t.span.start := by
  induction h generalizing s with
  | @int t | @string t | @bool t | @ident t =>
    cases hs
    exact ⟨t, [], rfl, rfl⟩
  | @chain level first rest ts us _ _ hrest hne ih _ =>
    cases hs
    obtain ⟨t, rest', rfl, hfirst⟩ := ih (List.pairwise_append.mp hts).1 rfl
    obtain ⟨u, hu, hlast⟩ := exists_mem_lastSpan (hrest.operands_ne_nil hne) first.span
    refine ⟨t, rest' ++ us, rfl, InSequence.start_cover hts (List.mem_append_right (t :: rest') hu) hfirst ?_⟩
    rw [hlast]
  | @unary t op operand ts _ _ _ ih =>
    cases hs
    obtain ⟨u, rest, rfl, hoperand⟩ := ih (List.pairwise_cons.mp hts).2 rfl
    exact ⟨t, u :: rest, rfl, InSequence.start_cover hts (List.mem_cons_of_mem t List.mem_cons_self) rfl hoperand⟩
  | @call callee args start stop ts us _ _ _ _ _ ih _ | @index object index start stop ts us _ _ _ _ _ ih _ =>
    cases hs
    obtain ⟨t, rest, rfl, hfirst⟩ := ih (List.pairwise_append.mp hts).1 rfl
    refine ⟨t, rest ++ start :: (us ++ [stop]), rfl, InSequence.start_cover hts (u := stop) ?_ hfirst rfl⟩
    simp
  | @array elements start stop us | @hash ps start stop us | @paren inner start stop us | @block start stop ss us =>
    cases hs
    refine ⟨start, us ++ [stop], rfl, InSequence.start_cover hts (u := stop) ?_ rfl rfl⟩
    simp
  | @function t start stop params body us vs _ _ _ _ _ _ ih
  | @ifThen t start stop condition thenBlock us vs _ _ _ _ _ _ ih =>
    cases hs
    have hbody : vs <:+ t :: start :: (us ++ stop :: vs) := ⟨t :: start :: (us ++ [stop]), by simp⟩
    obtain ⟨u, rest, rfl, hblock⟩ := ih (hts.sublist hbody.sublist) rfl
    refine ⟨t, start :: (us ++ stop :: u :: rest), rfl, InSequence.start_cover hts (u := u) ?_ rfl hblock⟩
    simp
  | @ifElse t start stop middle condition thenBlock elseBlock us vs ws _ _ _ _ _ _ _ _ _ ih =>
    cases hs
    have helse : ws <:+ t :: start :: (us ++ stop :: (vs ++ middle :: ws)) :=
      ⟨t :: start :: (us ++ stop :: (vs ++ [middle])), by simp⟩
    obtain ⟨u, rest, rfl, hblock⟩ := ih (hts.sublist helse.sublist) rfl
    refine ⟨t, start :: (us ++ stop :: (vs ++ middle :: u :: rest)), rfl, InSequence.start_cover hts (u := u) ?_ rfl hblock⟩
    simp
  | @letStmt t name equal value ts stop _ _ _ hvalue =>
    cases hs
    obtain ⟨u, hu, hlast⟩ := exists_mem_lastSpan (List.append_ne_nil_of_left_ne_nil hvalue.ne_nil stop) equal.span
    have hmem : u ∈ t :: name :: equal :: (ts ++ stop) := List.mem_append_right [t, name, equal] hu
    exact ⟨t, _, rfl, InSequence.start_cover hts hmem rfl (congrArg Span.start hlast)⟩
  | @returnStmt t value ts stop _ hvalue =>
    cases hs
    obtain ⟨u, hu, hlast⟩ := exists_mem_lastSpan (List.append_ne_nil_of_left_ne_nil hvalue.ne_nil stop) t.span
    exact ⟨t, _, rfl, InSequence.start_cover hts (List.mem_cons_of_mem t hu) rfl (congrArg Span.start hlast)⟩
  | @exprStmt e ts stop he _ ih =>
    cases hs
    obtain ⟨t, rest, rfl, hfirst⟩ := ih (List.pairwise_append.mp hts).1 rfl
    obtain ⟨u, hu, hlast⟩ := exists_mem_lastSpan (List.append_ne_nil_of_left_ne_nil he.ne_nil stop) e.span
    exact ⟨t, rest ++ stop, rfl, InSequence.start_cover hts hu hfirst (congrArg Span.start hlast)⟩
  | _ => cases hs

/-! ### Reports -/

/-- An error points at one of some tokens. -/
def CompilationError.StartsIn (ts : List Token) (e : CompilationError) : Prop :=
  ∃ s t, e.span? = some s ∧ t ∈ ts ∧ t.span.start = s.start

theorem CompilationError.StartsIn.exists_span? {ts : List Token} {e : CompilationError} (h : e.StartsIn ts) :
    ∃ s, e.span? = some s := by
  obtain ⟨s, _, hs, _⟩ := h
  exact ⟨s, hs⟩

/-- What is reported behind all of a piece of syntax, although it points at the front. -/
inductive Node.ReportsBehind : Node → CompilationError → Prop
  /-- A name that is not that of a function literal, and is taken already. -/
  | letStmt {name : Ident} {value span first} (hvalue : value.function? = none) :
      ReportsBehind (.stmt (.letStmt name value span)) (.redeclared name.name first name.span)
  /-- The keys of a hash literal. -/
  | hash {ps brace span} : ReportsBehind (.expr (.hash ps brace span)) (.inconsistentHashKeys brace)

/-- One error comes before another in the source, or else the other is reported behind a piece of syntax that both belong
to. -/
def CompilationError.ReportedBefore (ts : List Token) (e e' : CompilationError) : Prop :=
  ∃ s s', e.span? = some s ∧ e'.span? = some s' ∧
    (s.start ≤ s'.start ∨ ∃ node us, us <:+: ts ∧ Spells node us ∧ node.ReportsBehind e' ∧ e.StartsIn us ∧ e'.StartsIn us)

/-- The errors found in what some tokens spell. -/
structure Reported (ts : List Token) (es : List CompilationError) : Prop where
  places : ∀ e ∈ es, e.StartsIn ts
  order : es.Pairwise (CompilationError.ReportedBefore ts)

namespace Reported

variable {ts us : List Token} {es fs : List CompilationError} {e : CompilationError}

theorem nil (ts : List Token) : Reported ts [] := ⟨nofun, .nil⟩

theorem singleton (h : e.StartsIn ts) : Reported ts [e] :=
  ⟨fun _ he => List.mem_singleton.mp he ▸ h, List.pairwise_singleton _ _⟩

theorem mono (h : Reported us es) (hwithin : us <:+: ts) : Reported ts es := by
  constructor
  · intro e he
    obtain ⟨s, t, hs, ht, hstart⟩ := h.places e he
    exact ⟨s, t, hs, hwithin.subset ht, hstart⟩
  · refine h.order.imp ?_
    rintro e e' ⟨s, s', hs, hs', hle | ⟨node, vs, hvs, hnode⟩⟩
    · exact ⟨s, s', hs, hs', .inl hle⟩
    · exact ⟨s, s', hs, hs', .inr ⟨node, vs, hvs.trans hwithin, hnode⟩⟩

theorem append (h : Reported ts es) (h' : Reported us fs) (hsequence : InSequence (ts ++ us)) :
    Reported (ts ++ us) (es ++ fs) := by
  have hleft := h.mono (List.prefix_append ts us).isInfix
  have hright := h'.mono (List.suffix_append ts us).isInfix
  refine ⟨?_, List.pairwise_append.mpr ⟨hleft.order, hright.order, ?_⟩⟩
  · intro e he
    rcases List.mem_append.mp he with he | he
    · exact hleft.places e he
    · exact hright.places e he
  · intro e he f hf
    obtain ⟨s, t, hs, ht, hstart⟩ := h.places e he
    obtain ⟨s', u, hs', hu, hstart'⟩ := h'.places f hf
    refine ⟨s, s', hs, hs', .inl ?_⟩
    rw [← hstart, ← hstart']
    exact (List.pairwise_append.mp hsequence).2.2 t ht u hu

/-- One more error, reported behind everything that the tokens spell. -/
theorem concat {node : Node} (h : Reported ts es) (hspells : Spells node ts) (hnode : node.ReportsBehind e)
    (he : e.StartsIn ts) : Reported ts (es ++ [e]) := by
  refine ⟨?_, List.pairwise_append.mpr ⟨h.order, List.pairwise_singleton _ _, ?_⟩⟩
  · intro f hf
    rcases List.mem_append.mp hf with hf | hf
    · exact h.places f hf
    · exact List.mem_singleton.mp hf ▸ he
  · intro f hf e' he'
    obtain rfl := List.mem_singleton.mp he'
    obtain ⟨s, hs⟩ := (h.places f hf).exists_span?
    obtain ⟨s', hs'⟩ := he.exists_span?
    exact ⟨s, s', hs, hs', .inr ⟨node, ts, List.infix_rfl, hspells, hnode, h.places f hf, he⟩⟩

end Reported

/-- Where messages about the open hash literals point, innermost first. -/
def HashTracker.anchors (t : HashTracker) : List (Option Span) := t.frames.map HashFrame.anchor

theorem HashTracker.anchors_observe (t : HashTracker) (key : KeyType) : (t.observe key).anchors = t.anchors := by
  unfold observe modifyInnermost
  split
  · rfl
  case h_2 frame outer hframes => simp only [anchors, hframes, List.map_cons]

namespace Analyzer

variable {α β : Type} {m : Walk α} {k : α → Walk β} {ts us : List Token} {a a' : Analyzer}

/-- A step of analysis leaves the hash literals open that it finds open, and adds errors found in what some tokens spell. -/
def Reports (ts : List Token) (m : Walk α) : Prop := InSequence ts → ∀ a r a', m a = .ok (r, a') →
  a'.hashes.anchors = a.hashes.anchors ∧ ∃ es, a'.errors.toList = a.errors.toList ++ es ∧ Reported ts es

/-- A step of analysis does nothing to hash literals and adds at most one error, with some property. -/
def Adds (P : CompilationError → Prop) (m : Walk α) : Prop := ∀ a r a', m a = .ok (r, a') →
  a'.hashes.anchors = a.hashes.anchors ∧ (a'.errors = a.errors ∨ ∃ e, P e ∧ a'.errors = a.errors.push e)

namespace Reports

theorem of_adds {P : CompilationError → Prop} (h : Adds P m) (hP : ∀ e, P e → e.StartsIn ts) : Reports ts m := by
  intro _ a r a' hm
  obtain ⟨hanchors, hsame | ⟨e, he, hpush⟩⟩ := h a r a' hm
  · exact ⟨hanchors, [], by rw [hsame, List.append_nil], .nil ts⟩
  · exact ⟨hanchors, [e], by rw [hpush, Array.toList_push], .singleton (hP e he)⟩

theorem mono (h : Reports us m) (hwithin : us <:+: ts) : Reports ts m := by
  intro hts a r a' hm
  obtain ⟨hanchors, es, herrors, hes⟩ := h (hts.sublist hwithin.sublist) a r a' hm
  exact ⟨hanchors, es, herrors, hes.mono hwithin⟩

theorem cons (h : Reports ts m) (t : Token) : Reports (t :: ts) m := h.mono (List.suffix_cons t ts).isInfix

theorem append (h : Reports ts m) (us : List Token) : Reports (ts ++ us) m := h.mono (List.prefix_append ts us).isInfix

theorem bind (h : Reports ts m) (hk : ∀ r, Reports us (k r)) : Reports (ts ++ us) (m >>= k) := by
  intro hsequence a r a' hrun
  obtain ⟨r₁, a₁, hm, hrest⟩ := bind_eq_ok.mp hrun
  obtain ⟨hts, hus, -⟩ := List.pairwise_append.mp hsequence
  obtain ⟨hanchors, es, herrors, hes⟩ := h hts a r₁ a₁ hm
  obtain ⟨hanchors', fs, herrors', hfs⟩ := hk r₁ hus a₁ r a' hrest
  refine ⟨hanchors'.trans hanchors, es ++ fs, ?_, hes.append hfs hsequence⟩
  rw [herrors', herrors, List.append_assoc]

theorem pure (r : α) : Reports ts (Pure.pure r) := by
  rintro _ a _ _ ⟨⟩
  exact ⟨rfl, [], (List.append_nil _).symm, .nil ts⟩

theorem bind_nil (h : Reports ts m) (hk : ∀ r, Reports [] (k r)) : Reports ts (m >>= k) := by
  rw [← List.append_nil ts]
  exact h.bind hk

theorem discard (h : Reports ts m) : Reports ts (Functor.discard m) := by
  rw [discard_eq]
  exact h.bind_nil fun _ => pure ()

end Reports

theorem adds_refer (name : Ident) : Adds (· = .undeclared name.name name.span) (refer name) := by
  intro a r a' h
  cases hd : a.table.find? name.name with
  | some d =>
    rw [refer_of_find? hd] at h
    cases h
    exact ⟨rfl, .inl rfl⟩
  | none =>
    rw [refer_of_find?_eq_none hd] at h
    cases h
    exact ⟨rfl, .inr ⟨_, rfl, rfl⟩⟩

theorem adds_declare (name : Ident) (binding : Binding) :
    Adds (fun e => ∃ first, e = .redeclared name.name first name.span) (declare name binding) := by
  intro a r a' h
  cases h
  dsimp only [DeclarationTable.declare]
  cases a.table.innermost[name.name]?.bind fun place => a.table.declarations[place]? with
  | some first => exact ⟨rfl, .inr ⟨_, ⟨first.span, rfl⟩, rfl⟩⟩
  | none => exact ⟨rfl, .inl rfl⟩

theorem reports_declare (name : Token) (binding : Binding) : Reports [name] (declare name.ident binding) := by
  apply Reports.of_adds (adds_declare _ binding)
  intro e he
  obtain ⟨first, rfl⟩ := he
  exact ⟨name.span, name, rfl, List.mem_singleton_self name, rfl⟩

theorem reports_openScope : Reports [] openScope := by
  rintro _ a _ _ ⟨⟩
  exact ⟨rfl, [], (List.append_nil _).symm, .nil _⟩

theorem reports_closeScope : Reports [] closeScope := by
  intro _ a _ a' h
  unfold closeScope at h
  split at h
  · cases h
    exact ⟨rfl, [], (List.append_nil _).symm, .nil _⟩
  · cases h

theorem reports_observeKey (key : KeyType) : Reports [] (observeKey key) := by
  rintro _ a _ _ ⟨⟩
  exact ⟨HashTracker.anchors_observe _ _, [], (List.append_nil _).symm, .nil _⟩

theorem Reports.walkBlock {b : Block} (h : Reports ts (walkBody b)) : Reports ts (walkBlock b) := by
  cases b with
  | mk ss span =>
    rw [walkBody] at h
    rw [Analyzer.walkBlock]
    exact reports_openScope.bind fun _ => h.bind_nil fun _ => reports_closeScope

theorem walkExpr_unparen (e : Expr) : walkExpr e.unparen = walkExpr e := by
  fun_induction Expr.unparen e with
  | case1 inner span ih => rw [ih, walkExpr]
  | case2 => rfl

theorem walkExpr_of_ident? {e : Expr} {name : Ident} (h : e.ident? = some name) : walkExpr e = refer name := by
  rw [← walkExpr_unparen]
  unfold Expr.ident? at h
  split at h
  case h_1 hident =>
    cases h
    rw [hident, walkExpr]
  case h_2 => cases h

/-- What is wrong with a call is reported only if nothing is wrong with its callee. -/
theorem Reports.checkCall {callee : Expr} {args : Nat} {span : Span} {t : Token} (h : Reports ts (walkExpr callee))
    (ht : t ∈ ts) (hspan : t.span.start = span.start) :
    Reports ts (do Functor.discard (walkExpr callee); Analyzer.checkCall callee args span) := by
  intro hts a r a' hrun
  obtain ⟨⟨⟩, a₁, hcallee, hcheck⟩ := bind_eq_ok.mp hrun
  obtain ⟨hanchors, es, herrors, hes⟩ := h.discard hts a () a₁ hcallee
  obtain ⟨a₂, hchecked, houtcome⟩ := exists_checkCall callee args span a₁
  cases hcheck.symm.trans hchecked
  rcases houtcome with rfl | ⟨name, d, e, hname, hd, he, rfl⟩
  · exact ⟨hanchors, es, herrors, hes⟩
  · rw [walkExpr_of_ident? hname, discard_eq] at hcallee
    obtain ⟨binding, a₃, hrefer, hpure⟩ := bind_eq_ok.mp hcallee
    cases hpure
    have hsame : a₁.errors = a.errors := by
      cases hfind : a.table.find? name.name with
      | some d' =>
        rw [refer_of_find? hfind] at hrefer
        cases hrefer
        rfl
      | none =>
        rw [refer_of_find?_eq_none hfind] at hrefer
        cases hrefer
        cases hfind.symm.trans hd
    refine ⟨hanchors, [e], ?_, .singleton ⟨span, t, (callError?_eq_some he).2, ht, hspan⟩⟩
    rw [Array.toList_push, hsame]

theorem leaveHash_eq_ok {frame : HashFrame} : leaveHash a = .ok (frame, a') ↔
    ∃ outer, a.hashes.frames = frame :: outer ∧ a' = { a with hashes := ⟨outer⟩ } := by
  unfold leaveHash HashTracker.leave?
  cases a.hashes.frames with
  | nil => simp
  | cons first outer =>
    constructor
    · rintro ⟨⟩
      exact ⟨outer, rfl, rfl⟩
    · rintro ⟨_, ⟨⟩, rfl⟩
      rfl

/-- Mixed keys are reported at the brace, behind all that is in the literal. -/
theorem Reports.hash {ps : List (Expr × Expr)} {start stop : Token} (h : Reports us (walkPairs ps))
    (hspells : Spells (.expr (.hash ps start.span (start.span.cover stop.span))) (start :: (us ++ [stop]))) :
    Reports (start :: (us ++ [stop])) (walkExpr (.hash ps start.span (start.span.cover stop.span))) := by
  intro hts a r a' hrun
  rw [walkExpr] at hrun
  obtain ⟨⟨⟩, a₁, henter, hrun⟩ := bind_eq_ok.mp hrun
  obtain ⟨⟨⟩, a₂, hpairs, hrun⟩ := bind_eq_ok.mp hrun
  obtain ⟨frame, a₃, hleave, hrun⟩ := bind_eq_ok.mp hrun
  cases henter
  obtain ⟨hanchors, es, herrors, hes⟩ := ((h.append [stop]).cons start) hts _ _ _ hpairs
  -- The frame that is left is the one entered, so its anchor is the brace.
  obtain ⟨outer, hframes, rfl⟩ := leaveHash_eq_ok.mp hleave
  change a₂.hashes.frames.map _ = some start.span :: a.hashes.anchors at hanchors
  rw [hframes, List.map_cons, List.cons.injEq] at hanchors
  rw [hanchors.1] at hrun
  by_cases hkeys : frame.keys = .complex
  · rw [if_pos hkeys] at hrun
    cases hrun
    have hplace : CompilationError.StartsIn (start :: (us ++ [stop])) (.inconsistentHashKeys start.span) :=
      ⟨start.span, start, rfl, List.mem_cons_self, rfl⟩
    refine ⟨hanchors.2, es ++ [.inconsistentHashKeys start.span], ?_, hes.concat hspells .hash hplace⟩
    show (a₂.errors.push _).toList = _
    rw [Array.toList_push, herrors, List.append_assoc]
    rfl
  · rw [if_neg hkeys] at hrun
    cases hrun
    exact ⟨hanchors.2, es, herrors, hes⟩

/-- A name that is taken is reported before its value if that is a function literal, and behind it otherwise. -/
theorem Reports.letStmt {name equal t : Token} {value : Expr} {stop : List Token} {span : Span}
    (h : Reports ts (walkExpr value))
    (hspells : Spells (.stmt (.letStmt name.ident value span)) (t :: name :: equal :: (ts ++ stop))) :
    Reports (t :: name :: equal :: (ts ++ stop)) (walkStmt (.letStmt name.ident value span)) := by
  rw [walkStmt]
  cases hvalue : value.function? with
  | some literal => exact ((reports_declare name _).bind fun _ => (h.discard.append stop).cons equal).cons t
  | none =>
    intro hts a r a' hrun
    obtain ⟨binding, a₁, hvisit, hdeclare⟩ := bind_eq_ok.mp hrun
    obtain ⟨hanchors, es, herrors, hes⟩ := (((h.append stop).cons equal).cons name).cons t hts a binding a₁ hvisit
    obtain ⟨hanchors', hsame | ⟨e, ⟨first, rfl⟩, hpush⟩⟩ := adds_declare name.ident binding a₁ () a' hdeclare
    · exact ⟨hanchors'.trans hanchors, es, by rw [hsame, herrors], hes⟩
    · refine ⟨hanchors'.trans hanchors, es ++ [.redeclared name.ident.name first name.ident.span], ?_,
        hes.concat hspells (.letStmt hvalue) ⟨name.span, name, rfl, by simp, rfl⟩⟩
      rw [hpush, Array.toList_push, herrors, List.append_assoc]

end Analyzer

/-- What is reported when a piece of syntax is visited. -/
def Node.Orderly (ts : List Token) : Node → Prop
  | expr e => Analyzer.Reports ts (Analyzer.walkExpr e)
  | operands _ rest => Analyzer.Reports ts (Analyzer.walkOperands rest)
  | exprs es => Analyzer.Reports ts (Analyzer.walkExprs es)
  | pairs ps => Analyzer.Reports ts (Analyzer.walkPairs ps)
  | params ps => Analyzer.Reports ts (Analyzer.declareParams ps)
  | block b => Analyzer.Reports ts (Analyzer.walkBody b)
  | stmt s => Analyzer.Reports ts (Analyzer.walkStmt s)
  | stmts ss => Analyzer.Reports ts (Analyzer.walkStmts ss)

open Analyzer in
/-- Whatever is visited reports in order. -/
theorem Spells.orderly {node : Node} {ts : List Token} (h : Spells node ts) : node.Orderly ts := by
  induction h with
  | int | string | bool =>
    rw [Node.Orderly, walkExpr]
    exact .pure _
  | @ident t _ =>
    rw [Node.Orderly, walkExpr]
    apply Reports.of_adds (adds_refer _)
    intro e he
    exact ⟨t.span, t, he ▸ rfl, List.mem_singleton_self t, rfl⟩
  | chain _ _ _ _ ihfirst ihrest =>
    rw [Node.Orderly, walkExpr]
    exact ihfirst.discard.bind fun _ => ihrest.bind_nil fun _ => .pure _
  | unary _ _ _ ih =>
    rw [Node.Orderly, walkExpr]
    exact (ih.discard.bind_nil fun _ => .pure _).cons _
  | @call callee args start stop ts us hcallee hrank hstart hargs hstop ihcallee ihargs =>
    rw [Node.Orderly, walkExpr, ← bind_assoc]
    intro hsequence
    obtain ⟨t, rest, htokens, hspan⟩ := (Spells.call hcallee hrank hstart hargs hstop).start_span hsequence rfl
    have ht : t ∈ ts := by
      obtain ⟨first, others, rfl⟩ := List.exists_cons_of_ne_nil hcallee.ne_nil
      cases htokens
      exact List.mem_cons_self
    have hrest : Reports (start :: (us ++ [stop])) (do walkExprs args; return Binding.value) :=
      ((ihargs.bind_nil fun _ => .pure _).append _).cons _
    exact (ihcallee.checkCall ht hspan.symm).bind (fun _ => hrest) hsequence
  | index _ _ _ _ _ ihobject ihindex =>
    rw [Node.Orderly, walkExpr]
    exact ihobject.discard.bind fun _ => ((ihindex.discard.bind_nil fun _ => .pure _).append _).cons _
  | array _ _ _ ih =>
    rw [Node.Orderly, walkExpr]
    exact ((ih.bind_nil fun _ => .pure _).append _).cons _
  | hash hstart hpairs hstop ih => exact ih.hash (.hash hstart hpairs hstop)
  | function _ _ _ _ _ ihparams ihbody =>
    rw [Node.Orderly, walkExpr]
    refine ((reports_openScope.bind fun _ => ihparams.bind fun _ => ?_).cons _).cons _
    exact (ihbody.bind_nil fun _ => reports_closeScope.bind_nil fun _ => .pure _).cons _
  | ifThen _ _ _ _ _ ihcondition ihthen =>
    rw [Node.Orderly, walkExpr, walkElse]
    refine ((ihcondition.discard.bind fun _ => ?_).cons _).cons _
    exact (ihthen.walkBlock.bind_nil fun _ => .pure _).cons _
  | ifElse _ _ _ _ _ _ _ ihcondition ihthen ihelse =>
    rw [Node.Orderly, walkExpr, walkElse]
    refine ((ihcondition.discard.bind fun _ => ?_).cons _).cons _
    exact (ihthen.walkBlock.bind fun _ => (ihelse.walkBlock.bind_nil fun _ => .pure _).cons _).cons _
  | paren _ _ _ ih =>
    rw [Node.Orderly, walkExpr]
    exact (ih.append _).cons _
  | operandsNil =>
    rw [Node.Orderly, walkOperands]
    exact .pure _
  | operandsCons _ _ _ _ _ ihoperand ihrest =>
    rw [Node.Orderly, walkOperands]
    exact (ihoperand.discard.bind fun _ => ihrest).cons _
  | exprsNil =>
    rw [Node.Orderly, walkExprs]
    exact .pure _
  | exprsLast _ ih =>
    rw [Node.Orderly, walkExprs, walkExprs]
    exact ih.discard.bind_nil fun _ => .pure _
  | exprsCons _ _ _ _ ihe ihrest =>
    rw [Node.Orderly, walkExprs]
    exact ihe.discard.bind fun _ => ihrest.cons _
  | pairsNil =>
    rw [Node.Orderly, walkPairs]
    exact .pure _
  | pairsLast _ _ _ ihkey ihvalue =>
    rw [Node.Orderly, walkPairs, walkPairs]
    exact (reports_observeKey _).bind fun _ => ihkey.discard.bind fun _ =>
      (ihvalue.discard.bind_nil fun _ => .pure _).cons _
  | pairsCons _ _ _ _ _ _ ihkey ihvalue ihrest =>
    rw [Node.Orderly, walkPairs]
    exact (reports_observeKey _).bind fun _ => ihkey.discard.bind fun _ =>
      (ihvalue.discard.bind fun _ => ihrest.cons _).cons _
  | paramsNil =>
    rw [Node.Orderly, declareParams]
    exact .pure _
  | paramsLast _ =>
    rw [Node.Orderly, declareParams, declareParams]
    exact (reports_declare _ _).bind_nil fun _ => .pure _
  | paramsCons _ _ _ _ ih =>
    rw [Node.Orderly, declareParams]
    exact (reports_declare _ _).bind fun _ => ih.cons _
  | block _ _ _ ih =>
    rw [Node.Orderly, walkBody]
    exact (ih.append _).cons _
  | letStmt hkind hname hequal hvalue hends ih => exact ih.letStmt (.letStmt hkind hname hequal hvalue hends)
  | returnStmt _ _ _ ih =>
    rw [Node.Orderly, walkStmt]
    exact (ih.discard.append _).cons _
  | exprStmt _ _ ih =>
    rw [Node.Orderly, walkStmt]
    exact ih.discard.append _
  | stmtsNil =>
    rw [Node.Orderly, walkStmts]
    exact .pure _
  | stmtsCons _ _ ihs ihrest =>
    rw [Node.Orderly, walkStmts]
    exact ihs.bind fun _ => ihrest

def CompilationError.isUnused : CompilationError → Bool
  | unusedDeclaration _ _ => true
  | _ => false

/-- The errors in a program that is read without an error are reported in the order of the source, unused declarations
apart, but for two kinds: a name that is taken already comes behind the errors in its value, and mixed keys come behind the
errors in their literal. -/
theorem errors_in_order (source : String) (program : Program) (h : Program.parse source = .ok program)
    (options : AnalysisOptions) : ∃ tokens result, (Lexeme.scan source).1 = tokens.map .token ∧
      Spells (.stmts program.stmts) tokens ∧ analyze options program = .ok result ∧
      (result.errors.filter fun e => !e.isUnused).Pairwise (CompilationError.ReportedBefore tokens) := by
  obtain ⟨tokens, hscan, hspells⟩ := Program.spells_of_parse h
  have hroot : program.phraseAt [] = some program.root := rfl
  obtain ⟨r, a, hrun, -⟩ := Analyzer.Knows.run program.root hroot (.initial program)
  obtain ⟨result, hanalyze, hfilter⟩ := exists_analyze_of_run options hrun
  refine ⟨tokens, result, hscan, hspells, hanalyze, ?_⟩
  obtain ⟨⟨⟩, a', hvisit, hreturn⟩ := bind_eq_ok.mp hrun
  cases hreturn
  obtain ⟨-, es, herrors, hes⟩ := hspells.orderly (inSequence_of_scan hscan) _ _ _ hvisit
  rw [hfilter _ fun _ => rfl, herrors]
  exact hes.order.filter _

/-- A name is declared once more, and nothing declares the name in its value. -/
def lateRedeclaration : String := "let a = 1; let a = b;"

/-- The keys of a hash literal are mixed, and nothing declares a name among its values. -/
def lateMixedKeys : String := "\x7b1: x, \"a\": 2\x7d;"

theorem errors_in_order_lateRedeclaration : ∃ program tokens result, Program.parse lateRedeclaration = .ok program ∧
    (Lexeme.scan lateRedeclaration).1 = tokens.map .token ∧ Spells (.stmts program.stmts) tokens ∧
      analyze {} program = .ok result ∧
      (result.errors.filter fun e => !e.isUnused).Pairwise (CompilationError.ReportedBefore tokens) := by
  have hok : (Program.parse lateRedeclaration).isOk := by decide +kernel
  cases hparse : Program.parse lateRedeclaration with
  | error e =>
    rw [hparse] at hok
    cases hok
  | ok program =>
    obtain ⟨tokens, result, hrest⟩ := errors_in_order lateRedeclaration program hparse {}
    exact ⟨program, tokens, result, rfl, hrest⟩

/-- The spans of the errors in a source are not in the order of the source. -/
def Unsorted (source : String) : Prop :=
  ∃ program result, Program.parse source = .ok program ∧ analyze {} program = .ok result ∧
    ¬ ((result.errors.filter fun e => !e.isUnused).filterMap CompilationError.span?).Pairwise
      fun s s' => s.start ≤ s'.start

/-- Whether the spans are out of order can be found by looking at them. -/
theorem unsorted_of_any {source : String}
    (h : ((Program.parse source).toOption.bind fun program => (analyze {} program).toOption).any fun result =>
      decide (¬ ((result.errors.filter fun e => !e.isUnused).filterMap CompilationError.span?).Pairwise
        fun s s' => s.start ≤ s'.start)) : Unsorted source := by
  cases hparse : Program.parse source with
  | error e =>
    rw [hparse] at h
    cases h
  | ok program =>
    rw [hparse, Except.toOption, Option.bind_some] at h
    cases hanalyze : analyze {} program with
    | error e =>
      rw [hanalyze] at h
      cases h
    | ok result =>
      rw [hanalyze] at h
      exact ⟨program, result, hparse, hanalyze, of_decide_eq_true h⟩

theorem errors_not_sorted : Unsorted lateRedeclaration ∧ Unsorted lateMixedKeys :=
  ⟨unsorted_of_any (by decide +kernel), unsorted_of_any (by decide +kernel)⟩

end MonkeyLang
