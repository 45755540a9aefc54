import MonkeyLang.Proofs.ErrorOrder
import MonkeyLang.Proofs.SyntaxErrors
import MonkeyLang.Toolchain
/-!
# Answers to requests to compile

A request goes through stages, and the first stage that finds something wrong is the last: reading, analysis, generating code,
saving. `CompileOutcome` says what is found and what becomes of the store. Reading and analysis find things at places in the
source, and generating and saving find a single thing without a place. So the messages and the lines of an answer belong
together one by one, although nothing in the lists themselves says so.
-/

namespace MonkeyLang

/-! ### Unused declarations -/

namespace DeclarationTable

theorem mem_unused {t : DeclarationTable} {d : Declaration} :
    d ∈ t.unused ↔ d ∈ t.declarations.toList ∧ d.used = false := by
  simp [unused]

theorem mem_unused_of_markUsed {t : DeclarationTable} {name : String} {d : Declaration} (h : d ∈ (t.markUsed name).unused) :
    d ∈ t.unused := by
  rw [mem_unused] at h ⊢
  refine ⟨?_, h.2⟩
  unfold markUsed at h
  split at h
  case h_2 => exact h.1
  case h_1 place _ =>
    obtain ⟨i, hi⟩ := List.mem_iff_getElem?.mp h.1
    rw [Array.toList_modify, List.getElem?_modify] at hi
    obtain ⟨first, hfirst, rfl⟩ := Option.map_eq_some_iff.mp hi
    by_cases hplace : place = i
    · -- The declaration that is marked is used, so it is not the one in question.
      rw [if_pos hplace] at h
      cases h.2
    · rw [if_neg hplace]
      exact List.mem_of_getElem? hfirst

end DeclarationTable

namespace Analyzer

variable {α β : Type} {m : Walk α} {k : α → Walk β} {ts us : List Token}

/-- A step of analysis leaves nothing unused behind but what was unused before, and names among some tokens. -/
def Declares (ts : List Token) (m : Walk α) : Prop := ∀ a r a', m a = .ok (r, a') →
  ∀ d ∈ a'.table.unused, d ∈ a.table.unused ∨ ∃ t ∈ ts, d.span = t.span

namespace Declares

theorem mono (h : Declares us m) (hsubset : us ⊆ ts) : Declares ts m := by
  intro a r a' hm d hd
  rcases h a r a' hm d hd with hbefore | ⟨t, ht, hspan⟩
  · exact .inl hbefore
  · exact .inr ⟨t, hsubset ht, hspan⟩

theorem cons (h : Declares ts m) (t : Token) : Declares (t :: ts) m := h.mono (List.subset_cons_self t ts)

theorem append (h : Declares ts m) (us : List Token) : Declares (ts ++ us) m := h.mono (List.subset_append_left ts us)

theorem bind (h : Declares ts m) (hk : ∀ r, Declares us (k r)) : Declares (ts ++ us) (m >>= k) := by
  intro a r a' hrun d hd
  obtain ⟨r₁, a₁, hm, hrest⟩ := bind_eq_ok.mp hrun
  rcases (hk r₁).mono (List.subset_append_right ts us) a₁ r a' hrest d hd with hd | hplace
  · exact h.append us a r₁ a₁ hm d hd
  · exact .inr hplace

/-- A step that does nothing to the table. -/
theorem of_table_eq (h : ∀ a r a', m a = .ok (r, a') → a'.table = a.table) : Declares ts m := by
  intro a r a' hm d hd
  rw [h a r a' hm] at hd
  exact .inl hd

theorem pure (r : α) : Declares ts (Pure.pure r) := by
  apply of_table_eq
  rintro a _ _ ⟨⟩
  rfl

theorem bind_nil (h : Declares ts m) (hk : ∀ r, Declares [] (k r)) : Declares ts (m >>= k) := by
  rw [← List.append_nil ts]
  exact h.bind hk

theorem discard (h : Declares ts m) : Declares ts (Functor.discard m) := by
  rw [discard_eq]
  exact h.bind_nil fun _ => pure ()

end Declares

theorem declares_openScope : Declares [] openScope := by
  intro a r a' h d hd
  cases h
  exact .inl hd

theorem declares_closeScope : Declares [] closeScope := by
  intro a r a' h d hd
  unfold closeScope DeclarationTable.closeScope? at h
  cases hinner : a.table.inner with
  | nil => simp [hinner] at h
  | cons scope outer =>
    simp only [hinner] at h
    cases h
    exact .inl hd

theorem declares_observeKey (key : KeyType) : Declares [] (observeKey key) := by
  apply Declares.of_table_eq
  rintro a _ _ ⟨⟩
  rfl

theorem declares_checkCall (callee : Expr) (args : Nat) (span : Span) : Declares [] (checkCall callee args span) := by
  apply Declares.of_table_eq
  intro a r a' h
  obtain ⟨a₂, hchecked, rfl | ⟨name, d, e, -, -, -, rfl⟩⟩ := exists_checkCall callee args span a
  · cases h.symm.trans hchecked
    rfl
  · cases h.symm.trans hchecked
    rfl

/-- Using a name leaves fewer declarations unused. -/
theorem declares_refer (name : Ident) : Declares ts (refer name) := by
  intro a r a' h d hd
  cases hfind : a.table.find? name.name with
  | none =>
    rw [refer_of_find?_eq_none hfind] at h
    cases h
    exact .inl hd
  | some d' =>
    rw [refer_of_find? hfind] at h
    cases h
    exact .inl (DeclarationTable.mem_unused_of_markUsed hd)

theorem declares_declare (name : Token) (binding : Binding) : Declares [name] (declare name.ident binding) := by
  intro a r a' h d hd
  cases h
  dsimp only [DeclarationTable.declare] at hd
  cases hfirst : a.table.innermost[name.ident.name]?.bind fun place => a.table.declarations[place]? with
  | some first =>
    simp only [hfirst] at hd
    exact .inl hd
  | none =>
    simp only [hfirst, DeclarationTable.mem_unused, DeclarationTable.toList_add, List.mem_append] at hd
    rcases hd with ⟨hd | hd, hused⟩
    · exact .inl (DeclarationTable.mem_unused.mpr ⟨hd, hused⟩)
    · rw [List.mem_singleton.mp hd]
      exact .inr ⟨name, List.mem_singleton_self name, rfl⟩

theorem Declares.walkBlock {b : Block} (h : Declares ts (walkBody b)) : Declares ts (walkBlock b) := by
  cases b with
  | mk ss span =>
    rw [walkBody] at h
    rw [Analyzer.walkBlock]
    exact declares_openScope.bind fun _ => h.bind_nil fun _ => declares_closeScope

theorem Declares.hash {ps : List (Expr × Expr)} (h : Declares ts (walkPairs ps)) (brace span : Span) :
    Declares ts (walkExpr (.hash ps brace span)) := by
  have henter : Declares [] (enterHash brace) := by
    apply of_table_eq
    rintro a _ _ ⟨⟩
    rfl
  have hleave : Declares [] leaveHash := by
    apply of_table_eq
    intro a frame a' hrun
    obtain ⟨outer, -, rfl⟩ := leaveHash_eq_ok.mp hrun
    rfl
  have hreport (e : CompilationError) : Declares [] (report e) := by
    apply of_table_eq
    rintro a _ _ ⟨⟩
    rfl
  rw [walkExpr]
  refine henter.bind fun _ => h.bind_nil fun _ => hleave.bind fun frame => ?_
  split
  · exact (hreport _).bind fun _ => .pure _
  · exact .pure _

theorem Declares.letStmt {name : Token} {value : Expr} (h : Declares ts (walkExpr value)) (span : Span) :
    Declares (name :: ts) (walkStmt (.letStmt name.ident value span)) := by
  rw [walkStmt]
  cases value.function? with
  | some literal => exact (declares_declare name _).bind fun _ => h.discard
  | none =>
    refine (h.bind fun binding => declares_declare name binding).mono ?_
    simp

end Analyzer

/-- What is left unused when a piece of syntax is visited. -/
def Node.Declaring (ts : List Token) : Node → Prop
  | expr e => Analyzer.Declares ts (Analyzer.walkExpr e)
  | operands _ rest => Analyzer.Declares ts (Analyzer.walkOperands rest)
  | exprs es => Analyzer.Declares ts (Analyzer.walkExprs es)
  | pairs ps => Analyzer.Declares ts (Analyzer.walkPairs ps)
  | params ps => Analyzer.Declares ts (Analyzer.declareParams ps)
  | block b => Analyzer.Declares ts (Analyzer.walkBody b)
  | stmt s => Analyzer.Declares ts (Analyzer.walkStmt s)
  | stmts ss => Analyzer.Declares ts (Analyzer.walkStmts ss)

open Analyzer in
/-- Whatever is visited declares names among its tokens. -/
theorem Spells.declaring {node : Node} {ts : List Token} (h : Spells node ts) : node.Declaring ts := by
  induction h with
  | int | string | bool =>
    rw [Node.Declaring, walkExpr]
    exact .pure _
  | ident =>
    rw [Node.Declaring, walkExpr]
    exact declares_refer _
  | chain _ _ _ _ ihfirst ihrest =>
    rw [Node.Declaring, walkExpr]
    exact ihfirst.discard.bind fun _ => ihrest.bind_nil fun _ => .pure _
  | unary _ _ _ ih =>
    rw [Node.Declaring, walkExpr]
    exact (ih.discard.bind_nil fun _ => .pure _).cons _
  | call _ _ _ _ _ ihcallee ihargs =>
    rw [Node.Declaring, walkExpr]
    refine ihcallee.discard.bind fun _ => .cons ((declares_checkCall _ _ _).bind fun _ => ?_) _
    exact (ihargs.bind_nil fun _ => .pure _).append _
  | index _ _ _ _ _ ihobject ihindex =>
    rw [Node.Declaring, walkExpr]
    exact ihobject.discard.bind fun _ => ((ihindex.discard.bind_nil fun _ => .pure _).append _).cons _
  | array _ _ _ ih =>
    rw [Node.Declaring, walkExpr]
    exact ((ih.bind_nil fun _ => .pure _).append _).cons _
  | hash _ _ _ ih => exact ((ih.hash _ _).append _).cons _
  | function _ _ _ _ _ ihparams ihbody =>
    rw [Node.Declaring, walkExpr]
    refine ((declares_openScope.bind fun _ => ihparams.bind fun _ => ?_).cons _).cons _
    exact (ihbody.bind_nil fun _ => declares_closeScope.bind_nil fun _ => .pure _).cons _
  | ifThen _ _ _ _ _ ihcondition ihthen =>
    rw [Node.Declaring, walkExpr, walkElse]
    refine ((ihcondition.discard.bind fun _ => ?_).cons _).cons _
    exact (ihthen.walkBlock.bind_nil fun _ => .pure _).cons _
  | ifElse _ _ _ _ _ _ _ ihcondition ihthen ihelse =>
    rw [Node.Declaring, walkExpr, walkElse]
    refine ((ihcondition.discard.bind fun _ => ?_).cons _).cons _
    exact (ihthen.walkBlock.bind fun _ => (ihelse.walkBlock.bind_nil fun _ => .pure _).cons _).cons _
  | paren _ _ _ ih =>
    rw [Node.Declaring, walkExpr]
    exact (ih.append _).cons _
  | operandsNil =>
    rw [Node.Declaring, walkOperands]
    exact .pure _
  | operandsCons _ _ _ _ _ ihoperand ihrest =>
    rw [Node.Declaring, walkOperands]
    exact (ihoperand.discard.bind fun _ => ihrest).cons _
  | exprsNil =>
    rw [Node.Declaring, walkExprs]
    exact .pure _
  | exprsLast _ ih =>
    rw [Node.Declaring, walkExprs, walkExprs]
    exact ih.discard.bind_nil fun _ => .pure _
  | exprsCons _ _ _ _ ihe ihrest =>
    rw [Node.Declaring, walkExprs]
    exact ihe.discard.bind fun _ => ihrest.cons _
  | pairsNil =>
    rw [Node.Declaring, walkPairs]
    exact .pure _
  | pairsLast _ _ _ ihkey ihvalue =>
    rw [Node.Declaring, walkPairs, walkPairs]
    exact (declares_observeKey _).bind fun _ => ihkey.discard.bind fun _ =>
      (ihvalue.discard.bind_nil fun _ => .pure _).cons _
  | pairsCons _ _ _ _ _ _ ihkey ihvalue ihrest =>
    rw [Node.Declaring, walkPairs]
    exact (declares_observeKey _).bind fun _ => ihkey.discard.bind fun _ =>
      (ihvalue.discard.bind fun _ => ihrest.cons _).cons _
  | paramsNil =>
    rw [Node.Declaring, declareParams]
    exact .pure _
  | paramsLast _ =>
    rw [Node.Declaring, declareParams, declareParams]
    exact (declares_declare _ _).bind_nil fun _ => .pure _
  | paramsCons _ _ _ _ ih =>
    rw [Node.Declaring, declareParams]
    exact (declares_declare _ _).bind fun _ => ih.cons _
  | block _ _ _ ih =>
    rw [Node.Declaring, walkBody]
    exact (ih.append _).cons _
  | @letStmt t name equal value ts stop _ _ _ _ _ ih =>
    refine (ih.letStmt _).mono (List.subset_cons_of_subset t (List.cons_subset_cons name ?_))
    exact List.subset_cons_of_subset equal (List.subset_append_left ts stop)
  | returnStmt _ _ _ ih =>
    rw [Node.Declaring, walkStmt]
    exact (ih.discard.append _).cons _
  | exprStmt _ _ ih =>
    rw [Node.Declaring, walkStmt]
    exact ih.discard.append _
  | stmtsNil =>
    rw [Node.Declaring, walkStmts]
    exact .pure _
  | stmtsCons _ _ ihs ihrest =>
    rw [Node.Declaring, walkStmts]
    exact ihs.bind fun _ => ihrest

/-- Analysis of a program that is read without an error comes to its end, and every error it gives is on a line of the source. -/
theorem exists_analyze_onLine {source : String} {program : Program} (h : Program.parse source = .ok program)
    (options : AnalysisOptions) : ∃ analysis, analyze options program = .ok analysis ∧
      ∀ e ∈ analysis.errors, ∃ s, e.span? = some s ∧ s.OnLine source := by
  obtain ⟨tokens, hscan, hspells⟩ := Program.spells_of_parse h
  have honLine (t : Token) (ht : t ∈ tokens) : t.span.OnLine source := by
    refine Lexeme.onLine_of_scan (Prod.ext hscan rfl : Lexeme.scan source = (tokens.map .token, (Lexeme.scan source).2)) ?_
    rw [List.map_map]
    exact .inr (List.mem_map_of_mem ht)
  have hroot : program.phraseAt [] = some program.root := rfl
  obtain ⟨r, a, hrun, -⟩ := Analyzer.Knows.run program.root hroot (.initial program)
  obtain ⟨⟨⟩, a', hvisit, hreturn⟩ := bind_eq_ok.mp hrun
  cases hreturn
  have hfound : ∀ e ∈ a.errors.toList, ∃ s, e.span? = some s ∧ s.OnLine source := by
    obtain ⟨-, es, herrors, hes⟩ := hspells.orderly (inSequence_of_scan hscan) _ _ _ hvisit
    intro e he
    rw [herrors] at he
    obtain ⟨s, t, hs, ht, hstart⟩ := hes.places e he
    have hline : t.span.line = s.line := congrArg Position.line hstart
    have ht' := honLine t ht
    rw [Span.OnLine, hline] at ht'
    exact ⟨s, hs, ht'⟩
  have hunused : ∀ e ∈ a.table.unused.map Declaration.unusedError, ∃ s, e.span? = some s ∧ s.OnLine source := by
    intro e he
    obtain ⟨d, hd, rfl⟩ := List.mem_map.mp he
    rcases hspells.declaring _ _ _ hvisit d hd with hbuiltin | ⟨t, ht, hspan⟩
    · -- The built-in functions count as used from the start.
      have hnone : Analyzer.initial.table.unused = [] := by decide +kernel
      rw [hnone] at hbuiltin
      cases hbuiltin
    · exact ⟨d.span, rfl, hspan ▸ honLine t ht⟩
  unfold analyze
  rw [Analyzer.visitStmts_eq, hvisit]
  cases options.unusedAsError with
  | false => exact ⟨_, rfl, hfound⟩
  | true =>
    refine ⟨_, rfl, ?_⟩
    intro e he
    rcases List.mem_append.mp he with he | he
    · exact hfound e he
    · exact hunused e he

/-! ### Outcomes -/

theorem Program.parse_eq_ok {source : String} {program : Program} (h : Program.parse source = .ok program) :
    (Program.read source).errors = [] ∧ (Program.read source).program = program := by
  unfold Program.parse at h
  dsimp only at h
  split at h
  case isTrue hempty =>
    cases h
    exact ⟨List.isEmpty_iff.mp hempty, rfl⟩
  case isFalse => cases h

theorem Program.parse_eq_error {source : String} {errors : List ParseError} (h : Program.parse source = .error errors) :
    errors = (Program.read source).errors ∧ errors ≠ [] := by
  unfold Program.parse at h
  dsimp only at h
  split at h
  case isTrue => cases h
  case isFalse hempty =>
    cases h
    exact ⟨rfl, fun hnil => hempty (List.isEmpty_iff.mpr hnil)⟩

inductive Finding where
  | syntactic (e : ParseError)
  | semantic (e : CompilationError)
  | unsaved (cause : ToolError)

namespace Finding

def message : Finding → String
  | syntactic e => e.message
  | semantic e => e.message
  | unsaved cause => "Failed to save file. " ++ cause.message

def span? : Finding → Option Span
  | syntactic e => some e.span
  | semantic e => e.span?
  | unsaved _ => none

end Finding

section

variable {σ : Type} {options : AnalysisOptions} {save : List UInt8 → σ → Except ToolError σ} {source : String}
  {store store' : σ} {findings : List Finding}

/-- What a request finds wrong and what becomes of the store, stage by stage. -/
inductive CompileOutcome (options : AnalysisOptions) (save : List UInt8 → σ → Except ToolError σ) (source : String)
    (store : σ) : List Finding → σ → Prop
  | syntactic {errors} (hparse : Program.parse source = .error errors) :
      CompileOutcome options save source store (errors.map .syntactic) store
  | semantic {program analysis} (hparse : Program.parse source = .ok program)
      (hanalyze : analyze options program = .ok analysis) (herrors : analysis.errors ≠ []) :
      CompileOutcome options save source store (analysis.errors.map .semantic) store
  | internal {program analysis cause} (hparse : Program.parse source = .ok program)
      (hanalyze : analyze options program = .ok analysis) (herrors : analysis.errors = [])
      (hgenerate : generate program = .error cause) :
      CompileOutcome options save source store [.semantic (.internal cause.message)] store
  | unsaved {program analysis executable cause} (hparse : Program.parse source = .ok program)
      (hanalyze : analyze options program = .ok analysis) (herrors : analysis.errors = [])
      (hgenerate : generate program = .ok executable) (hsave : save executable.toBytes store = .error cause) :
      CompileOutcome options save source store [.unsaved cause] store
  | saved {program analysis executable store'} (hparse : Program.parse source = .ok program)
      (hanalyze : analyze options program = .ok analysis) (herrors : analysis.errors = [])
      (hgenerate : generate program = .ok executable) (hsave : save executable.toBytes store = .ok store') :
      CompileOutcome options save source store [] store'

/-- Findings have places in the source, unless there is only one. -/
theorem CompileOutcome.located (h : CompileOutcome options save source store findings store') :
    (∀ f ∈ findings, ∃ s, f.span? = some s ∧ s.OnLine source) ∨ ∃ f, findings = [f] ∧ f.span? = none := by
  cases h with
  | @syntactic errors hparse =>
    obtain ⟨rfl, -⟩ := Program.parse_eq_error hparse
    refine .inl ?_
    intro f hf
    obtain ⟨e, he, rfl⟩ := List.mem_map.mp hf
    exact ⟨e.span, rfl, Program.onLine_of_mem_errors he⟩
  | semantic hparse hanalyze =>
    obtain ⟨analysis', hanalyze', honLine⟩ := exists_analyze_onLine hparse options
    cases hanalyze.symm.trans hanalyze'
    refine .inl ?_
    intro f hf
    obtain ⟨e, he, rfl⟩ := List.mem_map.mp hf
    exact honLine e he
  | internal => exact .inr ⟨_, rfl, rfl⟩
  | unsaved => exact .inr ⟨_, rfl, rfl⟩
  | saved => exact .inl nofun

end

/-! ### Diagnostics -/

namespace Diagnostics

/-- The messages are those of some findings, and the lines those of the findings that have one. -/
structure Lists (d : Diagnostics) (findings : List Finding) : Prop where
  errors : d.errors.toList = findings.map Finding.message
  lines : d.lines.toList = findings.filterMap fun f => f.span?.map Span.line

variable {d : Diagnostics} {findings : List Finding} {f : Finding} {span : Span}

theorem Lists.addError (h : d.Lists findings) (hf : f.span? = some span) :
    (d.addError f.message span.line).Lists (findings ++ [f]) := by
  constructor
  · rw [List.map_append, ← h.errors]
    exact Array.toList_push
  · rw [List.filterMap_append, ← h.lines, List.filterMap_cons_some (by rw [hf, Option.map_some])]
    exact Array.toList_push

theorem Lists.addUnlocated (h : d.Lists findings) (hf : f.span? = none) : (d.addUnlocated f.message).Lists (findings ++ [f]) := by
  constructor
  · rw [List.map_append, ← h.errors]
    exact Array.toList_push
  · rw [List.filterMap_append, ← h.lines, List.filterMap_cons_none (by rw [hf, Option.map_none])]
    exact (List.append_nil _).symm

theorem lists_ofCompilationErrors (errors : List CompilationError) :
    (ofCompilationErrors errors).Lists (errors.map .semantic) := by
  induction errors using List.reverseRecOn with
  | nil => exact ⟨rfl, rfl⟩
  | append_singleton errors e ih =>
    rw [ofCompilationErrors, List.foldl_concat, List.map_append, addCompilationError]
    cases hspan : e.span? with
    | none => exact ih.addUnlocated (f := .semantic e) hspan
    | some span => exact ih.addError (f := .semantic e) hspan

theorem lists_ofParseErrors (errors : List ParseError) : (ofParseErrors errors).Lists (errors.map .syntactic) := by
  induction errors using List.reverseRecOn with
  | nil => exact ⟨rfl, rfl⟩
  | append_singleton errors e ih =>
    rw [ofParseErrors, List.foldl_concat, List.map_append]
    exact ih.addError (f := .syntactic e) rfl

theorem Lists.addWarnings (h : d.Lists findings) (warnings : List CompilationError) :
    (warnings.foldl (fun d warning => d.addWarning warning.message) d).Lists findings := by
  induction warnings generalizing d with
  | nil => exact h
  | cons warning warnings ih => exact ih ⟨h.errors, h.lines⟩

/-- The diagnostics of a program that has been compiled, before it is saved. -/
def ofCompilation (errors warnings : List CompilationError) : Diagnostics :=
  warnings.foldl (fun d warning => d.addWarning warning.message) (ofCompilationErrors errors)

theorem lists_ofCompilation (errors warnings : List CompilationError) :
    (ofCompilation errors warnings).Lists (errors.map .semantic) :=
  (lists_ofCompilationErrors errors).addWarnings warnings

/-- If all findings have a place, no line is missing. -/
theorem Lists.map_some_lines (h : d.Lists findings) (hlocated : ∀ f ∈ findings, ∃ s, f.span? = some s) :
    d.lines.toList.map some = findings.map fun f => f.span?.map Span.line := by
  rw [h.lines, List.map_filterMap]
  clear h
  induction findings with
  | nil => rfl
  | cons f findings ih =>
    obtain ⟨s, hs⟩ := hlocated f List.mem_cons_self
    have hrest := ih fun f' hf' => hlocated f' (List.mem_cons_of_mem _ hf')
    rw [List.filterMap_cons_some (by rw [hs, Option.map_some, Option.map_some]), hrest, List.map_cons, hs, Option.map_some]

end Diagnostics

/-! ### Answers -/

section

variable {options : AnalysisOptions} {program : Program} {analysis : Analysis}

theorem compile_of_errors (hanalyze : analyze options program = .ok analysis) (herrors : analysis.errors ≠ []) :
    compile options program = .ok ⟨none, analysis.errors, analysis.warnings⟩ := by
  have hok : analysis.isOk = false := Bool.eq_false_iff.mpr fun hempty => herrors (List.isEmpty_iff.mp hempty)
  rw [compile, hanalyze]
  show (if analysis.isOk then _ else _) = _
  rw [hok, if_neg Bool.false_ne_true]
  rfl

theorem compile_of_generate_error {cause : GenerationError} (hanalyze : analyze options program = .ok analysis)
    (herrors : analysis.errors = []) (hgenerate : generate program = .error cause) :
    compile options program = .ok ⟨none, [.internal cause.message], analysis.warnings⟩ := by
  have hok : analysis.isOk = true := List.isEmpty_iff.mpr herrors
  rw [compile, hanalyze]
  show (if analysis.isOk then _ else _) = _
  rw [hok, if_pos rfl, hgenerate]
  rfl

theorem compile_of_generate {executable : Executable} (hanalyze : analyze options program = .ok analysis)
    (herrors : analysis.errors = []) (hgenerate : generate program = .ok executable) :
    compile options program = .ok ⟨some executable, [], analysis.warnings⟩ := by
  have hok : analysis.isOk = true := List.isEmpty_iff.mpr herrors
  rw [compile, hanalyze]
  show (if analysis.isOk then _ else _) = _
  rw [hok, if_pos rfl, hgenerate]
  rfl

end

section

variable {σ : Type} {options : AnalysisOptions} {source : String} {program : Program} {errors warnings : List CompilationError}
  (save : List UInt8 → σ → Except ToolError σ) (store : σ)

theorem compileSource_of_parse_error {errors : List ParseError} (hparse : Program.parse source = .error errors) :
    compileSource options save source store =
      .ok (⟨.ofParseErrors errors, Outline.ofProgram (Program.read source).program⟩, store) := by
  obtain ⟨rfl, hne⟩ := Program.parse_eq_error hparse
  exact if_neg fun hempty => hne (List.isEmpty_iff.mp hempty)

/-- Without an executable, nothing is saved. -/
theorem compileSource_of_none (hparse : Program.parse source = .ok program)
    (hcompile : compile options program = .ok ⟨none, errors, warnings⟩) :
    compileSource options save source store =
      .ok (⟨.ofCompilation errors warnings, Outline.ofProgram program⟩, store) := by
  obtain ⟨hnone, rfl⟩ := Program.parse_eq_ok hparse
  refine (if_pos (List.isEmpty_iff.mpr hnone)).trans ?_
  rw [hcompile]
  rfl

/-- An executable is saved, and if that fails, the answer says so. -/
theorem compileSource_of_some {executable : Executable} (hparse : Program.parse source = .ok program)
    (hcompile : compile options program = .ok ⟨some executable, errors, warnings⟩) :
    compileSource options save source store =
      match save executable.toBytes store with
      | .ok store => .ok (⟨.ofCompilation errors warnings, Outline.ofProgram program⟩, store)
      | .error cause => .ok (⟨(Diagnostics.ofCompilation errors warnings).addUnlocated (Finding.unsaved cause).message,
          Outline.ofProgram program⟩, store) := by
  obtain ⟨hnone, rfl⟩ := Program.parse_eq_ok hparse
  refine (if_pos (List.isEmpty_iff.mpr hnone)).trans ?_
  rw [hcompile]
  rfl

end

variable {σ : Type}

/-- Every request is answered, and the answer lists what is found. -/
theorem exists_outcome (options : AnalysisOptions) (save : List UInt8 → σ → Except ToolError σ) (source : String) (store : σ) :
    ∃ r store' findings, compileSource options save source store = .ok (r, store') ∧
      CompileOutcome options save source store findings store' ∧ r.diagnostics.Lists findings := by
  cases hparse : Program.parse source with
  | error errors =>
    exact ⟨_, _, _, compileSource_of_parse_error save store hparse, .syntactic hparse, Diagnostics.lists_ofParseErrors _⟩
  | ok program =>
    obtain ⟨analysis, hanalyze, -⟩ := exists_analyze_onLine hparse options
    have hlists (errors : List CompilationError) := Diagnostics.lists_ofCompilation errors analysis.warnings
    by_cases herrors : analysis.errors = []
    · cases hgenerate : generate program with
      | error cause =>
        have hcompile := compile_of_generate_error hanalyze herrors hgenerate
        exact ⟨_, _, _, compileSource_of_none save store hparse hcompile, .internal hparse hanalyze herrors hgenerate, hlists _⟩
      | ok executable =>
        rw [compileSource_of_some save store hparse (compile_of_generate hanalyze herrors hgenerate)]
        cases hsave : save executable.toBytes store with
        | error cause =>
          refine ⟨_, _, _, rfl, .unsaved hparse hanalyze herrors hgenerate hsave, ?_⟩
          exact (hlists []).addUnlocated (f := .unsaved cause) rfl
        | ok store' => exact ⟨_, _, _, rfl, .saved hparse hanalyze herrors hgenerate hsave, hlists []⟩
    · have hcompile := compile_of_errors hanalyze herrors
      exact ⟨_, _, _, compileSource_of_none save store hparse hcompile, .semantic hparse hanalyze herrors, hlists _⟩

/-- An answer tells what has been found. The lines are those of the findings, one for each, all in the source; or else the only
finding has no place, and there are no lines. -/
structure Diagnostics.Tells (d : Diagnostics) (source : String) (findings : List Finding) : Prop where
  messages : d.errors.toList = findings.map Finding.message
  aligned : (d.errors.size = d.lines.size ∧ d.lines.toList.map some = findings.map fun f => f.span?.map Span.line) ∨
    ∃ f, findings = [f] ∧ f.span? = none ∧ d.lines = #[]
  inSource : ∀ line ∈ d.lines, 1 ≤ line ∧ line ≤ source.toList.count '\n' + 1

/-- A request to compile a source is answered whatever becomes of saving, and the answer tells what the first stage that finds
anything has found. Every position on the way fits 32 bits. -/
theorem diagnostics_aligned {source : String} (hsize : source.utf8ByteSize < 2147483648) (options : AnalysisOptions)
    (save : List UInt8 → σ → Except ToolError σ) (store : σ) :
    (Program.read source).fits ∧ ∃ r store' findings, compileSource options save source store = .ok (r, store') ∧
      CompileOutcome options save source store findings store' ∧ r.diagnostics.Tells source findings := by
  refine ⟨Program.read_fits hsize, ?_⟩
  obtain ⟨r, store', findings, hanswer, houtcome, hlists⟩ := exists_outcome options save source store
  refine ⟨r, store', findings, hanswer, houtcome, hlists.errors, ?_, ?_⟩
  · rcases houtcome.located with hlocated | ⟨f, rfl, hf⟩
    · have hlines := hlists.map_some_lines fun f hf => (hlocated f hf).imp fun _ hs => hs.1
      have herrors := congrArg List.length hlists.errors
      have hlength := congrArg List.length hlines
      rw [List.length_map] at herrors hlength
      rw [List.length_map] at hlength
      exact .inl ⟨herrors.trans hlength.symm, hlines⟩
    · exact .inr ⟨f, rfl, hf, by simpa [hf] using hlists.lines⟩
  · intro line hline
    rw [← Array.mem_toList_iff, hlists.lines, List.mem_filterMap] at hline
    obtain ⟨f, hf, hspan⟩ := hline
    obtain ⟨s, hs, rfl⟩ := Option.map_eq_some_iff.mp hspan
    rcases houtcome.located with hlocated | ⟨f', rfl, hf'⟩
    · obtain ⟨s', hs', honLine⟩ := hlocated f hf
      cases hs.symm.trans hs'
      exact honLine
    · cases List.mem_singleton.mp hf
      cases hs.symm.trans hf'

/-- Two names on the first line, one that nothing declares and one that is never used, and another unused one on the second. -/
def threeFindings : String := "let f = fn(x) \x7b y \x7d;\nlet z = f(1);\n"

/-- Nothing can be saved, and there is nothing to save in. -/
def refuse (_ : List UInt8) (_ : Unit) : Except ToolError Unit := .error (.config "monkey.toml" "read-only")

theorem diagnostics_aligned_threeFindings : threeFindings.utf8ByteSize < 2147483648 ∧ (Program.read threeFindings).fits ∧
    ∃ r findings, compileSource ⟨true⟩ refuse threeFindings () = .ok (r, ()) ∧ r.diagnostics.lines = #[1, 1, 2] ∧
      CompileOutcome ⟨true⟩ refuse threeFindings () findings () ∧ r.diagnostics.Tells threeFindings findings := by
  have hsize : threeFindings.utf8ByteSize < 2147483648 := by decide
  obtain ⟨hfits, r, ⟨⟩, findings, hanswer, houtcome, htells⟩ := diagnostics_aligned hsize ⟨true⟩ refuse ()
  have hlines : (compileSource ⟨true⟩ refuse threeFindings ()).toOption.map (·.1.diagnostics.lines) = some #[1, 1, 2] := by
    decide +kernel
  rw [hanswer] at hlines
  exact ⟨hsize, hfits, r, findings, hanswer, Option.some.inj hlines, houtcome, htells⟩

end MonkeyLang
