import Mathlib.Data.List.ReduceOption
import MonkeyLang.Proofs.DeclarationRecords
/-!
# Checking calls

What analysis says of a call is what the text tells of the thing called. The name that is called is followed from one `let`
to the next until there is something else than a name, and this has a number of parameters, or cannot be called, or is not
known. Nothing else is said of calls.
-/

namespace MonkeyLang

structure CallSite where
  path : Path
  callee : Expr
  args : List Expr
  span : Span

namespace CallSite

/-- What is to be reported of a call: nothing unless a declared name is called, and then what is wrong with calling the
thing behind the name. -/
inductive Checked (program : Program) (c : CallSite) : Option CompilationError → Prop
  | unresolved (hd : program.resolve? (0 :: c.path) c.callee = none) : Checked program c none
  | resolved {name d last} (hname : c.callee.ident? = some name) (hd : program.resolve? (0 :: c.path) c.callee = some d)
      (hlast : program.Leads d last) :
      Checked program c ((program.callable last).error? name c.args.length c.span)

theorem Checked.unique {program : Program} {c : CallSite} {report report' : Option CompilationError}
    (h : c.Checked program report) (h' : c.Checked program report') : report = report' := by
  cases h with
  | unresolved hd =>
    cases h' with
    | unresolved _ => rfl
    | resolved _ hd' _ => cases hd.symm.trans hd'
  | resolved hname hd hlast =>
    cases h' with
    | unresolved hd' => cases hd.symm.trans hd'
    | resolved hname' hd' hlast' =>
      cases hname.symm.trans hname'
      cases hd.symm.trans hd'
      rw [hlast.unique hlast']

theorem Checked.isCall {program : Program} {c : CallSite} {e : CompilationError} (h : c.Checked program (some e)) :
    e.isCall = true := by
  generalize hreport : some e = report at h
  cases h with
  | unresolved _ => cases hreport
  | resolved _ _ _ =>
    unfold Callable.error? at hreport
    repeat' split at hreport
    all_goals cases hreport
    all_goals rfl

end CallSite

/-- The call that is checked at a moment, behind the thing called and before the arguments. -/
def Moment.call? (m : Moment) : Option CallSite :=
  match m.phrase, m.done with
  | .expr _ (.call callee args span), 1 => some ⟨m.path, callee, args, span⟩
  | _, _ => none

theorem Moment.call?_eq_some {m : Moment} {c : CallSite} : m.call? = some c ↔
    ∃ context, m = ⟨c.path, .expr context (.call c.callee c.args c.span), 1⟩ := by
  obtain ⟨path, p, i⟩ := m
  constructor
  · intro h
    unfold call? at h
    split at h
    case h_1 context callee args span hp hi =>
      cases h
      cases hp
      cases hi
      exact ⟨context, rfl⟩
    case h_2 => cases h
  · rintro ⟨context, heq⟩
    cases heq
    rfl

namespace Program

variable (program : Program)

/-- The calls of a program, in the order in which they are checked. -/
def calls : List CallSite := program.moments.filterMap Moment.call?

theorem mem_calls {c : CallSite} : c ∈ program.calls ↔
    ∃ context, program.phraseAt c.path = some (.expr context (.call c.callee c.args c.span)) := by
  rw [calls, List.mem_filterMap]
  constructor
  · rintro ⟨m, hm, hcall⟩
    obtain ⟨context, rfl⟩ := Moment.call?_eq_some.mp hcall
    exact ⟨context, (mem_moments.mp hm).1⟩
  · rintro ⟨context, hphrase⟩
    exact ⟨_, mem_moments.mpr ⟨hphrase, Nat.le_succ 1⟩, Moment.call?_eq_some.mpr ⟨context, rfl⟩⟩

theorem nodup_calls : (program.calls.map CallSite.path).Nodup := by
  apply program.nodup_paths fun _ => 1
  intro m c hcall
  obtain ⟨context, rfl⟩ := Moment.call?_eq_some.mp hcall
  exact ⟨rfl, rfl⟩

end Program

namespace Analyzer

variable {program : Program} {a a' : Analyzer}

def callReport? (a : Analyzer) (callee : Expr) (args : Nat) (span : Span) : Option CompilationError :=
  callee.ident?.bind fun name => (a.table.find? name.name).bind fun d => d.binding.callable.error? name args span

theorem errors_checkCall {callee : Expr} {args : Nat} {span : Span} (h : checkCall callee args span a = .ok ((), a')) :
    a'.errors.toList = a.errors.toList ++ (a.callReport? callee args span).toList := by
  have hcheck {rest : Analyzer → Walk Unit} : ((get : Walk Analyzer) >>= rest) a = rest a a := rfl
  unfold checkCall at h
  rw [hcheck] at h
  unfold callReport?
  cases hname : callee.ident? with
  | none =>
    simp only [hname] at h
    cases h
    exact (List.append_nil _).symm
  | some name =>
    rw [Option.bind_some]
    cases hd : a.table.find? name.name with
    | none =>
      simp only [hname, hd] at h
      cases h
      exact (List.append_nil _).symm
    | some d =>
      rw [Option.bind_some, ← callError?_eq]
      cases he : callError? name d.binding args span with
      | none =>
        simp only [hname, hd, he] at h
        cases h
        exact (List.append_nil _).symm
      | some e =>
        simp only [hname, hd, he] at h
        cases h
        exact Array.toList_push

variable {targets : List Declared} {sites : List NameSite} {depth : Nat} {c : CallSite}

/-- What the table has to say of a call is what is to be reported. -/
theorem Records.checked {context : Option String} (h : a.Records program targets)
    (hphrase : program.phraseAt c.path = some (.expr context (.call c.callee c.args c.span)))
    (hknows : a.Knows program sites (program.scopingAt c.path) depth) (hfront : sites <+: program.sites) :
    c.Checked program (a.callReport? c.callee c.args.length c.span) := by
  have hpart : program.phraseAt (0 :: c.path) = some (.expr none c.callee) := by
    rw [Program.phraseAt, hphrase]
    rfl
  have hscoping : program.scopingAt (0 :: c.path) = program.scopingAt c.path := by
    rw [Program.scopingAt_cons hphrase]
    rfl
  unfold callReport?
  cases hname : c.callee.ident? with
  | none =>
    apply CallSite.Checked.unresolved
    rw [Program.resolve?, hname, Option.bind_none]
  | some name =>
    have hresolve := Program.resolve?_eq hpart hname
    rw [hscoping] at hresolve
    rw [Option.bind_some]
    cases hfind : (program.scopingAt c.path).find? name.name with
    | none =>
      have hident := hknows.table.find?_eq name.name
      rw [hfind, Option.map_none, Option.map_eq_none_iff] at hident
      rw [hident]
      exact .unresolved (hresolve.trans hfind)
    | some d =>
      obtain ⟨declaration, hdeclaration, last, hleads, hlast⟩ := h.find? hknows hfront hfind
      rw [hdeclaration, Option.bind_some, hlast]
      exact .resolved hname (hresolve.trans hfind) hleads

/-- The errors about calls are those of the calls passed. -/
def Calls (program : Program) (calls : List CallSite) (a : Analyzer) : Prop :=
  ∃ reports, List.Forall₂ (CallSite.Checked program) calls reports ∧
    a.errors.toList.filter (·.isCall) = reports.reduceOption

theorem isCall_eq_false_of_isScoping (e : CompilationError) (he : e.isScoping = true) : e.isCall = false := by
  cases e <;> trivial

namespace Calls

variable {calls : List CallSite} {α : Type} {m : Walk α} {r : α}

theorem silent (h : a.Calls program calls) (hsilent : Silent CompilationError.isCall m) (hrun : m a = .ok (r, a')) :
    a'.Calls program calls := by
  obtain ⟨reports, hchecked, herrors⟩ := h
  exact ⟨reports, hchecked, (hsilent a r a' hrun).trans herrors⟩

theorem checkCall {report : Option CompilationError} (h : a.Calls program calls) (hchecked : c.Checked program report)
    (herrors : a'.errors.toList = a.errors.toList ++ report.toList) : a'.Calls program (calls ++ [c]) := by
  obtain ⟨reports, hbefore, hreports⟩ := h
  refine ⟨reports ++ [report], List.rel_append hbefore (.cons hchecked .nil), ?_⟩
  have hcall : report.toList.filter (·.isCall) = report.toList := by
    apply List.filter_eq_self.mpr
    intro e he
    cases Option.mem_toList.mp he
    exact hchecked.isCall
  rw [herrors, List.filter_append, hreports, hcall, List.reduceOption_append]
  cases report <;> rfl

end Calls

/-- At every moment of analysis the calls passed are checked. -/
theorem carries_calls (program : Program) : analysis.Carries program.root .initial fun found a =>
    a.Calls program (found.filterMap Moment.call?) where
  enter := by
    intro path p a i bindings a₁ a₂ found hreach hi hthrough henter h
    rw [List.filterMap_append]
    cases hcall : Moment.call? ⟨path, p, i⟩ with
    | none =>
      rw [List.filterMap_cons_none hcall, List.filterMap_nil, List.append_nil]
      refine h.silent (Silent.enterPart isCall_eq_false_of_isScoping ?_) henter
      rintro context callee args span rfl rfl
      cases hcall
    | some c =>
      rw [List.filterMap_cons_some hcall, List.filterMap_nil]
      obtain ⟨context, heq⟩ := Moment.call?_eq_some.mp hcall
      cases heq
      -- Nothing is declared in the thing called, so the names in force are still those before the call.
      obtain ⟨_, hrecords⟩ := (carries_records program).reached (.initial program) hreach
      have hrecords := (carries_records program).through hreach hrecords (Nat.le_of_lt hi) hthrough
      obtain ⟨sites, depth, hknows, hfront⟩ := Program.exists_knows hreach (Nat.le_of_lt hi) hthrough
      have hphrase := Program.phraseAt_of_reach hreach
      exact h.checkCall (hrecords.checked hphrase hknows ((List.prefix_append _ _).trans hfront)) (errors_checkCall henter)
  leave := by
    intro path p a bindings a₁ r a₂ found hreach hthrough hleave h
    have hnone : Moment.call? ⟨path, p, p.parts.length⟩ = none := by
      rw [Option.eq_none_iff_forall_ne_some]
      intro c hcall
      obtain ⟨context, heq⟩ := Moment.call?_eq_some.mp hcall
      cases heq
    rw [List.filterMap_append, List.filterMap_cons_none hnone, List.filterMap_nil, List.append_nil]
    refine h.silent (Silent.leavePhrase isCall_eq_false_of_isScoping ?_ bindings) hleave
    intro _ _ _ _ _ e he
    cases e <;> trivial

end Analyzer

/-- Analysis never fails, and what it reports of calls is what is to be reported of each, in the order of the calls: nothing,
or one error about the number of arguments or the kind of the thing behind the name. -/
theorem calls_checked_exactly (options : AnalysisOptions) (program : Program) : ∃ result reports,
    analyze options program = .ok result ∧ List.Forall₂ (CallSite.Checked program) program.calls reports ∧
      result.errors.filter (·.isCall) = reports.reduceOption ∧
      (∀ c report report', CallSite.Checked program c report → c.Checked program report' → report = report') ∧
      (∀ c, c ∈ program.calls ↔
        ∃ context, program.phraseAt c.path = some (.expr context (.call c.callee c.args c.span))) ∧
      (program.calls.map CallSite.path).Nodup := by
  have hroot : program.phraseAt [] = some program.root := rfl
  obtain ⟨r, a, hrun, -⟩ := Analyzer.Knows.run program.root hroot (.initial program)
  obtain ⟨reports, hchecked, hreports⟩ := (Analyzer.carries_calls program).run_root ⟨[], .nil, rfl⟩ hrun
  obtain ⟨result, hanalyze, herrors⟩ := exists_analyze_of_run options hrun
  refine ⟨result, reports, hanalyze, hchecked, ?_, fun _ _ _ => CallSite.Checked.unique, fun _ => program.mem_calls,
    program.nodup_calls⟩
  rw [herrors _ fun _ => rfl, hreports]

/-- A function and an array are called by the names of names for them, and a parameter is called. -/
def calledAliases : Program :=
  let call (name : String) (args : List Expr) (line : Nat) : Stmt :=
    .exprStmt (.call (.ident ⟨name, ⟨line, 1, 1⟩⟩) args ⟨line, 1, 4⟩) ⟨line, 1, 5⟩
  ⟨[.letStmt ⟨"f", ⟨1, 5, 1⟩⟩ (.function [⟨"x", ⟨1, 12, 1⟩⟩] (.mk [call "x" [] 1] ⟨1, 15, 7⟩) ⟨1, 9, 13⟩) ⟨1, 1, 22⟩,
    .letStmt ⟨"g", ⟨2, 5, 1⟩⟩ (.paren (.ident ⟨"f", ⟨2, 10, 1⟩⟩) ⟨2, 9, 3⟩) ⟨2, 1, 12⟩,
    .letStmt ⟨"h", ⟨3, 5, 1⟩⟩ (.ident ⟨"g", ⟨3, 9, 1⟩⟩) ⟨3, 1, 10⟩,
    call "h" [.int 1 ⟨4, 3, 1⟩] 4,
    call "h" [] 5,
    .letStmt ⟨"a", ⟨6, 5, 1⟩⟩ (.array [] ⟨6, 9, 2⟩) ⟨6, 1, 11⟩,
    .letStmt ⟨"b", ⟨7, 5, 1⟩⟩ (.ident ⟨"a", ⟨7, 9, 1⟩⟩) ⟨7, 1, 10⟩,
    call "b" [] 8], ⟨1, 1, 90⟩⟩

theorem calls_checked_calledAliases : ∃ reports,
    List.Forall₂ (CallSite.Checked calledAliases) calledAliases.calls reports ∧
      reports.reduceOption = [.argumentCountMismatch "h" 1 0 ⟨5, 1, 4⟩, .notCallable "b" .array ⟨8, 1, 4⟩] := by
  obtain ⟨result, reports, hanalyze, hchecked, hreports, -⟩ := calls_checked_exactly {} calledAliases
  have hresult : analyze {} calledAliases =
      .ok ⟨[.argumentCountMismatch "h" 1 0 ⟨5, 1, 4⟩, .notCallable "b" .array ⟨8, 1, 4⟩], []⟩ := by decide +kernel
  rw [hresult] at hanalyze
  cases hanalyze
  exact ⟨reports, hchecked, hreports.symm⟩

end MonkeyLang
