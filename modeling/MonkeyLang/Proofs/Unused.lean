import MonkeyLang.Proofs.DeclarationRecords
/-!
# Unused declarations

A declaration is unused if no name of the program refers to it, be it in the scope that is open at the end of the program or
in one closed long before. Analysis finds these by the marks in its table, and reports them last, as warnings or as errors.
-/

namespace MonkeyLang

def Declared.unusedError (d : Declared) : CompilationError := .unusedDeclaration d.ident.name d.ident.span

def Declared.isBuiltin (d : Declared) : Bool :=
  match d.origin with
  | .builtin _ => true
  | .letStmt _ | .param _ _ => false

theorem Declared.isBuiltin_iff {d : Declared} : d.isBuiltin = true ↔ ∃ i, d.origin = .builtin i := by
  unfold isBuiltin
  cases d.origin <;> simp

namespace Program

variable (program : Program)

/-- The findings about declarations that are never used, in the order in which they are declared. -/
def unused : List CompilationError :=
  (program.declarations.filter fun d => d ∉ program.used).map Declared.unusedError

/-- The built-in functions count as used. -/
theorem filter_made :
    program.made.filter (fun d => !(d.isBuiltin || decide (d ∈ program.used))) =
      program.declarations.filter fun d => d ∉ program.used := by
  show (Scoping.initial.flatten ++ program.declarations).filter _ = _
  rw [List.filter_append]
  have hbuiltins : Scoping.initial.flatten.filter (fun d => !(d.isBuiltin || decide (d ∈ program.used))) = [] := by
    apply List.filter_eq_nil_iff.mpr
    intro d hd
    rw [Declared.isBuiltin_iff.mpr (Scoping.origin_of_mem_initial hd)]
    exact Bool.false_ne_true
  rw [hbuiltins, List.nil_append]
  apply List.filter_congr
  intro d hd
  have hbuiltin : d.isBuiltin = false := by
    rw [Bool.eq_false_iff]
    intro h
    obtain ⟨i, hi⟩ := Declared.isBuiltin_iff.mp h
    exact program.not_builtin_of_declares (program.mem_declarations.mp hd).1 hi
  simp [hbuiltin]

end Program

/-- A table that agrees with some declarations place by place leaves the same ones unused. -/
theorem map_unusedError_filter {table : List Declaration} {made : List Declared} {test : Declared → Bool}
    (h : List.Forall₂ (fun declaration d => declaration.ident = d.ident ∧ (!declaration.used) = test d) table made) :
    (table.filter (!·.used)).map Declaration.unusedError = (made.filter test).map Declared.unusedError := by
  induction h with
  | nil => rfl
  | @cons declaration d _ _ hfirst _ ih =>
    obtain ⟨hident, hused⟩ := hfirst
    rw [List.filter_cons, List.filter_cons, hused]
    split
    · rw [List.map_cons, List.map_cons, ih, Declared.unusedError, ← hident]
      rfl
    · exact ih

namespace Analyzer

variable {program : Program} {a : Analyzer}

/-- The unmarked declarations of the table are those that no name refers to. -/
theorem unused_eq (h : a.Records program program.used)
    (hidents : a.table.declarations.toList.map Declaration.ident = program.made.map Declared.ident) :
    a.table.unused.map Declaration.unusedError = program.unused := by
  rw [DeclarationTable.unused, Program.unused, ← program.filter_made]
  apply map_unusedError_filter
  -- Each place of the table belongs to the declaration made at that place.
  rw [List.forall₂_iff_get]
  have hlength : a.table.declarations.toList.length = program.made.length := by
    rw [← List.length_map Declaration.ident, hidents, List.length_map]
  refine ⟨hlength, fun i hi hi' => ⟨?_, ?_⟩⟩
  · have hident : (a.table.declarations.toList.map Declaration.ident)[i]? = (program.made.map Declared.ident)[i]? := by
      rw [hidents]
    rw [List.getElem?_map, List.getElem?_map, List.getElem?_eq_getElem hi, List.getElem?_eq_getElem hi'] at hident
    exact Option.some.inj hident
  · have hrecorded := h.entries i (program.made.get ⟨i, hi'⟩) (a.table.declarations.toList.get ⟨i, hi⟩)
      (List.getElem?_eq_getElem hi') (by rw [← Array.getElem?_toList]; exact List.getElem?_eq_getElem hi)
    congr 1
    rw [Bool.eq_iff_iff, hrecorded.used, Bool.or_eq_true, decide_eq_true_iff, Declared.isBuiltin_iff]

/-- Nothing is said of unused declarations before the end. -/
theorem isUnused_eq_false_of_run {p : Phrase} {r : Binding} (h : analysis.run p .initial = .ok (r, a)) :
    ∀ e ∈ a.errors.toList, e.isUnused = false := by
  have hnames : ∀ e : CompilationError, e.isScoping = true → e.isUnused = false := by
    intro e he
    cases e <;> trivial
  have hcalls : ∀ e : CompilationError, e.isCall = true → e.isUnused = false := by
    intro e he
    cases e <;> trivial
  have hkeys : ∀ e : CompilationError, e.isHashKeys = true → e.isUnused = false := by
    intro e he
    cases e <;> trivial
  have hsilent := Silent.run (fun _ _ => Silent.enterPart hnames fun _ _ _ _ _ _ => hcalls)
    (fun _ bindings => Silent.leavePhrase hnames (fun _ _ _ _ _ => hkeys) bindings) p _ _ _ h
  intro e he
  exact Bool.eq_false_iff.mpr (List.filter_eq_nil_iff.mp hsilent e he)

end Analyzer

/-- The warnings about unused declarations are those about the `let` statements and parameters that are declared and that no
name refers to, each once and in the order of their declaration. If unused declarations are errors, these come behind all
others, and nothing else changes. -/
theorem unused_reported_exactly (program : Program) : ∃ errors,
    analyze ⟨false⟩ program = .ok ⟨errors, program.unused⟩ ∧
      analyze ⟨true⟩ program = .ok ⟨errors ++ program.unused, []⟩ ∧
      (∀ e ∈ errors, e.isUnused = false) ∧
      (program.declarations.map Declared.origin).Nodup ∧
      (∀ d, d ∈ program.declarations ↔ program.Declares d ∧ program.taken? d = none) ∧
      ∀ d, d ∈ program.used ↔ ∃ path context name, program.phraseAt path = some (.expr context (.ident name)) ∧
        (program.scopingAt path).find? name.name = some d := by
  have hroot : program.phraseAt [] = some program.root := rfl
  obtain ⟨r, a, hrun, h⟩ := Analyzer.Knows.run program.root hroot (.initial program)
  have hrecords := (Analyzer.carries_records program).run_root (.initial program) hrun
  obtain ⟨⟨⟩, a', hvisit, hreturn⟩ := bind_eq_ok.mp hrun
  cases hreturn
  have hunused := Analyzer.unused_eq hrecords h.table.idents
  refine ⟨a.errors.toList, ?_, ?_, ?_, program.nodup_declarations, fun _ => program.mem_declarations,
    fun _ => Program.mem_used⟩
  · unfold analyze
    rw [Analyzer.visitStmts_eq, hvisit, ← hunused]
    rfl
  · unfold analyze
    rw [Analyzer.visitStmts_eq, hvisit, ← hunused]
    rfl
  · exact Analyzer.isUnused_eq_false_of_run hrun

/-- A function that uses itself and one of its parameters, a name that is declared twice, and a parameter that hides it. -/
def hiddenDeclaration : Program :=
  let f : Ident := ⟨"f", ⟨1, 5, 1⟩⟩
  let x : Ident := ⟨"x", ⟨1, 12, 1⟩⟩
  let y : Ident := ⟨"y", ⟨1, 15, 1⟩⟩
  let call : Expr := .call (.ident ⟨"f", ⟨1, 20, 1⟩⟩) [.ident ⟨"x", ⟨1, 22, 1⟩⟩, .ident ⟨"x", ⟨1, 25, 1⟩⟩] ⟨1, 20, 7⟩
  let g : Ident := ⟨"g", ⟨4, 12, 1⟩⟩
  ⟨[.letStmt f (.function [x, y] (.mk [.exprStmt call ⟨1, 20, 7⟩] ⟨1, 18, 11⟩) ⟨1, 9, 20⟩) ⟨1, 1, 29⟩,
    .letStmt ⟨"g", ⟨2, 5, 1⟩⟩ (.int 1 ⟨2, 9, 1⟩) ⟨2, 1, 10⟩,
    .letStmt ⟨"g", ⟨3, 5, 1⟩⟩ (.int 2 ⟨3, 9, 1⟩) ⟨3, 1, 10⟩,
    .letStmt ⟨"h", ⟨4, 5, 1⟩⟩
      (.function [g] (.mk [.exprStmt (.ident ⟨"g", ⟨4, 17, 1⟩⟩) ⟨4, 17, 1⟩] ⟨4, 15, 5⟩) ⟨4, 9, 11⟩) ⟨4, 1, 20⟩], ⟨1, 1, 72⟩⟩

theorem unused_reported_hiddenDeclaration : hiddenDeclaration.unused =
    [.unusedDeclaration "y" ⟨1, 15, 1⟩, .unusedDeclaration "g" ⟨2, 5, 1⟩, .unusedDeclaration "h" ⟨4, 5, 1⟩] := by
  obtain ⟨errors, hwarnings, -⟩ := unused_reported_exactly hiddenDeclaration
  have hresult : analyze ⟨false⟩ hiddenDeclaration = .ok ⟨[.redeclared "g" ⟨2, 5, 1⟩ ⟨3, 5, 1⟩],
      [.unusedDeclaration "y" ⟨1, 15, 1⟩, .unusedDeclaration "g" ⟨2, 5, 1⟩, .unusedDeclaration "h" ⟨4, 5, 1⟩]⟩ := by
    decide +kernel
  rw [hresult, Except.ok.injEq, Analysis.mk.injEq] at hwarnings
  exact hwarnings.2.symm

end MonkeyLang
