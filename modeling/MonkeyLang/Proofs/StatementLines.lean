import MonkeyLang.Proofs.CodeSelection
import MonkeyLang.Proofs.LineTable
import MonkeyLang.Proofs.NodeSpans
/-!
# The lines of statements

The generator has one current line. A statement sets it before its expression, and a function literal sets it again behind its
body, but a conditional leaves it where its branches have left it. So the instruction that ends a statement has the line that was
set last in the statement, `Stmt.lastLine`, which is the line the statement starts on unless a function literal on another line
or a branch comes between.
-/

namespace MonkeyLang

/-! ### Lines that are set -/

namespace Phrase

/-- The line that is set before the code of a phrase. -/
def opening? : Phrase → Option Nat
  | stmt s => some s.span.line
  | valueStmts [.exprStmt _ span] | functionStmts [.exprStmt _ span] => some span.line
  | _ => none

/-- The line that is set behind the body of a function. -/
def closing? : Phrase → Option Nat
  | expr _ (.function _ _ span) => some span.line
  | _ => none

/-- The lines that are set in a phrase, in order and without those in the bodies of functions. -/
def marks (p : Phrase) : List Nat :=
  match p.closing? with
  | some line => [line]
  | none => p.opening?.toList ++ p.parts.attach.flatMap fun q => marks q.1
termination_by p.size
decreasing_by exact size_lt_of_mem_parts q.2

/-- The line behind a phrase, where one is current before it. -/
def lineBehind (p : Phrase) (line : Nat) : Nat := p.marks.getLastD line

theorem getLastD_append (xs ys : List Nat) (line : Nat) : (xs ++ ys).getLastD line = ys.getLastD (xs.getLastD line) := by
  rw [List.getLastD_eq_getLast?, List.getLastD_eq_getLast?, List.getLastD_eq_getLast?, List.getLast?_append, Option.getD_or]

theorem getLastD_flatMap_marks (qs : List Phrase) (line : Nat) :
    (qs.flatMap marks).getLastD line = qs.foldl (fun line q => q.lineBehind line) line := by
  induction qs generalizing line with
  | nil => rfl
  | cons q qs ih =>
    rw [List.flatMap_cons, getLastD_append, ih, List.foldl_cons]
    rfl

theorem lineBehind_eq (p : Phrase) (line : Nat) :
    p.lineBehind line = p.closing?.getD (p.parts.foldl (fun line q => q.lineBehind line) (p.opening?.getD line)) := by
  rw [lineBehind, marks]
  cases p.closing? with
  | some last => rfl
  | none =>
    have hopening : p.opening?.toList.getLastD line = p.opening?.getD line := by cases p.opening? <;> rfl
    simp only [List.flatMap_subtype, List.unattach_attach]
    rw [getLastD_append, getLastD_flatMap_marks, hopening]
    rfl

end Phrase

open Phrase in
theorem Generates.line_eq {p : Phrase} {g g' : Generator} {code : List CodeLine} (h : Generates p g code g') :
    g'.line = p.lineBehind g.line := by
  induction h with
  | @constant name e c g place pool hconstant =>
    cases e with
    | int | string =>
      rw [lineBehind_eq]
      rfl
    | _ => cases hconstant
  | bool | ident | operandsNil | exprsNil | pairsNil | otherwiseNone | stmtsNil | valueNil | functionNil | function =>
    rw [lineBehind_eq]
    rfl
  | chain _ _ ihfirst ihrest | call _ _ _ ihfirst ihrest | index _ _ ihfirst ihrest | operandsCons _ _ ihfirst ihrest
  | exprsCons _ _ ihfirst ihrest | stmtsCons _ _ ihfirst ihrest | valueCons _ _ ihfirst ihrest
  | functionCons _ _ ihfirst ihrest =>
    rw [lineBehind_eq]
    simpa [opening?, parts, closing?, ihfirst] using ihrest
  | unary _ ih | array _ _ ih | hash _ _ ih | paren _ ih | otherwiseSome _ ih | valueBlock _ ih | functionLet _ ih
  | letStmt _ _ ih | returnStmt _ ih | exprStmt _ ih | valueExpr _ ih | functionExpr _ ih =>
    rw [lineBehind_eq]
    simpa [opening?, parts, closing?, Stmt.span] using ih
  | @valueLast s _ _ _ hkind _ ih =>
    rw [lineBehind_eq]
    cases s with
    | exprStmt e span => exact absurd rfl (hkind e span)
    | _ => simpa [opening?, parts, closing?, Stmt.span] using ih
  | functionReturn _ ih =>
    rw [lineBehind_eq]
    simp only [opening?, parts, closing?, Option.getD_none, List.foldl_cons, List.foldl_nil]
    rw [lineBehind_eq]
    simpa [opening?, parts, closing?, Stmt.span] using ih
  | pairsCons _ _ _ ihkey ihvalue ihrest =>
    rw [lineBehind_eq]
    simpa [opening?, parts, closing?, ihkey, ihvalue] using ihrest
  | ifElse _ _ _ _ _ ihcondition ihthen ihelse =>
    rw [lineBehind_eq]
    simpa [opening?, parts, closing?, ihcondition, ihthen] using ihelse

/-! ### Instructions that end statements -/

/-- A statement, with the opcodes of which one ends its code. -/
structure Completion where
  stmt : Stmt
  opcodes : List Opcode

def Stmt.closers : Stmt → List Opcode
  | letStmt _ _ _ => [.setGlobal, .setLocal]
  | returnStmt _ _ => [.returnValue]
  | exprStmt _ _ => [.pop]

def Stmt.lastLine (s : Stmt) : Nat := (Phrase.stmt s).lineBehind s.span.line

theorem Stmt.lastLine_letStmt (name : Ident) (value : Expr) (span : Span) :
    (letStmt name value span).lastLine = (Phrase.expr (some name.name) value).lineBehind span.line := by
  rw [lastLine, Phrase.lineBehind_eq]
  rfl

theorem Stmt.lastLine_returnStmt (value : Expr) (span : Span) :
    (returnStmt value span).lastLine = (Phrase.expr none value).lineBehind span.line := by
  rw [lastLine, Phrase.lineBehind_eq]
  rfl

theorem Stmt.lastLine_exprStmt (e : Expr) (span : Span) :
    (exprStmt e span).lastLine = (Phrase.expr none e).lineBehind span.line := by
  rw [lastLine, Phrase.lineBehind_eq]
  rfl

namespace Phrase

/-- The statement that a phrase itself puts the last instruction of. An expression at the end of a function is returned, and one
at the end of a branch stays where it is. -/
def completion? : Phrase → Option Completion
  | stmt s => some ⟨s, s.closers⟩
  | functionStmts [.exprStmt e span] => some ⟨.exprStmt e span, [.returnValue]⟩
  | _ => none

/-- The statements in a phrase that end in an instruction of their own, in the order in which they end. -/
def completions (p : Phrase) : List Completion := p.collect fun q => q.completion?.toList

theorem completions_eq (p : Phrase) : p.completions = p.parts.flatMap completions ++ p.completion?.toList :=
  collect_eq _ p

end Phrase

def Program.completions (program : Program) : List Completion := (Phrase.stmts program.stmts).completions

def Instruction.isCloser : Instruction → Bool
  | setGlobal _ | setLocal _ | returnValue | pop => true
  | _ => false

def Step.isCloser (s : Step) : Bool := s.opcode?.any ([.setGlobal, .setLocal, .returnValue, .pop].contains ·)

theorem Instruction.isCloser_step (i : Instruction) : i.step.isCloser = i.isCloser := by
  cases i with
  | bool value => cases value <;> rfl
  | binary op => cases op <;> rfl
  | unary op => cases op <;> rfl
  | _ => rfl

theorem Instruction.isCloser_of_isLoad (i : Instruction) (h : i.isLoad = true) : i.isCloser = false := by
  cases i with
  | setGlobal | setLocal | returnValue | pop => cases h
  | _ => rfl

/-- An instruction ends a statement, on the line that was set last in it. -/
def Completion.EndsIn (l : CodeLine) (c : Completion) : Prop := l.instruction.opcode ∈ c.opcodes ∧ l.line = c.stmt.lastLine

def Completes (code : List CodeLine) (cs : List Completion) : Prop :=
  List.Forall₂ Completion.EndsIn (pick Instruction.isCloser code) cs

namespace Completes

variable {c d code : List CodeLine} {xs ys : List Completion} {x : Completion} {l : CodeLine}

theorem append (h : Completes c xs) (h' : Completes d ys) : Completes (c ++ d) (xs ++ ys) := by
  rw [Completes, pick_append]
  exact List.rel_append h h'

/-- Other instructions do not matter. -/
theorem among (h : Completes c xs) (heq : pick Instruction.isCloser code = pick Instruction.isCloser c) : Completes code xs := by
  rw [Completes, heq]
  exact h

theorem concat (h : Completes c xs) (hl : l.instruction.isCloser = true) (hx : x.EndsIn l) : Completes (c ++ [l]) (xs ++ [x]) := by
  refine h.append ?_
  rw [Completes, pick_cons_of_pos hl]
  exact .cons hx .nil

end Completes

open Phrase in
theorem Generates.completes {p : Phrase} {g g' : Generator} {code : List CodeLine} (h : Generates p g code g') :
    Completes code p.completions := by
  induction h with
  | @constant name e c g place pool hconstant =>
    rw [completions_eq]
    cases e with
    | int | string => exact .nil
    | _ => cases hconstant
  | bool | operandsNil | exprsNil | pairsNil | otherwiseNone | stmtsNil | valueNil | functionNil =>
    rw [completions_eq]
    exact .nil
  | ident _ hload =>
    rw [completions_eq, Completes, pick_cons_of_neg (Instruction.isCloser_of_isLoad _ (Storage.isLoad_of_load? hload))]
    exact .nil
  | chain _ _ ihfirst ihrest | call _ _ _ ihfirst ihrest | index _ _ ihfirst ihrest | operandsCons _ _ ihfirst ihrest
  | exprsCons _ _ ihfirst ihrest | stmtsCons _ _ ihfirst ihrest | valueCons _ _ ihfirst ihrest
  | functionCons _ _ ihfirst ihrest =>
    rw [completions_eq]
    simpa [parts, completion?] using (ihfirst.append ihrest).among (by simp [Instruction.isCloser])
  | unary _ ih | array _ _ ih | hash _ _ ih | paren _ ih | otherwiseSome _ ih | valueBlock _ ih | functionLet _ ih
  | valueExpr _ ih =>
    rw [completions_eq]
    simpa [parts, completion?] using ih.among (by simp [Instruction.isCloser])
  | letStmt hvalue hstore ih =>
    have hline := hvalue.line_eq.trans (Stmt.lastLine_letStmt _ _ _).symm
    rw [completions_eq]
    obtain ⟨slot, rfl⟩ | ⟨slot, rfl⟩ := Storage.eq_of_store? hstore
    · simpa [parts, completion?] using ih.concat rfl ⟨List.mem_cons_self, hline⟩
    · simpa [parts, completion?] using ih.concat rfl ⟨List.mem_cons_of_mem _ List.mem_cons_self, hline⟩
  | returnStmt hvalue ih =>
    have hline := hvalue.line_eq.trans (Stmt.lastLine_returnStmt _ _).symm
    rw [completions_eq]
    simpa [parts, completion?] using ih.concat rfl ⟨List.mem_cons_self, hline⟩
  | exprStmt hexpr ih | functionExpr hexpr ih =>
    have hline := hexpr.line_eq.trans (Stmt.lastLine_exprStmt _ _).symm
    rw [completions_eq]
    simpa [parts, completion?] using ih.concat rfl ⟨List.mem_cons_self, hline⟩
  | functionReturn hvalue ih =>
    -- The last statement of a body is a phrase of its own if it returns, and no instruction comes behind it.
    have hline := hvalue.line_eq.trans (Stmt.lastLine_returnStmt _ _).symm
    rw [completions_eq]
    simp only [parts, completion?, List.flatMap_cons, List.flatMap_nil, List.append_nil, Option.toList_none]
    rw [completions_eq]
    simpa [parts, completion?] using ih.concat rfl ⟨List.mem_cons_self, hline⟩
  | @valueLast s _ _ _ hkind _ ih =>
    rw [completions_eq]
    cases s with
    | exprStmt e span => exact absurd rfl (hkind e span)
    | _ => simpa [parts, completion?] using ih.among (by simp [Instruction.isCloser])
  | @function _ _ _ _ span _ _ _ _ _ _ _ _ _ hloads _ _ _ _ ih =>
    have hnone := pick_loads Instruction.isCloser_of_isLoad hloads span.line
    rw [completions_eq]
    simpa [parts, completion?] using ih.among (by simp [Instruction.isCloser, hnone])
  | pairsCons _ _ _ ihkey ihvalue ihrest =>
    rw [completions_eq]
    simpa [parts, completion?] using ihkey.append (ihvalue.append ihrest)
  | ifElse _ _ _ _ _ ihcondition ihthen ihelse =>
    rw [completions_eq]
    simpa [parts, completion?] using (ihcondition.append (ihthen.append ihelse)).among (by simp [Instruction.isCloser])

/-! ### Statements in the source -/

namespace Phrase

/-- A phrase is a piece of syntax, if it is not a branch that is left out. -/
inductive Of : Phrase → Node → Prop
  | expr (name e) : Of (expr name e) (.expr e)
  | operands (level rest) : Of (operands rest) (.operands level rest)
  | exprs (es) : Of (exprs es) (.exprs es)
  | pairs (ps) : Of (pairs ps) (.pairs ps)
  | absent (node) : Of (otherwise none) node
  | otherwise (block) : Of (otherwise (some block)) (.block block)
  | valueBlock (block) : Of (valueBlock block) (.block block)
  | stmt (s) : Of (stmt s) (.stmt s)
  | stmts (ss) : Of (stmts ss) (.stmts ss)
  | valueStmts (ss) : Of (valueStmts ss) (.stmts ss)
  | functionStmts (ss) : Of (functionStmts ss) (.stmts ss)

/-- The parts of a phrase are pieces of its syntax. -/
theorem Of.exists_part {p q : Phrase} {node : Node} (h : Of p node) (hq : q ∈ p.parts) : ∃ part, node.Holds part ∧ Of q part := by
  match p, node, h, hq with
  | _, _, .expr _ (.chain level first rest _), hq =>
    rcases List.mem_pair.mp hq with rfl | rfl
    · exact ⟨_, .single (.head _), .expr none first⟩
    · exact ⟨_, .single (.tail _ (.head _)), .operands level rest⟩
  | _, _, .expr _ (.unary _ inner _), hq | _, _, .expr _ (.paren inner _), hq =>
    obtain rfl := List.mem_singleton.mp hq
    exact ⟨_, .single (.head _), .expr _ inner⟩
  | _, _, .expr _ (.call callee args _), hq =>
    rcases List.mem_pair.mp hq with rfl | rfl
    · exact ⟨_, .single (.head _), .expr none callee⟩
    · exact ⟨_, .single (.tail _ (.head _)), .exprs args⟩
  | _, _, .expr _ (.index object index _), hq =>
    rcases List.mem_pair.mp hq with rfl | rfl
    · exact ⟨_, .single (.head _), .expr none object⟩
    · exact ⟨_, .single (.tail _ (.head _)), .expr none index⟩
  | _, _, .expr _ (.array elements _), hq =>
    obtain rfl := List.mem_singleton.mp hq
    exact ⟨_, .single (.head _), .exprs elements⟩
  | _, _, .expr _ (.hash ps _ _), hq =>
    obtain rfl := List.mem_singleton.mp hq
    exact ⟨_, .single (.head _), .pairs ps⟩
  | _, _, .expr _ (.function _ (.mk body _) _), hq =>
    obtain rfl := List.mem_singleton.mp hq
    exact ⟨_, .tail (.single (.head _)) (.head _), .functionStmts body⟩
  | _, _, .expr _ (.ifElse condition thenBlock elseBlock _), hq =>
    simp only [parts, List.mem_cons, List.not_mem_nil, or_false] at hq
    rcases hq with rfl | rfl | rfl
    · exact ⟨_, .single (.head _), .expr none condition⟩
    · exact ⟨_, .single (.tail _ (.head _)), .valueBlock thenBlock⟩
    · cases elseBlock with
      | none => exact ⟨_, .refl, .absent _⟩
      | some block => exact ⟨_, .single (.tail _ (.tail _ (.head _))), .otherwise block⟩
  | _, _, .operands level ((_, operand) :: rest), hq =>
    rcases List.mem_pair.mp hq with rfl | rfl
    · exact ⟨_, .single (.head _), .expr none operand⟩
    · exact ⟨_, .single (.tail _ (.head _)), .operands level rest⟩
  | _, _, .exprs (e :: rest), hq =>
    rcases List.mem_pair.mp hq with rfl | rfl
    · exact ⟨_, .single (.head _), .expr none e⟩
    · exact ⟨_, .single (.tail _ (.head _)), .exprs rest⟩
  | _, _, .pairs ((key, value) :: rest), hq =>
    simp only [parts, List.mem_cons, List.not_mem_nil, or_false] at hq
    rcases hq with rfl | rfl | rfl
    · exact ⟨_, .single (.head _), .expr none key⟩
    · exact ⟨_, .single (.tail _ (.head _)), .expr none value⟩
    · exact ⟨_, .single (.tail _ (.tail _ (.head _))), .pairs rest⟩
  | _, _, .otherwise block, hq =>
    obtain rfl := List.mem_singleton.mp hq
    exact ⟨_, .refl, .valueBlock block⟩
  | _, _, .stmt (.letStmt _ value _), hq | _, _, .stmt (.returnStmt value _), hq | _, _, .stmt (.exprStmt value _), hq =>
    obtain rfl := List.mem_singleton.mp hq
    exact ⟨_, .single (.head _), .expr _ value⟩
  | _, _, .stmts (s :: rest), hq =>
    rcases List.mem_pair.mp hq with rfl | rfl
    · exact ⟨_, .single (.head _), .stmt s⟩
    · exact ⟨_, .single (.tail _ (.head _)), .stmts rest⟩
  | _, _, .valueBlock (.mk body _), hq =>
    obtain rfl := List.mem_singleton.mp hq
    exact ⟨_, .single (.head _), .valueStmts body⟩
  | _, _, .valueStmts (s :: next :: rest), hq =>
    rcases List.mem_pair.mp hq with rfl | rfl
    · exact ⟨_, .single (.head _), .stmt s⟩
    · exact ⟨_, .single (.tail _ (.head _)), .valueStmts (next :: rest)⟩
  | _, _, .functionStmts (s :: next :: rest), hq =>
    rcases List.mem_pair.mp hq with rfl | rfl
    · exact ⟨_, .single (.head _), .stmt s⟩
    · exact ⟨_, .single (.tail _ (.head _)), .functionStmts (next :: rest)⟩
  | _, _, .valueStmts [.exprStmt e _], hq | _, _, .functionStmts [.exprStmt e _], hq =>
    obtain rfl := List.mem_singleton.mp hq
    exact ⟨_, .tail (.single (.head _)) (.head _), .expr none e⟩
  | _, _, .valueStmts [.letStmt name value span], hq | _, _, .functionStmts [.letStmt name value span], hq =>
    obtain rfl := List.mem_singleton.mp hq
    exact ⟨_, .single (.head _), .stmt (.letStmt name value span)⟩
  | _, _, .valueStmts [.returnStmt value span], hq | _, _, .functionStmts [.returnStmt value span], hq =>
    obtain rfl := List.mem_singleton.mp hq
    exact ⟨_, .single (.head _), .stmt (.returnStmt value span)⟩

theorem Of.holds {p : Phrase} {node : Node} {c : Completion} (h : Of p node) (hc : c ∈ p.completions) :
    node.Holds (.stmt c.stmt) := by
  rw [completions_eq, List.mem_append, List.mem_flatMap] at hc
  rcases hc with ⟨q, hq, hc⟩ | hc
  · obtain ⟨part, hholds, hpart⟩ := h.exists_part hq
    have hsize := size_lt_of_mem_parts hq
    exact hholds.trans (hpart.holds hc)
  -- Only these two phrases complete a statement themselves, and the second is the list that it stands in.
  · match p, node, h, hc with
    | _, _, .stmt s, hc =>
      obtain rfl := List.mem_singleton.mp hc
      exact .refl
    | _, _, .functionStmts [.exprStmt e span], hc =>
      obtain rfl := List.mem_singleton.mp hc
      exact .single (.head _)
termination_by p.size

end Phrase

/-- A statement is spelled by some tokens in a row, and starts on the line of the first of them. -/
def Stmt.StartsIn (tokens : List Token) (s : Stmt) : Prop :=
  ∃ front first rest rear, tokens = front ++ first :: rest ++ rear ∧ Spells (.stmt s) (first :: rest) ∧
    s.span.line = first.span.line

/-- A statement ends on the line that it starts on, if nothing in it but the bodies of functions sets another one. -/
theorem Stmt.lastLine_eq {s : Stmt} (h : ∀ line ∈ (Phrase.stmt s).marks, line = s.span.line) : s.lastLine = s.span.line := by
  rw [lastLine, Phrase.lineBehind, List.getLastD_eq_getLast?]
  cases hlast : (Phrase.stmt s).marks.getLast? with
  | none => rfl
  | some line => exact h line (List.mem_of_getLast? hlast)

/-- A chunk has a line for each byte. The instruction that ends a statement of a source has on each of its bytes the line that was
set last in the statement, which is the line of its first token if no branch and no function literal in it starts on another
one. -/
theorem statement_lines {source : String} {program : Program} {exe : Executable} (hparse : Program.parse source = .ok program)
    (hgenerate : generate program = .ok exe) :
    exe.chunk.lines.size = exe.chunk.code.size ∧
      List.Forall₂ (fun s c => (∃ op operands, s.2 = .complete op operands ∧ op ∈ c.opcodes) ∧
          ∀ k < s.2.size, exe.chunk.lineAt? (s.1 + k) = some c.stmt.lastLine)
        (exe.chunk.steps.filter fun s => s.2.isCloser) program.completions ∧
      ∃ tokens, (Lexeme.scan source).1 = tokens.map .token ∧ ∀ c ∈ program.completions, c.stmt.StartsIn tokens ∧
        ((∀ line ∈ (Phrase.stmt c.stmt).marks, line = c.stmt.span.line) → c.stmt.lastLine = c.stmt.span.line) := by
  obtain ⟨code, g, hgenerates, rfl⟩ := generates_of_generate_eq_ok hgenerate
  have hholds := Code.holds_toChunk code
  refine ⟨hholds.size_lines, ?_, ?_⟩
  · refine forall₂_steps Instruction.isCloser_step hgenerates.completes ?_
    rintro before l behind c hcode ⟨hopcode, hline⟩
    refine ⟨⟨_, _, rfl, hopcode⟩, fun k hk => ?_⟩
    rw [← hline]
    exact (hcode ▸ hholds).lineAt? hk
  · obtain ⟨tokens, hscan, hspells⟩ := Program.spells_of_parse hparse
    refine ⟨tokens, hscan, fun c hc => ⟨?_, Stmt.lastLine_eq⟩⟩
    have hholds : (Node.stmts program.stmts).Holds (.stmt c.stmt) := (Phrase.Of.stmts program.stmts).holds hc
    have hend : (Node.stmts program.stmts).Ended [] := by simp [Node.Ended]
    obtain ⟨front, us, rear, rfl, hus, -⟩ := hspells.exists_slice hend hholds
    have hslice : us <:+: front ++ us ++ rear := ⟨front, rear, rfl⟩
    obtain ⟨first, rest, rfl, hstart⟩ := hus.start_span ((inSequence_of_scan hscan).sublist hslice.sublist) rfl
    exact ⟨front, first, rest, rear, rfl, hus, congrArg Position.line hstart⟩

/-- A function whose body has a branch that returns, an expression that is dropped and one that it returns, and a call of it. -/
def bodyOnManyLines : String := "let f = fn(x) \x7b\n  if (x) \x7b\n    return 1;\n  \x7d\n  x;\n  2\n\x7d;\nf(true);"

theorem statement_lines_bodyOnManyLines : ∃ program exe, Program.parse bodyOnManyLines = .ok program ∧
    generate program = .ok exe ∧ exe.chunk.lines.size = exe.chunk.code.size ∧
    List.Forall₂ (fun s c => (∃ op operands, s.2 = .complete op operands ∧ op ∈ c.opcodes) ∧
        ∀ k < s.2.size, exe.chunk.lineAt? (s.1 + k) = some c.stmt.lastLine)
      (exe.chunk.steps.filter fun s => s.2.isCloser) program.completions ∧
    (program.completions.map fun c => (c.opcodes, c.stmt.span.line, c.stmt.lastLine)) =
      [([.returnValue], 3, 3), ([.pop], 2, 3), ([.pop], 5, 5), ([.returnValue], 6, 6), ([.setGlobal, .setLocal], 1, 1),
        ([.pop], 8, 8)] := by
  have hok : (Program.parse bodyOnManyLines).isOk := by decide +kernel
  have hgenerate : (Program.parse bodyOnManyLines).toOption.all (fun program => (generate program).isOk) := by decide +kernel
  have hlines : (Program.parse bodyOnManyLines).toOption.map (fun program =>
      program.completions.map fun c => (c.opcodes, c.stmt.span.line, c.stmt.lastLine)) =
        some [([.returnValue], 3, 3), ([.pop], 2, 3), ([.pop], 5, 5), ([.returnValue], 6, 6), ([.setGlobal, .setLocal], 1, 1),
          ([.pop], 8, 8)] := by
    decide +kernel
  obtain ⟨program, hparse⟩ := exists_ok_of_isOk hok
  rw [hparse] at hgenerate hlines
  obtain ⟨exe, hexe⟩ := exists_ok_of_isOk hgenerate
  obtain ⟨hsize, hsteps, -⟩ := statement_lines hparse hexe
  exact ⟨program, exe, hparse, hexe, hsize, hsteps, Option.some.inj hlines⟩

/-- The lines of the instructions that end the statements of a source, and the lines that the statements start on. -/
def closingLines (source : String) : Option (List (Option Nat) × List Nat) := do
  let program ← (Program.parse source).toOption
  let exe ← (generate program).toOption
  return ((exe.chunk.steps.filter fun s => s.2.isCloser).map fun s => exe.chunk.lineAt? s.1,
    program.completions.map fun c => c.stmt.span.line)

/-- A conditional whose branch starts on the second line. -/
def branchOnSecondLine : String := "if (true) \x7b\n  1\n\x7d"

/-- A `let` whose function starts on the second line. -/
def functionOnSecondLine : String := "let f =\n  fn() \x7b 1 \x7d;"

/-- A statement that starts on the first line can end on the second one, behind a branch as well as behind a function. -/
theorem statement_ends_on_other_line :
    closingLines branchOnSecondLine = some ([some 2], [1]) ∧
      closingLines functionOnSecondLine = some ([some 2, some 2], [2, 1]) := by
  constructor <;> decide +kernel

end MonkeyLang
