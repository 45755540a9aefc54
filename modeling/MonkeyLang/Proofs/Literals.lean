import MonkeyLang.Proofs.CodeSelection
import MonkeyLang.Proofs.Pools
/-!
# Literals

The integers and strings of a program reach its executable unchanged: the pool is the list of them in the order of the source
without the later ones of equals, and the instructions that load constants are those of the literals, one for each and in the
same order. `Generates.keeps` says so of a phrase. A place that is written into the code stays good because the pool only grows.
-/

namespace MonkeyLang

/-! ### The literals of a program -/

namespace Phrase

/-- The integers and strings that stand in a phrase as literals, in the order of the source. -/
def constants (p : Phrase) : List Constant :=
  p.collect fun
    | expr _ e => e.constant?.toList
    | _ => []

theorem constants_of_constant? {name : Option String} {e : Expr} {c : Constant} (h : e.constant? = some c) :
    (expr name e).constants = [c] := by
  cases e with
  | int | string =>
    cases h
    rw [constants, collect_eq]
    rfl
  | _ => cases h

/-- The literals of any other phrase are those of its parts. -/
theorem constants_eq_flatMap {p : Phrase} (h : ∀ name e, p = expr name e → e.constant? = none) :
    p.constants = p.parts.flatMap constants := by
  rw [constants, collect_eq]
  cases p with
  | expr name e =>
    simp only [h name e rfl, Option.toList_none, List.append_nil]
    rfl
  | _ => exact List.append_nil _

end Phrase

def Program.constants (program : Program) : List Constant := (Phrase.stmts program.stmts).constants

/-! ### Adding constants -/

namespace ConstantPool

/-- The pool behind some constants that are added one after the other. -/
def addAll (p : ConstantPool) (cs : List Constant) : ConstantPool := cs.foldl (fun p c => (p.add c).2) p

theorem addAll_append (p : ConstantPool) (cs ds : List Constant) : p.addAll (cs ++ ds) = (p.addAll cs).addAll ds :=
  List.foldl_append

theorem grows_addAll (p : ConstantPool) (cs : List Constant) : p.Grows (p.addAll cs) := by
  induction cs generalizing p with
  | nil => exact .refl p
  | cons c cs ih => exact (p.grows_add c).trans (ih (p.add c).2)

def Loads (p : ConstantPool) (i : Instruction) (c : Constant) : Prop :=
  ∃ place, i = .constant place ∧ p.get? place.toNat = some c

end ConstantPool

/-! ### Instructions that load constants -/

def Instruction.isConstant : Instruction → Bool
  | constant _ => true
  | _ => false

def Step.isConstant (s : Step) : Bool := s.opcode? = some .constant

theorem Instruction.isConstant_step (i : Instruction) : i.step.isConstant = i.isConstant := by
  cases i with
  | bool value => cases value <;> rfl
  | binary op => cases op <;> rfl
  | unary op => cases op <;> rfl
  | _ => rfl

theorem Instruction.isConstant_of_isLoad (i : Instruction) (h : i.isLoad = true) : i.isConstant = false := by
  cases i with
  | constant => cases h
  | _ => rfl

/-! ### The code of a phrase -/

/-- Some code loads constants, each of which is added to a pool when its turn comes. -/
structure Keeps (p : ConstantPool) (code : List CodeLine) (p' : ConstantPool) (cs : List Constant) : Prop where
  pool : p' = p.addAll cs
  loadable : p'.Loadable
  loads : List.Forall₂ (fun l c => p'.Loads l.instruction c) (pick Instruction.isConstant code) cs

namespace Keeps

variable {p p' p'' : ConstantPool} {c d code : List CodeLine} {xs ys : List Constant}

theorem nil (hloadable : p.Loadable) (h : pick Instruction.isConstant code = []) : Keeps p code p [] where
  pool := rfl
  loadable := hloadable
  loads := by
    rw [h]
    exact .nil

/-- A constant stays where it was found while others are added behind it. -/
theorem append (h : Keeps p c p' xs) (h' : Keeps p' d p'' ys) : Keeps p (c ++ d) p'' (xs ++ ys) where
  pool := by rw [ConstantPool.addAll_append, ← h.pool, h'.pool]
  loadable := h'.loadable
  loads := by
    have hgrows : p'.Grows p'' := h'.pool ▸ p'.grows_addAll ys
    have hfirst : List.Forall₂ (fun l c => p''.Loads l.instruction c) (pick Instruction.isConstant c) xs :=
      h.loads.imp fun l c ⟨place, hplace, hget⟩ => ⟨place, hplace, hgrows _ _ hget⟩
    rw [pick_append]
    exact List.rel_append hfirst h'.loads

/-- Other instructions do not matter. -/
theorem among (h : Keeps p c p' xs) (heq : pick Instruction.isConstant code = pick Instruction.isConstant c) : Keeps p code p' xs :=
  ⟨h.pool, h.loadable, heq ▸ h.loads⟩

end Keeps

open Phrase in
theorem Generates.keeps {p : Phrase} {g g' : Generator} {code : List CodeLine} (h : Generates p g code g')
    (hloadable : g.pool.Loadable) : Keeps g.pool code g'.pool p.constants := by
  induction h with
  | @constant name e c g place pool hconstant hadd hplace =>
    obtain ⟨hpool, -, hget⟩ := hloadable.add hadd hplace
    rw [constants_of_constant? hconstant]
    -- This is the only rule that touches the pool: the literal is added, and the instruction has the place that it got.
    refine ⟨(congrArg Prod.snd hadd).symm, hpool, .cons ⟨.ofNat place, rfl, ?_⟩ .nil⟩
    rw [toNat_ofNat_word hplace]
    exact hget
  | bool | operandsNil | exprsNil | pairsNil | otherwiseNone | stmtsNil | valueNil | functionNil =>
    rw [constants_eq_flatMap (by simp [Expr.constant?])]
    exact .nil hloadable rfl
  | ident hresolve hload =>
    rw [constants_eq_flatMap (by simp [Expr.constant?])]
    exact .nil hloadable (pick_cons_of_neg (Instruction.isConstant_of_isLoad _ (Storage.isLoad_of_load? hload)) [])
  | chain _ _ ihfirst ihrest | exprsCons _ _ ihfirst ihrest | stmtsCons _ _ ihfirst ihrest | valueCons _ _ ihfirst ihrest
  | functionCons _ _ ihfirst ihrest =>
    have hfirst := ihfirst hloadable
    have hrest := ihrest hfirst.loadable
    rw [constants_eq_flatMap (by simp [Expr.constant?])]
    simpa [parts] using hfirst.append hrest
  | call _ _ _ ihfirst ihrest | index _ _ ihfirst ihrest | operandsCons _ _ ihfirst ihrest =>
    have hfirst := ihfirst hloadable
    have hrest := ihrest hfirst.loadable
    rw [constants_eq_flatMap (by simp [Expr.constant?])]
    simpa [parts] using (hfirst.append hrest).among (by simp [Instruction.isConstant])
  | unary _ ih | array _ _ ih | hash _ _ ih | paren _ ih | otherwiseSome _ ih | returnStmt _ ih | exprStmt _ ih
  | valueBlock _ ih | valueExpr _ ih | functionExpr _ ih | functionLet _ ih =>
    rw [constants_eq_flatMap (by simp [Expr.constant?])]
    simpa [parts] using (ih hloadable).among (by simp [Instruction.isConstant])
  | letStmt _ hstore ih =>
    rw [constants_eq_flatMap (by simp [Expr.constant?])]
    obtain ⟨slot, rfl⟩ | ⟨slot, rfl⟩ := Storage.eq_of_store? hstore <;>
      simpa [parts] using (ih hloadable).among (by simp [Instruction.isConstant])
  | @valueLast s _ _ _ hkind _ ih =>
    rw [constants_eq_flatMap (by simp [Expr.constant?])]
    cases s with
    | exprStmt e span => exact absurd rfl (hkind e span)
    | _ => simpa [parts] using (ih hloadable).among (by simp [Instruction.isConstant])
  | functionReturn _ ih =>
    rw [constants_eq_flatMap (by simp [Expr.constant?])]
    simp only [parts, List.flatMap_cons, List.flatMap_nil, List.append_nil]
    rw [constants_eq_flatMap (by simp [Expr.constant?])]
    simpa [parts] using (ih hloadable).among (by simp [Instruction.isConstant])
  | @function _ _ _ _ span _ _ _ _ _ _ _ _ _ hloads _ _ _ _ ih =>
    have hnone := pick_loads Instruction.isConstant_of_isLoad hloads span.line
    rw [constants_eq_flatMap (by simp [Expr.constant?])]
    simpa [parts] using (ih hloadable).among (by simp [Instruction.isConstant, hnone])
  | pairsCons _ _ _ ihkey ihvalue ihrest =>
    have hkey := ihkey hloadable
    have hvalue := ihvalue hkey.loadable
    have hrest := ihrest hvalue.loadable
    rw [constants_eq_flatMap (by simp [Expr.constant?])]
    simpa [parts] using hkey.append (hvalue.append hrest)
  | ifElse _ _ _ _ _ ihcondition ihthen ihelse =>
    have hcondition := ihcondition hloadable
    have hthen := ihthen hcondition.loadable
    have helse := ihelse hthen.loadable
    rw [constants_eq_flatMap (by simp [Expr.constant?])]
    simpa [parts] using (hcondition.append (hthen.append helse)).among
      (by simp [Instruction.isConstant])

/-- The pool of an executable has the literals of the program in the order of the source, without those that are there already.
The instructions that load constants load the literals, one after the other. -/
theorem literals_kept {program : Program} {exe : Executable} (h : generate program = .ok exe) :
    exe.pool.toList = program.constants.eraseDups ∧
      List.Forall₂ (fun s c => ∃ place, s.2 = .complete .constant [place] ∧ exe.pool.get? place = some c)
        (exe.chunk.steps.filter fun s => s.2.isConstant) program.constants := by
  obtain ⟨code, g, hgenerates, rfl⟩ := generates_of_generate_eq_ok h
  have hkeeps := hgenerates.keeps ConstantPool.loadable_empty
  constructor
  · exact (congrArg ConstantPool.toList hkeeps.pool).trans (ConstantPool.toList_ofList program.constants)
  · refine forall₂_steps Instruction.isConstant_step hkeeps.loads ?_
    rintro before ⟨line, i⟩ behind c - ⟨place, rfl, hget⟩
    exact ⟨place.toNat, rfl, hget⟩

/-- A function with literals in both branches of its body, one of which stands in the other branch and behind it too. -/
def repeatedLiterals : Program :=
  let one : Expr := .int 1 default
  let word : Expr := .string "one" default
  let choice : Expr := .ifElse (.bool true default) (.mk [.exprStmt (.array [one, word] default) default] default)
    (some (.mk [.exprStmt word default] default)) default
  ⟨[.letStmt ⟨"f", default⟩ (.function [] (.mk [.exprStmt choice default] default) default) default,
    .exprStmt (.hash [(word, .int 2 default), (one, one)] default default) default], default⟩

theorem literals_kept_repeatedLiterals :
    ∃ exe, generate repeatedLiterals = .ok exe ∧ exe.pool.toList = [.int 1, .string "one", .int 2] ∧
      List.Forall₂ (fun s c => ∃ place, s.2 = .complete .constant [place] ∧ exe.pool.get? place = some c)
        (exe.chunk.steps.filter fun s => s.2.isConstant)
        [.int 1, .string "one", .string "one", .string "one", .int 2, .int 1, .int 1] := by
  obtain ⟨exe, hexe⟩ : ∃ exe, generate repeatedLiterals = .ok exe := exists_ok_of_isOk (by decide +kernel)
  have hconstants : repeatedLiterals.constants =
      [.int 1, .string "one", .string "one", .string "one", .int 2, .int 1, .int 1] := by
    decide +kernel
  have hkept := literals_kept hexe
  rw [hconstants] at hkept
  exact ⟨exe, hexe, hkept⟩

end MonkeyLang
