import MonkeyLang.Proofs.Printing
import MonkeyLang.Proofs.Rendering
import MonkeyLang.Syntax.Outline
/-!
# What an outline tells

The text of an outline is read back in two steps. Its lines give depths and labels, since no label has a newline in it or starts
with a blank; and the depths give the tree, since the children of a node reach as far as the lines that are deeper than it is.

A label starts with a word for the form of the phrase and goes on with what is particular about it: the digits of a number, a
quoted text, a name, operators or parameters. For phrases of the shape of the grammar this tells everything apart from positions.
The level of a chain is not written, but it is that of its operators.
-/

namespace MonkeyLang

namespace Outline

/-! ### From the text to the tree -/

mutual

/-- The lines of an outline at a depth, each with its own depth and its label. -/
def lines (depth : Nat) : Outline → List (Nat × String)
  | node label children => (depth, label) :: allLines (depth + 1) children

def allLines (depth : Nat) : List Outline → List (Nat × String)
  | [] => []
  | outline :: rest => lines depth outline ++ allLines depth rest

end

def indented (line : Nat × String) : List Char := List.replicate (2 * line.1) ' ' ++ line.2.toList

/-- Reads the depth and the label of a line. -/
def unindented (cs : List Char) : Nat × String :=
  ((cs.takeWhile (· == ' ')).length / 2, String.ofList (cs.dropWhile (· == ' ')))

/-- A label stays on its line and can be told from what it is indented by. -/
def Legible (label : String) : Prop := '\n' ∉ label.toList ∧ label.toList.head? ≠ some ' '
deriving Decidable

theorem toList_line (depth : Nat) (label : String) : (line depth label).toList = indented (depth, label) ++ ['\n'] := by
  rw [line, String.toList_append, String.toList_append, toList_pushn]
  rfl

mutual

theorem toList_writeAt (depth : Nat) (text : String) (outline : Outline) :
    (writeAt depth text outline).toList = text.toList ++ ((lines depth outline).map indented).flatMap (· ++ ['\n']) := by
  cases outline with
  | node label children =>
    rw [writeAt, lines, toList_writeAllAt, String.toList_append, toList_line, List.map_cons, List.flatMap_cons,
      List.append_assoc]

theorem toList_writeAllAt (depth : Nat) (text : String) (outlines : List Outline) :
    (writeAllAt depth text outlines).toList =
      text.toList ++ ((allLines depth outlines).map indented).flatMap (· ++ ['\n']) := by
  match outlines with
  | [] => exact (List.append_nil _).symm
  | outline :: rest =>
    rw [writeAllAt, allLines, toList_writeAllAt, toList_writeAt, List.map_append, List.flatMap_append, List.append_assoc]

end

theorem unindented_indented {x : Nat × String} (h : Legible x.2) : unindented (indented x) = x := by
  have hstop : x.2.toList.takeWhile (· == ' ') = [] := by
    cases hlabel : x.2.toList with
    | nil => rfl
    | cons c cs =>
      rw [List.takeWhile_cons_of_neg]
      simpa [hlabel] using h.2
  have hblank : ∀ c ∈ List.replicate (2 * x.1) ' ', (c == ' ') = true := by simp
  have hrest : x.2.toList.dropWhile (· == ' ') = x.2.toList := by
    have := List.takeWhile_append_dropWhile (p := (· == ' ')) (l := x.2.toList)
    rwa [hstop, List.nil_append] at this
  unfold unindented indented
  rw [List.takeWhile_append_of_pos hblank, List.dropWhile_append_of_pos hblank, hstop, hrest, List.append_nil,
    List.length_replicate, String.ofList_toList, Nat.mul_div_cancel_left _ (by decide)]

/-- The lines of an outline are read back from its text. -/
theorem map_unindented_write {outline : Outline} (h : ∀ x ∈ lines 0 outline, Legible x.2) :
    (outline.write.toList.splitOn '\n').map unindented = lines 0 outline ++ [(0, "")] := by
  have hnewline : ∀ line ∈ (lines 0 outline).map indented, '\n' ∉ line := by
    intro line hline
    obtain ⟨x, hx, rfl⟩ := List.mem_map.mp hline
    unfold indented
    rw [List.mem_append, not_or]
    exact ⟨by simp, (h x hx).1⟩
  have htext : outline.write.toList = ((lines 0 outline).map indented).flatMap (· ++ ['\n']) := toList_writeAt 0 "" outline
  rw [htext, splitOn_lines hnewline, List.map_append, List.map_map]
  congr 1
  exact (List.map_congr_left fun x hx => unindented_indented (h x hx)).trans (List.map_id _)

/-- The next line, if there is one, is not as deep as this. -/
def Above (depth : Nat) (rest : List (Nat × String)) : Prop := ∀ x ∈ rest.head?, x.1 < depth

theorem Above.allLines_append {depth : Nat} {rest : List (Nat × String)} (h : Above depth rest) (outlines : List Outline) :
    Above (depth + 1) (allLines depth outlines ++ rest) := by
  cases outlines with
  | nil => exact fun x hx => Nat.lt_succ_of_lt (h x hx)
  | cons outline outlines =>
    cases outline with
    | node label children =>
      intro x hx
      cases hx
      exact Nat.lt_succ_self depth

mutual

/-- An outline can be told from its lines, whatever is written behind them at the same depth or above. -/
theorem lines_append_inj {depth : Nat} {rest rest' : List (Nat × String)} (outline outline' : Outline)
    (hrest : Above (depth + 1) rest) (hrest' : Above (depth + 1) rest')
    (h : lines depth outline ++ rest = lines depth outline' ++ rest') : outline = outline' ∧ rest = rest' := by
  cases outline with
  | node label children =>
    cases outline' with
    | node label' children' =>
      obtain ⟨hhead, htail⟩ := List.cons.inj h
      obtain ⟨hchildren, hrest⟩ := allLines_append_inj children children' hrest hrest' htail
      exact ⟨by rw [(Prod.mk.inj hhead).2, hchildren], hrest⟩

theorem allLines_append_inj {depth : Nat} {rest rest' : List (Nat × String)} (outlines outlines' : List Outline)
    (hrest : Above depth rest) (hrest' : Above depth rest')
    (h : allLines depth outlines ++ rest = allLines depth outlines' ++ rest') : outlines = outlines' ∧ rest = rest' := by
  match outlines, outlines' with
  | [], [] => exact ⟨rfl, h⟩
  | [], .node label children :: _ =>
    refine absurd (hrest (depth, label) ?_) (lt_irrefl depth)
    rw [show rest = _ from h]
    rfl
  | .node label children :: _, [] =>
    refine absurd (hrest' (depth, label) ?_) (lt_irrefl depth)
    rw [show rest' = _ from h.symm]
    rfl
  | outline :: outlines, outline' :: outlines' =>
    rw [allLines, allLines, List.append_assoc, List.append_assoc] at h
    obtain ⟨rfl, hmore⟩ := lines_append_inj outline outline' (hrest.allLines_append outlines) (hrest'.allLines_append outlines') h
    obtain ⟨rfl, hend⟩ := allLines_append_inj outlines outlines' hrest hrest' hmore
    exact ⟨rfl, hend⟩

end

theorem write_inj {outline outline' : Outline} (hlegible : ∀ x ∈ lines 0 outline, Legible x.2)
    (hlegible' : ∀ x ∈ lines 0 outline', Legible x.2) (h : outline.write = outline'.write) : outline = outline' := by
  have hlines := map_unindented_write hlegible
  rw [h, map_unindented_write hlegible'] at hlines
  exact (lines_append_inj outline' outline (fun _ hx => by cases hx; decide) (fun _ hx => by cases hx; decide) hlines).1.symm

/-! ### Labels -/

open Text.Quoted (isPlain)

theorem legible_append {front rest : String} (hplain : front.toList.all isPlain)
    (hhead : front.toList.head?.any (· != ' ')) (hrest : ∀ c ∈ rest.toList, isPlain c) : Legible (front ++ rest) := by
  unfold Legible
  rw [String.toList_append]
  constructor
  · refine Text.Quoted.newline_not_mem fun c hc => ?_
    rcases List.mem_append.mp hc with hc | hc
    · exact List.all_eq_true.mp hplain c hc
    · exact hrest c hc
  · cases hfront : front.toList with
    | nil =>
      rw [hfront] at hhead
      cases hhead
    | cons c cs => simpa [hfront] using hhead

theorem isPlain_of_isName {name : String} (h : isName name) {c : Char} (hc : c ∈ name.toList) : isPlain c ∧ c ≠ ',' := by
  have hword := (Bool.and_eq_true_iff.mp h).1
  cases hname : name.toList with
  | nil =>
    rw [hname] at hc
    cases hc
  | cons d ds =>
    rw [hname] at hc hword
    obtain ⟨hstart, hrest⟩ := Bool.and_eq_true_iff.mp hword
    have hpart : Lexeme.isWordRest c := by
      rcases List.mem_cons.mp hc with rfl | hc
      · unfold Lexeme.isWordStart at hstart
        unfold Lexeme.isWordRest Char.isAlphanum
        grind
      · exact List.all_eq_true.mp hrest c hc
    refine ⟨?_, ?_⟩
    · have := Lexeme.visible_of_isWordRest hpart
      unfold Lexeme.Visible at this
      exact Text.Quoted.isPlain_of_ascii (by omega) this.2
    · rintro rfl
      exact absurd hpart (by decide)

theorem ne_nil_of_isName {name : String} (h : isName name) : name.toList ≠ [] := by
  have hword := (Bool.and_eq_true_iff.mp h).1
  intro hname
  rw [hname] at hword
  cases hword

theorem mem_intercalate {c : Char} {separator : List Char} {texts : List (List Char)} (h : c ∈ separator.intercalate texts) :
    c ∈ separator ∨ ∃ text ∈ texts, c ∈ text := by
  induction texts with
  | nil => cases h
  | cons text texts ih =>
    by_cases hlast : texts = []
    · subst hlast
      exact .inr ⟨text, List.mem_cons_self, by simpa using h⟩
    · rw [List.intercalate_cons_of_ne_nil hlast, List.mem_append, List.mem_append] at h
      rcases h with (h | h) | h
      · exact .inr ⟨text, List.mem_cons_self, h⟩
      · exact .inl h
      · exact (ih h).imp_right fun ⟨text, htext, hc⟩ => ⟨text, List.mem_cons_of_mem _ htext, hc⟩

/-- A text can be told from what is written behind it, if that starts with a mark that the text does not have. -/
theorem append_inj_of_mark {mark : Char} {text text' rest rest' : List Char} (htext : mark ∉ text) (htext' : mark ∉ text')
    (hrest : ∀ c ∈ rest.head?, c = mark) (hrest' : ∀ c ∈ rest'.head?, c = mark) (h : text ++ rest = text' ++ rest') :
    text = text' ∧ rest = rest' := by
  induction text generalizing text' with
  | nil =>
    cases text' with
    | nil => exact ⟨rfl, h⟩
    | cons c text' =>
      obtain rfl : rest = c :: text' ++ rest' := h
      exact absurd List.mem_cons_self (hrest c rfl ▸ htext')
  | cons c text ih =>
    cases text' with
    | nil =>
      obtain rfl : rest' = c :: text ++ rest := h.symm
      exact absurd List.mem_cons_self (hrest' c rfl ▸ htext)
    | cons d text' =>
      obtain ⟨rfl, htail⟩ := List.cons.inj h
      obtain ⟨rfl, hrest⟩ := ih (fun hmem => htext (List.mem_cons_of_mem _ hmem))
        (fun hmem => htext' (List.mem_cons_of_mem _ hmem)) htail
      exact ⟨rfl, hrest⟩

/-- What follows the first of some texts: nothing, or what separates them and the other texts. -/
def following (separator : List Char) (others : List (List Char)) : List Char :=
  if others = [] then [] else separator ++ separator.intercalate others

theorem intercalate_cons (separator text : List Char) (others : List (List Char)) :
    separator.intercalate (text :: others) = text ++ following separator others := by
  by_cases hlast : others = []
  · simp [following, hlast]
  · simp [following, hlast, List.intercalate_cons_of_ne_nil hlast]

theorem head?_following {mark : Char} {gap : List Char} (others : List (List Char)) :
    ∀ c ∈ (following (mark :: gap) others).head?, c = mark := by
  by_cases hlast : others = [] <;> simp [following, hlast]

/-- Texts can be told from each other if the first character of what separates them occurs in none of them. -/
theorem intercalate_inj {mark : Char} {gap : List Char} {texts texts' : List (List Char)}
    (h : ∀ text ∈ texts, text ≠ [] ∧ mark ∉ text) (h' : ∀ text ∈ texts', text ≠ [] ∧ mark ∉ text)
    (heq : (mark :: gap).intercalate texts = (mark :: gap).intercalate texts') : texts = texts' := by
  induction texts generalizing texts' with
  | nil =>
    cases texts' with
    | nil => rfl
    | cons text' texts' =>
      rw [intercalate_cons] at heq
      exact absurd (List.append_eq_nil_iff.mp heq.symm).1 (h' text' List.mem_cons_self).1
  | cons text texts ih =>
    rw [List.forall_mem_cons] at h
    cases texts' with
    | nil =>
      rw [intercalate_cons] at heq
      exact absurd (List.append_eq_nil_iff.mp heq).1 h.1.1
    | cons text' texts' =>
      rw [List.forall_mem_cons] at h'
      rw [intercalate_cons, intercalate_cons] at heq
      obtain ⟨rfl, hrest⟩ := append_inj_of_mark h.1.2 h'.1.2 (head?_following texts) (head?_following texts') heq
      by_cases hlast : texts = [] <;> by_cases hlast' : texts' = []
      · rw [hlast, hlast']
      · simp [following, hlast, hlast'] at hrest
      · simp [following, hlast, hlast'] at hrest
      · simp only [following, hlast, hlast', if_false] at hrest
        rw [ih h.2 h'.2 (List.append_cancel_left hrest)]

/-! ### Forms of phrases -/

/-- The word that the label of an expression starts with. -/
def form : Expr → String
  | .int _ _ => "Int"
  | .string _ _ => "String"
  | .bool _ _ => "Bool"
  | .ident _ => "Ident"
  | .chain _ _ _ _ => "Chain"
  | .unary _ _ _ => "Unary"
  | .call _ _ _ => "Call"
  | .index _ _ _ => "Index"
  | .array _ _ => "Array"
  | .hash _ _ _ => "Hash"
  | .function _ _ _ => "Function"
  | .ifElse _ _ _ _ => "If"
  | .paren _ _ => "Paren"

def formOfStmt : Stmt → String
  | .letStmt _ _ _ => "Let"
  | .returnStmt _ _ => "Return"
  | .exprStmt _ _ => "ExprStmt"

def firstWord (label : String) : List Char := label.toList.takeWhile Char.isAlpha

theorem firstWord_append {front : String} (rest : String)
    (hcut : (front.toList.takeWhile Char.isAlpha).length ≠ front.toList.length) : firstWord (front ++ rest) = firstWord front := by
  unfold firstWord
  rw [String.toList_append, List.takeWhile_append, if_neg hcut]

theorem firstWord_ofExpr (e : Expr) : firstWord (ofExpr e).label = (form e).toList := by
  cases e with
  | int | string | ident | chain | unary =>
    rw [ofExpr, form]
    exact (firstWord_append _ (by decide)).trans (by decide)
  | bool value =>
    rw [ofExpr, form]
    cases value <;> decide
  | function params body span =>
    rw [ofExpr, form, label, String.append_assoc]
    exact (firstWord_append _ (by decide)).trans (by decide)
  | call | index | array | hash | ifElse | paren =>
    rw [ofExpr, form, label]
    decide

theorem firstWord_ofStmt (s : Stmt) : firstWord (ofStmt s).label = (formOfStmt s).toList := by
  cases s with
  | letStmt name value span =>
    rw [ofStmt, formOfStmt]
    exact (firstWord_append _ (by decide)).trans (by decide)
  | returnStmt | exprStmt =>
    rw [ofStmt, formOfStmt, label]
    decide

theorem form_eq {e e' : Expr} (h : ofExpr e = ofExpr e') : form e = form e' := by
  rw [← String.toList_inj, ← firstWord_ofExpr, h, firstWord_ofExpr]

theorem formOfStmt_eq {s s' : Stmt} (h : ofStmt s = ofStmt s') : formOfStmt s = formOfStmt s' := by
  rw [← String.toList_inj, ← firstWord_ofStmt, h, firstWord_ofStmt]

/-! ### What labels are made of -/

theorem isPlain_of_mem_toString {value : Int64} (h : 0 ≤ value.toInt) : ∀ c ∈ (toString value).toList, isPlain c := by
  rw [toList_toString_of_nonneg h]
  exact fun c hc => Text.Quoted.isPlain_of_mem_toDigits (by decide) (by decide) hc

theorem isPlain_of_mem_intercalate {separator : String} {texts : List String} (hseparator : separator.toList.all isPlain)
    (h : ∀ text ∈ texts, ∀ c ∈ text.toList, isPlain c) : ∀ c ∈ (separator.intercalate texts).toList, isPlain c := by
  intro c hc
  rw [String.toList_intercalate] at hc
  rcases mem_intercalate hc with hc | ⟨_, hchars, hc⟩
  · exact List.all_eq_true.mp hseparator c hc
  · obtain ⟨text, htext, rfl⟩ := List.mem_map.mp hchars
    exact h text htext c hc

theorem spelling_ne_nil (op : BinaryOp) : op.spelling.toList ≠ [] := by cases op <;> decide

theorem isPlain_spelling (op : BinaryOp) : ∀ c ∈ op.spelling.toList, isPlain c ∧ c ≠ ' ' := by
  rw [← List.all_iff_forall_prop]
  cases op <;> decide

theorem toString_inj {value value' : Int64} (h : 0 ≤ value.toInt) (h' : 0 ≤ value'.toInt)
    (heq : toString value = toString value') : value = value' := by
  have hdigits := congrArg String.toList heq
  rw [toList_toString_of_nonneg h, toList_toString_of_nonneg h'] at hdigits
  apply Int64.toInt_inj.mp
  have := toDigits_inj (by decide) (by decide) hdigits
  omega

theorem operators_inj {rest rest' : List (BinaryOp × Expr)}
    (h : " ".intercalate (rest.map fun step => step.1.spelling) = " ".intercalate (rest'.map fun step => step.1.spelling)) :
    rest.map Prod.fst = rest'.map Prod.fst := by
  have hspelling (rest : List (BinaryOp × Expr)) :
      ∀ text ∈ (rest.map fun step => step.1.spelling).map String.toList, text ≠ [] ∧ ' ' ∉ text := by
    simp only [List.forall_mem_map]
    exact fun step _ => ⟨spelling_ne_nil step.1, fun hblank => (isPlain_spelling step.1 ' ' hblank).2 rfl⟩
  have hinj (op op' : BinaryOp) (h : op.spelling.toList = op'.spelling.toList) : op = op' := by
    revert h
    cases op <;> cases op' <;> decide
  rw [← String.toList_inj, String.toList_intercalate, String.toList_intercalate] at h
  have htexts := intercalate_inj (hspelling rest) (hspelling rest') h
  rw [List.map_map, List.map_map] at htexts
  rw [← List.map_inj_right hinj, List.map_map, List.map_map]
  exact htexts

theorem params_inj {params params' : List Ident} (hnames : params.all fun param => isName param.name)
    (hnames' : params'.all fun param => isName param.name)
    (h : ", ".intercalate (params.map Ident.name) = ", ".intercalate (params'.map Ident.name)) :
    params.map Ident.name = params'.map Ident.name := by
  have hname {params : List Ident} (hnames : params.all fun param => isName param.name) :
      ∀ text ∈ (params.map Ident.name).map String.toList, text ≠ [] ∧ ',' ∉ text := by
    simp only [List.forall_mem_map]
    intro param hparam
    have hisName := List.all_eq_true.mp hnames param hparam
    exact ⟨ne_nil_of_isName hisName, fun hcomma => (isPlain_of_isName hisName hcomma).2 rfl⟩
  rw [← String.toList_inj, String.toList_intercalate, String.toList_intercalate] at h
  exact (List.map_inj_right fun _ _ => String.toList_inj.mp).mp (intercalate_inj (hname hnames) (hname hnames') h)

/-! ### Legible outlines -/

mutual

/-- All labels of an outline are legible. -/
def Readable : Outline → Prop
  | node label children => Legible label ∧ AllReadable children

def AllReadable : List Outline → Prop
  | [] => True
  | outline :: rest => Readable outline ∧ AllReadable rest

end

mutual

theorem Readable.lines {outline : Outline} (h : outline.Readable) (depth : Nat) :
    ∀ x ∈ outline.lines depth, Legible x.2 := by
  cases outline with
  | node label children => exact List.forall_mem_cons.mpr ⟨h.1, AllReadable.allLines h.2 (depth + 1)⟩

theorem AllReadable.allLines {outlines : List Outline} (h : AllReadable outlines) (depth : Nat) :
    ∀ x ∈ Outline.allLines depth outlines, Legible x.2 := by
  match outlines with
  | [] => exact fun x hx => absurd hx List.not_mem_nil
  | outline :: rest => exact List.forall_mem_append.mpr ⟨Readable.lines h.1 depth, AllReadable.allLines h.2 depth⟩

end

mutual

theorem readable_ofExpr (e : Expr) (h : Shaped.expr e) : Readable (ofExpr e) := by
  cases e with
  | int value span =>
    rw [ofExpr]
    exact ⟨legible_append (by decide) (by decide) (isPlain_of_mem_toString (of_decide_eq_true h)), trivial⟩
  | string value span =>
    rw [ofExpr]
    exact ⟨legible_append (by decide) (by decide) fun c => Text.Quoted.isPlain_of_mem_encode, trivial⟩
  | bool value span =>
    rw [ofExpr]
    refine ⟨?_, trivial⟩
    cases value <;> exact by decide
  | ident name =>
    rw [ofExpr]
    exact ⟨legible_append (by decide) (by decide) fun c hc => (isPlain_of_isName h hc).1, trivial⟩
  | chain level first rest span =>
    simp only [Shaped.expr, Bool.and_eq_true] at h
    rw [ofExpr]
    refine ⟨legible_append (by decide) (by decide) (isPlain_of_mem_intercalate (by decide) ?_),
      readable_ofExpr first h.1.1.2, readable_ofOperands level rest h.2⟩
    simp only [List.forall_mem_map]
    exact fun step _ c hc => (isPlain_spelling step.1 c hc).1
  | unary op operand span =>
    simp only [Shaped.expr, Bool.and_eq_true] at h
    rw [ofExpr]
    refine ⟨legible_append (by decide) (by decide) (List.all_eq_true.mp ?_), readable_ofExpr operand h.2, trivial⟩
    cases op <;> decide
  | call callee args span =>
    simp only [Shaped.expr, Bool.and_eq_true] at h
    rw [ofExpr]
    exact ⟨by decide, readable_ofExpr callee h.1.2, readable_ofExprs args h.2⟩
  | index object index span =>
    simp only [Shaped.expr, Bool.and_eq_true] at h
    rw [ofExpr]
    exact ⟨by decide, readable_ofExpr object h.1.2, readable_ofExpr index h.2, trivial⟩
  | array elements span =>
    rw [ofExpr]
    exact ⟨by decide, readable_ofExprs elements h⟩
  | hash pairs brace span =>
    rw [ofExpr]
    exact ⟨by decide, readable_ofPairs pairs h⟩
  | function params body span =>
    simp only [Shaped.expr, Bool.and_eq_true] at h
    rw [ofExpr, String.append_assoc]
    refine ⟨legible_append (by decide) (by decide) ?_, readable_ofBlock (by decide) body h.2, trivial⟩
    rw [String.toList_append]
    refine List.forall_mem_append.mpr ⟨isPlain_of_mem_intercalate (by decide) ?_, List.all_eq_true.mp (by decide)⟩
    simp only [List.forall_mem_map]
    exact fun param hparam c hc => (isPlain_of_isName (List.all_eq_true.mp h.1 param hparam) hc).1
  | ifElse condition thenBlock elseBlock span =>
    simp only [Shaped.expr, Bool.and_eq_true] at h
    rw [ofExpr]
    exact ⟨by decide, readable_ofExpr condition h.1.1, readable_ofBlock (by decide) thenBlock h.1.2,
      readable_ofElse elseBlock h.2⟩
  | paren inner span =>
    rw [ofExpr]
    exact ⟨by decide, readable_ofExpr inner h, trivial⟩

theorem readable_ofOperands (level : ChainLevel) (rest : List (BinaryOp × Expr)) (h : Shaped.operands level rest) :
    AllReadable (ofOperands rest) := by
  match rest with
  | [] => trivial
  | (op, operand) :: rest =>
    simp only [Shaped.operands, Bool.and_eq_true] at h
    exact ⟨readable_ofExpr operand h.1.2, readable_ofOperands level rest h.2⟩

theorem readable_ofExprs (es : List Expr) (h : Shaped.exprs es) : AllReadable (ofExprs es) := by
  match es with
  | [] => trivial
  | e :: rest =>
    simp only [Shaped.exprs, Bool.and_eq_true] at h
    exact ⟨readable_ofExpr e h.1, readable_ofExprs rest h.2⟩

theorem readable_ofPairs (pairs : List (Expr × Expr)) (h : Shaped.pairs pairs) : AllReadable (ofPairs pairs) := by
  match pairs with
  | [] => trivial
  | (key, value) :: rest =>
    simp only [Shaped.pairs, Bool.and_eq_true] at h
    exact ⟨⟨by decide, readable_ofExpr key h.1.1, readable_ofExpr value h.1.2, trivial⟩, readable_ofPairs rest h.2⟩

theorem readable_ofElse (elseBlock : Option Block) (h : Shaped.otherwise elseBlock) : AllReadable (ofElse elseBlock) := by
  match elseBlock with
  | none => trivial
  | some block => exact ⟨readable_ofBlock (by decide) block h, trivial⟩

theorem readable_ofStmt (s : Stmt) (h : Shaped.stmt s) : Readable (ofStmt s) := by
  cases s with
  | letStmt name value span =>
    simp only [Shaped.stmt, Bool.and_eq_true] at h
    rw [ofStmt]
    exact ⟨legible_append (by decide) (by decide) fun c hc => (isPlain_of_isName h.1 hc).1, readable_ofExpr value h.2, trivial⟩
  | returnStmt value span =>
    rw [ofStmt]
    exact ⟨by decide, readable_ofExpr value h, trivial⟩
  | exprStmt e span =>
    rw [ofStmt]
    exact ⟨by decide, readable_ofExpr e h, trivial⟩

theorem readable_ofStmts (ss : List Stmt) (h : Shaped.stmts ss) : AllReadable (ofStmts ss) := by
  match ss with
  | [] => trivial
  | s :: rest =>
    simp only [Shaped.stmts, Bool.and_eq_true] at h
    exact ⟨readable_ofStmt s h.1, readable_ofStmts rest h.2⟩

theorem readable_ofBlock {label : String} (hlabel : Legible label) (block : Block) (h : Shaped.block block) :
    Readable (ofBlock label block) := by
  cases block with
  | mk stmts span =>
    rw [ofBlock]
    exact ⟨hlabel, readable_ofStmts stmts h⟩

end

/-! ### From the tree to the program -/

theorem bare_params {params params' : List Ident} (h : params.map Ident.name = params'.map Ident.name) :
    params.map Bare.ident = params'.map Bare.ident := by
  have hbare (params : List Ident) : params.map Bare.ident = (params.map Ident.name).map fun name => ⟨name, default⟩ := by
    rw [List.map_map]
    rfl
  rw [hbare, hbare, h]

/-- The operators of a chain have its level. -/
theorem level_of_operands {level : ChainLevel} {rest : List (BinaryOp × Expr)} (h : Shaped.operands level rest)
    {op : BinaryOp} (hop : op ∈ rest.map Prod.fst) : op.level = level := by
  induction rest with
  | nil => cases hop
  | cons step rest ih =>
    simp only [Shaped.operands, Bool.and_eq_true, decide_eq_true_eq] at h
    rcases List.mem_cons.mp hop with rfl | hop
    · exact h.1.1.1
    · exact ih h.2 hop

mutual

theorem bare_expr_inj (e e' : Expr) (h : Shaped.expr e) (h' : Shaped.expr e') (heq : ofExpr e = ofExpr e') :
    Bare.expr e = Bare.expr e' := by
  have hform := form_eq heq
  cases e with
  | int value span =>
    cases e' with
    | int value' span' =>
      rw [ofExpr, ofExpr] at heq
      have hvalue := (String.append_right_inj _).mp (Outline.node.inj heq).1
      rw [Bare.expr, Bare.expr, toString_inj (of_decide_eq_true h) (of_decide_eq_true h') hvalue]
    | _ => simp [form] at hform
  | string value span =>
    cases e' with
    | string value' span' =>
      rw [ofExpr, ofExpr] at heq
      have hvalue := (String.append_right_inj _).mp (Outline.node.inj heq).1
      rw [Bare.expr, Bare.expr, Text.Quoted.encode_inj hvalue]
    | _ => simp [form] at hform
  | bool value span =>
    cases e' with
    | bool value' span' =>
      rw [ofExpr, ofExpr] at heq
      have hvalue := (Outline.node.inj heq).1
      rw [Bare.expr, Bare.expr]
      revert hvalue
      cases value <;> cases value' <;> simp
    | _ => simp [form] at hform
  | ident name =>
    cases e' with
    | ident name' =>
      rw [ofExpr, ofExpr] at heq
      have hname := (String.append_right_inj _).mp (Outline.node.inj heq).1
      rw [Bare.expr, Bare.expr, Bare.ident, Bare.ident, hname]
    | _ => simp [form] at hform
  | chain level first rest span =>
    cases e' with
    | chain level' first' rest' span' =>
      simp only [Shaped.expr, Bool.and_eq_true] at h h'
      rw [ofExpr, ofExpr] at heq
      obtain ⟨hlabel, hchildren⟩ := Outline.node.inj heq
      obtain ⟨hfirst, hrest⟩ := List.cons.inj hchildren
      have hops := operators_inj ((String.append_right_inj _).mp hlabel)
      have hlevel : level = level' := by
        cases rest with
        | nil => exact absurd h.1.2 (by decide)
        | cons step rest =>
          have hop : step.1 ∈ ((step :: rest).map Prod.fst) := List.mem_cons_self
          rw [← level_of_operands h.2 hop, level_of_operands h'.2 (hops ▸ hop)]
      rw [Bare.expr, Bare.expr, hlevel, bare_expr_inj first first' h.1.1.2 h'.1.1.2 hfirst,
        bare_operands_inj rest rest' h.2 h'.2 hops hrest]
    | _ => simp [form] at hform
  | unary op operand span =>
    cases e' with
    | unary op' operand' span' =>
      simp only [Shaped.expr, Bool.and_eq_true] at h h'
      rw [ofExpr, ofExpr] at heq
      obtain ⟨hlabel, hchildren⟩ := Outline.node.inj heq
      have hop : op = op' := by
        revert hlabel
        cases op <;> cases op' <;> decide
      rw [Bare.expr, Bare.expr, hop, bare_expr_inj operand operand' h.2 h'.2 (List.cons.inj hchildren).1]
    | _ => simp [form] at hform
  | call callee args span =>
    cases e' with
    | call callee' args' span' =>
      simp only [Shaped.expr, Bool.and_eq_true] at h h'
      rw [ofExpr, ofExpr] at heq
      obtain ⟨hcallee, hargs⟩ := List.cons.inj (Outline.node.inj heq).2
      rw [Bare.expr, Bare.expr, bare_expr_inj callee callee' h.1.2 h'.1.2 hcallee, bare_exprs_inj args args' h.2 h'.2 hargs]
    | _ => simp [form] at hform
  | index object index span =>
    cases e' with
    | index object' index' span' =>
      simp only [Shaped.expr, Bool.and_eq_true] at h h'
      rw [ofExpr, ofExpr] at heq
      obtain ⟨hobject, hindex⟩ := List.cons.inj (Outline.node.inj heq).2
      rw [Bare.expr, Bare.expr, bare_expr_inj object object' h.1.2 h'.1.2 hobject,
        bare_expr_inj index index' h.2 h'.2 (List.cons.inj hindex).1]
    | _ => simp [form] at hform
  | array elements span =>
    cases e' with
    | array elements' span' =>
      rw [ofExpr, ofExpr] at heq
      rw [Bare.expr, Bare.expr, bare_exprs_inj elements elements' h h' (Outline.node.inj heq).2]
    | _ => simp [form] at hform
  | hash pairs brace span =>
    cases e' with
    | hash pairs' brace' span' =>
      rw [ofExpr, ofExpr] at heq
      rw [Bare.expr, Bare.expr, bare_pairs_inj pairs pairs' h h' (Outline.node.inj heq).2]
    | _ => simp [form] at hform
  | function params body span =>
    cases e' with
    | function params' body' span' =>
      simp only [Shaped.expr, Bool.and_eq_true] at h h'
      rw [ofExpr, ofExpr] at heq
      obtain ⟨hlabel, hchildren⟩ := Outline.node.inj heq
      have hnames := params_inj h.1 h'.1 ((String.append_right_inj _).mp ((String.append_left_inj _).mp hlabel))
      rw [Bare.expr, Bare.expr, bare_params hnames, bare_block_inj body body' h.2 h'.2 (List.cons.inj hchildren).1]
    | _ => simp [form] at hform
  | ifElse condition thenBlock elseBlock span =>
    cases e' with
    | ifElse condition' thenBlock' elseBlock' span' =>
      simp only [Shaped.expr, Bool.and_eq_true] at h h'
      rw [ofExpr, ofExpr] at heq
      obtain ⟨hcondition, hbranches⟩ := List.cons.inj (Outline.node.inj heq).2
      obtain ⟨hthen, helse⟩ := List.cons.inj hbranches
      rw [Bare.expr, Bare.expr, bare_expr_inj condition condition' h.1.1 h'.1.1 hcondition,
        bare_block_inj thenBlock thenBlock' h.1.2 h'.1.2 hthen, bare_otherwise_inj elseBlock elseBlock' h.2 h'.2 helse]
    | _ => simp [form] at hform
  | paren inner span =>
    cases e' with
    | paren inner' span' =>
      rw [ofExpr, ofExpr] at heq
      rw [Bare.expr, Bare.expr, bare_expr_inj inner inner' h h' (List.cons.inj (Outline.node.inj heq).2).1]
    | _ => simp [form] at hform
termination_by structural e

theorem bare_operands_inj {level level' : ChainLevel} (rest rest' : List (BinaryOp × Expr)) (h : Shaped.operands level rest)
    (h' : Shaped.operands level' rest') (hops : rest.map Prod.fst = rest'.map Prod.fst)
    (heq : ofOperands rest = ofOperands rest') : Bare.operands rest = Bare.operands rest' := by
  match rest, rest' with
  | [], [] => rfl
  | [], _ :: _ => cases hops
  | _ :: _, [] => cases hops
  | (op, operand) :: rest, (op', operand') :: rest' =>
    simp only [Shaped.operands, Bool.and_eq_true] at h h'
    obtain ⟨hoperand, hrest⟩ := List.cons.inj heq
    obtain ⟨hop, hops⟩ := List.cons.inj hops
    rw [Bare.operands, Bare.operands, show op = op' from hop, bare_expr_inj operand operand' h.1.2 h'.1.2 hoperand,
      bare_operands_inj rest rest' h.2 h'.2 hops hrest]
termination_by structural rest

theorem bare_exprs_inj (es es' : List Expr) (h : Shaped.exprs es) (h' : Shaped.exprs es') (heq : ofExprs es = ofExprs es') :
    Bare.exprs es = Bare.exprs es' := by
  match es, es' with
  | [], [] => rfl
  | [], _ :: _ => cases heq
  | _ :: _, [] => cases heq
  | e :: rest, e' :: rest' =>
    simp only [Shaped.exprs, Bool.and_eq_true] at h h'
    obtain ⟨he, hrest⟩ := List.cons.inj heq
    rw [Bare.exprs, Bare.exprs, bare_expr_inj e e' h.1 h'.1 he, bare_exprs_inj rest rest' h.2 h'.2 hrest]
termination_by structural es

theorem bare_pairs_inj (pairs pairs' : List (Expr × Expr)) (h : Shaped.pairs pairs) (h' : Shaped.pairs pairs')
    (heq : ofPairs pairs = ofPairs pairs') : Bare.pairs pairs = Bare.pairs pairs' := by
  match pairs, pairs' with
  | [], [] => rfl
  | [], _ :: _ => cases heq
  | _ :: _, [] => cases heq
  | (key, value) :: rest, (key', value') :: rest' =>
    simp only [Shaped.pairs, Bool.and_eq_true] at h h'
    obtain ⟨hpair, hrest⟩ := List.cons.inj heq
    obtain ⟨hkey, hvalue⟩ := List.cons.inj (Outline.node.inj hpair).2
    rw [Bare.pairs, Bare.pairs, bare_expr_inj key key' h.1.1 h'.1.1 hkey,
      bare_expr_inj value value' h.1.2 h'.1.2 (List.cons.inj hvalue).1, bare_pairs_inj rest rest' h.2 h'.2 hrest]
termination_by structural pairs

theorem bare_otherwise_inj (elseBlock elseBlock' : Option Block) (h : Shaped.otherwise elseBlock)
    (h' : Shaped.otherwise elseBlock') (heq : ofElse elseBlock = ofElse elseBlock') :
    Bare.otherwise elseBlock = Bare.otherwise elseBlock' := by
  match elseBlock, elseBlock' with
  | none, none => rfl
  | none, some _ => cases heq
  | some _, none => cases heq
  | some block, some block' =>
    rw [Bare.otherwise, Bare.otherwise, bare_block_inj block block' h h' (List.cons.inj heq).1]
termination_by structural elseBlock

theorem bare_stmt_inj (s s' : Stmt) (h : Shaped.stmt s) (h' : Shaped.stmt s') (heq : ofStmt s = ofStmt s') :
    Bare.stmt s = Bare.stmt s' := by
  have hform := formOfStmt_eq heq
  cases s with
  | letStmt name value span =>
    cases s' with
    | letStmt name' value' span' =>
      simp only [Shaped.stmt, Bool.and_eq_true] at h h'
      rw [ofStmt, ofStmt] at heq
      obtain ⟨hlabel, hchildren⟩ := Outline.node.inj heq
      have hname := (String.append_right_inj _).mp hlabel
      rw [Bare.stmt, Bare.stmt, Bare.ident, Bare.ident, hname,
        bare_expr_inj value value' h.2 h'.2 (List.cons.inj hchildren).1]
    | _ => simp [formOfStmt] at hform
  | returnStmt value span =>
    cases s' with
    | returnStmt value' span' =>
      rw [ofStmt, ofStmt] at heq
      rw [Bare.stmt, Bare.stmt, bare_expr_inj value value' h h' (List.cons.inj (Outline.node.inj heq).2).1]
    | _ => simp [formOfStmt] at hform
  | exprStmt e span =>
    cases s' with
    | exprStmt e' span' =>
      rw [ofStmt, ofStmt] at heq
      rw [Bare.stmt, Bare.stmt, bare_expr_inj e e' h h' (List.cons.inj (Outline.node.inj heq).2).1]
    | _ => simp [formOfStmt] at hform
termination_by structural s

theorem bare_stmts_inj (ss ss' : List Stmt) (h : Shaped.stmts ss) (h' : Shaped.stmts ss') (heq : ofStmts ss = ofStmts ss') :
    Bare.stmts ss = Bare.stmts ss' := by
  match ss, ss' with
  | [], [] => rfl
  | [], _ :: _ => cases heq
  | _ :: _, [] => cases heq
  | s :: rest, s' :: rest' =>
    simp only [Shaped.stmts, Bool.and_eq_true] at h h'
    obtain ⟨hs, hrest⟩ := List.cons.inj heq
    rw [Bare.stmts, Bare.stmts, bare_stmt_inj s s' h.1 h'.1 hs, bare_stmts_inj rest rest' h.2 h'.2 hrest]
termination_by structural ss

theorem bare_block_inj {label : String} (block block' : Block) (h : Shaped.block block) (h' : Shaped.block block')
    (heq : ofBlock label block = ofBlock label block') : Bare.block block = Bare.block block' := by
  cases block with
  | mk ss span =>
    cases block' with
    | mk ss' span' =>
      rw [ofBlock, ofBlock] at heq
      rw [Bare.block, Bare.block, bare_stmts_inj ss ss' h h' (Outline.node.inj heq).2]
termination_by structural block

end

end Outline

namespace Program

theorem shaped_of_parse {source : String} {program : Program} (h : parse source = .ok program) : program.shaped := by
  obtain ⟨tokens, hscan, hspells⟩ := spells_of_parse h
  have hscans : Lexeme.Scans source.toList .start (tokens.map .token) (Lexeme.scan source).2 := by
    rw [← Lexeme.scan_eq_iff, ← hscan]
  exact hspells.shaped fun t ht => hscans.written (List.mem_map_of_mem ht)

/-- The text of an outline tells the program apart from positions. -/
theorem bare_eq_of_write {p q : Program} (hp : p.shaped) (hq : q.shaped)
    (h : (Outline.ofProgram p).write = (Outline.ofProgram q).write) : p.bare = q.bare := by
  have hreadable {p : Program} (hp : p.shaped) : (Outline.ofProgram p).Readable :=
    ⟨by decide, Outline.readable_ofStmts p.stmts hp⟩
  have htree := Outline.write_inj ((hreadable hp).lines 0) ((hreadable hq).lines 0) h
  unfold bare
  rw [Outline.bare_stmts_inj p.stmts q.stmts hp hq (Outline.node.inj htree).2]

end Program

end MonkeyLang
