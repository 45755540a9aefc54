import Mathlib.Logic.Relation
import MonkeyLang.Proofs.ErrorOrder
import MonkeyLang.Proofs.Partition
/-!
# Where syntax stands in its source

Each piece of syntax is spelled by some tokens in a row. Its span starts where the first of them starts. Across lines no more is
known, since lengths are added up there, but where the tokens of a piece of syntax stand on one line with no newline between
them, its span ends where the last of them ends: it is exactly the text that they take up, with the gaps between them.
-/

namespace MonkeyLang

/-! ### Syntax in other syntax -/

namespace Node

/-- The pieces of syntax that another one is made of. -/
def parts : Node → List Node
  | expr (.int _ _) | expr (.string _ _) | expr (.bool _ _) | expr (.ident _) => []
  | expr (.chain level first rest _) => [expr first, operands level rest]
  | expr (.unary _ operand _) => [expr operand]
  | expr (.call callee args _) => [expr callee, exprs args]
  | expr (.index object index _) => [expr object, expr index]
  | expr (.array elements _) => [exprs elements]
  | expr (.hash entries _ _) => [pairs entries]
  | expr (.function _ body _) => [block body]
  | expr (.ifElse condition thenBlock elseBlock _) => expr condition :: block thenBlock :: elseBlock.toList.map block
  | expr (.paren inner _) => [expr inner]
  | operands _ [] | exprs [] | pairs [] | params _ | stmts [] => []
  | operands level ((_, operand) :: rest) => [expr operand, operands level rest]
  | exprs (e :: rest) => [expr e, exprs rest]
  | pairs ((key, value) :: rest) => [expr key, expr value, pairs rest]
  | block (.mk ss _) => [stmts ss]
  | stmt (.letStmt _ value _) | stmt (.returnStmt value _) | stmt (.exprStmt value _) => [expr value]
  | stmts (s :: rest) => [stmt s, stmts rest]

/-- A piece of syntax stands in another one, at any depth. -/
def Holds : Node → Node → Prop := Relation.ReflTransGen fun node part => part ∈ node.parts

/-- Statements take the semicolon that comes behind them. -/
def Ended (after : List Token) : Node → Prop
  | stmt _ | stmts _ => ∀ t ∈ after.head?, t.kind ≠ .semicolon
  | _ => True

end Node

namespace Spells

variable {node part : Node} {e : Expr} {s : Stmt} {ts us after : List Token}

/-- No expression starts with a semicolon. -/
theorem exists_cons_of_expr (h : Spells (.expr e) ts) : ∃ t rest, ts = t :: rest ∧ t.kind ≠ .semicolon := by
  generalize hnode : Node.expr e = node at h
  induction h generalizing e with
  | int hkind | string hkind | ident hkind => exact ⟨_, _, rfl, by simp [hkind]⟩
  | @bool t value hkind => exact ⟨_, _, rfl, by cases value <;> simp [hkind, boolKind]⟩
  | chain _ _ _ _ ih | call _ _ _ _ _ ih | index _ _ _ _ _ ih =>
    obtain ⟨t, rest, rfl, hkind⟩ := ih rfl
    exact ⟨t, _, rfl, hkind⟩
  | @unary t op operand ts hkind => exact ⟨t, _, rfl, by cases op <;> simp [hkind, UnaryOp.tokenKind]⟩
  | array hstart | hash hstart | paren hstart => exact ⟨_, _, rfl, by simp [hstart]⟩
  | function hkind | ifThen hkind | ifElse hkind => exact ⟨_, _, rfl, by simp [hkind]⟩
  | _ => cases hnode

theorem exists_cons_of_stmt (h : Spells (.stmt s) ts) : ∃ t rest, ts = t :: rest ∧ t.kind ≠ .semicolon := by
  cases h with
  | letStmt hkind | returnStmt hkind => exact ⟨_, _, rfl, by simp [hkind]⟩
  | exprStmt he =>
    obtain ⟨t, rest, rfl, hkind⟩ := he.exists_cons_of_expr
    exact ⟨t, _, rfl, hkind⟩

/-- The parts of a piece of syntax are spelled by some of its tokens in a row. -/
theorem exists_part (h : Spells node ts) (hended : node.Ended after) (hpart : part ∈ node.parts) :
    ∃ front us rear, ts = front ++ us ++ rear ∧ Spells part us ∧ part.Ended (rear ++ after) := by
  cases h with
  | int | string | bool | ident | operandsNil | exprsNil | pairsNil | paramsNil | paramsLast | paramsCons | stmtsNil =>
    cases hpart
  | @chain level first rest ts us hfirst _ hrest =>
    rcases List.mem_pair.mp hpart with rfl | rfl
    · exact ⟨[], ts, us, rfl, hfirst, trivial⟩
    · exact ⟨ts, us, [], (List.append_nil _).symm, hrest, trivial⟩
  | @unary t op operand ts _ hoperand =>
    obtain rfl := List.mem_singleton.mp hpart
    exact ⟨[t], ts, [], by simp, hoperand, trivial⟩
  | @call callee args start stop ts us hfirst _ _ hinner | @index object index start stop ts us hfirst _ _ hinner =>
    rcases List.mem_pair.mp hpart with rfl | rfl
    · exact ⟨[], ts, start :: (us ++ [stop]), rfl, hfirst, trivial⟩
    · exact ⟨ts ++ [start], us, [stop], by simp, hinner, trivial⟩
  | @array elements start stop us _ hinner | @hash entries start stop us _ hinner | @paren inner start stop us _ hinner =>
    obtain rfl := List.mem_singleton.mp hpart
    exact ⟨[start], us, [stop], by simp, hinner, trivial⟩
  | @function t start stop names body us vs _ _ _ _ hbody =>
    obtain rfl := List.mem_singleton.mp hpart
    exact ⟨t :: start :: (us ++ [stop]), vs, [], by simp, hbody, trivial⟩
  | @ifThen t start stop condition thenBlock us vs _ _ hcondition _ hthen =>
    rcases List.mem_pair.mp hpart with rfl | rfl
    · exact ⟨[t, start], us, stop :: vs, by simp, hcondition, trivial⟩
    · exact ⟨t :: start :: (us ++ [stop]), vs, [], by simp, hthen, trivial⟩
  | @ifElse t start stop middle condition thenBlock elseBlock us vs ws _ _ hcondition _ hthen _ helse =>
    simp only [Node.parts, Option.toList_some, List.map_singleton, List.mem_cons, List.not_mem_nil, or_false] at hpart
    rcases hpart with rfl | rfl | rfl
    · exact ⟨[t, start], us, stop :: (vs ++ middle :: ws), by simp, hcondition, trivial⟩
    · exact ⟨t :: start :: (us ++ [stop]), vs, middle :: ws, by simp, hthen, trivial⟩
    · exact ⟨t :: start :: (us ++ stop :: (vs ++ [middle])), ws, [], by simp, helse, trivial⟩
  | @operandsCons t level op operand rest ts us _ _ hoperand _ hrest =>
    rcases List.mem_pair.mp hpart with rfl | rfl
    · exact ⟨[t], ts, us, rfl, hoperand, trivial⟩
    · exact ⟨t :: ts, us, [], by simp, hrest, trivial⟩
  | exprsLast he =>
    rcases List.mem_pair.mp hpart with rfl | rfl
    · exact ⟨[], ts, [], by simp, he, trivial⟩
    · exact ⟨ts, [], [], by simp, .exprsNil, trivial⟩
  | @exprsCons t e rest ts us he _ hrest =>
    rcases List.mem_pair.mp hpart with rfl | rfl
    · exact ⟨[], ts, t :: us, rfl, he, trivial⟩
    · exact ⟨ts ++ [t], us, [], by simp, hrest, trivial⟩
  | @pairsLast colon key value ts us hkey _ hvalue =>
    simp only [Node.parts, List.mem_cons, List.not_mem_nil, or_false] at hpart
    rcases hpart with rfl | rfl | rfl
    · exact ⟨[], ts, colon :: us, rfl, hkey, trivial⟩
    · exact ⟨ts ++ [colon], us, [], by simp, hvalue, trivial⟩
    · exact ⟨ts ++ colon :: us, [], [], by simp, .pairsNil, trivial⟩
  | @pairsCons colon t key value rest ts us vs hkey _ hvalue _ hrest =>
    simp only [Node.parts, List.mem_cons, List.not_mem_nil, or_false] at hpart
    rcases hpart with rfl | rfl | rfl
    · exact ⟨[], ts, colon :: (us ++ t :: vs), rfl, hkey, trivial⟩
    · exact ⟨ts ++ [colon], us, t :: vs, by simp, hvalue, trivial⟩
    · exact ⟨ts ++ colon :: (us ++ [t]), vs, [], by simp, hrest, trivial⟩
  | @block start stop ss us _ hstmts hstop =>
    obtain rfl := List.mem_singleton.mp hpart
    exact ⟨[start], us, [stop], by simp, hstmts, by simp [Node.Ended, hstop]⟩
  | @letStmt t name equal value ts stop _ _ _ hvalue =>
    obtain rfl := List.mem_singleton.mp hpart
    exact ⟨[t, name, equal], ts, stop, by simp, hvalue, trivial⟩
  | @returnStmt t value ts stop _ hvalue =>
    obtain rfl := List.mem_singleton.mp hpart
    exact ⟨[t], ts, stop, rfl, hvalue, trivial⟩
  | @exprStmt e ts stop he =>
    obtain rfl := List.mem_singleton.mp hpart
    exact ⟨[], ts, stop, rfl, he, trivial⟩
  | @stmtsCons s rest ts us hs hrest =>
    rcases List.mem_pair.mp hpart with rfl | rfl
    · refine ⟨[], ts, us, rfl, hs, ?_⟩
      -- What comes behind a statement is the next one, or what comes behind all of them.
      cases hrest with
      | stmtsNil => exact hended
      | stmtsCons hnext =>
        obtain ⟨t, tail, rfl, hkind⟩ := hnext.exists_cons_of_stmt
        simpa [Node.Ended] using hkind
    · exact ⟨ts, us, [], by simp, hrest, hended⟩

theorem exists_slice (h : Spells node ts) (hended : node.Ended after) (hholds : node.Holds part) :
    ∃ front us rear, ts = front ++ us ++ rear ∧ Spells part us ∧ part.Ended (rear ++ after) := by
  induction hholds with
  | refl => exact ⟨[], ts, [], by simp, h, hended⟩
  | tail _ hpart ih =>
    obtain ⟨front, us, rear, rfl, hus, hended'⟩ := ih
    obtain ⟨front', us', rear', rfl, hus', hended''⟩ := hus.exists_part hended' hpart
    refine ⟨front ++ front', us', rear' ++ rear, by simp, hus', ?_⟩
    rwa [List.append_assoc]

end Spells

/-! ### Tokens on one line -/

/-- Tokens stand on one line, each behind the end of those before it. -/
def OneLine (ts : List Token) : Prop :=
  ts.Pairwise fun t u => t.span.line = u.span.line ∧ t.span.stop ≤ u.span.column

theorem Span.eq_of_start_of_stop {a b : Span} (hstart : a.start = b.start) (hstop : a.stop = b.stop) : a = b := by
  obtain ⟨line, column, length⟩ := a
  obtain ⟨line', column', length'⟩ := b
  cases hstart
  obtain rfl : length = length' := Nat.add_left_cancel hstop
  rfl

theorem Span.stop_cover {a b : Span} (h : a.line = b.line) : (a.cover b).stop = max a.stop b.stop := by
  rw [cover, if_pos h]
  simp only [stop]
  omega

namespace OneLine

variable {ts us : List Token} {t u : Token}

theorem inSequence (h : OneLine ts) : InSequence ts := by
  refine List.Pairwise.imp (fun {t u} hline => ?_) h
  exact .inr ⟨hline.1, Nat.le_trans (Nat.le_add_right _ _) hline.2⟩

theorem line_eq (h : OneLine ts) (ht : t ∈ ts) (hu : u ∈ ts) : t.span.line = u.span.line := by
  induction ts with
  | nil => cases ht
  | cons first ts ih =>
    obtain ⟨hfirst, hrest⟩ := List.pairwise_cons.mp h
    rw [List.mem_cons] at ht hu
    rcases ht with rfl | ht <;> rcases hu with rfl | hu
    · rfl
    · exact (hfirst u hu).1
    · exact (hfirst t ht).1.symm
    · exact ih hrest ht hu

theorem stop_le_last (h : OneLine ts) (ht : t ∈ ts) (s : Span) : t.span.stop ≤ (lastSpan s ts).stop := by
  induction ts using List.reverseRecOn with
  | nil => cases ht
  | append_singleton ts last =>
    rw [lastSpan_concat]
    rcases List.mem_append.mp ht with ht | ht
    · have hbefore := (List.pairwise_append.mp h).2.2 t ht last List.mem_cons_self
      exact Nat.le_trans hbefore.2 (Nat.le_add_right _ _)
    · rw [List.mem_singleton.mp ht]

/-- What starts somewhere on the line and goes on to the end of the last token ends there. -/
theorem stop_cover {a b s : Span} (h : OneLine ts) (hstart : ∃ t ∈ ts, a.line = t.span.line)
    (hstop : ∃ t ∈ ts, a.stop = t.span.stop) (hline : ∃ t ∈ ts, b.line = t.span.line) (hlast : b.stop = (lastSpan s ts).stop) :
    (a.cover b).stop = (lastSpan s ts).stop := by
  obtain ⟨t, ht, hstart⟩ := hstart
  obtain ⟨u, hu, hstop⟩ := hstop
  obtain ⟨v, hv, hline⟩ := hline
  have hlines : a.line = b.line := by rw [hstart, hline, h.line_eq ht hv]
  have hle := h.stop_le_last hu s
  rw [Span.stop_cover hlines, hstop, hlast, Nat.max_eq_right hle]

/-- From the first token on. -/
theorem stop_cover_first {b s : Span} (h : OneLine (t :: ts)) (hline : ∃ u ∈ t :: ts, b.line = u.span.line)
    (hlast : b.stop = (lastSpan s (t :: ts)).stop) : (t.span.cover b).stop = (lastSpan s (t :: ts)).stop :=
  h.stop_cover ⟨t, List.mem_cons_self, rfl⟩ ⟨t, List.mem_cons_self, rfl⟩ hline hlast

/-- Up to the last token. -/
theorem stop_cover_last {a s : Span} (h : OneLine ts) (hstart : ∃ t ∈ ts, a.line = t.span.line)
    (hstop : ∃ t ∈ ts, a.stop = t.span.stop) : (a.cover (lastSpan s ts)).stop = (lastSpan s ts).stop := by
  obtain ⟨t, ht, hline⟩ := hstart
  obtain ⟨u, hu, hlast⟩ := exists_mem_lastSpan (List.ne_nil_of_mem ht) s
  exact h.stop_cover ⟨t, ht, hline⟩ hstop ⟨u, hu, congrArg Span.line hlast⟩ rfl

theorem stop_cover_first_last (h : OneLine (t :: ts)) (s : Span) :
    (t.span.cover (lastSpan s (t :: ts))).stop = (lastSpan s (t :: ts)).stop :=
  h.stop_cover_last ⟨t, List.mem_cons_self, rfl⟩ ⟨t, List.mem_cons_self, rfl⟩

end OneLine

namespace Spells

variable {node : Node} {ts : List Token} {s : Span}

theorem exists_line (h : Spells node ts) (hts : OneLine ts) (hs : node.span? = some s) : ∃ t ∈ ts, s.line = t.span.line := by
  obtain ⟨t, rest, rfl, hstart⟩ := h.start_span hts.inSequence hs
  exact ⟨t, List.mem_cons_self, congrArg Position.line hstart⟩

/-- From an expression at the front to the last token. -/
theorem stop_cover_last {e : Expr} {us : List Token} {x : Span} (h : Spells (.expr e) ts) (hts : OneLine (ts ++ us))
    (hstop : e.span.stop = (lastSpan x ts).stop) :
    (e.span.cover (lastSpan x (ts ++ us))).stop = (lastSpan x (ts ++ us)).stop := by
  obtain ⟨t, ht, hline⟩ := h.exists_line (List.pairwise_append.mp hts).1 rfl
  obtain ⟨u, hu, hlast⟩ := exists_mem_lastSpan h.ne_nil x
  rw [hlast] at hstop
  exact hts.stop_cover_last ⟨t, List.mem_append_left _ ht, hline⟩ ⟨u, List.mem_append_left _ hu, hstop⟩

/-- On one line, an expression, a block or a statement ends where its last token ends. -/
theorem stop_span (h : Spells node ts) (hts : OneLine ts) (hs : node.span? = some s) (x : Span) :
    s.stop = (lastSpan x ts).stop := by
  induction h generalizing s x with
  | int | string | bool | ident =>
    cases hs
    rfl
  | @chain level first rest ts us hfirst _ hrest hne ih _ =>
    cases hs
    have hlast : lastSpan first.span us = lastSpan x (ts ++ us) := by
      rw [lastSpan_append, lastSpan_of_ne_nil (hrest.operands_ne_nil hne)]
    change (first.span.cover (lastSpan first.span us)).stop = _
    rw [hlast]
    exact hfirst.stop_cover_last hts (ih (List.pairwise_append.mp hts).1 rfl x)
  | @unary t op operand ts _ hoperand _ ih =>
    cases hs
    have hts' : OneLine ts := (List.pairwise_cons.mp hts).2
    obtain ⟨u, hu, hline⟩ := hoperand.exists_line hts' rfl
    exact hts.stop_cover_first ⟨u, List.mem_cons_of_mem t hu, hline⟩ (ih hts' rfl t.span)
  | @call callee args start stop ts us hfirst _ _ _ _ ih _ | @index object index start stop ts us hfirst _ _ _ _ ih _ =>
    cases hs
    have hlast : stop.span = lastSpan x (ts ++ start :: (us ++ [stop])) := by simp [lastSpan_append]
    refine Eq.trans ?_ (hfirst.stop_cover_last hts (ih (List.pairwise_append.mp hts).1 rfl x))
    rw [← hlast]
    rfl
  | @array elements start stop us | @hash entries start stop us | @paren inner start stop us | @block start stop ss us =>
    cases hs
    have hlast : stop.span = lastSpan x (start :: (us ++ [stop])) := by simp
    refine Eq.trans ?_ (hts.stop_cover_first_last x)
    rw [← hlast]
    rfl
  | @function t start stop params body us vs _ _ _ _ hblock _ ih
  | @ifThen t start stop condition thenBlock us vs _ _ _ _ hblock _ ih =>
    cases hs
    have hbody : vs <:+ t :: start :: (us ++ stop :: vs) := ⟨t :: start :: (us ++ [stop]), by simp⟩
    have hlast : lastSpan x (t :: start :: (us ++ stop :: vs)) = lastSpan stop.span vs := by simp [lastSpan_append]
    obtain ⟨u, hu, hline⟩ := hblock.exists_line (hts.sublist hbody.sublist) rfl
    refine hts.stop_cover_first ⟨u, hbody.subset hu, hline⟩ ?_
    rw [hlast]
    exact ih (hts.sublist hbody.sublist) rfl stop.span
  | @ifElse t start stop middle condition thenBlock elseBlock us vs ws _ _ _ _ _ _ hblock _ _ ih =>
    cases hs
    have helse : ws <:+ t :: start :: (us ++ stop :: (vs ++ middle :: ws)) :=
      ⟨t :: start :: (us ++ stop :: (vs ++ [middle])), by simp⟩
    have hlast : lastSpan x (t :: start :: (us ++ stop :: (vs ++ middle :: ws))) = lastSpan middle.span ws := by
      simp [lastSpan_append]
    obtain ⟨u, hu, hline⟩ := hblock.exists_line (hts.sublist helse.sublist) rfl
    refine hts.stop_cover_first ⟨u, helse.subset hu, hline⟩ ?_
    rw [hlast]
    exact ih (hts.sublist helse.sublist) rfl middle.span
  | letStmt | returnStmt =>
    cases hs
    exact hts.stop_cover_first_last x
  | @exprStmt e ts stop he _ ih =>
    cases hs
    have hlast : lastSpan e.span (ts ++ stop) = lastSpan x (ts ++ stop) :=
      lastSpan_of_ne_nil (List.append_ne_nil_of_left_ne_nil he.ne_nil stop)
    change (e.span.cover (lastSpan e.span (ts ++ stop))).stop = _
    rw [hlast]
    exact he.stop_cover_last hts (ih (List.pairwise_append.mp hts).1 rfl x)
  | _ => cases hs

end Spells

/-! ### The text of some tokens -/

/-- Some tokens in a row and the gaps between them make up a text, which stands behind another one. -/
inductive Extent : List Char → List Token → List Char → Prop
  | one {before taken t} (hspan : t.span = .behind before taken) : Extent before [t] taken
  | cons {before taken gap text t ts} (hspan : t.span = .behind before taken)
      (hrest : Extent (before ++ taken ++ gap) ts text) : Extent before (t :: ts) (taken ++ gap ++ text)

namespace Partition

variable {before text : List Char} {front us rear : List Token} {eof : Token}

theorem exists_extent_front (h : Partition before text (us ++ rear) eof) (hne : us ≠ []) :
    ∃ gap extent rest, text = gap ++ extent ++ rest ∧ Extent (before ++ gap) us extent := by
  induction us generalizing before text with
  | nil => exact absurd rfl hne
  | cons t us ih =>
    cases h with
    | @token _ gap c taken rest _ _ _ _ _ hspan _ hrest =>
      by_cases hus : us = []
      · subst hus
        exact ⟨gap, c :: taken, rest, by simp, .one hspan⟩
      · obtain ⟨gap', extent, rest', rfl, hextent⟩ := ih hrest hus
        exact ⟨gap, c :: taken ++ gap' ++ extent, rest', by simp, .cons hspan hextent⟩

theorem exists_extent (h : Partition before text (front ++ us ++ rear) eof) (hne : us ≠ []) :
    ∃ xs extent zs, before ++ text = xs ++ extent ++ zs ∧ Extent xs us extent := by
  induction front generalizing before text with
  | nil =>
    obtain ⟨gap, extent, rest, rfl, hextent⟩ := exists_extent_front h hne
    exact ⟨before ++ gap, extent, rest, by simp, hextent⟩
  | cons t front ih =>
    cases h with
    | @token _ gap c taken rest _ _ _ _ _ _ _ hrest =>
      obtain ⟨xs, extent, zs, heq, hextent⟩ := ih hrest
      exact ⟨xs, extent, zs, by rw [← heq]; simp, hextent⟩

end Partition

theorem Position.afterAll_of_notMem (p : Position) {cs : List Char} (h : '\n' ∉ cs) :
    p.afterAll cs = ⟨p.line, p.column + byteSize cs⟩ := by
  induction cs generalizing p with
  | nil => rfl
  | cons c cs ih =>
    obtain ⟨hc, hcs⟩ := not_or.mp (List.mem_cons.not.mp h)
    have hafter : p.after c = ⟨p.line, p.column + c.utf8Size⟩ := if_neg (Ne.symm hc)
    change (p.after c).afterAll cs = _
    rw [ih _ hcs, hafter, byteSize_cons, Nat.add_assoc]

/-- Behind a text with no newline in it, the line stays and the column moves on by its bytes. -/
theorem Span.behind_append {ys : List Char} (h : '\n' ∉ ys) (xs zs ws : List Char) :
    (Span.behind (xs ++ ys) zs).line = (Span.behind xs ws).line ∧
      (Span.behind (xs ++ ys) zs).column = (Span.behind xs ws).column + byteSize ys := by
  rw [Span.behind_eq, Span.behind_eq, Position.afterAll_append, Position.afterAll_of_notMem _ h]
  exact ⟨rfl, rfl⟩

namespace Extent

variable {before text : List Char} {ts : List Token}

theorem exists_first (h : Extent before ts text) :
    ∃ t rest, ts = t :: rest ∧ t.span.start = (Span.behind before text).start := by
  cases h with
  | one hspan | cons hspan => exact ⟨_, _, rfl, (congrArg Span.start hspan).trans rfl⟩

theorem stop_last (h : Extent before ts text) (hline : '\n' ∉ text) (x : Span) :
    (lastSpan x ts).stop = (Span.behind before text).stop := by
  induction h generalizing x with
  | one hspan => exact congrArg Span.stop hspan
  | @cons before taken gap text t ts _ _ ih =>
    rw [List.mem_append, not_or] at hline
    have hcolumn := (Span.behind_append hline.1 before text (taken ++ gap ++ text)).2
    rw [lastSpan_cons, ih hline.2, List.append_assoc, Span.stop, Span.stop, hcolumn]
    simp only [Span.behind, byteSize_append]
    omega

theorem line_and_column (h : Extent before ts text) (hline : '\n' ∉ text) :
    ∀ t ∈ ts, t.span.line = (Span.behind before text).line ∧ (Span.behind before text).column ≤ t.span.column := by
  induction h with
  | one hspan => simp [hspan, Span.behind]
  | @cons before taken gap text t ts hspan _ ih =>
    rw [List.mem_append, not_or] at hline
    obtain ⟨hline', hcolumn⟩ := Span.behind_append hline.1 before text (taken ++ gap ++ text)
    rw [← List.append_assoc] at hline' hcolumn
    refine List.forall_mem_cons.mpr ⟨?_, fun u hu => ?_⟩
    · rw [hspan]
      exact ⟨rfl, Nat.le_refl _⟩
    · obtain ⟨hu, hle⟩ := ih hline.2 u hu
      exact ⟨hu.trans hline', by omega⟩

theorem oneLine (h : Extent before ts text) (hline : '\n' ∉ text) : OneLine ts := by
  induction h with
  | one => exact List.pairwise_singleton _ _
  | @cons before taken gap text t ts hspan hrest ih =>
    rw [List.mem_append, not_or] at hline
    obtain ⟨hline', hcolumn⟩ := Span.behind_append hline.1 before text taken
    rw [← List.append_assoc] at hline' hcolumn
    refine List.pairwise_cons.mpr ⟨fun u hu => ?_, ih hline.2⟩
    obtain ⟨hu, hle⟩ := hrest.line_and_column hline.2 u hu
    rw [byteSize_append] at hcolumn
    refine ⟨?_, ?_⟩
    · rw [hspan, hu, hline']
    · rw [hspan, Span.stop]
      change _ + byteSize taken ≤ _
      omega

end Extent

/-- The span of a piece of syntax starts where the first of its tokens starts. If there is no newline in their text, it ends where
the last of them ends, and is exactly where their text stands in the source. The tokens of a statement include the semicolon
behind it. -/
def Node.Faithful (source : String) (tokens : List Token) (node : Node) (s : Span) : Prop :=
  ∃ front us rear first last xs text zs, tokens = front ++ us ++ rear ∧ Spells node us ∧ node.Ended rear ∧
    us.head? = some first ∧ us.getLast? = some last ∧ source.toList = xs ++ text ++ zs ∧ Extent xs us text ∧
    s.line = first.span.line ∧ s.column = first.span.column ∧
    ('\n' ∉ text → s.stop = last.span.stop ∧ s = .behind xs text)

/-- In a source that is read without an error, the span of every statement, block and expression, however deep inside, is that of
its tokens. -/
theorem node_spans_faithful {source : String} {program : Program} (hparse : Program.parse source = .ok program) :
    ∃ tokens, (Lexeme.scan source).1 = tokens.map .token ∧ Spells (.stmts program.stmts) tokens ∧
      ∀ node s, (Node.stmts program.stmts).Holds node → node.span? = some s → node.Faithful source tokens s := by
  obtain ⟨tokens, hscan, hspells⟩ := Program.spells_of_parse hparse
  obtain ⟨eof, hpartition⟩ := Lexeme.exists_partition_of_scan hscan
  have hend : (Node.stmts program.stmts).Ended [] := by simp [Node.Ended]
  refine ⟨tokens, hscan, hspells, fun node s hholds hs => ?_⟩
  obtain ⟨front, us, rear, rfl, hus, hended⟩ := hspells.exists_slice hend hholds
  have hslice : us <:+: front ++ us ++ rear := ⟨front, rear, rfl⟩
  obtain ⟨first, rest, rfl, hstart⟩ := hus.start_span ((inSequence_of_scan hscan).sublist hslice.sublist) hs
  obtain ⟨xs, text, zs, hsource, hextent⟩ := hpartition.exists_extent (List.cons_ne_nil first rest)
  obtain ⟨init, last, hlast⟩ : ∃ init last, first :: rest = init ++ [last] :=
    ⟨_, _, (List.dropLast_append_getLast (List.cons_ne_nil first rest)).symm⟩
  refine ⟨front, first :: rest, rear, first, last, xs, text, zs, rfl, hus, by simpa using hended, rfl, by simp [hlast], hsource,
    hextent, congrArg Position.line hstart, congrArg Position.column hstart, fun hline => ?_⟩
  have hstop := hus.stop_span (hextent.oneLine hline) hs s
  have hextentStop := hextent.stop_last hline s
  obtain ⟨_, _, heq, hfirst⟩ := hextent.exists_first
  cases heq
  refine ⟨?_, Span.eq_of_start_of_stop (hstart.trans hfirst) (hstop.trans hextentStop)⟩
  rw [hstop, hlast, lastSpan_concat]

/-- A function over three lines, with a call and an index operation on one of them. -/
def threeLines : String := "let f = fn(a) \x7b\n  -a[0](1 + 2) ;\n\x7d; f"

theorem node_spans_faithful_threeLines : ∃ program tokens, Program.parse threeLines = .ok program ∧
    (Lexeme.scan threeLines).1 = tokens.map .token ∧ Spells (.stmts program.stmts) tokens ∧
      ∀ node s, (Node.stmts program.stmts).Holds node → node.span? = some s → node.Faithful threeLines tokens s := by
  have hok : (Program.parse threeLines).isOk := by decide +kernel
  cases hparse : Program.parse threeLines with
  | error e =>
    rw [hparse] at hok
    cases hok
  | ok program =>
    obtain ⟨tokens, hrest⟩ := node_spans_faithful hparse
    exact ⟨program, tokens, rfl, hrest⟩

end MonkeyLang
