import Mathlib.Tactic.ByContra
import Mathlib.Tactic.Tauto
import MonkeyLang.Lexeme
/-!
# The texts of tokens

`TokenKind.Written` says which texts are tokens of which kind. What is cut off the front of a source as a token is such a text,
and a text of this sort is cut off as the token that it is, if white space or nothing stands behind it. `Scans` is the
scanning of a source as a relation, one step for each lexeme.
-/

namespace MonkeyLang

/-- What may stand between the quotes of a string literal: pairs of a backslash and any character, and other characters that
are not quotes. -/
inductive StringBody : List Char → Prop
  | nil : StringBody []
  | plain {c cs} (hquote : c ≠ '"') (hslash : c ≠ '\\') (hrest : StringBody cs) : StringBody (c :: cs)
  | pair {c cs} (hrest : StringBody cs) : StringBody ('\\' :: c :: cs)

/-- Whether a text is a letter or an underscore with letters, digits and underscores behind it. -/
def isWord : List Char → Bool
  | [] => false
  | c :: cs => Lexeme.isWordStart c && cs.all Lexeme.isWordRest

/-- The texts of the tokens of each kind. -/
inductive TokenKind.Written : TokenKind → List Char → Prop
  | digits {cs} (hne : cs ≠ []) (hdigits : ∀ c ∈ cs, c.isDigit) : Written .intLiteral cs
  | quoted {body} (hbody : StringBody body) : Written .stringLiteral ('"' :: (body ++ ['"']))
  | word {cs} (hword : isWord cs) (hfree : ∀ kind ∈ keywords, kind.spelling? ≠ some (String.ofList cs)) :
      Written .identifier cs
  | fixed {kind : TokenKind} {text} (hspelling : kind.spelling? = some text) : Written kind text.toList

namespace TokenKind

theorem Written.eq_of_spelling {kind : TokenKind} {text : String} {cs : List Char} (h : kind.Written cs)
    (hspelling : kind.spelling? = some text) : cs = text.toList := by
  cases h with
  | digits | quoted | word => cases hspelling
  | fixed h' =>
    rw [h'] at hspelling
    rw [Option.some.inj hspelling]

theorem ofWord_eq_identifier {word : String} (h : ∀ kind ∈ keywords, kind.spelling? ≠ some word) :
    ofWord word = .identifier := by
  have hnone : (keywords.find? fun kind => kind.spelling? == some word) = none := by
    rw [List.find?_eq_none]
    intro kind hkind
    simpa using h kind hkind
  rw [ofWord, hnone, Option.getD_none]

theorem written_ofWord {cs : List Char} (hword : isWord cs) : (ofWord (String.ofList cs)).Written cs := by
  unfold ofWord
  cases hfind : keywords.find? fun kind => kind.spelling? == some (String.ofList cs) with
  | none => exact .word hword fun kind hkind heq => by simpa [heq] using List.find?_eq_none.mp hfind kind hkind
  | some kind =>
    have hspelling : kind.spelling? = some (String.ofList cs) := by simpa using List.find?_some hfind
    simpa using Written.fixed hspelling

end TokenKind

namespace Lexeme

/-! ### What is cut off -/

/-- A string literal that is closed, behind its opening quote. -/
theorem body_of_cutString {escaped : Bool} {taken cs taken' rest : List Char}
    (h : cutString escaped taken cs = (true, taken', rest)) :
    ∃ body, cs = body ++ '"' :: rest ∧ taken' = taken.reverse ++ (body ++ ['"']) ∧
      StringBody (if escaped then '\\' :: body else body) := by
  fun_induction cutString escaped taken cs with
  | case1 => cases h
  | case2 taken c cs ih =>
    obtain ⟨body, rfl, rfl, hbody⟩ := ih h
    exact ⟨c :: body, rfl, by simp, .pair hbody⟩
  | case3 escaped taken cs hescaped =>
    cases h
    exact ⟨[], rfl, by simp, by simpa [hescaped] using StringBody.nil⟩
  | case4 escaped taken c cs hescaped hquote ih =>
    obtain ⟨body, rfl, rfl, hbody⟩ := ih h
    refine ⟨c :: body, rfl, by simp, ?_⟩
    by_cases hslash : c = '\\'
    · subst hslash
      simpa [hescaped] using hbody
    · have hplain : StringBody body := by simpa [hslash] using hbody
      simpa [hescaped] using StringBody.plain hquote hslash hplain

theorem append_cutString (escaped : Bool) (taken cs : List Char) :
    (cutString escaped taken cs).2.1 ++ (cutString escaped taken cs).2.2 = taken.reverse ++ cs := by
  fun_induction cutString escaped taken cs <;> simp_all

theorem operator_written {op : List Char × TokenKind} (h : op ∈ operators) : op.2.spelling? = some (String.ofList op.1) := by
  revert op
  decide

/-- What is taken and what is left make up the text. -/
theorem append_cut (c : Char) (cs : List Char) : (cut c cs).2.1 ++ (cut c cs).2.2 = c :: cs := by
  have hstring := append_cutString false [c] cs
  unfold cut
  split
  · split <;> simp_all
  · split
    · dsimp only
      split <;> simp
    · split
      · simp
      · split <;> simp

/-- A token that is cut off has a text of its kind. -/
theorem written_of_cut {c : Char} {cs taken rest : List Char} {kind : TokenKind}
    (h : cut c cs = (.token kind, taken, rest)) : kind.Written taken := by
  unfold cut at h
  split at h
  case isTrue hquote =>
    split at h
    case h_1 taken' rest' hcut =>
      cases h
      obtain ⟨body, -, rfl, hbody⟩ := body_of_cutString hcut
      simpa [hquote] using TokenKind.Written.quoted hbody
    case h_2 => cases h
  case isFalse =>
    split at h
    case isTrue hdigit =>
      dsimp only at h
      split at h
      · cases h
      · cases h
        refine .digits (List.cons_ne_nil _ _) fun d hd => ?_
        rcases List.mem_cons.mp hd with rfl | hd
        · exact hdigit
        · exact List.all_eq_true.mp (List.all_takeWhile) d hd
    case isFalse =>
      split at h
      case isTrue hstart =>
        cases h
        exact TokenKind.written_ofWord (by simp [isWord, hstart])
      case isFalse =>
        split at h
        case h_1 op hop =>
          cases h
          have hmem := List.mem_of_find?_eq_some hop
          have hfits : op.1.isPrefixOf (c :: cs) = true := by simpa using List.find?_some hop
          rw [← List.prefix_iff_eq_take.mp (List.isPrefixOf_iff_prefix.mp hfits)]
          simpa using TokenKind.Written.fixed (operator_written hmem)
        case h_2 => cases h

/-! ### Texts that are cut off as they are -/

/-- White space or nothing comes first. -/
def Apart (rest : List Char) : Prop := ∀ d ∈ rest.head?, Text.isBlank d

def Visible (c : Char) : Prop := 33 ≤ c.toNat ∧ c.toNat ≤ 126

theorem Visible.not_isBlank {c : Char} (h : Visible c) : Text.isBlank c = false := by
  unfold Visible at h
  simp only [Text.isBlank, Bool.or_eq_false_iff, Bool.and_eq_false_iff, decide_eq_false_iff_not, beq_eq_false_iff_ne]
  omega

theorem toNat_of_isDigit {c : Char} (h : c.isDigit) : 48 ≤ c.toNat ∧ c.toNat ≤ 57 := by
  simpa [Char.isDigit, UInt32.le_iff_toNat_le] using h

theorem toNat_of_isWordStart {c : Char} (h : isWordStart c) : 65 ≤ c.toNat ∧ c.toNat ≤ 122 := by
  change (decide (65 ≤ c.val ∧ c.val ≤ 90) || (decide (97 ≤ c.val) && decide (c.val ≤ 122)) || c == '_') = true at h
  simp only [Bool.or_eq_true, Bool.and_eq_true, decide_eq_true_eq, UInt32.le_iff_toNat_le, beq_iff_eq] at h
  rcases h with (h | h) | rfl
  · exact ⟨h.1, Nat.le_trans h.2 (by decide)⟩
  · exact ⟨Nat.le_trans (by decide) h.1, h.2⟩
  · decide

theorem visible_of_isDigit {c : Char} (h : c.isDigit) : Visible c := by
  have := toNat_of_isDigit h
  unfold Visible
  omega

theorem visible_of_isWordStart {c : Char} (h : isWordStart c) : Visible c := by
  have := toNat_of_isWordStart h
  unfold Visible
  omega

theorem visible_of_isWordRest {c : Char} (h : isWordRest c) : Visible c := by
  have hcases : isWordStart c ∨ c.isDigit := by
    simp only [isWordStart, isWordRest, Char.isAlphanum, Bool.or_eq_true] at h ⊢
    tauto
  rcases hcases with hstart | hdigit
  · exact visible_of_isWordStart hstart
  · exact visible_of_isDigit hdigit

section

variable {f : Char → Bool} {c : Char} {cs rest : List Char}

theorem Apart.not_of_head (h : Apart (c :: rest)) (hf : ∀ d, f d → Visible d) : f c = false := by
  by_contra hc
  have hvisible := hf c (by simpa using hc)
  simpa [hvisible.not_isBlank] using h c rfl

theorem takeWhile_append_of_apart (hf : ∀ d, f d → Visible d) (hcs : ∀ c ∈ cs, f c) (hrest : Apart rest) :
    (cs ++ rest).takeWhile f = cs := by
  rw [List.takeWhile_append_of_pos hcs]
  cases rest with
  | nil => simp
  | cons d rest => simp [hrest.not_of_head hf]

theorem dropWhile_append_of_apart (hf : ∀ d, f d → Visible d) (hcs : ∀ c ∈ cs, f c) (hrest : Apart rest) :
    (cs ++ rest).dropWhile f = rest := by
  rw [List.dropWhile_append_of_pos hcs]
  cases rest with
  | nil => rfl
  | cons d rest => simp [hrest.not_of_head hf]

end

theorem isPrefixOf_append_of_not_mem {ys rest : List Char} (h : ∀ d ∈ rest.head?, d ∉ ys) (xs : List Char) :
    ys.isPrefixOf (xs ++ rest) = ys.isPrefixOf xs := by
  induction ys generalizing xs with
  | nil => simp
  | cons y ys ih =>
    have hys : ∀ d ∈ rest.head?, d ∉ ys := fun d hd hmem => h d hd (List.mem_cons_of_mem _ hmem)
    cases xs with
    | cons x xs => simp [List.isPrefixOf, ih hys xs]
    | nil =>
      cases rest with
      | nil => rfl
      | cons d rest =>
        have hne : y ≠ d := fun heq => h d rfl (heq ▸ List.mem_cons_self)
        simp [List.isPrefixOf, hne]

section

variable {kind : TokenKind} {text : String} {c : Char} {cs rest : List Char}

theorem cut_of_digits (hc : c.isDigit) (hcs : ∀ d ∈ cs, d.isDigit) (hrest : Apart rest) :
    cut c (cs ++ rest) = (.token .intLiteral, c :: cs, rest) := by
  have hquote : c ≠ '"' := by
    rintro rfl
    exact absurd hc (by decide)
  have hf : ∀ d : Char, d.isDigit → Visible d := fun d => visible_of_isDigit
  have hnext : rest.head?.any isWordStart = false := by
    cases rest with
    | nil => rfl
    | cons d rest => exact hrest.not_of_head fun d => visible_of_isWordStart
  simp only [cut, if_neg hquote, if_pos hc, takeWhile_append_of_apart hf hcs hrest, dropWhile_append_of_apart hf hcs hrest,
    hnext, Bool.false_eq_true, if_false]

theorem cutString_of_body {body : List Char} (h : StringBody body) (taken rest : List Char) :
    cutString false taken (body ++ '"' :: rest) = (true, taken.reverse ++ (body ++ ['"']), rest) := by
  induction h generalizing taken with
  | nil => simp [cutString]
  | plain hquote hslash _ ih =>
    have hplain := beq_eq_false_iff_ne.mpr hslash
    simp [cutString, hquote, hplain, ih]
  | pair _ ih => simp [cutString, ih]

theorem cut_of_isWord (h : isWord (c :: cs)) (hrest : Apart rest) :
    cut c (cs ++ rest) = (.token (.ofWord (String.ofList (c :: cs))), c :: cs, rest) := by
  simp only [isWord, Bool.and_eq_true, List.all_eq_true] at h
  have hstart := toNat_of_isWordStart h.1
  have hquote : c ≠ '"' := by
    rintro rfl
    exact absurd hstart (by decide)
  have hdigit : ¬c.isDigit := by
    intro hdigit
    have := toNat_of_isDigit hdigit
    omega
  have hf : ∀ d, isWordRest d → Visible d := fun d => visible_of_isWordRest
  simp only [cut, if_neg hquote, if_neg hdigit, if_pos h.1, takeWhile_append_of_apart hf h.2 hrest,
    dropWhile_append_of_apart hf h.2 hrest]

theorem find?_operators {op : List Char × TokenKind} (hop : op ∈ operators) (hrest : Apart rest) :
    (operators.find? fun other => other.1.isPrefixOf (op.1 ++ rest)) = some op := by
  have hvisible : ∀ other ∈ operators, other.1.all fun c => !Text.isBlank c := by decide +kernel
  have halone : ∀ op ∈ operators, (operators.find? fun other => other.1.isPrefixOf op.1) = some op := by decide +kernel
  rw [← halone op hop, ← List.head?_filter, ← List.head?_filter]
  apply congrArg
  apply List.filter_congr
  intro other hother
  apply isPrefixOf_append_of_not_mem
  intro d hd hmem
  have hblank := List.all_eq_true.mp (hvisible other hother) d hmem
  simp [hrest d hd] at hblank

theorem cut_of_operator (hop : (c :: cs, kind) ∈ operators) (hrest : Apart rest) :
    cut c (cs ++ rest) = (.token kind, c :: cs, rest) := by
  have hhead : ∀ op ∈ operators, op.1.head?.all fun c => c ≠ '"' ∧ ¬c.isDigit ∧ ¬isWordStart c := by decide +kernel
  obtain ⟨hquote, hdigit, hstart⟩ := of_decide_eq_true (hhead _ hop)
  have hfind := find?_operators hop hrest
  rw [List.cons_append] at hfind
  simp [cut, hquote, hdigit, hstart, hfind]

theorem spelling_cases (h : kind.spelling? = some text) :
    (isWord text.toList ∧ TokenKind.ofWord text = kind) ∨ (text.toList, kind) ∈ operators := by
  cases kind <;> cases h <;> decide

/-- The text of a token is cut off as that token if it stands apart from what is behind it. -/
theorem cut_of_written (h : kind.Written (c :: cs)) (hrest : Apart rest) :
    cut c (cs ++ rest) = (.token kind, c :: cs, rest) := by
  generalize htaken : c :: cs = taken at h
  cases h with
  | digits _ hdigits =>
    subst htaken
    exact cut_of_digits (hdigits c List.mem_cons_self) (fun d hd => hdigits d (List.mem_cons_of_mem _ hd)) hrest
  | quoted hbody =>
    cases htaken
    simp [cut, cutString_of_body hbody]
  | word hword hfree =>
    subst htaken
    rw [cut_of_isWord hword hrest, TokenKind.ofWord_eq_identifier hfree]
  | fixed hspelling =>
    rcases spelling_cases hspelling with ⟨hword, hkind⟩ | hop
    · rw [← htaken] at hword
      rw [cut_of_isWord hword hrest, htaken, String.ofList_toList, hkind]
    · rw [← htaken] at hop ⊢
      exact cut_of_operator hop hrest

theorem ne_nil_of_written (h : kind.Written cs) : cs ≠ [] := by
  cases h with
  | digits hne => exact hne
  | quoted => exact List.cons_ne_nil _ _
  | word hword =>
    rintro rfl
    exact Bool.false_ne_true hword
  | fixed hspelling =>
    intro hnil
    rcases spelling_cases hspelling with ⟨hword, -⟩ | hop
    · rw [hnil] at hword
      exact Bool.false_ne_true hword
    · exact absurd (length_pos_of_mem_operators hop) (by simp [hnil])

/-- The text of a token starts with no gap. -/
theorem head_of_written (h : kind.Written (c :: cs)) : Text.isBlank c = false ∧ (c = '/' → cs = []) := by
  have hword : isWord (c :: cs) → Text.isBlank c = false ∧ (c = '/' → cs = []) := by
    intro hword
    have hstart : isWordStart c := (Bool.and_eq_true_iff.mp hword).1
    refine ⟨(visible_of_isWordStart hstart).not_isBlank, ?_⟩
    rintro rfl
    exact absurd hstart (by decide)
  generalize htaken : c :: cs = taken at h
  cases h with
  | digits _ hdigits =>
    subst htaken
    have hdigit := hdigits c List.mem_cons_self
    refine ⟨(visible_of_isDigit hdigit).not_isBlank, ?_⟩
    rintro rfl
    exact absurd hdigit (by decide)
  | quoted =>
    cases htaken
    exact ⟨by decide, fun h => absurd h (by decide)⟩
  | word h => exact hword (htaken ▸ h)
  | fixed hspelling =>
    rcases spelling_cases hspelling with ⟨h, -⟩ | hop
    · exact hword (htaken ▸ h)
    · have hhead : ∀ op ∈ operators, op.1.head?.all fun c => Text.isBlank c = false ∧ (c = '/' → op.1.tail = []) := by
        decide +kernel
      rw [← htaken] at hop
      exact of_decide_eq_true (hhead _ hop)

end

/-! ### Scanning -/

/-- The gap at the front of a text. -/
theorem gap_of_skipGap {inComment : Bool} {cs left : List Char} {p q : Position} (h : skipGap inComment cs p = (left, q)) :
    ∃ gap, cs = gap ++ left ∧ q = p.afterAll gap := by
  fun_induction skipGap inComment cs p with
  | case1 p =>
    cases h
    exact ⟨[], rfl, rfl⟩
  | case2 c cs p ih | case3 _ c cs p _ _ ih | case4 _ c cs p _ _ _ ih =>
    obtain ⟨gap, rfl, rfl⟩ := ih h
    exact ⟨c :: gap, rfl, rfl⟩
  | case5 =>
    cases h
    exact ⟨[], rfl, rfl⟩

/-- A step over a lexeme: a gap, and the stretch of text that makes up the lexeme. -/
theorem next?_cases {cs left : List Char} {p q : Position} {lexeme : Lexeme} (h : next? cs p = some (lexeme, left, q)) :
    ∃ gap c rest form taken, cs = gap ++ taken ++ left ∧ cut c rest = (form, taken, left) ∧
      lexeme = ofForm form (p.afterAll gap) taken ∧ q = (p.afterAll gap).afterAll taken := by
  unfold next? at h
  split at h
  case h_1 => cases h
  case h_2 c rest r hskip =>
    obtain ⟨gap, rfl, rfl⟩ := gap_of_skipGap hskip
    have happend := append_cut c rest
    generalize hcut : cut c rest = result at h happend
    obtain ⟨form, taken, left'⟩ := result
    cases h
    exact ⟨gap, c, rest, form, taken, by rw [List.append_assoc, happend], hcut, rfl, rfl⟩

/-- The lexemes of a text that starts at a place, and the place where the text ends. -/
inductive Scans : List Char → Position → List Lexeme → Position → Prop
  | stop {cs p q} (hskip : skipGap false cs p = ([], q)) : Scans cs p [] q
  | step {cs p lexeme left q lexemes stop} (hnext : next? cs p = some (lexeme, left, q)) (hrest : Scans left q lexemes stop) :
      Scans cs p (lexeme :: lexemes) stop

theorem Scans.scanFrom_eq {cs : List Char} {p stop : Position} {lexemes : List Lexeme} (h : Scans cs p lexemes stop)
    (found : Array Lexeme) : scanFrom found cs p = (found ++ lexemes.toArray, stop) := by
  induction h generalizing found with
  | @stop cs p q hskip =>
    have hnone : next? cs p = none := by rw [next?, hskip]
    rw [scanFrom]
    split
    case h_1 => simp [hskip]
    case h_2 hsome => simp [hnone] at hsome
  | step hnext _ ih =>
    rw [scanFrom]
    split
    case h_1 hnone => simp [hnone] at hnext
    case h_2 lexeme left q hsome =>
      cases hsome.symm.trans hnext
      simp [ih]

theorem exists_scans (cs : List Char) (p : Position) : ∃ lexemes stop, Scans cs p lexemes stop := by
  cases hnext : next? cs p with
  | none =>
    unfold next? at hnext
    split at hnext
    case h_1 q hskip => exact ⟨[], q, .stop hskip⟩
    case h_2 => cases hnext
  | some step =>
    obtain ⟨lexeme, left, q⟩ := step
    have hlt := length_lt_of_next? hnext
    obtain ⟨lexemes, stop, hscans⟩ := exists_scans left q
    exact ⟨lexeme :: lexemes, stop, .step hnext hscans⟩
termination_by cs.length

theorem scan_eq_iff {source : String} {lexemes : List Lexeme} {stop : Position} :
    scan source = (lexemes, stop) ↔ Scans source.toList .start lexemes stop := by
  have heq : ∀ {lexemes stop}, Scans source.toList .start lexemes stop → scan source = (lexemes, stop) := by
    intro lexemes stop h
    simp [scan, h.scanFrom_eq]
  refine ⟨fun h => ?_, heq⟩
  obtain ⟨lexemes', stop', hscans⟩ := exists_scans source.toList .start
  cases h.symm.trans (heq hscans)
  exact hscans

/-- Every token of a source has a text of its kind. -/
theorem Scans.written {cs : List Char} {p stop : Position} {lexemes : List Lexeme} (h : Scans cs p lexemes stop) {t : Token}
    (ht : .token t ∈ lexemes) : t.kind.Written t.lexeme.toList := by
  induction h with
  | stop => cases ht
  | step hnext _ ih =>
    rcases List.mem_cons.mp ht with rfl | ht
    · obtain ⟨gap, c, rest, form, taken, -, hcut, hform, -⟩ := next?_cases hnext
      cases form with
      | token kind =>
        cases hform
        simpa using written_of_cut hcut
      | unexpected | unterminated | misnumbered => cases hform
    · exact ih ht

/-! ### Scanning texts of tokens -/

section

variable {kind : TokenKind} {taken rest : List Char} {p stop : Position} {lexemes : List Lexeme}

/-- The token that a text of a kind is at a place. -/
def tokenAt (kind : TokenKind) (taken : List Char) (p : Position) : Token :=
  ⟨kind, String.ofList taken, ⟨p.line, p.column, (String.ofList taken).utf8ByteSize⟩⟩

theorem skipGap_of_written (h : kind.Written taken) (hrest : Apart rest) (p : Position) :
    skipGap false (taken ++ rest) p = (taken ++ rest, p) := by
  obtain ⟨c, cs, rfl⟩ := List.exists_cons_of_ne_nil (ne_nil_of_written h)
  obtain ⟨hblank, hslash⟩ := head_of_written h
  have hcomment : ¬(c = '/' ∧ (cs ++ rest).head? = some '/') := by
    rintro ⟨hc, hnext⟩
    rw [hslash hc, List.nil_append] at hnext
    exact absurd (hrest '/' hnext) (by decide)
  rw [List.cons_append, skipGap, if_neg Bool.false_ne_true, hblank, if_neg Bool.false_ne_true, if_neg hcomment]

theorem Scans.written_cons (h : kind.Written taken) (hrest : Apart rest) (hscans : Scans rest (p.afterAll taken) lexemes stop) :
    Scans (taken ++ rest) p (.token (tokenAt kind taken p) :: lexemes) stop := by
  have hskip := skipGap_of_written h hrest p
  obtain ⟨c, cs, rfl⟩ := List.exists_cons_of_ne_nil (ne_nil_of_written h)
  refine .step ?_ hscans
  rw [List.cons_append] at hskip ⊢
  simp only [next?, hskip, cut_of_written h hrest]
  rfl

/-- What is skipped in front of a text does not change what is scanned. -/
theorem Scans.of_skipGap {cs : List Char} {q : Position} (hskip : skipGap false cs p = skipGap false rest q)
    (hscans : Scans rest q lexemes stop) : Scans cs p lexemes stop := by
  cases hscans with
  | stop h' => exact .stop (hskip.trans h')
  | step hnext hrest =>
    refine .step ?_ hrest
    rw [← hnext, next?, next?, hskip]

theorem Scans.blank_cons {c : Char} (h : Text.isBlank c) (hscans : Scans rest (p.after c) lexemes stop) :
    Scans (c :: rest) p lexemes stop := by
  refine .of_skipGap ?_ hscans
  rw [skipGap]
  simp [h]

end

end Lexeme

end MonkeyLang
