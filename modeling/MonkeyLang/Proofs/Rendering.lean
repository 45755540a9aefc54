import Mathlib.Data.Bool.AllAny
import MonkeyLang.Proofs.Words
import MonkeyLang.Text.Quoted
/-!
# Texts that are written out

What programs are shown as is text in lines, with numbers and quoted texts in them. The lines of a text can be told from it if
none of them has a newline in it, and numbers can be told from their digits.

A quoted text is visible throughout, and no two texts are quoted alike. A character is written in one of three ways: by itself, as
a pair of a backslash and a letter, or by its code point. What is written for one character is never the beginning of what is
written for another, so a text can be told from what is written for its characters one behind the other.
-/

namespace MonkeyLang

/-! ### Lines -/

theorem toList_pushn (s : String) (c : Char) (n : Nat) : (s.pushn c n).toList = s.toList ++ List.replicate n c := by
  rw [String.pushn_eq_repeat_push]
  induction n with
  | zero => exact (List.append_nil _).symm
  | succ n ih => rw [Nat.repeat, String.toList_push, ih, List.replicate_succ', List.append_assoc]

/-- Text that is ended by a newline line by line is split into these lines, with nothing behind the last one. -/
theorem splitOn_lines {lines : List (List Char)} (h : ∀ line ∈ lines, '\n' ∉ line) :
    (lines.flatMap (· ++ ['\n'])).splitOn '\n' = lines ++ [[]] := by
  induction lines with
  | nil => rfl
  | cons line lines ih =>
    rw [List.forall_mem_cons] at h
    rw [List.flatMap_cons, List.append_assoc, List.singleton_append, List.splitOn_append_cons_self,
      List.splitOn_eq_singleton h.1, ih h.2, List.cons_append, List.nil_append, List.cons_append]

/-! ### Digits -/

theorem digitChar_inj {m n : Nat} (hm : m < 16) (hn : n < 16) (h : m.digitChar = n.digitChar) : m = n := by
  have hdigits : ∀ i j : Fin 16, Nat.digitChar i = Nat.digitChar j → i = j := by decide
  exact congrArg Fin.val (hdigits ⟨m, hm⟩ ⟨n, hn⟩ h)

theorem exists_digit_of_mem_toDigits {b n : Nat} {c : Char} (hb : 1 < b) (h : c ∈ Nat.toDigits b n) :
    ∃ digit < b, c = digit.digitChar := by
  induction n using Nat.strongRecOn with
  | ind n ih =>
    rw [Nat.toDigits_eq_if hb] at h
    split at h
    case isTrue hlt => exact ⟨n, hlt, List.mem_singleton.mp h⟩
    case isFalse hge =>
      rcases List.mem_append.mp h with h | h
      · exact ih (n / b) (Nat.div_lt_self (by omega) hb) h
      · exact ⟨n % b, Nat.mod_lt _ (by omega), List.mem_singleton.mp h⟩

/-- A number is told from its digits. -/
theorem toDigits_inj {b m n : Nat} (hb : 1 < b) (hdigits : b ≤ 16) (h : Nat.toDigits b m = Nat.toDigits b n) : m = n := by
  induction m using Nat.strongRecOn generalizing n with
  | ind m ih =>
    have hlast (k : Nat) : k % b < 16 := (Nat.mod_lt k (by omega)).trans_le hdigits
    rw [Nat.toDigits_eq_if hb, Nat.toDigits_eq_if (n := n) hb] at h
    split at h <;> split at h
    case isTrue.isTrue hm hn => exact digitChar_inj (by omega) (by omega) (List.singleton_inj.mp h)
    case isTrue.isFalse hm hn => exact absurd (List.append_eq_singleton_iff.mp h.symm) (by simp [Nat.toDigits_ne_nil])
    case isFalse.isTrue hm hn => exact absurd (List.append_eq_singleton_iff.mp h) (by simp [Nat.toDigits_ne_nil])
    case isFalse.isFalse hm hn =>
      obtain ⟨hfront, hback⟩ := List.append_inj' h rfl
      have hdiv := ih (m / b) (Nat.div_lt_self (by omega) hb) hfront
      have hmod := digitChar_inj (hlast m) (hlast n) (List.singleton_inj.mp hback)
      rw [← Nat.div_add_mod m b, ← Nat.div_add_mod n b, hdiv, hmod]

namespace Text.Quoted

/-! ### Visible characters -/

theorem isPlain_of_ascii {c : Char} (h : 0x20 ≤ c.toNat) (h' : c.toNat ≤ 0x7E) : isPlain c := by
  simp [isPlain, h, h']

theorem isPlain_digitChar {digit : Nat} (h : digit < 16) : isPlain digit.digitChar := by
  have hdigits : ∀ i : Fin 16, isPlain (Nat.digitChar i) := by decide
  exact hdigits ⟨digit, h⟩

theorem isPlain_of_mem_toDigits {b n : Nat} {c : Char} (hb : 1 < b) (hdigits : b ≤ 16) (h : c ∈ Nat.toDigits b n) :
    isPlain c := by
  obtain ⟨digit, hlt, rfl⟩ := exists_digit_of_mem_toDigits hb h
  exact isPlain_digitChar (hlt.trans_le hdigits)

/-- The characters that end a line somewhere. -/
def lineBreaks : List Char := ['\n', '\r', '\x0b', '\x0c', '\u0085', '\u2028', '\u2029']

theorem isPlain_eq_false {c : Char} {range : Nat × Nat} (hrange : range ∈ unprintableRanges.toList) (hlow : range.1 ≤ c.toNat)
    (hhigh : c.toNat ≤ range.2) (hascii : c.toNat < 0x20 ∨ 0x7E < c.toNat) : isPlain c = false := by
  have hranges : inRanges unprintableRanges c.toNat = true := by
    rw [inRanges, ← Array.any_toList, List.any_eq_true]
    exact ⟨range, hrange, by simp [hlow, hhigh]⟩
  simp only [isPlain, isPrintable, hranges, Bool.not_true, Bool.false_and, Bool.or_false, Bool.and_eq_false_iff,
    decide_eq_false_iff_not]
  omega

theorem not_mem_lineBreaks {c : Char} (h : isPlain c) : c ∉ lineBreaks := by
  -- The table is searched for three ranges only.
  have hranges : ∀ range ∈ [(0x0, 0x1F), (0x7F, 0xA0), (0x2028, 0x202F)], range ∈ unprintableRanges.toList := by
    decide +kernel
  have hbreaks : ∀ d ∈ lineBreaks, ∃ range ∈ [(0x0, 0x1F), (0x7F, 0xA0), (0x2028, 0x202F)],
      range.1 ≤ d.toNat ∧ d.toNat ≤ range.2 ∧ (d.toNat < 0x20 ∨ 0x7E < d.toNat) :=
    List.all_iff_forall_prop.mp (by decide)
  intro hc
  obtain ⟨range, hrange, hlow, hhigh, hascii⟩ := hbreaks c hc
  exact Bool.false_ne_true ((isPlain_eq_false (hranges range hrange) hlow hhigh hascii).symm.trans h)

theorem newline_not_mem {cs : List Char} (h : ∀ c ∈ cs, isPlain c) : '\n' ∉ cs :=
  fun hc => not_mem_lineBreaks (h _ hc) List.mem_cons_self

/-! ### Ways to write a character -/

/-- A character is written between quotes. -/
inductive Escaped : Char → List Char → Prop
  | plain {c} (hplain : isPlain c) (hquote : c ≠ '"') (hslash : c ≠ '\\') : Escaped c [c]
  | pair {c letter} (hpair : (letter, c) ∈ escapes) : Escaped c ['\\', letter]
  | code {c} : Escaped c (escapeCode c)

theorem escaped_escape (c : Char) : Escaped c (escape c) := by
  have hletter {letter special : Char} (h : c = special) (hpair : (letter, special) ∈ escapes) : Escaped c ['\\', letter] :=
    h ▸ .pair hpair
  unfold escape
  split_ifs with hquote hslash hnewline htab hreturn hnull hplain
  · exact hletter hquote (by decide)
  · exact hletter hslash (by decide)
  · exact hletter hnewline (by decide)
  · exact hletter htab (by decide)
  · exact hletter hreturn (by decide)
  · exact hletter hnull (by decide)
  · exact .plain hplain hquote hslash
  · exact .code

namespace Escaped

variable {c d : Char} {cs ds rest rest' : List Char}

theorem ne_nil (h : Escaped c cs) : cs ≠ [] := by
  cases h <;> exact List.cons_ne_nil _ _

theorem isPlain (h : Escaped c cs) (hd : d ∈ cs) : isPlain d := by
  cases h with
  | plain hplain => exact List.mem_singleton.mp hd ▸ hplain
  | pair hpair =>
    have hletters : ∀ pair ∈ escapes, Quoted.isPlain pair.1 := by decide
    rcases List.mem_cons.mp hd with rfl | hd
    · decide
    · exact List.mem_singleton.mp hd ▸ hletters _ hpair
  | code =>
    simp only [escapeCode, List.mem_cons, List.mem_append, List.not_mem_nil, or_false] at hd
    rcases hd with rfl | rfl | rfl | hd | rfl
    · decide
    · decide
    · decide
    · exact isPlain_of_mem_toDigits (by decide) (by decide) hd
    · decide

/-- A code point ends at the brace behind it. -/
theorem code_append_inj (h : escapeCode c ++ rest = escapeCode d ++ rest') : c = d ∧ rest = rest' := by
  have hbrace (n : Nat) : ∀ digit ∈ Nat.toDigits 16 n, (digit != '\x7d') = true := by
    intro digit hdigit
    obtain ⟨value, -, rfl⟩ := exists_digit_of_mem_toDigits (by decide) hdigit
    simp [Nat.digitChar_ne '\x7d' rfl]
  simp only [escapeCode, List.cons_append, List.append_assoc, List.cons.injEq, true_and, List.nil_append] at h
  have hdigits := congrArg (List.takeWhile (· != '\x7d')) h
  rw [List.takeWhile_append_of_pos (hbrace _), List.takeWhile_append_of_pos (hbrace _)] at hdigits
  have hcode : Nat.toDigits 16 c.toNat = Nat.toDigits 16 d.toNat := by simpa using hdigits
  rw [hcode, List.append_cancel_left_eq] at h
  exact ⟨Char.toNat_inj.mp (toDigits_inj (by decide) (by decide) hcode), (List.cons.inj h).2⟩

/-- What is written for a character is not the beginning of what is written for another one. -/
theorem append_inj (hc : Escaped c cs) (hd : Escaped d ds) (h : cs ++ rest = ds ++ rest') : c = d ∧ rest = rest' := by
  have hletter : ∀ pair ∈ escapes, pair.1 ≠ 'u' ∧ ∀ pair' ∈ escapes, pair.1 = pair'.1 → pair.2 = pair'.2 := by decide
  cases hc with
  | plain _ _ hslash =>
    cases hd with
    | plain => exact List.cons.inj h
    | pair | code => exact absurd (List.cons.inj h).1 hslash
  | pair hpair =>
    obtain ⟨hcode, hsame⟩ := hletter _ hpair
    cases hd with
    | plain _ _ hslash => exact absurd (List.cons.inj h).1.symm hslash
    | pair hpair' =>
      obtain ⟨hletters, hrest⟩ := List.cons.inj (List.cons.inj h).2
      exact ⟨hsame _ hpair' hletters, hrest⟩
    | code => exact absurd (List.cons.inj (List.cons.inj h).2).1 hcode
  | code =>
    cases hd with
    | plain _ _ hslash => exact absurd (List.cons.inj h).1.symm hslash
    | pair hpair' => exact absurd (List.cons.inj (List.cons.inj h).2).1.symm (hletter _ hpair').1
    | code => exact code_append_inj h

end Escaped

/-! ### Texts -/

theorem flatMap_escape_inj {cs ds : List Char} (h : cs.flatMap escape = ds.flatMap escape) : cs = ds := by
  induction cs generalizing ds with
  | nil =>
    cases ds with
    | nil => rfl
    | cons d ds => exact absurd (List.append_eq_nil_iff.mp h.symm).1 (escaped_escape d).ne_nil
  | cons c cs ih =>
    cases ds with
    | nil => exact absurd (List.append_eq_nil_iff.mp h).1 (escaped_escape c).ne_nil
    | cons d ds =>
      rw [List.flatMap_cons, List.flatMap_cons] at h
      obtain ⟨rfl, hrest⟩ := (escaped_escape c).append_inj (escaped_escape d) h
      rw [ih hrest]

/-- Texts that are quoted alike are the same. -/
theorem encode_inj {s t : String} (h : encode s = encode t) : s = t := by
  have hbody := (List.cons.inj (String.ofList_inj.mp h)).2
  rw [List.append_cancel_right_eq] at hbody
  exact String.toList_inj.mp (flatMap_escape_inj hbody)

theorem isPlain_of_mem_encode {s : String} {c : Char} (h : c ∈ (encode s).toList) : isPlain c := by
  rw [encode, String.toList_ofList, encodeChars, List.mem_cons, List.mem_append, List.mem_singleton, List.mem_flatMap] at h
  obtain rfl | ⟨d, -, hc⟩ | rfl := h
  · decide
  · exact (escaped_escape d).isPlain hc
  · decide

end Text.Quoted

end MonkeyLang
