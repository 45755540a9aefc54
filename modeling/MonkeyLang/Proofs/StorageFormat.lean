import Mathlib.Data.Nat.Digits.Defs
import MonkeyLang.Bytecode.Executable
/-!
# The stored form of constants and code

What is stored behind the mark and the version, said without the functions that write and read it: a number takes up a fixed number
of bytes, the least significant one first, and whatever has a length has the length in front. Reading bytes succeeds exactly if
some of them, from the front, are such a form, and gives what they store together with the bytes behind. So no stored form is
the beginning of another one.
-/

namespace MonkeyLang

open Executable

/-! ### The format -/

def StoresNumber (width n : Nat) (bytes : List UInt8) : Prop :=
  bytes.length = width ∧ Nat.ofDigits 256 (bytes.map UInt8.toNat) = n

/-- An integer is stored behind the tag zero as the number that it is modulo 2⁶⁴, a string behind the tag one in UTF-8. -/
inductive StoresConstant : Constant → List UInt8 → Prop
  | int {tag number : List UInt8} {n : Nat} {value : Int64} (htag : StoresNumber 4 0 tag) (hnumber : StoresNumber 8 n number)
      (hvalue : value.toInt = (n : Int).bmod (2 ^ 64)) : StoresConstant (.int value) (tag ++ number)
  | string {tag size : List UInt8} {text : String} (htag : StoresNumber 4 1 tag)
      (hsize : StoresNumber 8 text.utf8ByteSize size) :
      StoresConstant (.string text) (tag ++ (size ++ text.toList.flatMap String.utf8EncodeChar))

inductive StoresConstants : List Constant → List UInt8 → Prop
  | nil : StoresConstants [] []
  | cons {c : Constant} {cs : List Constant} {first rest : List UInt8} (hfirst : StoresConstant c first)
      (hrest : StoresConstants cs rest) : StoresConstants (c :: cs) (first ++ rest)

/-- Constants and code, each behind its number. -/
inductive StoresProgram (cs : List Constant) (code : List UInt8) : List UInt8 → Prop
  | mk {count constants size : List UInt8} (hcount : StoresNumber 8 cs.length count)
      (hconstants : StoresConstants cs constants) (hsize : StoresNumber 8 code.length size) :
      StoresProgram cs code (count ++ (constants ++ (size ++ code)))

/-! ### Numbers and bytes -/

variable {width n m : Nat} {bytes front front' rest rest' : List UInt8}

theorem StoresNumber.cons (b : UInt8) (h : StoresNumber width n bytes) :
    StoresNumber (width + 1) (b.toNat + 256 * n) (b :: bytes) := by
  obtain ⟨hlength, hvalue⟩ := h
  refine ⟨congrArg (· + 1) hlength, ?_⟩
  rw [List.map_cons, Nat.ofDigits_cons, hvalue]

theorem digit_lt (bytes : List UInt8) : ∀ digit ∈ bytes.map UInt8.toNat, digit < 256 := by
  intro digit hdigit
  obtain ⟨b, -, rfl⟩ := List.mem_map.mp hdigit
  exact b.toNat_lt

theorem StoresNumber.lt (h : StoresNumber width n bytes) : n < 256 ^ width := by
  obtain ⟨rfl, rfl⟩ := h
  have hlt := Nat.ofDigits_lt_base_pow_length (by decide) (digit_lt bytes)
  rwa [List.length_map] at hlt

/-- Numbers of the same width that stand at the front of the same bytes are the same. -/
theorem StoresNumber.unique (h : StoresNumber width n front) (h' : StoresNumber width m front')
    (heq : front ++ rest = front' ++ rest') : n = m ∧ front = front' ∧ rest = rest' := by
  obtain ⟨rfl, rfl⟩ := List.append_inj heq (h.1.trans h'.1.symm)
  exact ⟨h.2.symm.trans h'.2, rfl, rfl⟩

theorem storesNumber_littleEndian (h : n < 256 ^ width) : StoresNumber width n (littleEndian width n) := by
  induction width generalizing n with
  | zero =>
    rw [Nat.pow_zero] at h
    exact ⟨rfl, by rw [littleEndian, List.map_nil, Nat.ofDigits_nil]; omega⟩
  | succ width ih =>
    rw [Nat.pow_succ'] at h
    have hbyte : (UInt8.ofNat (n % 256)).toNat = n % 256 :=
      UInt8.toNat_ofNat_of_lt' (Nat.mod_lt n (by decide))
    have hcons := (ih (Nat.div_lt_of_lt_mul h)).cons (UInt8.ofNat (n % 256))
    rwa [hbyte, Nat.mod_add_div] at hcons

theorem StoresNumber.eq_littleEndian (h : StoresNumber width n bytes) : bytes = littleEndian width n := by
  have hwritten := storesNumber_littleEndian h.lt
  apply (List.map_inj_right fun _ _ => UInt8.toNat.inj).mp
  apply Nat.ofDigits_inj_of_len_eq (by decide : 1 < 256) _ (digit_lt _) (digit_lt _) (h.2.trans hwritten.2.symm)
  rw [List.length_map, List.length_map, h.1, hwritten.1]

theorem readNumber_eq_ok : readNumber width bytes = .ok (n, rest) ↔
    ∃ front, bytes = front ++ rest ∧ StoresNumber width n front := by
  induction width generalizing bytes n with
  | zero =>
    constructor
    · intro h
      cases h
      exact ⟨[], rfl, rfl, rfl⟩
    · rintro ⟨front, rfl, hlength, rfl⟩
      obtain rfl := List.eq_nil_of_length_eq_zero hlength
      rfl
  | succ width ih =>
    constructor
    · intro h
      cases bytes with
      | nil => cases h
      | cons b bytes =>
        rw [readNumber] at h
        split at h
        case h_1 n' rest' hread =>
          cases h
          obtain ⟨front, rfl, hfront⟩ := ih.mp hread
          exact ⟨b :: front, rfl, hfront.cons b⟩
        case h_2 => cases h
    · rintro ⟨front, rfl, hlength, rfl⟩
      obtain ⟨b, front, rfl⟩ := List.exists_cons_of_length_eq_add_one hlength
      have hread := ih.mpr ⟨front, rfl, Nat.succ.inj hlength, rfl⟩
      rw [List.cons_append, readNumber, hread, List.map_cons, Nat.ofDigits_cons]

theorem takeExactly_eq_some {taken : List UInt8} : takeExactly taken n bytes = some (front, rest) ↔
    ∃ more, front = taken.reverse ++ more ∧ bytes = more ++ rest ∧ more.length = n := by
  induction n generalizing taken bytes with
  | zero =>
    rw [takeExactly]
    constructor
    · intro h
      cases h
      exact ⟨[], (List.append_nil _).symm, rfl, rfl⟩
    · rintro ⟨more, rfl, rfl, hlength⟩
      obtain rfl := List.eq_nil_of_length_eq_zero hlength
      rw [List.append_nil, List.nil_append]
  | succ n ih =>
    cases bytes with
    | nil =>
      constructor
      · intro h
        cases h
      · rintro ⟨more, -, hnil, hlength⟩
        obtain ⟨rfl, -⟩ := List.append_eq_nil_iff.mp hnil.symm
        cases hlength
    | cons b bytes =>
      rw [takeExactly, ih, List.reverse_cons]
      constructor
      · rintro ⟨more, rfl, rfl, rfl⟩
        exact ⟨b :: more, by simp, rfl, rfl⟩
      · rintro ⟨more, rfl, heq, hlength⟩
        obtain ⟨b', more, rfl⟩ := List.exists_cons_of_length_eq_add_one hlength
        obtain ⟨rfl, rfl⟩ := List.cons_eq_cons.mp heq
        exact ⟨more, by simp, rfl, Nat.succ.inj hlength⟩

theorem takeExactly_nil_eq_some : takeExactly [] n bytes = some (front, rest) ↔
    bytes = front ++ rest ∧ front.length = n := by
  rw [takeExactly_eq_some]
  constructor
  · rintro ⟨more, rfl, h⟩
    exact h
  · intro h
    exact ⟨front, rfl, h⟩

/-! ### Text -/

theorem encode_eq_flatMap (text : String) : Text.Utf8.encode text = text.toList.flatMap String.utf8EncodeChar := by
  have hbytes : text.toByteArray = text.toList.utf8Encode := by
    rw [← String.toByteArray_ofList, String.ofList_toList]
  change text.toByteArray.data.toList = _
  rw [hbytes, List.utf8Encode, List.data_toByteArray]

theorem length_encode (text : String) : (Text.Utf8.encode text).length = text.utf8ByteSize := rfl

theorem decode_eq_ok {text : String} : Text.Utf8.decode bytes = .ok text ↔ bytes = Text.Utf8.encode text := by
  unfold Text.Utf8.decode String.fromUTF8?
  constructor
  · intro h
    by_cases hvalid : ByteArray.IsValidUTF8 ⟨bytes.toArray⟩
    · rw [dif_pos hvalid] at h
      cases h
      rfl
    · rw [dif_neg hvalid] at h
      cases h
  · rintro rfl
    have hvalid : ByteArray.IsValidUTF8 ⟨(Text.Utf8.encode text).toArray⟩ := text.isValidUTF8
    rw [dif_pos hvalid]
    rfl

/-! ### Constants -/

theorem toInt_toInt64_ofNat (n : Nat) : (UInt64.ofNat n).toInt64.toInt = (n : Int).bmod (2 ^ 64) := by
  change (BitVec.ofNat 64 n).toInt = _
  rw [BitVec.toInt_eq_toNat_bmod, BitVec.toNat_ofNat, Int.natCast_emod, Int.emod_bmod]

theorem bmod_toNat_toUInt64 (value : Int64) : (value.toUInt64.toNat : Int).bmod (2 ^ 64) = value.toInt :=
  value.toBitVec.toInt_eq_toNat_bmod.symm

theorem except_bind_eq_ok {ε α β : Type} {x : Except ε α} {f : α → Except ε β} {r : β} :
    (x >>= f) = .ok r ↔ ∃ a, x = .ok a ∧ f a = .ok r := by
  cases x with
  | error e => exact ⟨nofun, fun ⟨_, h, _⟩ => nomatch h⟩
  | ok a => exact ⟨fun h => ⟨a, rfl, h⟩, fun ⟨_, h, hf⟩ => by cases h; exact hf⟩

variable {c c' : Constant} {cs cs' : List Constant}

theorem StoresConstant.eq_constantBytes (h : StoresConstant c bytes) : bytes = constantBytes c := by
  cases h with
  | @int tag number n value htag hnumber hvalue =>
    have hlt : n < 2 ^ 64 := hnumber.lt
    obtain rfl : value = (UInt64.ofNat n).toInt64 := Int64.toInt.inj (hvalue.trans (toInt_toInt64_ofNat n).symm)
    have hn : (UInt64.ofNat n).toInt64.toUInt64.toNat = n := UInt64.toNat_ofNat_of_lt' hlt
    rw [constantBytes, hn, ← htag.eq_littleEndian, ← hnumber.eq_littleEndian]
  | @string tag size text htag hsize =>
    rw [constantBytes, encode_eq_flatMap, ← htag.eq_littleEndian, ← encode_eq_flatMap, length_encode, ← hsize.eq_littleEndian,
      List.append_assoc]

theorem StoresConstant.of_readConstant (h : readConstant bytes = .ok (c, rest)) :
    ∃ front, bytes = front ++ rest ∧ StoresConstant c front := by
  unfold readConstant at h
  obtain ⟨⟨tag, behindTag⟩, hreadTag, htagged⟩ := except_bind_eq_ok.mp h
  obtain ⟨tagBytes, rfl, htag⟩ := readNumber_eq_ok.mp hreadTag
  dsimp only at htagged
  split at htagged
  case isTrue hzero =>
    subst hzero
    obtain ⟨⟨n, behind⟩, hreadNumber, hvalue⟩ := except_bind_eq_ok.mp htagged
    obtain ⟨number, rfl, hnumber⟩ := readNumber_eq_ok.mp hreadNumber
    cases hvalue
    exact ⟨tagBytes ++ number, (List.append_assoc _ _ _).symm, .int htag hnumber (toInt_toInt64_ofNat n)⟩
  case isFalse =>
    split at htagged
    case isTrue hone =>
      subst hone
      obtain ⟨⟨length, behindSize⟩, hreadSize, hsized⟩ := except_bind_eq_ok.mp htagged
      obtain ⟨size, rfl, hsize⟩ := readNumber_eq_ok.mp hreadSize
      dsimp only at hsized
      split at hsized
      case h_1 => cases hsized
      case h_2 text behind htake =>
        obtain ⟨rfl, rfl⟩ := takeExactly_nil_eq_some.mp htake
        split at hsized
        case h_1 value hdecode =>
          cases hsized
          obtain rfl := decode_eq_ok.mp hdecode
          refine ⟨tagBytes ++ (size ++ Text.Utf8.encode value), by simp, ?_⟩
          rw [encode_eq_flatMap]
          exact .string htag hsize
        case h_2 => cases hsized
    case isFalse => cases htagged

theorem StoresConstant.readConstant_eq (h : StoresConstant c front) (rest : List UInt8) :
    readConstant (front ++ rest) = .ok (c, rest) := by
  unfold readConstant
  cases h with
  | @int tag number n value htag hnumber hvalue =>
    rw [List.append_assoc]
    refine except_bind_eq_ok.mpr ⟨(0, number ++ rest), readNumber_eq_ok.mpr ⟨tag, rfl, htag⟩, ?_⟩
    refine except_bind_eq_ok.mpr ⟨(n, rest), readNumber_eq_ok.mpr ⟨number, rfl, hnumber⟩, ?_⟩
    have hsame : value = (UInt64.ofNat n).toInt64 := Int64.toInt.inj (hvalue.trans (toInt_toInt64_ofNat n).symm)
    rw [hsame]
  | @string tag size text htag hsize =>
    rw [← encode_eq_flatMap, List.append_assoc, List.append_assoc]
    refine except_bind_eq_ok.mpr ⟨(1, size ++ (Text.Utf8.encode text ++ rest)), readNumber_eq_ok.mpr ⟨tag, rfl, htag⟩, ?_⟩
    refine except_bind_eq_ok.mpr ⟨(text.utf8ByteSize, Text.Utf8.encode text ++ rest),
      readNumber_eq_ok.mpr ⟨size, rfl, hsize⟩, ?_⟩
    have htake : takeExactly [] text.utf8ByteSize (Text.Utf8.encode text ++ rest) = some (Text.Utf8.encode text, rest) :=
      takeExactly_nil_eq_some.mpr ⟨rfl, length_encode text⟩
    have hdecode : Text.Utf8.decode (Text.Utf8.encode text) = .ok text := decode_eq_ok.mpr rfl
    simp only [htake, hdecode]

theorem readConstant_eq_ok :
    readConstant bytes = .ok (c, rest) ↔ ∃ front, bytes = front ++ rest ∧ StoresConstant c front := by
  constructor
  · exact StoresConstant.of_readConstant
  · rintro ⟨front, rfl, hfront⟩
    exact hfront.readConstant_eq rest

theorem StoresConstant.unique (h : StoresConstant c front) (h' : StoresConstant c' front')
    (heq : front ++ rest = front' ++ rest') : c = c' ∧ front = front' ∧ rest = rest' := by
  have hread := h.readConstant_eq rest
  rw [heq, h'.readConstant_eq rest'] at hread
  cases hread
  exact ⟨rfl, List.append_cancel_right heq, rfl⟩

theorem StoresConstants.eq_flatMap (h : StoresConstants cs bytes) : bytes = cs.flatMap constantBytes := by
  induction h with
  | nil => rfl
  | cons hfirst _ ih => rw [List.flatMap_cons, ← hfirst.eq_constantBytes, ← ih]

theorem StoresConstants.unique (h : StoresConstants cs front) (h' : StoresConstants cs' front')
    (hlength : cs.length = cs'.length) (heq : front ++ rest = front' ++ rest') :
    cs = cs' ∧ front = front' ∧ rest = rest' := by
  induction h generalizing cs' front' with
  | nil =>
    obtain rfl := List.eq_nil_of_length_eq_zero hlength.symm
    cases h'
    exact ⟨rfl, rfl, heq⟩
  | cons hfirst _ ih =>
    obtain ⟨c', cs', rfl⟩ := List.exists_cons_of_length_eq_add_one hlength.symm
    cases h' with
    | cons hfirst' hrest' =>
      rw [List.append_assoc, List.append_assoc] at heq
      obtain ⟨rfl, rfl, hbehind⟩ := hfirst.unique hfirst' heq
      obtain ⟨rfl, rfl, rfl⟩ := ih hrest' (Nat.succ.inj hlength) hbehind
      exact ⟨rfl, rfl, rfl⟩

theorem readConstants_eq_ok {pool pool' : ConstantPool} : readConstants pool n bytes = .ok (pool', rest) ↔
    ∃ cs front, cs.length = n ∧ bytes = front ++ rest ∧ StoresConstants cs front ∧
      pool' = cs.foldl (fun p c => (p.add c).2) pool := by
  induction n generalizing bytes pool with
  | zero =>
    rw [readConstants]
    constructor
    · intro h
      cases h
      exact ⟨[], [], rfl, rfl, .nil, rfl⟩
    · rintro ⟨cs, front, hlength, rfl, hcs, rfl⟩
      obtain rfl := List.eq_nil_of_length_eq_zero hlength
      cases hcs
      rfl
  | succ n ih =>
    rw [readConstants]
    constructor
    · intro h
      split at h
      case h_1 c behind hread =>
        obtain ⟨first, rfl, hfirst⟩ := readConstant_eq_ok.mp hread
        obtain ⟨cs, front, rfl, rfl, hcs, rfl⟩ := ih.mp h
        exact ⟨c :: cs, first ++ front, rfl, (List.append_assoc _ _ _).symm, .cons hfirst hcs, rfl⟩
      case h_2 => cases h
    · rintro ⟨cs, front, hlength, rfl, hcs, rfl⟩
      cases hcs with
      | nil => cases hlength
      | cons hfirst hrest =>
        rw [List.append_assoc, hfirst.readConstant_eq]
        exact ih.mpr ⟨_, _, Nat.succ.inj hlength, rfl, hrest, rfl⟩

/-! ### Programs -/

variable {code code' : List UInt8}

theorem StoresProgram.unique (h : StoresProgram cs code front) (h' : StoresProgram cs' code' front')
    (heq : front ++ rest = front' ++ rest') : cs = cs' ∧ code = code' ∧ front = front' := by
  cases h with
  | mk hcount hconstants hsize =>
    cases h' with
    | mk hcount' hconstants' hsize' =>
      simp only [List.append_assoc] at heq
      obtain ⟨hcounts, rfl, hbehindCount⟩ := hcount.unique hcount' heq
      obtain ⟨rfl, rfl, hbehindConstants⟩ := hconstants.unique hconstants' hcounts hbehindCount
      obtain ⟨hsizes, rfl, hbehindSize⟩ := hsize.unique hsize' hbehindConstants
      obtain ⟨rfl, -⟩ := List.append_inj hbehindSize hsizes
      exact ⟨rfl, rfl, rfl⟩

/-- There is one stored form of constants and code. -/
theorem StoresProgram.eq_of_same (h : StoresProgram cs code front) (h' : StoresProgram cs code front') : front = front' := by
  cases h with
  | mk hcount hconstants hsize =>
    cases h' with
    | mk hcount' hconstants' hsize' =>
      rw [hcount.eq_littleEndian, hcount'.eq_littleEndian, hconstants.eq_flatMap, hconstants'.eq_flatMap,
        hsize.eq_littleEndian, hsize'.eq_littleEndian]

theorem readPayload_eq_ok {e : Executable} : readPayload bytes = .ok e ↔ ∃ cs code front rest,
    bytes = front ++ rest ∧ StoresProgram cs code front ∧ e = ⟨.ofCode code.toArray, .ofList cs⟩ := by
  unfold readPayload
  constructor
  · intro h
    obtain ⟨⟨count, behindCount⟩, hreadCount, hcounted⟩ := except_bind_eq_ok.mp h
    obtain ⟨countBytes, rfl, hcount⟩ := readNumber_eq_ok.mp hreadCount
    obtain ⟨⟨pool, behindConstants⟩, hreadConstants, hpooled⟩ := except_bind_eq_ok.mp hcounted
    obtain ⟨cs, constants, rfl, rfl, hconstants, rfl⟩ := readConstants_eq_ok.mp hreadConstants
    obtain ⟨⟨length, behindSize⟩, hreadSize, hsized⟩ := except_bind_eq_ok.mp hpooled
    obtain ⟨size, rfl, hsize⟩ := readNumber_eq_ok.mp hreadSize
    dsimp only at hsized
    split at hsized
    case h_1 => cases hsized
    case h_2 code rest htake =>
      cases hsized
      obtain ⟨rfl, rfl⟩ := takeExactly_nil_eq_some.mp htake
      exact ⟨cs, code, _, rest, by simp, .mk hcount hconstants hsize, rfl⟩
  · rintro ⟨cs, code, front, rest, rfl, hstores, rfl⟩
    cases hstores with
    | @mk count constants size hcount hconstants hsize =>
      simp only [List.append_assoc]
      refine except_bind_eq_ok.mpr ⟨(cs.length, constants ++ (size ++ (code ++ rest))), ?_, ?_⟩
      · exact readNumber_eq_ok.mpr ⟨count, rfl, hcount⟩
      refine except_bind_eq_ok.mpr ⟨(.ofList cs, size ++ (code ++ rest)), ?_, ?_⟩
      · exact readConstants_eq_ok.mpr ⟨cs, constants, rfl, rfl, hconstants, rfl⟩
      · refine except_bind_eq_ok.mpr ⟨(code.length, code ++ rest), readNumber_eq_ok.mpr ⟨size, rfl, hsize⟩, ?_⟩
        have htake : takeExactly [] code.length (code ++ rest) = some (code, rest) :=
          takeExactly_nil_eq_some.mpr ⟨rfl, rfl⟩
        simp only [htake]

end MonkeyLang
