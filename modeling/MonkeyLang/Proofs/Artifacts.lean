import MonkeyLang.Proofs.Pools
import MonkeyLang.Proofs.StorageFormat
/-!
# Executables are stored and read back

Bytes are read back as an executable if they start with the mark, the version and a stored program, whatever stands behind.
What is written is a stored program, so it is read back, and since no stored program is the beginning of another one, nothing
less of it is. Stored constants may repeat each other. They are kept once, so that writing what was read gives the same
bytes only if none of them does.
-/

namespace MonkeyLang

open Executable

/-! ### What is written -/

structure Executable.Storable (e : Executable) : Prop where
  constants : e.pool.size < 2 ^ 64
  texts : ∀ text, .string text ∈ e.pool.toList → text.utf8ByteSize < 2 ^ 64
  code : e.chunk.code.size < 2 ^ 64

theorem storesConstant_constantBytes {c : Constant} (h : ∀ text, c = .string text → text.utf8ByteSize < 2 ^ 64) :
    StoresConstant c (constantBytes c) := by
  cases c with
  | int value =>
    have hlt : value.toUInt64.toNat < 256 ^ 8 := value.toUInt64.toNat_lt
    exact .int (storesNumber_littleEndian (by decide)) (storesNumber_littleEndian hlt) (bmod_toNat_toUInt64 value).symm
  | string text =>
    have hlt : text.utf8ByteSize < 256 ^ 8 := h text rfl
    rw [constantBytes, List.append_assoc, length_encode, encode_eq_flatMap]
    exact .string (storesNumber_littleEndian (by decide)) (storesNumber_littleEndian hlt)

theorem storesConstants_flatMap {cs : List Constant} (h : ∀ text, .string text ∈ cs → text.utf8ByteSize < 2 ^ 64) :
    StoresConstants cs (cs.flatMap constantBytes) := by
  induction cs with
  | nil => exact .nil
  | cons c cs ih =>
    rw [List.flatMap_cons]
    refine .cons (storesConstant_constantBytes ?_) (ih ?_)
    · rintro text rfl
      exact h text List.mem_cons_self
    · intro text htext
      exact h text (List.mem_cons_of_mem c htext)

theorem storesProgram_payload {e : Executable} (h : e.Storable) :
    StoresProgram e.pool.toList e.chunk.code.toList e.payload := by
  have hcount : e.pool.size < 256 ^ 8 := h.constants
  have hsize : e.chunk.code.size < 256 ^ 8 := h.code
  rw [payload, List.append_assoc]
  exact .mk (storesNumber_littleEndian hcount) (storesConstants_flatMap h.texts) (storesNumber_littleEndian hsize)

theorem StoresConstants.exists_of_mem {c : Constant} {cs : List Constant} {bytes : List UInt8}
    (h : StoresConstants cs bytes) (hc : c ∈ cs) : ∃ stored, StoresConstant c stored := by
  induction h with
  | nil => cases hc
  | cons hfirst _ ih =>
    rcases List.mem_cons.mp hc with rfl | hc
    · exact ⟨_, hfirst⟩
    · exact ih hc

/-- What has been stored can be stored again. -/
theorem StoresProgram.storable {cs : List Constant} {code bytes : List UInt8} (h : StoresProgram cs code bytes) :
    Storable ⟨.ofCode code.toArray, .ofList cs⟩ := by
  cases h with
  | mk hcount hconstants hsize =>
    refine ⟨?_, ?_, hsize.lt⟩
    · have hle : (ConstantPool.ofList cs).toList.length ≤ cs.length := by
        rw [ConstantPool.toList_ofList]
        exact length_eraseDups_le cs
      exact Nat.lt_of_le_of_lt hle hcount.lt
    · intro text htext
      dsimp only at htext
      rw [ConstantPool.toList_ofList, List.mem_eraseDups] at htext
      obtain ⟨stored, hstored⟩ := hconstants.exists_of_mem htext
      cases hstored with
      | string _ hsize => exact hsize.lt

/-! ### What is read -/

inductive ReadOutcome (bytes : List UInt8) : Except ArtifactError Executable → Prop
  | noMark (hmagic : ¬ magic <+: bytes) : ReadOutcome bytes (.error .badMagic)
  | onlyMark (hbytes : bytes = magic) : ReadOutcome bytes (.error (.decode DecodeFault.noVersion.message))
  | otherVersion {v : UInt8} (hversion : magic ++ [v] <+: bytes) (hv : v ≠ version) :
      ReadOutcome bytes (.error (.unsupportedVersion v))
  | malformed {rest : List UInt8} {fault : DecodeFault} (hbytes : bytes = magic ++ version :: rest)
      (hread : readPayload rest = .error fault) : ReadOutcome bytes (.error (.decode fault.message))
  | stored {cs : List Constant} {code stored : List UInt8} (hstored : StoresProgram cs code stored)
      (hbytes : magic ++ version :: stored <+: bytes) : ReadOutcome bytes (.ok ⟨.ofCode code.toArray, .ofList cs⟩)

variable {bytes : List UInt8}

theorem ofBytes_of_other_magic (h : ¬ magic <+: bytes) : ofBytes bytes = .error .badMagic := by
  refine if_neg ?_
  intro htake
  exact h (List.prefix_iff_eq_take.mpr htake.symm)

theorem ofBytes_version (rest : List UInt8) : ofBytes (magic ++ version :: rest) =
    (readPayload rest).mapError fun fault => .decode fault.message := by
  have htake : (magic ++ version :: rest).take 4 = magic := rfl
  have hdrop : (magic ++ version :: rest).drop 4 = version :: rest := rfl
  unfold ofBytes
  simp only [htake, hdrop, if_true]
  cases readPayload rest <;> rfl

theorem readOutcome (bytes : List UInt8) : ReadOutcome bytes (ofBytes bytes) := by
  by_cases hmagic : magic <+: bytes
  · obtain ⟨behind, rfl⟩ := hmagic
    cases behind with
    | nil => exact .onlyMark (List.append_nil _)
    | cons v rest =>
      by_cases hv : v = version
      · subst hv
        rw [ofBytes_version]
        cases hread : readPayload rest with
        | error fault => exact .malformed rfl hread
        | ok e =>
          obtain ⟨cs, code, stored, behind, rfl, hstored, rfl⟩ := readPayload_eq_ok.mp hread
          exact .stored hstored ⟨behind, by rw [List.append_assoc, List.cons_append]⟩
      · have hother : ofBytes (magic ++ v :: rest) = .error (.unsupportedVersion v) := if_neg hv
        rw [hother]
        exact .otherVersion ⟨rest, List.append_assoc _ _ _⟩ hv
  · rw [ofBytes_of_other_magic hmagic]
    exact .noMark hmagic

theorem ofBytes_eq_ok {e : Executable} : ofBytes bytes = .ok e ↔ ∃ cs code stored, StoresProgram cs code stored ∧
    magic ++ version :: stored <+: bytes ∧ e = ⟨.ofCode code.toArray, .ofList cs⟩ := by
  constructor
  · intro h
    have houtcome := readOutcome bytes
    rw [h] at houtcome
    cases houtcome with
    | stored hstored hbytes => exact ⟨_, _, _, hstored, hbytes, rfl⟩
  · rintro ⟨cs, code, stored, hstored, ⟨behind, rfl⟩, rfl⟩
    have hread := readPayload_eq_ok.mpr ⟨cs, code, stored, behind, rfl, hstored, rfl⟩
    rw [List.append_assoc, List.cons_append, ofBytes_version, hread]
    rfl

theorem ofBytes_eq_badMagic : ofBytes bytes = .error .badMagic ↔ ¬ magic <+: bytes := by
  constructor
  · intro h
    have houtcome := readOutcome bytes
    rw [h] at houtcome
    cases houtcome with
    | noMark hmagic => exact hmagic
  · exact ofBytes_of_other_magic

theorem ofBytes_eq_unsupportedVersion {v : UInt8} :
    ofBytes bytes = .error (.unsupportedVersion v) ↔ magic ++ [v] <+: bytes ∧ v ≠ version := by
  constructor
  · intro h
    have houtcome := readOutcome bytes
    rw [h] at houtcome
    cases houtcome with
    | otherVersion hversion hv => exact ⟨hversion, hv⟩
  · rintro ⟨⟨rest, rfl⟩, hv⟩
    exact if_neg hv

theorem exists_ofBytes_eq_decode : (∃ message, ofBytes bytes = .error (.decode message)) ↔
    magic <+: bytes ∧ (∀ v, magic ++ [v] <+: bytes → v = version) ∧
      ¬ ∃ cs code stored, StoresProgram cs code stored ∧ magic ++ version :: stored <+: bytes := by
  constructor
  · rintro ⟨message, h⟩
    refine ⟨?_, ?_, ?_⟩
    · by_contra hmagic
      rw [ofBytes_of_other_magic hmagic] at h
      cases h
    · intro v hversion
      by_contra hv
      rw [ofBytes_eq_unsupportedVersion.mpr ⟨hversion, hv⟩] at h
      cases h
    · rintro ⟨cs, code, stored, hstored, hbytes⟩
      rw [ofBytes_eq_ok.mpr ⟨cs, code, stored, hstored, hbytes, rfl⟩] at h
      cases h
  · rintro ⟨hmagic, hversion, hnone⟩
    have houtcome := readOutcome bytes
    generalize ofBytes bytes = outcome at houtcome
    cases houtcome with
    | noMark hno => exact absurd hmagic hno
    | onlyMark _ => exact ⟨_, rfl⟩
    | otherVersion hother hv => exact absurd (hversion _ hother) hv
    | malformed _ _ => exact ⟨_, rfl⟩
    | stored hstored hbytes => exact absurd ⟨_, _, _, hstored, hbytes⟩ hnone

/-! ### Writing and reading -/

/-- What is written is read back, without the lines and whatever stands behind. -/
theorem ofBytes_toBytes_append {e : Executable} (h : e.Storable) (more : List UInt8) :
    ofBytes (e.toBytes ++ more) = .ok ⟨.ofCode e.chunk.code, .ofList e.pool.toList⟩ :=
  ofBytes_eq_ok.mpr ⟨_, _, _, storesProgram_payload h, List.prefix_append _ _, rfl⟩

/-- Nothing less than what is written is read back. -/
theorem ofBytes_of_prefix_toBytes {e : Executable} (h : e.Storable) {front : List UInt8} (hfront : front <+: e.toBytes)
    (hne : front ≠ e.toBytes) (hmark : 4 ≤ front.length) : ∃ message, ofBytes front = .error (.decode message) := by
  rw [exists_ofBytes_eq_decode]
  refine ⟨?_, ?_, ?_⟩
  · exact List.prefix_of_prefix_length_le (List.prefix_append _ _) hfront hmark
  · intro v hversion
    obtain ⟨rest, hrest⟩ := hversion.trans hfront
    rw [toBytes, List.append_assoc] at hrest
    exact (List.cons_eq_cons.mp (List.append_cancel_left hrest)).1
  · rintro ⟨cs, code, stored, hstored, behind, rfl⟩
    obtain ⟨more, hmore⟩ := hfront
    have hpayload : stored ++ (behind ++ more) = e.payload ++ [] := by
      rw [toBytes] at hmore
      simpa using hmore
    obtain ⟨-, -, rfl⟩ := hstored.unique (storesProgram_payload h) hpayload
    have hnothing : behind ++ more = [] := List.append_cancel_left hpayload
    obtain ⟨rfl, rfl⟩ := List.append_eq_nil_iff.mp hnothing
    exact hne (by simpa using hmore)

/-- An executable with a pool of added constants is written in the stored format. It is read back with the same code and the same
constants, all lines being zero, and bytes behind it change nothing. Without its last bytes it is not read back: the mark is
missing, or what follows cannot be decoded. -/
theorem artifact_round_trip (chunk : Chunk) (cs : List Constant) (hsizes : Storable ⟨chunk, .ofList cs⟩) :
    (∃ stored, toBytes ⟨chunk, .ofList cs⟩ = magic ++ version :: stored ∧
      StoresProgram (ConstantPool.ofList cs).toList chunk.code.toList stored) ∧
    (∀ more, ofBytes (toBytes ⟨chunk, .ofList cs⟩ ++ more) =
      .ok ⟨⟨chunk.code, Array.replicate chunk.code.size 0⟩, .ofList cs⟩) ∧
    ∀ front, front <+: toBytes ⟨chunk, .ofList cs⟩ → front ≠ toBytes ⟨chunk, .ofList cs⟩ →
      (front.length < 4 → ofBytes front = .error .badMagic) ∧
        (4 ≤ front.length → ∃ message, ofBytes front = .error (.decode message)) := by
  refine ⟨⟨_, rfl, storesProgram_payload hsizes⟩, ?_, ?_⟩
  · intro more
    rw [ofBytes_toBytes_append hsizes, ConstantPool.toList_ofList, ConstantPool.ofList_eraseDups]
    rfl
  · intro front hfront hne
    refine ⟨?_, ofBytes_of_prefix_toBytes hsizes hfront hne⟩
    intro hshort
    apply ofBytes_of_other_magic
    intro hmagic
    have hle : 4 ≤ front.length := hmagic.length_le
    omega

/-- A negative integer, which is added twice, a text with a character of two bytes, and code that is none. -/
def addedTwice : Executable := ⟨⟨#[0, 0, 1, 255], #[1, 1, 1, 2]⟩, .ofList [.int (-5), .string "hé", .int (-5)]⟩

theorem artifact_round_trip_addedTwice :
    addedTwice.Storable ∧ ofBytes (addedTwice.toBytes ++ [7]) = .ok ⟨.ofCode #[0, 0, 1, 255], addedTwice.pool⟩ ∧
      addedTwice.toBytes.dropLast ≠ addedTwice.toBytes ∧
      ∃ message, ofBytes addedTwice.toBytes.dropLast = .error (.decode message) := by
  have hsizes : addedTwice.Storable := by
    refine ⟨by decide +kernel, ?_, by decide⟩
    intro text htext
    rw [addedTwice, ConstantPool.toList_ofList, List.mem_eraseDups] at htext
    obtain rfl : text = "hé" := by simpa using htext
    decide
  have hne : addedTwice.toBytes.dropLast ≠ addedTwice.toBytes := by decide +kernel
  obtain ⟨-, hread, hfail⟩ := artifact_round_trip _ _ hsizes
  exact ⟨hsizes, hread [7], hne, (hfail _ (List.dropLast_prefix _) hne).2 (by decide +kernel)⟩

/-- Bytes hold no executable if the mark is missing, if the version is another one, or if no stored program follows; otherwise
they are read. The code is the stored one and the constants are the first occurrences of the stored ones, so that writing
them gives the bytes that were read exactly if no constant was stored twice. What is read is read back once written. -/
theorem artifact_reading (bytes : List UInt8) :
    (ofBytes bytes = .error .badMagic ↔ ¬ magic <+: bytes) ∧
    (∀ v, ofBytes bytes = .error (.unsupportedVersion v) ↔ magic ++ [v] <+: bytes ∧ v ≠ version) ∧
    ((∃ e, ofBytes bytes = .ok e) ↔
      ∃ cs code stored, StoresProgram cs code stored ∧ magic ++ version :: stored <+: bytes) ∧
    ((∃ message, ofBytes bytes = .error (.decode message)) ↔
      magic <+: bytes ∧ (∀ v, magic ++ [v] <+: bytes → v = version) ∧
        ¬ ∃ cs code stored, StoresProgram cs code stored ∧ magic ++ version :: stored <+: bytes) ∧
    ∀ cs code stored, StoresProgram cs code stored → magic ++ version :: stored <+: bytes →
      ∃ e, ofBytes bytes = .ok e ∧ e.chunk.code.toList = code ∧ e.pool.toList = cs.eraseDups ∧
        (e.toBytes = magic ++ version :: stored ↔ cs.Nodup) ∧ ofBytes e.toBytes = .ok e := by
  refine ⟨ofBytes_eq_badMagic, fun v => ofBytes_eq_unsupportedVersion, ?_, exists_ofBytes_eq_decode, ?_⟩
  · constructor
    · rintro ⟨e, he⟩
      obtain ⟨cs, code, stored, hstored, hbytes, -⟩ := ofBytes_eq_ok.mp he
      exact ⟨cs, code, stored, hstored, hbytes⟩
    · rintro ⟨cs, code, stored, hstored, hbytes⟩
      exact ⟨_, ofBytes_eq_ok.mpr ⟨cs, code, stored, hstored, hbytes, rfl⟩⟩
  · intro cs code stored hstored hbytes
    have hsizes := hstored.storable
    have hpayload := storesProgram_payload hsizes
    have hback := ofBytes_toBytes_append hsizes []
    rw [List.append_nil, ConstantPool.toList_ofList, ConstantPool.ofList_eraseDups] at hback
    rw [ConstantPool.toList_ofList] at hpayload
    refine ⟨_, ofBytes_eq_ok.mpr ⟨cs, code, stored, hstored, hbytes, rfl⟩, rfl, ConstantPool.toList_ofList cs, ?_, hback⟩
    rw [← eraseDups_eq_self_iff]
    constructor
    · intro hsame
      have hstoredSame := (List.cons_eq_cons.mp (List.append_cancel_left hsame)).2
      exact (hpayload.unique hstored (congrArg (· ++ []) hstoredSame)).1
    · intro hfirst
      rw [hfirst] at hpayload
      rw [toBytes, hpayload.eq_of_same hstored]

/-- The integer seven, stored twice, and three bytes of code. -/
def repeatedConstant : List UInt8 :=
  let seven : List UInt8 := [0, 0, 0, 0] ++ [7, 0, 0, 0, 0, 0, 0, 0]
  [2, 0, 0, 0, 0, 0, 0, 0] ++ (seven ++ (seven ++ []) ++ ([3, 0, 0, 0, 0, 0, 0, 0] ++ [0, 0, 1]))

theorem artifact_reading_repeatedConstant : StoresProgram [.int 7, .int 7] [0, 0, 1] repeatedConstant ∧
    ∃ e, ofBytes (magic ++ version :: repeatedConstant ++ [9]) = .ok e ∧ e.chunk.code.toList = [0, 0, 1] ∧
      e.pool.toList = [.int 7] ∧ e.toBytes ≠ magic ++ version :: repeatedConstant ∧ ofBytes e.toBytes = .ok e := by
  have hseven : StoresConstant (.int 7) ([0, 0, 0, 0] ++ [7, 0, 0, 0, 0, 0, 0, 0]) :=
    .int ⟨rfl, rfl⟩ ⟨rfl, rfl⟩ (by decide)
  have hstored : StoresProgram [.int 7, .int 7] [0, 0, 1] repeatedConstant :=
    .mk ⟨rfl, rfl⟩ (.cons hseven (.cons hseven .nil)) ⟨rfl, rfl⟩
  obtain ⟨-, -, -, -, hread⟩ := artifact_reading (magic ++ version :: repeatedConstant ++ [9])
  obtain ⟨e, he, hcode, hconstants, hsame, hback⟩ := hread _ _ _ hstored (List.prefix_append _ _)
  refine ⟨hstored, e, he, hcode, hconstants.trans (by decide), ?_, hback⟩
  rw [Ne, hsame]
  decide

end MonkeyLang
