import MonkeyLang.Bytecode.Chunk
import MonkeyLang.Bytecode.Constant
import MonkeyLang.Text.Utf8
/-!
# Executables

What a program is compiled to: its code and its constants. An executable is stored as a mark of four bytes, a version
byte, the constants and the code. Numbers are stored with a fixed width, least significant byte first, and whatever has a
length is stored behind it. Lines are not stored, and read back as zero. Bytes behind the code are ignored.
-/

namespace MonkeyLang

structure Executable where
  chunk : Chunk
  pool : ConstantPool

/-- Why bytes hold no executable. -/
inductive ArtifactError where
  | badMagic
  | unsupportedVersion (version : UInt8)
  | encode (message : String)
  | decode (message : String)
deriving DecidableEq, Repr

def ArtifactError.message : ArtifactError → String
  | badMagic => "not a compiled Monkey program"
  | unsupportedVersion version => s!"unsupported program format version {version.toNat}"
  | encode message => s!"failed to encode program: {message}"
  | decode message => s!"failed to decode program: {message}"

/-- What is wrong with bytes behind a correct mark. -/
inductive DecodeFault where
  | noVersion
  /-- A number or a code byte is missing. -/
  | unexpectedEnd
  /-- A string is longer than the bytes that are left. -/
  | stringTooLong
  /-- A constant is neither an integer nor a string. -/
  | unknownTag (tag : Nat)
  | notText (fault : Text.Utf8.Fault)
deriving DecidableEq, Repr

def DecodeFault.message : DecodeFault → String
  | noVersion => "missing format version"
  | unexpectedEnd => "io error: unexpected end of file"
  | stringTooLong => "io error: "
  | unknownTag tag => s!"invalid value: integer `{tag}`, expected variant index 0 <= i < 2"
  | notText fault => "string is not valid utf8: " ++ fault.message

namespace Executable

/-! ### Numbers and byte strings -/

/-- A number in `w` bytes, least significant first. -/
def littleEndian : Nat → Nat → List UInt8
  | 0, _ => []
  | w + 1, n => UInt8.ofNat (n % 256) :: littleEndian w (n / 256)

def readNumber : Nat → List UInt8 → Except DecodeFault (Nat × List UInt8)
  | 0, bytes => .ok (0, bytes)
  | _ + 1, [] => .error .unexpectedEnd
  | w + 1, b :: bytes =>
    match readNumber w bytes with
    | .ok (n, rest) => .ok (b.toNat + 256 * n, rest)
    | .error fault => .error fault

/-- Cuts off so many bytes, behind those already taken, if there are enough. -/
def takeExactly (taken : List UInt8) : Nat → List UInt8 → Option (List UInt8 × List UInt8)
  | 0, rest => some (taken.reverse, rest)
  | _ + 1, [] => none
  | n + 1, b :: rest => takeExactly (b :: taken) n rest

/-! ### Writing -/

def magic : List UInt8 := [0x4D, 0x4E, 0x4B, 0x59]

def version : UInt8 := 1

def constantBytes : Constant → List UInt8
  | .int value => littleEndian 4 0 ++ littleEndian 8 value.toUInt64.toNat
  | .string value =>
    let text := Text.Utf8.encode value
    littleEndian 4 1 ++ littleEndian 8 text.length ++ text

/-- Constants and code behind mark and version. -/
def payload (e : Executable) : List UInt8 :=
  littleEndian 8 e.pool.size ++ e.pool.toList.flatMap constantBytes ++
    (littleEndian 8 e.chunk.code.size ++ e.chunk.code.toList)

def toBytes (e : Executable) : List UInt8 := magic ++ version :: e.payload

/-! ### Reading -/

def readConstant (bytes : List UInt8) : Except DecodeFault (Constant × List UInt8) := do
  let (tag, bytes) ← readNumber 4 bytes
  if tag = 0 then
    let (n, bytes) ← readNumber 8 bytes
    .ok (.int (UInt64.ofNat n).toInt64, bytes)
  else if tag = 1 then
    let (length, bytes) ← readNumber 8 bytes
    match takeExactly [] length bytes with
    | none => .error .stringTooLong
    | some (text, bytes) =>
      match Text.Utf8.decode text with
      | .ok value => .ok (.string value, bytes)
      | .error fault => .error (.notText fault)
  else
    .error (.unknownTag tag)

/-- Reads so many constants into a pool. Equal ones are kept once. -/
def readConstants (pool : ConstantPool) : Nat → List UInt8 → Except DecodeFault (ConstantPool × List UInt8)
  | 0, bytes => .ok (pool, bytes)
  | n + 1, bytes =>
    match readConstant bytes with
    | .ok (c, rest) => readConstants (pool.add c).2 n rest
    | .error fault => .error fault

def readPayload (bytes : List UInt8) : Except DecodeFault Executable := do
  let (count, bytes) ← readNumber 8 bytes
  let (pool, bytes) ← readConstants .empty count bytes
  let (length, bytes) ← readNumber 8 bytes
  match takeExactly [] length bytes with
  | none => .error .unexpectedEnd
  | some (code, _) => .ok ⟨.ofCode code.toArray, pool⟩

def ofBytes (bytes : List UInt8) : Except ArtifactError Executable :=
  if bytes.take 4 = magic then
    match bytes.drop 4 with
    | [] => .error (.decode DecodeFault.noVersion.message)
    | v :: rest =>
      if v = version then
        match readPayload rest with
        | .ok e => .ok e
        | .error fault => .error (.decode fault.message)
      else
        .error (.unsupportedVersion v)
  else
    .error .badMagic

end Executable

end MonkeyLang
