/-!
# Reading UTF-8

Bytes that are meant as text need not be well-formed. `Utf8.fault?` tells where the first stretch begins that is not, and
how long it is: the bytes that could start a character, up to the first that cannot go on with it. `Utf8.decodeLossy` puts
the replacement character in place of each such stretch.
-/

namespace MonkeyLang.Text.Utf8

/-- The first stretch of bytes that is no text. -/
structure Fault where
  /-- The number of bytes in front of it. -/
  start : Nat
  /-- Its length, unless the bytes merely end too early. -/
  length? : Option Nat
deriving DecidableEq, Repr

def Fault.message (f : Fault) : String :=
  match f.length? with
  | some length => s!"invalid utf-8 sequence of {length} bytes from index {f.start}"
  | none => s!"incomplete utf-8 byte sequence from index {f.start}"

def isContinuation (b : UInt8) : Bool := 0x80 ≤ b && b ≤ 0xBF

/-- The number of bytes that a first byte announces behind it, with the range of the second byte. -/
def announced? (b : UInt8) : Option (Nat × UInt8 × UInt8) :=
  if b ≤ 0x7F then some (0, 0, 0)
  else if 0xC2 ≤ b && b ≤ 0xDF then some (1, 0x80, 0xBF)
  else if b == 0xE0 then some (2, 0xA0, 0xBF)
  else if b == 0xED then some (2, 0x80, 0x9F)
  else if 0xE1 ≤ b && b ≤ 0xEF then some (2, 0x80, 0xBF)
  else if b == 0xF0 then some (3, 0x90, 0xBF)
  else if b == 0xF4 then some (3, 0x80, 0x8F)
  else if 0xF1 ≤ b && b ≤ 0xF3 then some (3, 0x80, 0xBF)
  else none

/-- What the bytes behind a first byte come to. -/
inductive Piece where
  /-- A character, with the bits of its code point. -/
  | char (code : Nat)
  /-- No character: the number of bytes that could have been the start of one. -/
  | invalid (length : Nat)
  /-- The bytes end inside a character. -/
  | incomplete (length : Nat)
deriving DecidableEq, Repr

/-- Collects continuation bytes, as many as are still announced. -/
def continuation (code taken : Nat) : Nat → List UInt8 → Piece
  | 0, _ => .char code
  | _ + 1, [] => .incomplete taken
  | n + 1, b :: bs =>
    if isContinuation b then continuation (64 * code + (b.toNat - 0x80)) (taken + 1) n bs else .invalid taken

/-- The piece at the front of the bytes that start with `b`. -/
def piece (b : UInt8) (bs : List UInt8) : Piece :=
  match announced? b with
  | none => .invalid 1
  | some (0, _, _) => .char b.toNat
  | some (n + 1, low, high) =>
    let bits := if n = 0 then b.toNat - 0xC0 else if n = 1 then b.toNat - 0xE0 else b.toNat - 0xF0
    match bs with
    | [] => .incomplete 1
    | second :: rest =>
      if low ≤ second && second ≤ high then continuation (64 * bits + (second.toNat - 0x80)) 2 n rest else .invalid 1

def Piece.size : Piece → Nat
  | char code => if code < 0x80 then 1 else if code < 0x800 then 2 else if code < 0x10000 then 3 else 4
  | invalid length | incomplete length => max 1 length

theorem Piece.size_pos (u : Piece) : 0 < u.size := by
  cases u <;> simp only [size]
  · split <;> (try split) <;> (try split) <;> decide
  all_goals omega

/-- The first fault of bytes that stand behind `start` others. -/
def faultFrom? (start : Nat) (bytes : List UInt8) : Option Fault :=
  match bytes with
  | [] => none
  | b :: bs =>
    match piece b bs with
    | .char _ =>
      have := (piece b bs).size_pos
      faultFrom? (start + (piece b bs).size) ((b :: bs).drop (piece b bs).size)
    | .invalid length => some ⟨start, some length⟩
    | .incomplete _ => some ⟨start, none⟩
termination_by bytes.length
decreasing_by simp only [List.length_drop, List.length_cons]; omega

def fault? (bytes : List UInt8) : Option Fault := faultFrom? 0 bytes

/-- The text that bytes stand for, or the fault that keeps them from being text. -/
def decode (bytes : List UInt8) : Except Fault String :=
  match String.fromUTF8? ⟨bytes.toArray⟩ with
  | some text => .ok text
  | none => .error ((fault? bytes).getD ⟨0, none⟩)

def encode (text : String) : List UInt8 := text.toUTF8.data.toList

def replacement : Char := Char.ofNat 0xFFFD

/-- Characters behind those already decoded, with the replacement character for each faulty stretch. -/
def decodeLossyFrom (decoded : List Char) (bytes : List UInt8) : List Char :=
  match bytes with
  | [] => decoded.reverse
  | b :: bs =>
    let char := match piece b bs with
      | .char code => Char.ofNat code
      | .invalid _ | .incomplete _ => replacement
    have := (piece b bs).size_pos
    decodeLossyFrom (char :: decoded) ((b :: bs).drop (piece b bs).size)
termination_by bytes.length
decreasing_by simp only [List.length_drop, List.length_cons]; omega

/-- The text that bytes stand for, with the replacement character for each faulty stretch. -/
def decodeLossy (bytes : List UInt8) : String := String.ofList (decodeLossyFrom [] bytes)

end MonkeyLang.Text.Utf8
