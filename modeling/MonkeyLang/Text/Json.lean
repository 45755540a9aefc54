/-!
# JSON as text

A JSON value is written on one line without blanks, or with one element a line and two blanks for each level. Strings keep
all characters but quotation marks, backslashes and control characters as they are.
-/

namespace MonkeyLang

inductive Json where
  | number (value : Nat)
  | string (value : String)
  | array (elements : List Json)
  | object (fields : List (String × Json))

namespace Json

def controlDigits (n : Nat) : String :=
  String.ofList [Nat.digitChar (n / 16), Nat.digitChar (n % 16)]

def escape (c : Char) : String :=
  if c = '"' then "\\\""
  else if c = '\\' then "\\\\"
  else if c = '\n' then "\\n"
  else if c = '\r' then "\\r"
  else if c = '\t' then "\\t"
  else if c.toNat = 0x08 then "\\b"
  else if c.toNat = 0x0C then "\\f"
  else if c.toNat < 0x20 then "\\u00" ++ controlDigits c.toNat
  else c.toString

def quote (s : String) : String := s.foldl (fun text c => text ++ escape c) "\"" ++ "\""

/-- Starts a line at a depth, if lines are asked for. -/
def startLine (pretty : Bool) (depth : Nat) (text : String) : String :=
  if pretty then (text ++ "\n").pushn ' ' (2 * depth) else text

def fieldName (pretty : Bool) (name : String) : String := quote name ++ if pretty then ": " else ":"

mutual

/-- Writes a value at a depth, behind the text written so far. -/
def writeAt (pretty : Bool) (depth : Nat) (text : String) : Json → String
  | number value => text ++ toString value
  | string value => text ++ quote value
  | array [] => text ++ "[]"
  | array (element :: rest) =>
    let text := writeAt pretty (depth + 1) (startLine pretty (depth + 1) (text ++ "[")) element
    startLine pretty depth (writeElements pretty (depth + 1) text rest) ++ "]"
  | object [] => text ++ "\x7b\x7d"
  | object ((name, value) :: rest) =>
    let text := startLine pretty (depth + 1) (text ++ "\x7b") ++ fieldName pretty name
    let text := writeAt pretty (depth + 1) text value
    startLine pretty depth (writeFields pretty (depth + 1) text rest) ++ "\x7d"

def writeElements (pretty : Bool) (depth : Nat) (text : String) : List Json → String
  | [] => text
  | element :: rest =>
    writeElements pretty depth (writeAt pretty depth (startLine pretty depth (text ++ ",")) element) rest

def writeFields (pretty : Bool) (depth : Nat) (text : String) : List (String × Json) → String
  | [] => text
  | (name, value) :: rest =>
    let text := startLine pretty depth (text ++ ",") ++ fieldName pretty name
    writeFields pretty depth (writeAt pretty depth text value) rest

end

/-- A value as text, on one line or one element a line. -/
def write (pretty : Bool) (value : Json) : String := writeAt pretty 0 "" value

end Json

end MonkeyLang
