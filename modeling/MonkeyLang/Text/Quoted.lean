import MonkeyLang.Text.ExtendingMark
/-!
# Quoted text

A text between double quotes, on one line and in visible characters only. The quote and the backslash get a backslash
in front, four control characters are written by letter, and every other character that would not show as itself is
written as its code point in hexadecimal between braces.
-/

namespace MonkeyLang.Text.Quoted

/-- Whether a character stands for itself between the quotes. -/
def isPlain (c : Char) : Bool :=
  (0x20 ≤ c.toNat && c.toNat ≤ 0x7E) || (isPrintable c && !isExtendingMark c)

def escapeCode (c : Char) : List Char :=
  '\\' :: 'u' :: '\x7b' :: (Nat.toDigits 16 c.toNat ++ ['\x7d'])

def escape (c : Char) : List Char :=
  if c = '"' then ['\\', '"']
  else if c = '\\' then ['\\', '\\']
  else if c = '\n' then ['\\', 'n']
  else if c = '\t' then ['\\', 't']
  else if c = '\r' then ['\\', 'r']
  else if c = '\x00' then ['\\', '0']
  else if isPlain c then [c]
  else escapeCode c

def encodeChars (cs : List Char) : List Char :=
  '"' :: (cs.flatMap escape ++ ['"'])

def encode (s : String) : String := String.ofList (encodeChars s.toList)

end MonkeyLang.Text.Quoted
