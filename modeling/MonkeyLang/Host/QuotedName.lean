/-!
# Names in messages

A file name in a message stands there as a shell reads it back. A plain name stands for itself. Any other is put between
single quotes, or between double quotes if it has a single quote and nothing that double quotes would not protect. Bytes
that are not printable ASCII are written with a backslash, in a stretch of their own between `$'` and `'`.
-/

namespace MonkeyLang.Host.QuotedName

def isPrintable (b : UInt8) : Bool := 0x20 ≤ b && b ≤ 0x7E

def charOf (b : UInt8) : Char := Char.ofNat b.toNat

/-- The characters that have a meaning in a shell wherever they stand, except for the blank, the single quote and the
backslash. -/
def specials : List Char := "!\"$&()*;<=>?[^`|".toList

/-- The characters that have a meaning only at the start of a name. -/
def startSpecials : List Char := ['#', '~']

/-- The characters that have a meaning only if they are all of a name. -/
def loneSpecials : List Char := ['\x7b', '\x7d']

/-- Whether a name has to be quoted. A colon would be taken for the end of the name in a message. -/
def needsQuotes (name : List UInt8) : Bool :=
  let chars := name.map charOf
  name.isEmpty || name.any (fun b => !isPrintable b) ||
    chars.any (fun c => c ∈ specials || c == ' ' || c == '\'' || c == '\\' || c == ':') ||
    startSpecials.any (fun c => chars.head? == some c) || loneSpecials.any (fun c => chars == [c])

/-- Whether double quotes protect all of a name. -/
def fitsDoubleQuotes (name : List UInt8) : Bool :=
  let chars := name.map charOf
  name.all isPrintable && chars.all (fun c => c ∉ specials && c != '\\') &&
    chars.tail.all (fun c => c ∉ startSpecials) && (chars.length == 1 || chars.all fun c => c ∉ loneSpecials)

/-- An unprintable byte behind a backslash: by letter, or as three octal digits. -/
def escape (b : UInt8) : List Char :=
  match [(0x07, 'a'), (0x08, 'b'), (0x09, 't'), (0x0A, 'n'), (0x0B, 'v'), (0x0C, 'f'), (0x0D, 'r')].lookup b with
  | some letter => ['\\', letter]
  | none => '\\' :: [b.toNat / 64, b.toNat / 8 % 8, b.toNat % 8].map fun digit => Char.ofNat ('0'.toNat + digit)

/-- A name between single quotes without the outer ones, and whether it ends in a stretch of escapes. With `escaping` it
starts in one. -/
def body (escaping : Bool) : List UInt8 → List Char × Bool
  | [] => ([], escaping)
  | b :: rest =>
    let c := charOf b
    if !isPrintable b then
      let (text, last) := body true rest
      ((if escaping then [] else ['\'', '$', '\'']) ++ escape b ++ text, last)
    else
      let (text, last) := body false rest
      if c = '\'' then ('\'' :: '\\' :: '\'' :: '\'' :: text, last)
      else ((if escaping then ['\'', '\''] else []) ++ c :: text, last)

/-- A name as it stands in a message. A name with a single quote that ends in a stretch of escapes gets an empty pair of
quotes in front. -/
def encode (name : List UInt8) : String :=
  let chars := name.map charOf
  if !needsQuotes name then String.ofList chars
  else if '\'' ∈ chars then
    if fitsDoubleQuotes name then String.ofList ('"' :: chars ++ ['"'])
    else String.ofList ('\'' :: (body (body false name).2 name).1 ++ ['\''])
  else String.ofList ('\'' :: (body false name).1 ++ ['\''])

end MonkeyLang.Host.QuotedName
