/-
Quoted literals: the text of a character or a string between quotes, as error messages show
names and offending characters.

* `Text.escape` writes one character inside a literal whose delimiter is `q`: printable
  characters stand for themselves, the delimiter and the backslash are backslashed, the usual
  control characters get their letter (`\n`, `\t`, ...), other characters below U+0020 and
  U+007F get two hex digits, and the remaining unprintable ones four or eight.
* `Text.quoteChar` and `Text.quote` wrap that in single and double quotes.
* `Text.quoteBytes` quotes a byte sequence read as UTF-8 (see `Text.pieces`): its characters as
  `quote` writes them, and each stray byte as `\x` and two hex digits.

Printability is decided by `Text.isPrintable`: letters, marks, numbers, punctuation, symbols
and the plain space are printable; other spaces, controls, format characters, separators,
private-use, surrogate and unassigned code points are not.
-/
import DecisionDiagrams.Text.Printable
import DecisionDiagrams.Text.Utf8

namespace DecisionDiagrams.Text

/-- The lowercase hexadecimal digits of `n`, padded with zeros on the left to `width`. -/
def hexDigits (width n : Nat) : String :=
  let ds := Nat.toDigits 16 n
  String.ofList (List.replicate (width - ds.length) '0' ++ ds)

/-- One character as it is written inside a literal delimited by `q`. -/
def escape (q c : Char) : String :=
  if c = q ∨ c = '\\' then String.ofList ['\\', c]
  else if isPrintable c then String.singleton c
  else if c = '\x07' then "\\a"
  else if c = '\x08' then "\\b"
  else if c = '\x0c' then "\\f"
  else if c = '\n' then "\\n"
  else if c = '\r' then "\\r"
  else if c = '\t' then "\\t"
  else if c = '\x0b' then "\\v"
  else if c.toNat < 0x20 ∨ c.toNat = 0x7F then "\\x" ++ hexDigits 2 c.toNat
  else if c.toNat < 0x10000 then "\\u" ++ hexDigits 4 c.toNat
  else "\\U" ++ hexDigits 8 c.toNat

/-- A character between single quotes. -/
def quoteChar (c : Char) : String :=
  "'" ++ escape '\'' c ++ "'"

/-- A string between double quotes, each character escaped as `escape` says. -/
def quote (s : String) : String :=
  "\"" ++ String.join (s.toList.map (escape '"')) ++ "\""

/-- A byte sequence between double quotes: characters as in `quote`, stray bytes in hex. -/
def quoteBytes (bs : Bytes) : String :=
  "\"" ++ String.join ((pieces bs).map fun
    | .char c => escape '"' c
    | .stray b => "\\x" ++ hexDigits 2 b.toNat) ++ "\""

/-- The first `n` bytes of a text: the characters that fit whole, then one replacement
character for each byte of a character that is cut. -/
def firstBytes (n : Nat) (s : String) : String :=
  let rec loop : Nat → List Char → List Char
    | _, [] => []
    | room, c :: rest =>
      if c.utf8Size ≤ room then c :: loop (room - c.utf8Size) rest
      else List.replicate room '\ufffd'
  String.ofList (loop n s.toList)

end DecisionDiagrams.Text
