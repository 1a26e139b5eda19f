/-
Fields of a text: the pieces between runs of white space.

* `Text.isSpace` — the white space characters of Unicode: tab, line feed, vertical tab, form
  feed, carriage return, space, next line (U+0085), no-break space (U+00A0), and the spaces and
  separators U+1680, U+2000 to U+200A, U+2028, U+2029, U+202F, U+205F and U+3000.
* `Text.fields` — the maximal runs of other characters, in order.
-/

namespace DecisionDiagrams.Text

/-- Whether a character is white space. -/
def isSpace (c : Char) : Bool :=
  let n := c.toNat
  (9 ≤ n && n ≤ 13) || n = 32 || n = 0x85 || n = 0xA0 || n = 0x1680 ||
    (0x2000 ≤ n && n ≤ 0x200A) || n = 0x2028 || n = 0x2029 || n = 0x202F || n = 0x205F ||
    n = 0x3000

/-- The fields of a list of characters, the current field `cur` being read backwards. -/
def fieldsAux : List Char → List Char → List String
  | [], cur => if cur.isEmpty then [] else [String.ofList cur.reverse]
  | c :: cs, cur =>
    if isSpace c then
      if cur.isEmpty then fieldsAux cs [] else String.ofList cur.reverse :: fieldsAux cs []
    else fieldsAux cs (c :: cur)

/-- The fields of a text. -/
def fields (s : String) : List String :=
  fieldsAux s.toList []

/-- A text with the ASCII capitals made small. -/
def asciiLower (s : String) : String :=
  s.map Char.toLower

/-- A text with the ASCII small letters made capital. -/
def asciiUpper (s : String) : String :=
  s.map Char.toUpper

end DecisionDiagrams.Text
