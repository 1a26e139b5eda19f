/-
The values of YAML scalars.

A scalar resolves to a value under its tag. Only the tags `!!str`, `!!bool`, `!!int`,
`!!float`, `!!null`, `!!timestamp` and the empty tag resolve; a scalar with another tag is a
string of that tag. The first character of the text says what it may be:

* `true`, `True`, `TRUE` and `false`, `False`, `FALSE` are booleans; the empty text, `~`,
  `null`, `Null` and `NULL` are null; `.nan`, `.inf`, `+.inf`, `-.inf` (in three spellings)
  are floats;
* a text starting with `.` is a float when it reads as a decimal number;
* a text starting with a digit or a sign is, in turn and with its underscores removed: a
  timestamp (unless the tag asks for another type), a signed 64-bit integer with an optional
  base prefix, an unsigned 64-bit integer, a finite decimal float of the form
  `[-+]?(.d+|d+(.d*)?)([eE][-+]?d+)?`, a binary integer after `0b` (or `-0b`), an octal integer
  after `0o` (or `-0o`);
* anything else is a string.

A tag that asks for a type the text does not have is a problem, except that an integer under
`!!float` becomes a float.
-/
import DecisionDiagrams.Yaml.Number
import DecisionDiagrams.Yaml.Timestamp

namespace DecisionDiagrams

namespace Yaml

/-- The value of a scalar. -/
inductive Scalar where
  | null
  | bool (b : Bool)
  /-- An integer in the signed 64-bit range. -/
  | int (i : Int)
  /-- An integer from 2^63 to 2^64 - 1. -/
  | uint (n : Nat)
  | float (f : Binary64)
  | timestamp
  | str (s : String)
  deriving DecidableEq, Repr, Inhabited

/-- The prefix of the tags of the YAML core schema. -/
def longTagPrefix : String := "tag:yaml.org,2002:"

/-- A tag with the prefix of the core schema written as `!!`. -/
def shortTag (tag : String) : String :=
  if longTagPrefix.isPrefixOf tag then "!!" ++ (tag.drop longTagPrefix.length).toString else tag

/-- The tags whose scalars are resolved. -/
def resolvable (tag : String) : Bool :=
  ["", "!!str", "!!bool", "!!int", "!!float", "!!null", "!!timestamp"].contains tag

/-- The texts with a fixed value. -/
def fixedValue (s : String) : Option (String × Scalar) :=
  if ["true", "True", "TRUE"].contains s then some ("!!bool", .bool true)
  else if ["false", "False", "FALSE"].contains s then some ("!!bool", .bool false)
  else if ["", "~", "null", "Null", "NULL"].contains s then some ("!!null", .null)
  else if [".nan", ".NaN", ".NAN"].contains s then some ("!!float", .float .nan)
  else if [".inf", ".Inf", ".INF", "+.inf", "+.Inf", "+.INF"].contains s then
    some ("!!float", .float (.infinite false))
  else if ["-.inf", "-.Inf", "-.INF"].contains s then some ("!!float", .float (.infinite true))
  else none

/-- What the first character of a text says it may be: `S` for a sign, `D` for a digit, `M`
for a fixed value, `.` for a float, `N` for the empty text. -/
def hint (s : String) : Option Char :=
  match s.toList with
  | [] => some 'N'
  | c :: _ =>
    if c == '+' || c == '-' then some 'S'
    else if c.isDigit then some 'D'
    else if "yYnNtTfFoO~".contains c then some 'M'
    else if c == '.' then some '.'
    else none

/-- Whether a text has the form `[-+]?(.d+|d+(.d*)?)([eE][-+]?d+)?`. -/
def floatShaped (cs : List Char) : Bool :=
  let cs := match cs with
    | '+' :: r => r
    | '-' :: r => r
    | _ => cs
  let digits (l : List Char) : Nat := (l.takeWhile Char.isDigit).length
  let rest : Option (List Char) := match cs with
    | '.' :: r => if digits r > 0 then some (r.drop (digits r)) else none
    | _ =>
      if digits cs == 0 then none
      else match cs.drop (digits cs) with
        | '.' :: r => some (r.drop (digits r))
        | r => some r
  match rest with
  | none => false
  | some [] => true
  | some (e :: r) =>
    (e == 'e' || e == 'E') &&
      (let r := match r with
        | '+' :: q => q
        | '-' :: q => q
        | _ => r
       digits r > 0 && digits r == r.length)

/-- An integer found by one of the readers, as the value of a scalar. -/
def integer (i : Int) : String × Scalar := ("!!int", .int i)

/-- The value of a text that starts with a digit or a sign. -/
def numeric (tag value : String) : Option (String × Scalar) :=
  let plain := value.toList.filter (· != '_')
  if (tag == "" || tag == "!!timestamp") && isTimestamp value then some ("!!timestamp", .timestamp)
  else match parseSigned 0 plain with
  | some i => some (integer i)
  | none =>
  match parseUnsigned 0 plain with
  | some n => some ("!!int", .uint n)
  | none =>
  match (if floatShaped plain then parseFloat (String.ofList plain) else none) with
  | some f => some ("!!float", .float f)
  | none =>
  match plain with
  | '0' :: 'b' :: rest =>
    match parseSigned 2 rest with
    | some i => some (integer i)
    | none => (parseUnsigned 2 rest).map fun n => ("!!int", .uint n)
  | '-' :: '0' :: 'b' :: rest => (parseSigned 2 ('-' :: rest)).map integer
  | '0' :: 'o' :: rest =>
    match parseSigned 8 rest with
    | some i => some (integer i)
    | none => (parseUnsigned 8 rest).map fun n => ("!!int", .uint n)
  | '-' :: '0' :: 'o' :: rest => (parseSigned 8 ('-' :: rest)).map integer
  | _ => none

/-- The tag and value of a scalar text under a resolvable tag, before the tag is checked. -/
def resolveText (tag value : String) : String × Scalar :=
  match hint value with
  | none => ("!!str", .str value)
  | some h =>
    if tag == "!!str" || tag == "!!binary" then ("!!str", .str value)
    else match fixedValue value with
    | some r => r
    | none =>
      let found : Option (String × Scalar) :=
        if h == '.' then (parseFloat value).map fun f => ("!!float", .float f)
        else if h == 'D' || h == 'S' then numeric tag value
        else none
      found.getD ("!!str", .str value)

/-- The tag and value of a scalar with a tag; a problem when the tag asks for a type the text
does not have (an integer under `!!float` becomes a float). -/
def resolve (tag value : String) : Except String (String × Scalar) :=
  let tag := shortTag tag
  if !resolvable tag then .ok (tag, .str value)
  else
    let (rtag, out) := resolveText tag value
    if tag == "" || tag == rtag || tag == "!!str" then .ok (rtag, out)
    else match tag, out with
      | "!!float", .int i => .ok ("!!float", .float (Binary64.ofInt i))
      | _, _ => .error ("yaml: cannot decode " ++ rtag ++ " `" ++ value ++ "` as a " ++ tag)

/-- The tag a plain scalar gets from its text alone. -/
def plainTag (value : String) : String := (resolveText "" value).1

/-- The value of a base64 digit. -/
def base64Value (c : Char) : Option Nat :=
  if 'A' ≤ c && c ≤ 'Z' then some (c.toNat - 'A'.toNat)
  else if 'a' ≤ c && c ≤ 'z' then some (c.toNat - 'a'.toNat + 26)
  else if c.isDigit then some (c.toNat - '0'.toNat + 52)
  else if c == '+' then some 62
  else if c == '/' then some 63
  else none

/-- The bytes of standard base64 text with padding; line breaks are ignored; none when the
text is not base64. -/
def decodeBase64 (s : String) : Option (List UInt8) :=
  let cs := s.toList.filter fun c => c != '\n' && c != '\r'
  go cs [] (cs.length + 1)
where
  go : List Char → List UInt8 → Nat → Option (List UInt8)
    | [], acc, _ => some acc
    | _, _, 0 => none
    | a :: b :: c :: d :: rest, acc, fuel + 1 => do
      let va ← base64Value a
      let vb ← base64Value b
      if c == '=' then
        if d == '=' && rest.isEmpty then some (acc ++ [((va * 4 + vb / 16) % 256).toUInt8])
        else none
      else
        let vc ← base64Value c
        if d == '=' then
          if rest.isEmpty then
            some (acc ++ [((va * 4 + vb / 16) % 256).toUInt8, ((vb * 16 + vc / 4) % 256).toUInt8])
          else none
        else
          let vd ← base64Value d
          go rest (acc ++ [((va * 4 + vb / 16) % 256).toUInt8, ((vb * 16 + vc / 4) % 256).toUInt8,
            ((vc * 64 + vd) % 256).toUInt8]) fuel
    | _, _, _ => none

end Yaml

end DecisionDiagrams
