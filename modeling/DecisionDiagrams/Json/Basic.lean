/-
JSON values and their text.

* `Json` — null, booleans, integers, strings, arrays, and objects whose members keep the order in
  which they were given (records write their fields in declaration order, maps sorted by key).
* `Json.compact` — the text without blanks.
* `Json.pretty` — one member or element per line, indented by two spaces per level; empty arrays
  and objects stay `[]` and `{}`.

Strings escape the quote, the backslash and every character below U+0020 (`\b \f \n \r \t` by
letter, the others as `\u00XX`), and U+2028 and U+2029; with `html` set, `<`, `>` and `&` are
written `\u003c`, `\u003e` and `\u0026` as well.
-/

namespace DecisionDiagrams

/-- A JSON value. -/
inductive Json
  | null
  | bool (b : Bool)
  | num (n : Int)
  | str (s : String)
  | arr (xs : List Json)
  | obj (kvs : List (String × Json))
  deriving Repr, Inhabited

namespace Json

/-- The four hexadecimal digits of a code point below U+10000. -/
def hex4 (n : Nat) : String :=
  let ds := Nat.toDigits 16 n
  String.ofList (List.replicate (4 - ds.length) '0' ++ ds)

/-- One character of a string literal. -/
def escapeChar (html : Bool) (c : Char) : String :=
  if c = '"' then "\\\""
  else if c = '\\' then "\\\\"
  else if c = '\n' then "\\n"
  else if c = '\r' then "\\r"
  else if c = '\t' then "\\t"
  else if c = '\x08' then "\\b"
  else if c = '\x0c' then "\\f"
  else if c.toNat < 0x20 then "\\u" ++ hex4 c.toNat
  else if c.toNat = 0x2028 ∨ c.toNat = 0x2029 then "\\u" ++ hex4 c.toNat
  else if html && (c = '<' || c = '>' || c = '&') then "\\u" ++ hex4 c.toNat
  else String.singleton c

/-- A string literal. -/
def quote (html : Bool) (s : String) : String :=
  "\"" ++ String.join (s.toList.map (escapeChar html)) ++ "\""

/-- The text of a value without any blank. -/
def compact (html : Bool) : Json → String
  | .null => "null"
  | .bool b => if b then "true" else "false"
  | .num n => toString n
  | .str s => quote html s
  | .arr xs => "[" ++ ",".intercalate (xs.map (compact html)) ++ "]"
  | .obj kvs =>
    "\x7b" ++ ",".intercalate (kvs.attach.map fun ⟨(k, v), _⟩ =>
      quote html k ++ ":" ++ compact html v) ++ "\x7d"
decreasing_by
  all_goals first
    | (have hm := List.sizeOf_lt_of_mem ‹_ ∈ kvs›; simp_all; omega)
    | (simp_wf; have := List.sizeOf_lt_of_mem ‹_ ∈ xs›; omega)

/-- The text of a value with one member or element per line; `pad` is the indentation of the
line the value starts on. -/
def pretty (html : Bool) (pad : String) : Json → String
  | .arr [] => "[]"
  | .obj [] => "\x7b\x7d"
  | .arr xs =>
    let inner := pad ++ "  "
    "[\n" ++ ",\n".intercalate (xs.map fun x => inner ++ pretty html inner x) ++ "\n" ++ pad ++ "]"
  | .obj kvs =>
    let inner := pad ++ "  "
    "\x7b\n" ++ ",\n".intercalate (kvs.attach.map fun ⟨(k, v), _⟩ =>
      inner ++ quote html k ++ ": " ++ pretty html inner v) ++ "\n" ++ pad ++ "\x7d"
  | v => compact html v
decreasing_by
  all_goals first
    | (have hm := List.sizeOf_lt_of_mem ‹_ ∈ kvs›; simp_all; omega)
    | (simp_wf; have := List.sizeOf_lt_of_mem ‹_ ∈ xs›; omega)

/-- A value, or null when absent. -/
def ofOption {α : Type} (f : α → Json) : Option α → Json
  | none => .null
  | some a => f a

/-- A list of strings. -/
def strs (xs : List String) : Json :=
  .arr (xs.map .str)

/-- The member of an object with the given key, if the value is an object that has it. -/
def field? (j : Json) (k : String) : Option Json :=
  match j with
  | .obj kvs => (kvs.find? fun kv => kv.1 == k).map (·.2)
  | _ => none

end Json

end DecisionDiagrams
