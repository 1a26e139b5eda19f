/-
Reading JSON request bodies.

A body is read up to the end of its first value: blanks before it are skipped, and what follows
it is not looked at. The grammar is strict: no trailing commas, no leading zeros, no control
characters in strings, and only the escapes `\" \\ \/ \b \f \n \r \t \uXXXX`. A `\u` escape
of a surrogate pair gives one character; a surrogate on its own gives U+FFFD.

No request field is a number, so numbers are checked but only their integer part is kept.

* `Json.readFirst` — the first value of a text, or why there is none.
-/
import DecisionDiagrams.Json.Basic

namespace DecisionDiagrams

namespace Json

/-- Blanks between tokens. -/
def isSpace (c : Char) : Bool :=
  c = ' ' ∨ c = '\t' ∨ c = '\n' ∨ c = '\r'

/-- The value of four hexadecimal digits, if they are. -/
def hexValue? (cs : List Char) : Option Nat :=
  if cs.length = 4 ∧ cs.all Char.isHexDigit then
    some (cs.foldl (fun n c =>
      n * 16 + (if c.isDigit then c.toNat - '0'.toNat else c.toLower.toNat - 'a'.toNat + 10)) 0)
  else none

/-- The characters of a string literal after its opening quote: the text and what follows the
closing quote. -/
def stringBody : List Char → List Char → Except String (String × List Char)
  | [], _ => .error "unexpected end of JSON input"
  | '"' :: rest, acc => .ok (String.ofList acc.reverse, rest)
  | '\\' :: c :: rest, acc =>
    match c with
    | '"' => stringBody rest ('"' :: acc)
    | '\\' => stringBody rest ('\\' :: acc)
    | '/' => stringBody rest ('/' :: acc)
    | 'b' => stringBody rest (Char.ofNat 8 :: acc)
    | 'f' => stringBody rest (Char.ofNat 12 :: acc)
    | 'n' => stringBody rest ('\n' :: acc)
    | 'r' => stringBody rest ('\r' :: acc)
    | 't' => stringBody rest ('\t' :: acc)
    | 'u' =>
      match hexValue? (rest.take 4) with
      | none => .error "invalid character in string escape code"
      | some hi =>
        let after := rest.drop 4
        if 0xD800 ≤ hi ∧ hi < 0xDC00 then
          match _hm : rest.drop 4 with
          | '\\' :: 'u' :: more =>
            match hexValue? (more.take 4) with
            | some lo =>
              if 0xDC00 ≤ lo ∧ lo < 0xE000 then
                stringBody (more.drop 4)
                  (Char.ofNat (0x10000 + (hi - 0xD800) * 0x400 + (lo - 0xDC00)) :: acc)
              else stringBody after ('�' :: acc)
            | none => stringBody after ('�' :: acc)
          | _ => stringBody after ('�' :: acc)
        else if 0xDC00 ≤ hi ∧ hi < 0xE000 then stringBody after ('�' :: acc)
        else stringBody after (Char.ofNat hi :: acc)
    | _ => .error "invalid character in string escape code"
  | c :: rest, acc =>
    if c.toNat < 0x20 then .error "invalid character in string literal"
    else stringBody rest (c :: acc)
termination_by cs => cs.length
decreasing_by
  all_goals first
    | (have hl := congrArg List.length _hm; simp at hl; simp; omega)
    | (simp_all; try omega)

/-- A number: `-? (0 | [1-9][0-9]*) (. [0-9]+)? ([eE] [+-]? [0-9]+)?`, as its integer part. -/
def number (cs : List Char) : Except String (Json × List Char) :=
  let (neg, body) := match cs with
    | '-' :: r => (true, r)
    | r => (false, r)
  let whole := match body with
    | '0' :: _ => ['0']
    | _ => body.takeWhile Char.isDigit
  if whole.isEmpty then .error "invalid character in numeric literal"
  else
    let rest := body.drop whole.length
    let fracOk : Option (List Char) := match rest with
      | '.' :: r =>
        let ds := r.takeWhile Char.isDigit
        if ds.isEmpty then none else some (r.drop ds.length)
      | r => some r
    match fracOk with
    | none => .error "invalid character after decimal point in numeric literal"
    | some rest =>
      let expOk : Option (List Char) := match rest with
        | 'e' :: r | 'E' :: r =>
          let r := match r with
            | '+' :: r' | '-' :: r' => r'
            | r' => r'
          let ds := r.takeWhile Char.isDigit
          if ds.isEmpty then none else some (r.drop ds.length)
        | r => some r
      match expOk with
      | none => .error "invalid character in exponent of numeric literal"
      | some rest =>
        let n : Int := whole.foldl (fun n c => n * 10 + (c.toNat - '0'.toNat : Nat)) 0
        .ok (.num (if neg then -n else n), rest)

/-- A literal word: what follows it, if the text starts with it. -/
def literal (word : String) (cs : List Char) : Option (List Char) :=
  if word.toList.isPrefixOf cs then some (cs.drop word.length) else none

mutual

/-- A value after optional blanks, with what follows it. -/
def value : Nat → List Char → Except String (Json × List Char)
  | 0, _ => .error "exceeded max depth"
  | fuel + 1, cs =>
    match cs.dropWhile isSpace with
    | [] => .error "unexpected end of JSON input"
    | '{' :: rest => members fuel (rest.dropWhile isSpace) []
    | '[' :: rest => elements fuel (rest.dropWhile isSpace) []
    | '"' :: rest => (stringBody rest []).map fun (s, r) => (.str s, r)
    | cs@(c :: _) =>
      if c = '-' ∨ c.isDigit then number cs
      else match literal "true" cs, literal "false" cs, literal "null" cs with
        | some r, _, _ => .ok (.bool true, r)
        | _, some r, _ => .ok (.bool false, r)
        | _, _, some r => .ok (.null, r)
        | _, _, _ => .error "invalid character looking for beginning of value"

/-- The elements of an array after its opening bracket and blanks. -/
def elements : Nat → List Char → List Json → Except String (Json × List Char)
  | 0, _, _ => .error "exceeded max depth"
  | fuel + 1, cs, acc =>
    match cs with
    | ']' :: rest => if acc.isEmpty then .ok (.arr [], rest)
      else .error "invalid character looking for beginning of value"
    | _ => do
      let (v, rest) ← value fuel cs
      match rest.dropWhile isSpace with
      | ',' :: more =>
        match more.dropWhile isSpace with
        | ']' :: _ => .error "invalid character looking for beginning of value"
        | more => elements fuel more (v :: acc)
      | ']' :: more => .ok (.arr (v :: acc).reverse, more)
      | [] => .error "unexpected end of JSON input"
      | _ => .error "invalid character after array element"

/-- The members of an object after its opening brace and blanks. -/
def members : Nat → List Char → List (String × Json) → Except String (Json × List Char)
  | 0, _, _ => .error "exceeded max depth"
  | fuel + 1, cs, acc =>
    match cs with
    | '}' :: rest => if acc.isEmpty then .ok (.obj [], rest)
      else .error "invalid character looking for beginning of object key string"
    | '"' :: rest => do
      let (k, rest) ← stringBody rest []
      match rest.dropWhile isSpace with
      | ':' :: more =>
        let (v, rest) ← value fuel more
        match rest.dropWhile isSpace with
        | ',' :: more =>
          match more.dropWhile isSpace with
          | more@('"' :: _) => members fuel more ((k, v) :: acc)
          | [] => .error "unexpected end of JSON input"
          | _ => .error "invalid character looking for beginning of object key string"
        | '}' :: more => .ok (.obj ((k, v) :: acc).reverse, more)
        | [] => .error "unexpected end of JSON input"
        | _ => .error "invalid character after object key:value pair"
      | [] => .error "unexpected end of JSON input"
      | _ => .error "invalid character after object key"
    | [] => .error "unexpected end of JSON input"
    | _ => .error "invalid character looking for beginning of object key string"

end

/-- The first value of a text, read up to its end; what follows is ignored. -/
def readFirst (text : String) : Except String Json :=
  let cs := text.toList
  (value (cs.length + 1) cs).map (·.1)

end Json

end DecisionDiagrams
