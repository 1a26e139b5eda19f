/-
Tokens of the formula language, read from the bytes of a text.

* `Token.scan` — splits the bytes into identifiers (`[a-z_][a-z0-9_]*`), the operators
  `~ & | -> <->` and parentheses, skipping spaces, tabs, carriage returns and line feeds; it
  stops at the first byte that starts no token, with a `SyntaxError` at its offset.
* `identifiers` — every maximal run of identifier bytes that starts with an identifier start,
  found anywhere in a text (the text need not be a formula); `variablesOf` keeps the first
  occurrence of each name and `occurrences` counts them, ordered by name.

Positions are byte offsets, so a multi-byte character counts for each of its bytes.
-/
import DecisionDiagrams.Text.Quoted

namespace DecisionDiagrams

/-- The kinds of tokens. -/
inductive TokenKind
  | ident
  | not
  | and
  | or
  | imp
  | iff
  | lparen
  | rparen
  deriving DecidableEq, Repr, Inhabited

/-- How a token kind, or the end of input when `none`, is named in an error message. -/
def TokenKind.describe : Option TokenKind → String
  | none => "end of input"
  | some .ident => "identifier"
  | some .not => "'~'"
  | some .and => "'&'"
  | some .or => "'|'"
  | some .imp => "'->'"
  | some .iff => "'<->'"
  | some .lparen => "'('"
  | some .rparen => "')'"

/-- A token: its kind, its text and the byte offset where it starts. -/
structure Token where
  kind : TokenKind
  text : String
  pos : Nat
  deriving DecidableEq, Repr, Inhabited

/-- Why a text is not a formula. -/
inductive SyntaxReason
  /-- A byte that starts no token. -/
  | badByte (b : UInt8)
  /-- A whole formula was read and a token of this kind follows it. -/
  | trailing (k : TokenKind)
  /-- A parenthesis is not closed; the token found instead, or the end. -/
  | unclosed (found : Option TokenKind)
  /-- An operand was expected; the token found instead, or the end. -/
  | missingOperand (found : Option TokenKind)
  deriving DecidableEq, Repr

/-- A syntax error at a byte offset of the text. -/
structure SyntaxError where
  pos : Nat
  reason : SyntaxReason
  deriving DecidableEq, Repr

namespace SyntaxError

/-- The explanation that follows the position in the message. -/
def detail : SyntaxReason → String
  | .badByte b => "unexpected character " ++ Text.quoteChar (Char.ofNat b.toNat)
  | .trailing k => "unexpected " ++ TokenKind.describe (some k) ++ " after expression"
  | .unclosed k => "expected ')', found " ++ TokenKind.describe k
  | .missingOperand k => "expected identifier or '(', found " ++ TokenKind.describe k

/-- The full message of a syntax error. -/
def message (e : SyntaxError) : String :=
  "syntax error at position " ++ toString e.pos ++ ": " ++ detail e.reason

end SyntaxError

namespace Token

/-- A byte that may start an identifier: `_` or a lowercase letter. -/
def isIdentStart (b : UInt8) : Bool :=
  b == 95 || (97 ≤ b && b ≤ 122)

/-- A byte that may continue an identifier: a start byte or a digit. -/
def isIdentPart (b : UInt8) : Bool :=
  isIdentStart b || (48 ≤ b && b ≤ 57)

/-- The blanks between tokens: space, tab, line feed and carriage return. -/
def isBlank (b : UInt8) : Bool :=
  b == 32 || b == 9 || b == 10 || b == 13

/-- The text of ASCII bytes. -/
def asciiText (bs : List UInt8) : String :=
  String.ofList (bs.map fun b => Char.ofNat b.toNat)

/-- The operator or parenthesis that starts with byte `b` followed by `rest`: its kind, its
text and the bytes after it. -/
def symbol (b : UInt8) (rest : List UInt8) : Option (TokenKind × String × List UInt8) :=
  if b == 126 then some (.not, "~", rest)
  else if b == 38 then some (.and, "&", rest)
  else if b == 124 then some (.or, "|", rest)
  else if b == 40 then some (.lparen, "(", rest)
  else if b == 41 then some (.rparen, ")", rest)
  else if b == 45 then
    match rest with
    | 62 :: r => some (.imp, "->", r)
    | _ => none
  else if b == 60 then
    match rest with
    | 45 :: 62 :: r => some (.iff, "<->", r)
    | _ => none
  else none

theorem length_dropWhile_le (p : UInt8 → Bool) (l : List UInt8) :
    (l.dropWhile p).length ≤ l.length := by
  induction l with
  | nil => simp
  | cons a t ih =>
    simp only [List.dropWhile]
    split
    · simp only [List.length_cons]; omega
    · simp

theorem symbol_rest_length {b : UInt8} {rest : List UInt8} {k : TokenKind} {s : String}
    {r : List UInt8} (h : symbol b rest = some (k, s, r)) : r.length ≤ rest.length := by
  unfold symbol at h
  repeat' split at h
  all_goals first
    | (simp only [Option.some.injEq, Prod.mk.injEq] at h; obtain ⟨-, -, rfl⟩ := h; simp; omega)
    | (simp only [Option.some.injEq, Prod.mk.injEq] at h; obtain ⟨-, -, rfl⟩ := h; simp)
    | simp at h

/-- The tokens of the bytes `bs`, which start at offset `pos` of the text. -/
def scan (pos : Nat) (bs : List UInt8) : Except SyntaxError (List Token) :=
  match bs with
  | [] => .ok []
  | b :: rest =>
    if isBlank b then scan (pos + 1) rest
    else if isIdentStart b then
      let body := rest.takeWhile isIdentPart
      match scan (pos + 1 + body.length) (rest.dropWhile isIdentPart) with
      | .ok ts => .ok (⟨.ident, asciiText (b :: body), pos⟩ :: ts)
      | .error e => .error e
    else
      match h : symbol b rest with
      | some (k, s, r) =>
        have : r.length ≤ rest.length := symbol_rest_length h
        match scan (pos + s.length) r with
        | .ok ts => .ok (⟨k, s, pos⟩ :: ts)
        | .error e => .error e
      | none => .error ⟨pos, .badByte b⟩
termination_by bs.length
decreasing_by
  all_goals simp only [List.length_cons]
  · omega
  · have := length_dropWhile_le isIdentPart rest; omega
  · omega

end Token

/-- Every identifier of a byte sequence, read from left to right; a run of identifier bytes
counts from its first start byte, so `9ab` holds `ab`. -/
def identifierBytes (bs : List UInt8) : List (List UInt8) :=
  match bs with
  | [] => []
  | b :: rest =>
    if Token.isIdentStart b then
      (b :: rest.takeWhile Token.isIdentPart) :: identifierBytes (rest.dropWhile Token.isIdentPart)
    else identifierBytes rest
termination_by bs.length
decreasing_by
  all_goals simp only [List.length_cons]
  · have := Token.length_dropWhile_le Token.isIdentPart rest; omega
  · omega

/-- Every identifier of a text, from left to right, with repetitions. -/
def identifiers (text : String) : List String :=
  (identifierBytes text.toUTF8.toList).map Token.asciiText

/-- The first occurrence of each element, in order. -/
def firstOccurrences (xs : List String) : List String :=
  xs.foldl (fun acc x => if acc.contains x then acc else acc ++ [x]) []

/-- The distinct identifiers of a text, in the order of their first occurrence. -/
def variablesOf (text : String) : List String :=
  firstOccurrences (identifiers text)

/-- How often each identifier occurs in a text, ordered by name. -/
def occurrences (text : String) : List (String × Nat) :=
  let ids := identifiers text
  let counted := (firstOccurrences ids).map fun x => (x, ids.count x)
  counted.mergeSort fun a b => decide (a.1 ≤ b.1)

end DecisionDiagrams
