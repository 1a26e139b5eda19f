/-
Log levels.

A level is a 64-bit integer; four of them have names: `DEBUG` (-4), `INFO` (0), `WARN` (4) and
`ERROR` (8). A level is written as a name, read without regard to case, optionally followed by
a signed decimal offset, as in `warn+2` (6) or `info-4` (-4). The empty text is `INFO` and
`warning` means `warn`. A level text is a byte sequence: bytes that are not UTF-8 never make a
name, and messages show them in hex.

* `Level.readOffset` — decimal integers as the offset reader accepts them, with its two
  failures: a text that is not a number, and a number out of the 64-bit range.
* `Level.parse` — a level from its text, or the message explaining the failure.
* `Level.name` — the written form of a level: the nearest named level at or below it (`DEBUG`
  for everything below `INFO`), followed by the signed difference when it is not zero.
-/
import DecisionDiagrams.Text.Quoted

namespace DecisionDiagrams

namespace Level

/-- The named levels. -/
def debug : Int := -4
/-- `INFO`, the default level. -/
def info : Int := 0
/-- `WARN`. -/
def warn : Int := 4
/-- `ERROR`. -/
def error : Int := 8

/-- A 64-bit two's complement integer as the mathematical integer it stands for. -/
def wrap64 (n : Int) : Int :=
  Int.bmod n (Nat.pow 2 64)

/-- The ways reading a decimal integer fails. -/
inductive NumberProblem
  | notNumber
  | outOfRange
  deriving DecidableEq, Repr

/-- The text of a failure to read `s`. -/
def NumberProblem.message (p : NumberProblem) (s : Text.Bytes) : String :=
  "strconv.Atoi: parsing " ++ Text.quoteBytes s ++ ": " ++
    (match p with
      | .notNumber => "invalid syntax"
      | .outOfRange => "value out of range")

/-- The largest unsigned 64-bit integer. -/
def maxUnsigned : Nat := Nat.pow 2 64 - 1

/-- Whether a byte is an ASCII decimal digit. -/
def isDigitByte (b : UInt8) : Bool := 0x30 ≤ b && b ≤ 0x39

/-- Reads decimal digits from the left into an unsigned 64-bit integer: a byte that is not a
digit fails as soon as it is reached, and so does a value that outgrows 64 bits. -/
def readDigits (acc : Nat) : Text.Bytes → Except NumberProblem Nat
  | [] => .ok acc
  | b :: rest =>
    if isDigitByte b then
      let v := acc * 10 + (b.toNat - 0x30)
      if v > maxUnsigned then .error .outOfRange else readDigits v rest
    else .error .notNumber

/-- A signed decimal integer in the 64-bit range. Short texts (below 19 bytes) are checked
for digits as a whole; longer ones are read from the left, so that a value outgrowing 64 bits
before a stray byte is out of range rather than malformed. -/
def readOffset (s : Text.Bytes) : Except NumberProblem Int :=
  let (neg, digits) := match s with
    | 0x2D :: rest => (true, rest)
    | 0x2B :: rest => (false, rest)
    | _ => (false, s)
  if digits.isEmpty then .error .notNumber
  else if s.length < 19 then
    if digits.all isDigitByte then
      match readDigits 0 digits with
      | .ok n => .ok (if neg then -(n : Int) else n)
      | .error e => .error e
    else .error .notNumber
  else
    match readDigits 0 digits with
    | .error e => .error e
    | .ok n =>
      if !neg ∧ n ≥ Nat.pow 2 63 then .error .outOfRange
      else if neg ∧ n > Nat.pow 2 63 then .error .outOfRange
      else .ok (if neg then -(n : Int) else n)

/-- The upper case of a character for level names: ASCII letters, and the dotless
`ı`, whose upper case is `I`. -/
def upperChar (c : Char) : Char :=
  if c = 'ı' then 'I' else c.toUpper

/-- The lower case of a character as far as `warning` goes: ASCII letters, and the dotted `İ`,
whose lower case is `i`. -/
def lowerChar (c : Char) : Char :=
  if c = 'İ' then 'i' else c.toLower

/-- The level of a name. -/
def ofName (name : Text.Bytes) : Option Int :=
  match String.ofList ((Text.lossy name).toList.map upperChar) with
  | "DEBUG" => some debug
  | "INFO" => some info
  | "WARN" => some warn
  | "ERROR" => some error
  | _ => none

/-- Whether a byte is a sign, `+` or `-`. -/
def isSignByte (b : UInt8) : Bool := b == 0x2B || b == 0x2D

/-- A level from a name and an optional offset starting at the first sign. -/
def ofText (s : Text.Bytes) : Except String Int :=
  let name := s.takeWhile fun b => !isSignByte b
  let rest := s.dropWhile fun b => !isSignByte b
  let offset : Except String Int :=
    if rest.isEmpty then .ok 0
    else match readOffset rest with
      | .ok n => .ok n
      | .error p => .error (p.message rest)
  match offset with
  | .error e => .error e
  | .ok off =>
    match ofName name with
    | some base => .ok (wrap64 (base + off))
    | none => .error "unknown name"

/-- A level from its text; the empty text is `INFO`, and `warning` means `warn`. -/
def parse (s : Text.Bytes) : Except String Int :=
  let low := String.ofList ((Text.lossy s).toList.map lowerChar)
  if low.isEmpty then .ok info
  else
    let s := if low = "warning" then Text.bytesOf "warn" else s
    match ofText s with
    | .ok v => .ok v
    | .error e =>
      .error ("unknown log level " ++ Text.quoteBytes s ++ ": slog: level string " ++
        Text.quoteBytes s ++ ": " ++ e)

/-- A name followed by a signed difference when it is not zero. -/
def withOffset (base : String) (d : Int) : String :=
  if d = 0 then base
  else if d > 0 then base ++ "+" ++ toString d
  else base ++ toString d

/-- The written form of a level. -/
def name (l : Int) : String :=
  if l < info then withOffset "DEBUG" (l - debug)
  else if l < warn then withOffset "INFO" (l - info)
  else if l < error then withOffset "WARN" (l - warn)
  else withOffset "ERROR" (l - error)

end Level

end DecisionDiagrams
