/-
Byte strings read as UTF-8.

Settings may hold any bytes (a YAML `!!binary` value decodes to bytes that need not be UTF-8),
so they are kept as byte lists and read as UTF-8 only where they are shown.

* `Text.pieces` — the bytes read from the left: each valid encoding of a character gives that
  character; a byte that does not start one gives itself as a stray byte, and reading goes on
  with the next byte. An encoding is valid when its lead byte announces its length, its
  continuation bytes lie in `0x80`–`0xBF` (narrower after `E0`, `ED`, `F0` and `F4`, so that
  overlong forms, surrogates and code points above U+10FFFF are refused), and all of them are
  there.
* `Text.lossy` — the text of the bytes, with U+FFFD for each stray byte.
* `Text.bytesOf` — the UTF-8 bytes of a text; `lossy (bytesOf s) = s`.
-/

namespace DecisionDiagrams.Text

/-- A sequence of bytes, not necessarily UTF-8. -/
abbrev Bytes := List UInt8

/-- The UTF-8 bytes of a text. -/
def bytesOf (s : String) : Bytes := s.toUTF8.toList

/-- A piece of a byte sequence read as UTF-8: a character, or a byte that starts no valid
encoding. -/
inductive Piece where
  | char (c : Char)
  | stray (b : UInt8)
  deriving DecidableEq, Repr

/-- Whether `b` may continue an encoding. -/
def isContinuation (b : UInt8) : Bool := 0x80 ≤ b && b ≤ 0xBF

/-- Whether `c` may follow the lead byte `b` as the first continuation byte. -/
def secondFits (b c : UInt8) : Bool :=
  if b == 0xE0 then 0xA0 ≤ c && c ≤ 0xBF
  else if b == 0xED then 0x80 ≤ c && c ≤ 0x9F
  else if b == 0xF0 then 0x90 ≤ c && c ≤ 0xBF
  else if b == 0xF4 then 0x80 ≤ c && c ≤ 0x8F
  else isContinuation c

/-- The length of the encoding a byte leads: 1 for ASCII, 2 to 4 for a lead byte, and 0 for a
byte that cannot lead. -/
def leadLength (b : UInt8) : Nat :=
  if b < 0x80 then 1
  else if b < 0xC2 then 0
  else if b < 0xE0 then 2
  else if b < 0xF0 then 3
  else if b < 0xF5 then 4
  else 0

/-- The low `k` bits of a byte. -/
def lowBits (k : Nat) (b : UInt8) : Nat := b.toNat % Nat.pow 2 k

/-- The first piece of a byte sequence that starts with `b`, and the bytes after that piece. -/
def step (b : UInt8) (rest : Bytes) : Piece × Bytes :=
  match leadLength b, rest with
  | 1, _ => (.char (Char.ofNat b.toNat), rest)
  | 2, c1 :: r =>
    if secondFits b c1 then (.char (Char.ofNat (lowBits 5 b * 64 + lowBits 6 c1)), r)
    else (.stray b, rest)
  | 3, c1 :: c2 :: r =>
    if secondFits b c1 && isContinuation c2 then
      (.char (Char.ofNat (lowBits 4 b * 4096 + lowBits 6 c1 * 64 + lowBits 6 c2)), r)
    else (.stray b, rest)
  | 4, c1 :: c2 :: c3 :: r =>
    if secondFits b c1 && isContinuation c2 && isContinuation c3 then
      (.char (Char.ofNat (lowBits 3 b * 262144 + lowBits 6 c1 * 4096 + lowBits 6 c2 * 64 +
        lowBits 6 c3)), r)
    else (.stray b, rest)
  | _, _ => (.stray b, rest)

/-- A step never gives back more bytes than followed its first byte. -/
theorem step_length (b : UInt8) (rest : Bytes) : (step b rest).2.length ≤ rest.length := by
  unfold step
  split
  all_goals (try split)
  all_goals (try simp only [List.length_cons])
  all_goals omega

/-- The pieces of a byte sequence. -/
def pieces (bs : Bytes) : List Piece :=
  match bs with
  | [] => []
  | b :: rest => (step b rest).1 :: pieces (step b rest).2
termination_by bs.length
decreasing_by exact Nat.lt_succ_of_le (step_length b rest)

/-- The text of a byte sequence, with U+FFFD for each stray byte. -/
def lossy (bs : Bytes) : String :=
  String.ofList ((pieces bs).map fun
    | .char c => c
    | .stray _ => '\uFFFD')

end DecisionDiagrams.Text
