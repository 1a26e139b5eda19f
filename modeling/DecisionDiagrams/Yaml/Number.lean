/-
Numbers in YAML scalars: integers in bases 2, 8, 10 and 16, and decimal floating-point numbers
rounded to binary64.

* `parseUnsigned` / `parseSigned` — integers below 2^64, and in the signed 64-bit range; with
  base `0` the base comes from a prefix (`0b`, `0o`, `0x`, or a leading `0` for octal).
* `Binary64` — a binary64 value: a finite value `±m·2^e`, an infinity, or not a number.
* `Binary64.round` — the binary64 value nearest to `±d·10^k`, ties to even; an infinity when the
  value lies half a unit in the last place or more above the largest finite value.
* `parseDecimal` — a decimal number: digits with at most one `.`, an optional exponent, and
  `_` between digits; answers its sign, digits and power of ten.
* `Binary64.toInt64` — conversion to a 64-bit integer by truncation; a value out of range and
  not a number give the smallest 64-bit integer.
-/

namespace DecisionDiagrams

namespace Yaml

/-- The value of a digit in bases up to 36: `0`–`9`, then letters of either case; 99 for other
characters. -/
def digitValue (c : Char) : Nat :=
  if c.isDigit then c.toNat - '0'.toNat
  else if c.isLower then c.toNat - 'a'.toNat + 10
  else if c.isUpper then c.toNat - 'A'.toNat + 10
  else 99

/-- The digits of `cs` in `base`, added to `acc`; none for a character outside the base or a
value of 2^64 or more. -/
def digitsValue (base : Nat) : List Char → Nat → Option Nat
  | [], acc => some acc
  | c :: cs, acc =>
    let d := digitValue c
    if d < base ∧ acc * base + d < Nat.pow 2 64 then digitsValue base cs (acc * base + d)
    else none

/-- An unsigned integer below 2^64 in `base`; with base `0`, the base comes from a prefix:
`0b`, `0o` and `0x` (of either case, followed by digits), else a leading `0` for octal. -/
def parseUnsigned (base : Nat) (cs : List Char) : Option Nat :=
  if cs.isEmpty then none
  else if base != 0 then digitsValue base cs 0
  else match cs with
    | '0' :: c :: d :: rest =>
      if c == 'b' || c == 'B' then digitsValue 2 (d :: rest) 0
      else if c == 'o' || c == 'O' then digitsValue 8 (d :: rest) 0
      else if c == 'x' || c == 'X' then digitsValue 16 (d :: rest) 0
      else digitsValue 8 (c :: d :: rest) 0
    | '0' :: rest => digitsValue 8 rest 0
    | _ => digitsValue 10 cs 0

/-- A signed integer in the 64-bit range: an optional sign, then an unsigned integer. -/
def parseSigned (base : Nat) (cs : List Char) : Option Int :=
  let (negative, rest) := match cs with
    | '+' :: r => (false, r)
    | '-' :: r => (true, r)
    | _ => (false, cs)
  match parseUnsigned base rest with
  | none => none
  | some u =>
    if negative then (if u ≤ Nat.pow 2 63 then some (-(u : Int)) else none)
    else if u < Nat.pow 2 63 then some u else none

/-- A binary64 value: `±mantissa·2^exponent`, an infinity, or not a number. -/
inductive Binary64 where
  | finite (negative : Bool) (mantissa : Nat) (exponent : Int)
  | infinite (negative : Bool)
  | nan
  deriving DecidableEq, Repr, Inhabited

/-- The number of binary digits of a positive number. -/
def bitLength (n : Nat) : Nat := Nat.log2 n + 1

/-- Two to an integer power, as the numerator and denominator of a fraction. -/
def powerOfTwo (e : Int) : Nat × Nat :=
  if e ≥ 0 then (Nat.pow 2 e.toNat, 1) else (1, Nat.pow 2 e.natAbs)

/-- The quotient and remainder of `num·2^(-k)` by `den`, with the divisor of the remainder. -/
def scaledQuotient (num den : Nat) (k : Int) : Nat × Nat × Nat :=
  let (up, down) := powerOfTwo (-k)
  let n := num * up
  let d := den * down
  (n / d, n % d, d)

/-- The binary64 value nearest to `num / den` (both positive), ties to even. -/
def roundFraction (negative : Bool) (num den : Nat) : Binary64 :=
  let estimate : Int := (bitLength num : Int) - (bitLength den : Int) - 53
  let k := if (scaledQuotient num den estimate).1 ≥ Nat.pow 2 53 then estimate + 1 else estimate
  let k := max k (-1074)
  let (q, r, d) := scaledQuotient num den k
  let q := if 2 * r > d ∨ (2 * r = d ∧ q % 2 = 1) then q + 1 else q
  let (q, k) := if q = Nat.pow 2 53 then (Nat.pow 2 52, k + 1) else (q, k)
  if k > 971 then .infinite negative else .finite negative q k

/-- The number of decimal digits of a positive number. -/
def decimalLength (n : Nat) : Nat := (toString n).length

/-- The binary64 value nearest to `±digits·10^power`, ties to even. -/
def Binary64.round (negative : Bool) (digits : Nat) (power : Int) : Binary64 :=
  if digits = 0 then .finite negative 0 0
  else if power + decimalLength digits > 310 then .infinite negative
  else if power + decimalLength digits < -330 then .finite negative 0 0
  else if power ≥ 0 then roundFraction negative (digits * Nat.pow 10 power.toNat) 1
  else roundFraction negative digits (Nat.pow 10 power.natAbs)

/-- The binary64 value nearest to an integer. -/
def Binary64.ofInt (i : Int) : Binary64 := Binary64.round (i < 0) i.natAbs 0

/-- Whether a value is at most 2^63: true of every negative value and of minus infinity. -/
def Binary64.atMostTwoPow63 : Binary64 → Bool
  | .finite true _ _ => true
  | .finite false m e =>
    let (up, down) := powerOfTwo e
    m * up ≤ Nat.pow 2 63 * down
  | .infinite negative => negative
  | .nan => false

/-- Conversion to a 64-bit integer by truncation toward zero; values whose truncation is out
of range, infinities and not a number give the smallest 64-bit integer. -/
def Binary64.toInt64 : Binary64 → Int
  | .finite negative m e =>
    let (up, down) := powerOfTwo e
    let t : Int := if negative then -((m * up / down : Nat) : Int) else ((m * up / down : Nat) : Int)
    if -(Int.pow 2 63) ≤ t ∧ t < Int.pow 2 63 then t else -(Int.pow 2 63)
  | _ => -(Int.pow 2 63)

/-- Whether the underscores of a number stand between digits: each follows a digit (or a base
prefix) and is followed by one. -/
def underscoresOk (cs : List Char) : Bool :=
  let cs := match cs with
    | '+' :: r => r
    | '-' :: r => r
    | _ => cs
  let (saw, cs) := match cs with
    | '0' :: c :: r =>
      if c == 'b' || c == 'B' || c == 'o' || c == 'O' || c == 'x' || c == 'X' then ('0', r)
      else ('^', cs)
    | _ => ('^', cs)
  let saw := cs.foldl (fun saw c =>
    if saw == '!' then '!'
    else if c.isDigit then '0'
    else if c == '_' then (if saw == '0' then '_' else '!')
    else if saw == '_' then '!'
    else '?') saw
  saw != '_' && saw != '!'

/-- The digits of a decimal number and the position of its point: the digits read, the number
of them after the point, and whether a point and a digit were seen; stops at the first other
character. -/
def mantissaDigits : List Char → Nat → Nat → Bool → Bool → Bool →
    (Nat × Nat × Bool × List Char)
  | [], d, after, _, _, seen => (d, after, seen, [])
  | c :: cs, d, after, dot, underscore, seen =>
    if c == '_' then mantissaDigits cs d after dot true seen
    else if c == '.' then
      if dot then (d, after, seen, c :: cs) else mantissaDigits cs d after true underscore seen
    else if c.isDigit then
      mantissaDigits cs (10 * d + (c.toNat - '0'.toNat)) (if dot then after + 1 else after) dot
        underscore true
    else (d, after, seen, c :: cs)

/-- A decimal number: an optional sign, digits with at most one `.` (at least one digit), then
an optional exponent (`e` or `E`, an optional sign, digits), with `_` only between digits;
answers the sign, the digits and the power of ten. -/
def parseDecimal (cs : List Char) : Option (Bool × Nat × Int) :=
  let (negative, rest) := match cs with
    | '+' :: r => (false, r)
    | '-' :: r => (true, r)
    | _ => (false, cs)
  let (d, after, seen, rest) := mantissaDigits rest 0 0 false false false
  if !seen then none
  else
    let exponent : Option Int := match rest with
      | [] => some 0
      | e :: more =>
        if e == 'e' || e == 'E' then
          let (eNegative, ds) := match more with
            | '+' :: r => (false, r)
            | '-' :: r => (true, r)
            | _ => (false, more)
          match ds with
          | c :: _ =>
            if c.isDigit && ds.all (fun c => c.isDigit || c == '_') then
              let v := (ds.filter Char.isDigit).foldl (fun v c => 10 * v + (c.toNat - '0'.toNat)) 0
              some (if eNegative then -(v : Int) else v)
            else none
          | [] => none
        else none
    match exponent with
    | none => none
    | some e =>
      if cs.contains '_' && !underscoresOk cs then none
      else some (negative, d, e - after)

/-- The binary64 value of a decimal number, when it is finite. -/
def parseFloat (s : String) : Option Binary64 :=
  match parseDecimal s.toList with
  | none => none
  | some (negative, d, e) =>
    match Binary64.round negative d e with
    | .infinite _ => none
    | f => some f

end Yaml

end DecisionDiagrams
