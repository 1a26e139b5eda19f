/-
Timestamps in YAML scalars.

A plain scalar that starts with four digits and `-` is a timestamp when it reads as one of

* `YYYY-M-D` — a date;
* `YYYY-M-D h:m:s` with an optional fraction of a second (`.` or `,` and digits), the date and
  time separated by one or more spaces;
* `YYYY-M-DTh:m:s` or `YYYY-M-Dth:m:s`, with an optional fraction, then `Z` or an offset
  `±hh:mm`.

Months, days, hours, minutes and seconds take one or two digits (two when two are there);
months run from 1 to 12, days up to the length of the month (February has 29 days in leap
years), hours below 24, minutes and seconds below 60; an offset has two-digit hours up to 24
and minutes up to 60. Nothing may follow.
-/

namespace DecisionDiagrams

namespace Yaml

/-- One or two digits at the front: their value and the rest. -/
def twoDigits : List Char → Option (Nat × List Char)
  | a :: b :: rest =>
    if !a.isDigit then none
    else if b.isDigit then some (10 * (a.toNat - 48) + (b.toNat - 48), rest)
    else some (a.toNat - 48, b :: rest)
  | [a] => if a.isDigit then some (a.toNat - 48, []) else none
  | [] => none

/-- The character `c` at the front: the rest. -/
def literal (c : Char) : List Char → Option (List Char)
  | d :: rest => if c == d then some rest else none
  | [] => none

/-- The number of days of a month of a year. -/
def daysIn (month year : Nat) : Nat :=
  if month == 2 then
    (if year % 4 == 0 && (year % 100 != 0 || year % 400 == 0) then 29 else 28)
  else if month == 4 || month == 6 || month == 9 || month == 11 then 30
  else 31

/-- A time `h:m:s` with an optional fraction: the rest. -/
def clock (cs : List Char) : Option (List Char) := do
  let (h, cs) ← twoDigits cs
  if h ≥ 24 then none
  let cs ← literal ':' cs
  let (m, cs) ← twoDigits cs
  if m ≥ 60 then none
  let cs ← literal ':' cs
  let (s, cs) ← twoDigits cs
  if s ≥ 60 then none
  match cs with
  | c :: d :: rest =>
    if (c == '.' || c == ',') && d.isDigit then some (rest.dropWhile Char.isDigit) else some cs
  | _ => some cs

/-- A zone: `Z`, or a sign and `hh:mm`; the rest. -/
def zone : List Char → Option (List Char)
  | 'Z' :: rest => some rest
  | sign :: h1 :: h2 :: ':' :: m1 :: m2 :: rest =>
    if (sign == '+' || sign == '-') && h1.isDigit && h2.isDigit && m1.isDigit && m2.isDigit &&
        10 * (h1.toNat - 48) + (h2.toNat - 48) ≤ 24 && 10 * (m1.toNat - 48) + (m2.toNat - 48) ≤ 60
    then some rest else none
  | _ => none

/-- Whether a text reads as a timestamp in one of the forms above. -/
def isTimestamp (s : String) : Bool :=
  let cs := s.toList
  let year := cs.take 4
  if !(year.length == 4 && year.all Char.isDigit && (cs.drop 4).head? == some '-') then false
  else
    let y := year.foldl (fun v c => 10 * v + (c.toNat - 48)) 0
    let date : Option (Nat × Nat × List Char) := do
      let (m, rest) ← twoDigits (cs.drop 5)
      let rest ← literal '-' rest
      let (d, rest) ← twoDigits rest
      if m = 0 ∨ m > 12 then none
      if d = 0 ∨ d > daysIn m y then none
      pure (m, d, rest)
    match date with
    | none => false
    | some (_, _, rest) =>
      let spaced : Bool := match rest with
        | ' ' :: more => clock (more.dropWhile fun c => c == ' ') == some []
        | _ => false
      let zoned (t : Char) : Bool := match literal t rest with
        | some more => (clock more).bind zone == some []
        | none => false
      rest.isEmpty || spaced || zoned 'T' || zoned 't'

end Yaml

end DecisionDiagrams
