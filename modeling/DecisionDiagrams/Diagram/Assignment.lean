/-
Assignments of truth values to named variables, and their text.

The text of an assignment is a list of `name:bit` tokens separated by white space, where the
bit is `0` or `1`; a name given twice takes its last value. The written text lists the names in
increasing order, separated by one space.

* `Assignment.parse` — reads a text; the first malformed token is the failure, for want of a
  colon, of a name, or of a bit `0` or `1`.
* `Assignment.text` — the written text.
-/
import DecisionDiagrams.Failure
import DecisionDiagrams.Text.Fields

namespace DecisionDiagrams

/-- Truth values of named variables, sorted by name, each name once. -/
structure Assignment where
  entries : List (String × Bool)
  deriving DecidableEq, Repr, Inhabited

namespace Assignment

/-- The empty assignment. -/
def empty : Assignment :=
  ⟨[]⟩

/-- Inserts or replaces a value in a list sorted by name. -/
def insertSorted (x : String) (v : Bool) : List (String × Bool) → List (String × Bool)
  | [] => [(x, v)]
  | (y, w) :: rest =>
    if x < y then (x, v) :: (y, w) :: rest
    else if x = y then (x, v) :: rest
    else (y, w) :: insertSorted x v rest

/-- The assignment with `x` set to `v`. -/
def set (a : Assignment) (x : String) (v : Bool) : Assignment :=
  ⟨insertSorted x v a.entries⟩

/-- The value of a variable, if it is assigned. -/
def get? (a : Assignment) (x : String) : Option Bool :=
  (a.entries.find? (·.1 == x)).map (·.2)

/-- The text of a bit. -/
def bitText (v : Bool) : String :=
  if v then "1" else "0"

/-- The written text. -/
def text (a : Assignment) : String :=
  " ".intercalate (a.entries.map fun (x, v) => x ++ ":" ++ bitText v)

/-- The name and the bit of a token, split at its first colon. -/
def parseToken (tok : String) : Except Failure (String × Bool) :=
  match tok.splitOn ":" with
  | [] | [_] => .error (.of (.assignment tok "expected name:bit"))
  | name :: rest =>
    let bit := ":".intercalate rest
    if name.isEmpty then .error (.of (.assignment tok "missing variable name"))
    else if bit = "0" then .ok (name, false)
    else if bit = "1" then .ok (name, true)
    else .error (.of (.assignment tok ("bit must be 0 or 1, found " ++ Text.quote bit)))

/-- The assignment written in a text. -/
def parse (text : String) : Except Failure Assignment :=
  (Text.fields text).foldlM (fun a tok => do
    let (x, v) ← parseToken tok
    pure (a.set x v)) empty

end Assignment

end DecisionDiagrams
