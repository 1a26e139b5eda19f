/-
The two kinds of diagrams and the ordering strategies.

* `Kind` — the decision tree (`BDD`: every variable tested on every path) and the reduced
  ordered diagram (`ROBDD`). Kind names are read without regard to case, and the empty name is
  the reduced diagram.
* `Strategy` — automatic orders: `freq` puts the most frequent variables first, `ls` sifts
  from there.
-/
import DecisionDiagrams.Failure
import DecisionDiagrams.Text.Fields

namespace DecisionDiagrams

/-- The kinds of diagrams. -/
inductive Kind
  | bdd
  | robdd
  deriving DecidableEq, Repr, Inhabited

namespace Kind

/-- The name of a kind. -/
def name : Kind → String
  | .bdd => "BDD"
  | .robdd => "ROBDD"

/-- The kind with a name, read without regard to case; the empty name is `robdd`. -/
def parse (s : String) : Except Failure Kind :=
  match Text.asciiLower s with
  | "bdd" => .ok .bdd
  | "robdd" => .ok .robdd
  | "" => .ok .robdd
  | _ => .error (.of (.unknownKind s))

end Kind

/-- The automatic ordering strategies. -/
inductive Strategy
  | frequency
  | sifting
  deriving DecidableEq, Repr, Inhabited

namespace Strategy

/-- The name of a strategy. -/
def name : Strategy → String
  | .frequency => "freq"
  | .sifting => "ls"

/-- The strategy with a name. -/
def parse (s : String) : Except Failure Strategy :=
  match s with
  | "freq" => .ok .frequency
  | "ls" => .ok .sifting
  | _ => .error (.of (.unknownStrategy s))

end Strategy

end DecisionDiagrams
