/-
Automatic variable orders for a diagram.

`Diagram.autoOrder` starts from the frequency order of the formula. The `freq` strategy keeps
it; the `ls` strategy sifts it, the cost of an order being the size of the build of the kind
for that order. The order found becomes the diagram's order, the kind is built for it, and the
cost reported is the size of that build.
-/
import DecisionDiagrams.Diagram.Build
import DecisionDiagrams.Order.Basic
import DecisionDiagrams.Order.Sift
import DecisionDiagrams.Json.Basic

namespace DecisionDiagrams

/-- The JSON object of a search's outcome. -/
def Order.SiftResult.toJson (r : Order.SiftResult) : Json :=
  .obj [("order", Json.strs r.order), ("cost", .num r.cost), ("passes", .num r.passes),
    ("evaluations", .num r.evaluations)]

namespace Diagram

/-- The order found by a strategy, before it is installed. -/
def searchOrder (k : Kind) (s : String) (maxPasses : Nat) :
    DiagramM (Except Failure Order.SiftResult) := do
  let d ← get
  let start := Order.frequency d.formula d.vars
  match Strategy.parse s with
  | .error f => return .error f
  | .ok .frequency => return .ok ⟨start, 0, 0, 0⟩
  | .ok .sifting =>
    let cost (o : List String) : DiagramM (Except Failure Int) := do
      return (← measure k o).map Int.ofNat
    match ← Order.sift start cost maxPasses with
    | .ok r => return .ok r
    | .error (o, f) => return .error (f.within ("evaluating order " ++ bracketed o))

/-- Finds an order with a strategy, installs it and builds the kind for it; the cost is the
size of that build. -/
def autoOrder (k : Kind) (s : String) (maxPasses : Nat) :
    DiagramM (Except Failure Order.SiftResult) := do
  match ← searchOrder k s maxPasses with
  | .error f => return .error f
  | .ok r =>
    match setOrder r.order (← get) with
    | .error f => return .error f
    | .ok d =>
      set d
      match ← build k with
      | .error f => return .error f
      | .ok _ => return .ok { r with cost := Int.ofNat (size (← get) k) }

end Diagram

end DecisionDiagrams
