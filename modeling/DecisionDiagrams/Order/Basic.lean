/-
Variable orders chosen without evaluating them.

* `Order.parseManual` — the names of an order written as a text, separated by white space.
* `Order.manual` — the known names that were supplied, in the order of their first occurrence
  among the supplied ones, followed by the other known names in their own order; names that
  are not known are dropped, and each name is listed once.
* `Order.frequency` — the known names, the most frequent in a text first; names that occur
  equally often keep their order.
-/
import DecisionDiagrams.Formula.Token
import DecisionDiagrams.Text.Fields

namespace DecisionDiagrams

namespace Order

/-- The names of an order written as a text. -/
def parseManual (text : String) : List String :=
  Text.fields text

/-- Appends the names of `xs` that `keep` accepts and that are not yet in `acc`. -/
def appendNew (keep : String → Bool) (acc xs : List String) : List String :=
  xs.foldl (fun acc x => if keep x && !acc.contains x then acc ++ [x] else acc) acc

/-- The known names, those supplied first; each name appears once. -/
def manual (known supplied : List String) : List String :=
  appendNew (fun _ => true) (appendNew known.contains [] supplied) known

/-- The known names, the most frequent in `text` first. -/
def frequency (text : String) (known : List String) : List String :=
  let occ := occurrences text
  let count (x : String) : Nat := ((occ.find? (·.1 == x)).map (·.2)).getD 0
  known.mergeSort fun a b => decide (count a ≥ count b)

end Order

end DecisionDiagrams
