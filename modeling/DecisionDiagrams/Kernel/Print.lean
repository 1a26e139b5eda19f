/-
The texts of a node table.

* `Kernel.print` — one node: `False`, `True`, `(n[level] ? low : high)`, or an error text for a
  reference outside the table.
* `Kernel.fprint` — the recorded faults, or a node with every internal node reachable from it,
  one per line in increasing order, its columns aligned.
* `Kernel.stats` — the sizes of the table and the lookup counts.
-/
import DecisionDiagrams.Kernel.Query
import DecisionDiagrams.Text.Columns

namespace DecisionDiagrams

namespace Kernel

/-- The text of one node reference. -/
def print (k : Kernel) (n : Int) : String :=
  if n = 0 then "False"
  else if n = 1 then "True"
  else if n < 0 then "Error"
  else if n ≥ k.size then "Error (" ++ toString n ++ " not a valid index)"
  else
    let t := k.entry n.toNat
    "(" ++ toString n ++ "[" ++ toString t.level ++ "] ? " ++ toString t.low ++ " : " ++
      toString t.high ++ ")"

/-- The table below a node reference, and the error that stopped it, if any: the recorded
faults come first; a terminal or bad reference below 2 is its `print` text. -/
def fprint (n : Int) : KernelM (String × Option String) := do
  let k ← get
  if !k.faults.isEmpty then
    let msg := Fault.chainMessage k.faults
    return ("ERROR: " ++ msg ++ "\n", some msg)
  if n < 2 then return (k.print n ++ "\n", none)
  let head := "node: " ++ toString n ++ "\n"
  let rows ← allnodes [n] (fun (acc : List (List String)) i t =>
    if i > 1 then
      .ok (acc ++ [[toString i, "[" ++ toString t.level, "] ? ", toString t.low,
        " : " ++ toString t.high]])
    else .ok acc) []
  match rows with
  | (_, some e) => return (head, some e)
  | (rows, none) => return (head ++ Columns.align 0 0 rows, none)

/-- The sizes of the table and the counts of lookups. -/
def stats (k : Kernel) : String :=
  "Varnum:     " ++ toString k.varnum ++ "\n" ++
  "Allocated:  " ++ toString k.size ++ "\n" ++
  "Produced:   " ++ toString k.produced ++ "\n" ++
  "Unique Access:  " ++ toString k.counters.uniqueAccess ++ "\n" ++
  "Unique Hit:     " ++ toString k.counters.uniqueHit ++ "\n" ++
  "Unique Miss:    " ++ toString k.counters.uniqueMiss ++ "\n" ++
  "Operator Hits:  " ++ toString k.counters.opHit ++ "\n" ++
  "Operator Miss:  " ++ toString k.counters.opMiss

end Kernel

end DecisionDiagrams
