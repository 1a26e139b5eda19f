/-
Reading functions off the node table.

* `Kernel.walk` — the terminal reached from a node when each level takes the value an
  assignment gives it; `Kernel.evalAt` checks the reference first.
* `Kernel.reach` — the nodes reachable from some roots, marked in one pass from the top of the
  table down, since children are below their parents.
* `Kernel.support` — the levels of the internal nodes reachable from a node, increasing.
* `Kernel.satcount` — the number of assignments of all levels that lead to true: the count of
  a node weighs each child's count by two to the number of levels skipped on the edge.
* `Kernel.allsat` — folds a function over the cubes of true paths, low branches first; a cube
  gives `0` or `1` to the levels tested on its path and `-1` to the others.
* `Kernel.allnodes` — folds a function over the reachable nodes in increasing order.
-/
import DecisionDiagrams.Kernel.Apply

namespace DecisionDiagrams

namespace Kernel

/-- The terminal reached from node `n` under an assignment of the levels. -/
def walk (k : Kernel) (σ : Nat → Bool) (n : Nat) : Nat :=
  if _hn : n < 2 then n
  else if σ (k.level n) then walk k σ (k.highOf n)
  else walk k σ (k.lowOf n)
termination_by n
decreasing_by
  · exact highOf_lt k _ (by omega)
  · exact lowOf_lt k _ (by omega)

/-- The terminal of a node reference under an assignment of the levels; `-1` on a bad
reference. -/
def evalAt (n : Int) (σ : Nat → Bool) : KernelM Int := do
  if !(← checkRef n) then
    modify (record (.wrongOperand .eval n))
    return -1
  return walk (← get) σ n.toNat

/-- Marks of the nodes reachable from the roots, which must be in the table. -/
def reach (k : Kernel) (roots : List Nat) : Array Bool :=
  let start := roots.foldl (fun m r => m.setIfInBounds r true) (Array.replicate k.size false)
  (List.range k.size).reverse.foldl (fun m i =>
    if 2 ≤ i ∧ m[i]?.getD false then
      (m.setIfInBounds (k.lowOf i) true).setIfInBounds (k.highOf i) true
    else m) start

/-- The numbers of the marked nodes, increasing. -/
def marked (m : Array Bool) : List Nat :=
  (List.range m.size).filter fun i => m[i]?.getD false

/-- Inserts a number into an increasing list without duplicates. -/
def insertSorted (x : Nat) : List Nat → List Nat
  | [] => [x]
  | y :: ys => if x < y then x :: y :: ys else if x = y then y :: ys else y :: insertSorted x ys

/-- The levels a node reference depends on, increasing; `none` on a bad reference. -/
def support (n : Int) : KernelM (Option (List Nat)) := do
  if !(← checkRef n) then return none
  let k ← get
  let nodes := (marked (k.reach [n.toNat])).filter (2 ≤ ·)
  return some (nodes.foldl (fun acc i => insertSorted (k.level i) acc) [])

/-- The number of true paths of each node up to `n`, each weighed by the levels it skips. -/
def pathCounts (k : Kernel) (n : Nat) : Array Nat :=
  (List.range (n + 1)).foldl (fun acc i =>
    if i < 2 then acc.push i
    else
      let lvl := k.level i
      let lo := k.lowOf i
      let hi := k.highOf i
      acc.push (Nat.pow 2 (k.level lo - lvl - 1) * acc[lo]?.getD 0 +
        Nat.pow 2 (k.level hi - lvl - 1) * acc[hi]?.getD 0)) #[]

/-- The number of assignments of the levels that make a node reference true; `0` on a bad
reference. -/
def satcount (n : Int) : KernelM Nat := do
  if !(← checkRef n) then
    modify (record (.wrongOperand .satcount n))
    return 0
  let k ← get
  return Nat.pow 2 (k.level n.toNat) * (k.pathCounts n.toNat)[n.toNat]?.getD 0

/-- Levels `a` up to `b - 1` marked as untested in a cube. -/
def untested (prof : Array Int) (a b : Nat) : Array Int :=
  (List.range' a (b - a)).foldl (fun p v => p.setIfInBounds v (-1)) prof

/-- One step of a fold that may stop: the state after `f`, or the state before and the error. -/
def step {σ α : Type} (f : σ → α → Except String σ) (s : σ) (x : α) : σ × Option String :=
  match f s x with
  | .ok s => (s, none)
  | .error e => (s, some e)

/-- Folds `f` over the cubes of the true paths from node `n`, which extend the cube `prof`,
low branches first; the first error of `f` ends the fold, with the state reached so far. -/
def cubes {σ : Type} (k : Kernel) (f : σ → Array Int → Except String σ) (n : Nat)
    (prof : Array Int) (s : σ) : σ × Option String :=
  if n = 1 then step f s prof
  else if _hn : n < 2 then (s, none)
  else
    let lvl := k.level n
    let lo := k.lowOf n
    let hi := k.highOf n
    let afterLow :=
      if lo ≠ 0 then cubes k f lo (untested (prof.setIfInBounds lvl 0) (lvl + 1) (k.level lo)) s
      else (s, none)
    match afterLow with
    | (s, some e) => (s, some e)
    | (s, none) =>
      if hi ≠ 0 then cubes k f hi (untested (prof.setIfInBounds lvl 1) (lvl + 1) (k.level hi)) s
      else (s, none)
termination_by n
decreasing_by
  · exact lowOf_lt k _ (by omega)
  · exact highOf_lt k _ (by omega)

/-- Folds `f` over the cubes of a node reference; a bad reference is an error. -/
def allsat {σ : Type} (n : Int) (f : σ → Array Int → Except String σ) (s : σ) :
    KernelM (σ × Option String) := do
  if !(← checkRef n) then return (s, some ("wrong node in call to Allsat (" ++ toString n ++ ")"))
  let k ← get
  return cubes k f n.toNat (Array.replicate k.varnum (-1)) s

/-- Folds `f` over a list until its first error. -/
def foldUntil {σ α : Type} (f : σ → α → Except String σ) : σ → List α → σ × Option String
  | s, [] => (s, none)
  | s, x :: xs =>
    match step f s x with
    | (s, none) => foldUntil f s xs
    | (s, some e) => (s, some e)

/-- Folds `f` over the nodes reachable from the roots, in increasing order, with their level
and children; the first bad root is an error. -/
def allnodes {σ : Type} (roots : List Int) (f : σ → Nat → Triple → Except String σ) (s : σ) :
    KernelM (σ × Option String) := do
  for r in roots do
    if !(← checkRef r) then
      return (s, some ("wrong node in call to Allnodes (" ++ toString r ++ ")"))
  let k ← get
  let ids := marked (k.reach (roots.map Int.toNat))
  return foldUntil (fun s i => f s i (k.entry i)) s ids

end Kernel

end DecisionDiagrams
