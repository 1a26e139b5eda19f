/-
The node table of reduced ordered decision diagrams.

Nodes are numbered from 0. Nodes 0 and 1 are the terminals false and true; their children are
themselves and their level is the number of variables. Every other node is a triple
`(level, low, high)` of a variable level and two earlier nodes, and the unique table maps each
such triple to its number, so that equal triples are one node and no node has `low = high`.

* `Kernel.create` — a table with a number of variables, under `Limits`.
* `Kernel.node` — the node of a triple, created if it is new (and the limit allows it).
* `Kernel.setVarnum` — declares more variables; the literals of each new level are created.
* `Kernel.ithvar`, `Kernel.nithvar`, `Kernel.constant` — the literals and the constants.

Operations return node references as integers: `-1` means that the operation failed. Failures
are recorded as faults, newest first, and stay until `clearError`; while any is recorded, the
operations that build nodes answer `-1`. Variable numbers are read as 32-bit integers, as the
table stores them.
-/
import Std.Data.HashMap
import DecisionDiagrams.Kernel.Fault
import DecisionDiagrams.Kernel.Cache

namespace DecisionDiagrams

/-- A node of the table: its variable level and its two children. -/
structure Triple where
  level : Nat
  low : Nat
  high : Nat
  deriving DecidableEq, Hashable, Repr, Inhabited

/-- The sizes that bound a table: the node limit (`0` for none), the number of cache entries
asked for, and the cache entries wanted per hundred nodes (`0` for a fixed size). -/
structure Limits where
  maxNodes : Nat := 0
  cacheSize : Nat := 10000
  cacheRatio : Nat := 0
  deriving Repr, Inhabited

/-- Counts of lookups in the unique table and in the operation caches. -/
structure Counters where
  uniqueAccess : Nat := 0
  uniqueHit : Nat := 0
  uniqueMiss : Nat := 0
  opHit : Nat := 0
  opMiss : Nat := 0
  deriving Repr, Inhabited

/-- A node table with its unique table, its operation caches and its recorded faults. -/
structure Kernel where
  nodes : Array Triple
  unique : Std.HashMap Triple Nat
  varnum : Nat
  varset : Array (Nat × Nat)
  produced : Nat
  cachedFor : Nat
  faults : List Fault
  counters : Counters
  applyCache : Array CacheEntry
  restrictCache : Array CacheEntry
  limits : Limits

/-- Computations that read and change a node table. -/
abbrev KernelM := StateM Kernel

/-- The largest number of variables. -/
def maxVariables : Int := 0x1FFFFF

/-- An integer read as a 32-bit two's complement integer. -/
def wrap32 (n : Int) : Int :=
  Int.bmod n 4294967296

namespace Kernel

/-- The node with a number (a default triple outside the table). -/
def entry (k : Kernel) (n : Nat) : Triple :=
  k.nodes[n]?.getD ⟨0, 0, 0⟩

/-- The level of a node. -/
def level (k : Kernel) (n : Nat) : Nat :=
  (k.entry n).level

/-- The low child of a node, which is below it in a table built by `node`; a child that is not
below its parent is read as `0`. -/
def lowOf (k : Kernel) (n : Nat) : Nat :=
  let c := (k.entry n).low
  if c < n then c else 0

/-- The high child of a node, read as `lowOf` reads the low one. -/
def highOf (k : Kernel) (n : Nat) : Nat :=
  let c := (k.entry n).high
  if c < n then c else 0

theorem lowOf_lt (k : Kernel) (n : Nat) (h : 0 < n) : k.lowOf n < n := by
  unfold lowOf
  dsimp only
  split <;> omega

theorem highOf_lt (k : Kernel) (n : Nat) (h : 0 < n) : k.highOf n < n := by
  unfold highOf
  dsimp only
  split <;> omega

/-- Records a fault. -/
def record (f : Fault) (k : Kernel) : Kernel :=
  { k with faults := f :: k.faults }

/-- Changes the counters. -/
def count (f : Counters → Counters) (k : Kernel) : Kernel :=
  { k with counters := f k.counters }

/-- Fresh operation caches, sized for the table as it is now. -/
def resetCaches (k : Kernel) : Kernel :=
  let wanted := k.nodes.size * k.limits.cacheRatio / 100
  let size :=
    if k.limits.cacheRatio > 0 ∧ wanted > k.limits.cacheSize then wanted else k.limits.cacheSize
  { k with applyCache := CacheEntry.table size, restrictCache := CacheEntry.table size,
           cachedFor := k.nodes.size }

/-- Grows the caches when the table has doubled since they were sized and the ratio asks for
more entries than they have. -/
def growCaches (k : Kernel) : Kernel :=
  if k.limits.cacheRatio > 0 ∧ k.nodes.size ≥ 2 * k.cachedFor then
    let k := { k with cachedFor := k.nodes.size }
    if k.nodes.size * k.limits.cacheRatio / 100 ≤ k.applyCache.size then k
    else k.resetCaches
  else k

/-- The node of a triple. Equal children give that child; a known triple gives its node; a new
triple becomes a new node unless the table is full. A missing child gives no node. -/
def node (level : Nat) (low high : Option Nat) (k : Kernel) : Option Nat × Kernel :=
  let k := k.count fun c => { c with uniqueAccess := c.uniqueAccess + 1 }
  match low, high with
  | some l, some h =>
    if l = h then (some l, k)
    else
      let key : Triple := ⟨level, l, h⟩
      match k.unique[key]? with
      | some r => (some r, k.count fun c => { c with uniqueHit := c.uniqueHit + 1 })
      | none =>
        let k := k.count fun c => { c with uniqueMiss := c.uniqueMiss + 1 }
        if k.limits.maxNodes > 0 ∧ k.nodes.size ≥ k.limits.maxNodes then
          (none, k.record (.tableFull level l h))
        else
          let r := k.nodes.size
          (some r, growCaches { k with nodes := k.nodes.push key,
                                       unique := k.unique.insert key r,
                                       produced := k.produced + 1 })
  | _, _ => (none, k)

/-- `node` as a step of a computation. -/
def makeNode (level : Nat) (low high : Option Nat) : KernelM (Option Nat) :=
  modifyGet (node level low high)

/-- Creates the two literals of each level of the list in turn; stops at the first level whose
literals cannot be created, recording that fault. -/
def declareLevels : List Nat → KernelM Bool
  | [] => pure true
  | lvl :: rest => do
    let pos ← makeNode lvl (some 0) (some 1)
    let neg ← makeNode lvl (some 1) (some 0)
    match pos, neg with
    | some p, some q =>
      modify fun k => { k with varset := k.varset.push (p, q) }
      declareLevels rest
    | _, _ =>
      modify (record (.cannotAllocate lvl))
      pure false

/-- Raises the number of variables to `num`, read as a 32-bit integer. The terminals take the
new number as their level first; then the literals of the new levels are created. Answers the
recorded faults when it fails. -/
def setVarnum (num : Int) : KernelM (Option (List Fault)) := do
  let inum := wrap32 num
  let k ← get
  if inum < k.varnum ∨ inum > maxVariables then
    modify (record (.badVarnum num))
    return some (← get).faults
  let n := inum.toNat
  modify fun k =>
    { k with nodes := (k.nodes.setIfInBounds 0 ⟨n, 0, 0⟩).setIfInBounds 1 ⟨n, 1, 1⟩ }
  let start := (← get).varnum
  if ← declareLevels (List.range' start (n - start)) then
    modify fun k => { k with varnum := n }
    return none
  else
    return some (← get).faults

/-- A table with `varnum` variables; the error is the chain of faults that prevented it. -/
def create (varnum : Int) (limits : Limits) : Except (List Fault) Kernel :=
  if varnum < 0 ∨ wrap32 varnum > maxVariables then .error [.badCount varnum]
  else
    let k : Kernel :=
      { nodes := #[⟨0, 0, 0⟩, ⟨0, 1, 1⟩], unique := {}, varnum := 0, varset := #[],
        produced := 0, cachedFor := 2, faults := [], counters := {},
        applyCache := #[], restrictCache := #[], limits := limits }
    match (setVarnum varnum).run k.resetCaches with
    | (none, k) => .ok k
    | (some fs, _) => .error fs

/-- The number of nodes in the table. -/
def size (k : Kernel) : Nat :=
  k.nodes.size

/-- Whether a reference names a node of the table; records the fault when it does not. -/
def checkRef (n : Int) : KernelM Bool := do
  if n < 0 ∨ n ≥ (← get).nodes.size then
    modify (record (.illegalReference n))
    return false
  return true

/-- The positive literal of variable `i`, or `-1` when there is no such variable. -/
def ithvar (i : Int) : KernelM Int := do
  let k ← get
  if i < 0 ∨ wrap32 i ≥ k.varnum then
    modify (record (.unknownVariable i .ithvar))
    return -1
  return (k.varset[i.toNat]?.map (·.1)).getD (-1)

/-- The negative literal of variable `i`, or `-1` when there is no such variable. -/
def nithvar (i : Int) : KernelM Int := do
  let k ← get
  if i < 0 ∨ wrap32 i ≥ k.varnum then
    modify (record (.unknownVariable i .nithvar))
    return -1
  return (k.varset[i.toNat]?.map (·.2)).getD (-1)

/-- The constant node of a truth value. -/
def constant (b : Bool) : Int :=
  if b then 1 else 0

/-- The answer of an operation that built `r`: `-1` when it failed or when a fault is recorded
(recording that the operation failed if nothing was). -/
def answer (r : Option Nat) : KernelM Int := do
  let k ← get
  match r with
  | some n => if k.faults.isEmpty then return n else return -1
  | none =>
    if k.faults.isEmpty then modify (record .unexpected)
    return -1

/-- Forgets the recorded faults. -/
def clearError (k : Kernel) : Kernel :=
  { k with faults := [] }

/-- The message of the recorded faults, if any. -/
def errorMessage? (k : Kernel) : Option String :=
  if k.faults.isEmpty then none else some (Fault.chainMessage k.faults)

end Kernel

end DecisionDiagrams
