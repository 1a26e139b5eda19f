/-
Covers of a Boolean function given by its minterms over `k` variables (Quine–McCluskey).

A cube fixes some variables: bit `i` of `mask` is set when variable `i` is free, and otherwise
bit `i` of `val` is its value. A cube covers a minterm that agrees with it on every fixed
variable.

* `primeCubes` — the prime implicants: cubes that differ in one fixed variable are merged into
  a cube that frees it, round after round; a cube never merged in its round is prime.
* `chooseCover` — the essential primes (the only prime covering some minterm, looked for in
  increasing order of minterms), then greedily the prime covering most minterms still
  uncovered (the first in cube order among equals), until every minterm is covered.

Cubes are ordered by their number of fixed variables, then mask, then value.
-/

namespace DecisionDiagrams

/-- A product of literals over numbered variables. -/
structure Cube where
  val : Nat
  mask : Nat
  deriving DecidableEq, Hashable, Repr, Inhabited

/-- The number of set bits of a number. -/
def bitCount (n : Nat) : Nat :=
  if h : n = 0 then 0 else n % 2 + bitCount (n / 2)
termination_by n
decreasing_by omega

namespace Cube

/-- Whether the cube covers the minterm `m`. -/
def covers (p : Cube) (m : Nat) : Bool :=
  m - (m &&& p.mask) == p.val

/-- The number of variables the cube fixes, among `k`. -/
def size (k : Nat) (p : Cube) : Nat :=
  k - bitCount p.mask

/-- The order of cubes: fewer fixed variables first, then by mask, then by value. -/
def before (k : Nat) (p q : Cube) : Bool :=
  p.size k < q.size k ||
    (p.size k == q.size k && (p.mask < q.mask || (p.mask == q.mask && p.val ≤ q.val)))

/-- The cube that merges `p` and `q` when they have the same free variables and differ in one
fixed variable. -/
def merge? (p q : Cube) : Option Cube :=
  let diff := p.val ^^^ q.val
  if p.mask = q.mask ∧ bitCount diff = 1 then
    some ⟨p.val - (p.val &&& diff), p.mask ||| diff⟩
  else none

end Cube

/-- One round of merging: the merged cubes of the next round, without repetition, and the
cubes of this round that were never merged. -/
def mergeRound (cs : List Cube) : List Cube × List Cube :=
  let pairs := cs.flatMap fun p => cs.filterMap fun q => (p.merge? q).map fun r => (p, q, r)
  let next := pairs.foldl (fun acc (_, _, r) => if acc.contains r then acc else acc ++ [r]) []
  let used := pairs.flatMap fun (p, q, _) => [p, q]
  (next, cs.filter fun p => !used.contains p)

/-- The prime cubes found from the cubes `cs` in at most `fuel` rounds. -/
def primeRounds : Nat → List Cube → List Cube
  | 0, cs => cs
  | fuel + 1, cs =>
    if cs.isEmpty then []
    else
      let (next, unmerged) := mergeRound cs
      unmerged ++ primeRounds fuel next

/-- The prime implicants of a set of minterms over `k` variables, in cube order. -/
def primeCubes (k : Nat) (minterms : List Nat) : List Cube :=
  let start := minterms.foldl (fun acc m => if acc.contains ⟨m, 0⟩ then acc else acc ++ [⟨m, 0⟩]) []
  (primeRounds (k + 1) start).mergeSort (Cube.before k)

/-- The number of minterms among `ms` covered by `p`. -/
def gain (ms : List Nat) (p : Cube) : Nat :=
  (ms.filter p.covers).length

/-- The first cube of the list with the largest positive gain. -/
def bestCube (ms : List Nat) : List Cube → Option Cube :=
  let rec loop (best : Option (Cube × Nat)) : List Cube → Option Cube
    | [] => best.map (·.1)
    | p :: ps =>
      let g := gain ms p
      match best with
      | some (_, b) => if g > b then loop (some (p, g)) ps else loop best ps
      | none => if g > 0 then loop (some (p, g)) ps else loop none ps
  loop none

/-- Greedy completion: takes the best prime for the uncovered minterms until none is left. -/
def greedy (primes : List Cube) : Nat → List Nat → List Cube
  | 0, _ => []
  | fuel + 1, uncovered =>
    if uncovered.isEmpty then []
    else match bestCube uncovered primes with
      | none => []
      | some p => p :: greedy primes fuel (uncovered.filter fun m => !p.covers m)

/-- The cubes chosen to cover the minterms: essential primes, then the greedy completion. -/
def chooseCover (primes : List Cube) (minterms : List Nat) : List Cube :=
  let essential := minterms.foldl (fun (chosen : List Cube) m =>
    if chosen.any (·.covers m) then chosen
    else match primes.filter (·.covers m) with
      | [p] => chosen ++ [p]
      | _ => chosen) []
  let uncovered := minterms.filter fun m => !essential.any (·.covers m)
  essential ++ greedy primes (uncovered.length + 1) uncovered

end DecisionDiagrams
