/-
Sifting: improving a variable order by swapping neighbours.

A pass walks the positions `0, 1, ...` of the current order and adopts the swap of a position
with the next one when that lowers the cost. Passes repeat until one adopts no swap, or until
the allowed number of passes is reached. The cost of each order is asked once: later
questions are answered from memory, and `evaluations` counts the orders actually evaluated.

* `Order.sift` — the result for a start order and a cost function in any monad; a failure of
  the cost function ends the run with the order that was evaluated.

Each adopted swap lowers the cost of the current order, so no order is current twice and a run
that is not stopped takes at most `n!` passes for `n` names, which bounds the loop.
-/
import Std.Data.HashMap

namespace DecisionDiagrams

namespace Order

/-- The outcome of sifting. -/
structure SiftResult where
  order : List String
  cost : Int
  passes : Nat
  evaluations : Nat
  deriving Repr, Inhabited

/-- The order with the names at positions `i` and `i + 1` exchanged. -/
def swapAt (o : List String) (i : Nat) : List String :=
  match o.drop i with
  | a :: b :: rest => o.take i ++ b :: a :: rest
  | _ => o

/-- `n!`. -/
def factorial : Nat → Nat
  | 0 => 1
  | n + 1 => (n + 1) * factorial n

/-- Sifting computations: the memory of costs and the number of evaluations, and a failure
with the order being evaluated. -/
abbrev SiftM (m : Type → Type) (ε : Type) :=
  ExceptT (List String × ε) (StateT (Std.HashMap String Int × Nat) m)

variable {m : Type → Type} [Monad m] {ε : Type}

/-- The cost of an order, from memory or from the cost function. -/
def evalOrder (cost : List String → m (Except ε Int)) (o : List String) : SiftM m ε Int := do
  let key := "\x00".intercalate o
  match (← get).1[key]? with
  | some c => pure c
  | none =>
    match ← (liftM (cost o) : StateT (Std.HashMap String Int × Nat) m (Except ε Int)) with
    | .error e => throw (o, e)
    | .ok c =>
      modify fun (memo, n) => (memo.insert key c, n + 1)
      pure c

/-- One pass over the positions: the order after the adopted swaps, and whether there was one. -/
def siftPass (cost : List String → m (Except ε Int)) (current : List String) :
    SiftM m ε (List String × Bool) :=
  (List.range (current.length - 1)).foldlM (fun (cur, improved) i => do
    let test := swapAt cur i
    let c ← evalOrder cost cur
    let t ← evalOrder cost test
    pure (if t < c then (test, true) else (cur, improved))) (current, false)

/-- Passes until one adopts no swap or `maxPasses` (when positive) were made; `fuel` bounds the
number of passes. -/
def siftLoop (cost : List String → m (Except ε Int)) (maxPasses : Nat) :
    Nat → List String → Nat → SiftM m ε (List String × Nat)
  | 0, cur, passes => pure (cur, passes)
  | fuel + 1, cur, passes =>
    if maxPasses > 0 ∧ passes ≥ maxPasses then pure (cur, passes)
    else do
      let (next, improved) ← siftPass cost cur
      if improved then siftLoop cost maxPasses fuel next (passes + 1)
      else pure (next, passes + 1)

/-- Sifts `start` under `cost`, making at most `maxPasses` passes when it is positive. -/
def sift (start : List String) (cost : List String → m (Except ε Int)) (maxPasses : Nat) :
    m (Except (List String × ε) SiftResult) := do
  let run : SiftM m ε SiftResult := do
    let (order, passes) ← siftLoop cost maxPasses (factorial start.length + 1) start 0
    let c ← evalOrder cost order
    pure ⟨order, c, passes, (← get).2⟩
  let (r, _) ← (run.run).run ({}, 0)
  pure r

end Order

end DecisionDiagrams
