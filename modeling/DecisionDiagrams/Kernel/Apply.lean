/-
Building nodes from nodes: negation, the binary operators and restriction.

Each operation walks down from its arguments, children before parents, and makes the result with
`Kernel.node`, so the table stays reduced. Results of inner calls are kept in the operation
caches: negation and the binary operators share one cache, restriction has its own. Every
lookup counts as a hit or a miss.

* `Kernel.negate` — the node of the negation.
* `Kernel.apply` — the node of `op` applied to two nodes, for an operator number.
* `Kernel.restrict` — the node of a function with one variable fixed to a value.

The walks terminate because a child is below its parent (`Kernel.lowOf_lt`): negation and
restriction descend on the node, the binary operators on the sum of the two nodes.
-/
import DecisionDiagrams.Kernel.Basic

namespace DecisionDiagrams

namespace Operator

/-- The result of an operator that follows from its arguments alone, before any lookup: a
terminal argument, or two equal arguments. -/
def shortcut : Operator → Nat → Nat → Option Nat
  | .and, l, r =>
    if l = r then some l else if l = 0 ∨ r = 0 then some 0
    else if l = 1 then some r else if r = 1 then some l else none
  | .xor, l, r =>
    if l = r then some 0 else if l = 0 then some r else if r = 0 then some l else none
  | .or, l, r =>
    if l = r then some l else if l = 1 ∨ r = 1 then some 1
    else if l = 0 then some r else if r = 0 then some l else none
  | .imp, l, r =>
    if l = 0 then some 1 else if l = 1 then some r
    else if r = 1 then some 1 else if l = r then some 1 else none
  | .biimp, l, r =>
    if l = r then some 1 else if l = 1 then some r else if r = 1 then some l else none

/-- The terminal that an operator gives on two terminals. -/
def onTerminals (op : Operator) (l r : Nat) : Nat :=
  if op.eval (l == 1) (r == 1) then 1 else 0

end Operator

namespace Kernel

/-- The cache entry at a slot. -/
def slot (t : Array CacheEntry) (i : Nat) : CacheEntry :=
  t[i]?.getD CacheEntry.empty

/-- The cached negation of `n`. -/
def lookupNot (n : Nat) (k : Kernel) : Option Nat × Kernel :=
  let e := slot k.applyCache (n % k.applyCache.size)
  if e.a = n ∧ e.c = 5 then (some e.res, k.count fun c => { c with opHit := c.opHit + 1 })
  else (none, k.count fun c => { c with opMiss := c.opMiss + 1 })

/-- Stores the negation of `n`, or records that it failed. -/
def storeNot (n : Nat) (r : Option Nat) (k : Kernel) : Option Nat × Kernel :=
  match r with
  | none => (none, k.record .notFailed)
  | some res =>
    (some res, { k with applyCache :=
      k.applyCache.setIfInBounds (n % k.applyCache.size) ⟨res, n, -1, 5⟩ })

/-- The cached result of `op` on `l` and `r`. -/
def lookupApply (op : Operator) (l r : Nat) (k : Kernel) : Option Nat × Kernel :=
  let e := slot k.applyCache (tripleSlot l r op.code k.applyCache.size)
  if e.a = l ∧ e.b = r ∧ e.c = op.code then
    (some e.res, k.count fun c => { c with opHit := c.opHit + 1 })
  else (none, k.count fun c => { c with opMiss := c.opMiss + 1 })

/-- Stores the result of `op` on `l` and `r`, or records that it failed. -/
def storeApply (op : Operator) (l r : Nat) (res : Option Nat) (k : Kernel) :
    Option Nat × Kernel :=
  match res with
  | none => (none, k.record (.applyFailed l r op))
  | some v =>
    (some v, { k with applyCache :=
      k.applyCache.setIfInBounds (tripleSlot l r op.code k.applyCache.size) ⟨v, l, r, op.code⟩ })

/-- The cached restriction of `n` for the restriction numbered `id`. -/
def lookupRestrict (id n : Nat) (k : Kernel) : Option Nat × Kernel :=
  let e := slot k.restrictCache (pairSlot n id k.restrictCache.size)
  if e.a = n ∧ e.c = id then (some e.res, k.count fun c => { c with opHit := c.opHit + 1 })
  else (none, k.count fun c => { c with opMiss := c.opMiss + 1 })

/-- Stores a restriction of `n`, or records that it failed. -/
def storeRestrict (id n : Nat) (r : Option Nat) (k : Kernel) : Option Nat × Kernel :=
  match r with
  | none => (none, k.record .restrictFailed)
  | some res =>
    (some res, { k with restrictCache :=
      k.restrictCache.setIfInBounds (pairSlot n id k.restrictCache.size) ⟨res, n, 0, id⟩ })

/-- The negation of node `n`. -/
def negateNode (n : Nat) : KernelM (Option Nat) :=
  if h : n < 2 then pure (some (1 - n))
  else do
    match ← modifyGet (lookupNot n) with
    | some r => pure (some r)
    | none =>
      let k ← get
      let lvl := k.level n
      let lo := k.lowOf n
      let hi := k.highOf n
      let a ← negateNode lo
      let b ← negateNode hi
      let r ← makeNode lvl a b
      modifyGet (storeNot n r)
termination_by n
decreasing_by
  · exact lowOf_lt k _ (by omega)
  · exact highOf_lt k _ (by omega)

/-- The node of `op` applied to nodes `l` and `r`. The node with the smaller level is split
into its children; a terminal is never split. -/
def applyNodes (op : Operator) (l r : Nat) : KernelM (Option Nat) :=
  match op.shortcut l r with
  | some v => pure (some v)
  | none =>
    if hlr : l < 2 ∧ r < 2 then pure (some (op.onTerminals l r))
    else do
      match ← modifyGet (lookupApply op l r) with
      | some v => pure (some v)
      | none =>
        let k ← get
        let ll := k.level l
        let rl := k.level r
        if h1 : 2 ≤ l ∧ 2 ≤ r ∧ ll = rl then
          let l0 := k.lowOf l
          let l1 := k.highOf l
          let r0 := k.lowOf r
          let r1 := k.highOf r
          have := lowOf_lt k l (by omega)
          have := highOf_lt k l (by omega)
          have := lowOf_lt k r (by omega)
          have := highOf_lt k r (by omega)
          let a ← applyNodes op l0 r0
          let b ← applyNodes op l1 r1
          let v ← makeNode ll a b
          modifyGet (storeApply op l r v)
        else if h2 : 2 ≤ l ∧ (r < 2 ∨ ll < rl) then
          let l0 := k.lowOf l
          let l1 := k.highOf l
          have := lowOf_lt k l (by omega)
          have := highOf_lt k l (by omega)
          let a ← applyNodes op l0 r
          let b ← applyNodes op l1 r
          let v ← makeNode ll a b
          modifyGet (storeApply op l r v)
        else
          have hr : 2 ≤ r := by omega
          let r0 := k.lowOf r
          let r1 := k.highOf r
          have := lowOf_lt k r (by omega)
          have := highOf_lt k r (by omega)
          let a ← applyNodes op l r0
          let b ← applyNodes op l r1
          let v ← makeNode rl a b
          modifyGet (storeApply op l r v)
termination_by l + r
decreasing_by all_goals omega

/-- The restriction of node `n` with level `lvl` set to `val`; `id` numbers the restriction in
the cache. -/
def restrictNode (lvl : Nat) (val : Bool) (id : Nat) (n : Nat) : KernelM (Option Nat) := do
  let k ← get
  if _hn : n < 2 then return some n
  let t := k.entry n
  if t.level > lvl then return some n
  if t.level = lvl then return some (if val then t.high else t.low)
  let lo := k.lowOf n
  let hi := k.highOf n
  match ← modifyGet (lookupRestrict id n) with
  | some r => return some r
  | none =>
    let a ← restrictNode lvl val id lo
    let b ← restrictNode lvl val id hi
    let r ← makeNode t.level a b
    modifyGet (storeRestrict id n r)
termination_by n
decreasing_by
  · exact lowOf_lt k _ (by omega)
  · exact highOf_lt k _ (by omega)

/-- The negation of a node reference; `-1` on a bad reference or a failure. -/
def negate (n : Int) : KernelM Int := do
  if !(← checkRef n) then
    modify (record (.wrongOperand .not n))
    return -1
  answer (← negateNode n.toNat)

/-- The operator numbered `op` applied to two node references; `-1` on a bad reference, an
unknown operator or a failure. -/
def apply (l r : Int) (op : Int) : KernelM Int := do
  if !(← checkRef l) then
    modify (record (.wrongLeft op l))
    return -1
  if !(← checkRef r) then
    modify (record (.wrongRight op r))
    return -1
  match Operator.ofCode? op with
  | none =>
    modify (record (.unsupportedOperator op))
    return -1
  | some o => answer (← applyNodes o l.toNat r.toNat)

/-- The restriction of a node reference with variable `level` set to `val`; `-1` on a bad
reference, an unknown variable or a failure. The level is checked as given but used as a 32-bit
level: one that wraps to a negative level lies above every node, so nothing changes. -/
def restrict (n : Int) (level : Int) (val : Bool) : KernelM Int := do
  if !(← checkRef n) then
    modify (record (.wrongOperand .restrict n))
    return -1
  if level < 0 ∨ wrap32 level ≥ (← get).varnum then
    modify (record (.unknownVariable level .restrict))
    return -1
  if wrap32 level < 0 then return ← answer (some n.toNat)
  let id := 2 * level.toNat + 1 + (if val then 1 else 0)
  answer (← restrictNode (wrap32 level).toNat val id n.toNat)

end Kernel

end DecisionDiagrams
