/-
A cache of values by key that evicts its oldest entries first.

The entries are kept oldest first. Inserting a key that is present replaces its value where it
stands; inserting a new key first evicts the oldest entries until there is room, then appends
the new entry as the newest. Lookups and replacements do not change the order.

* `Fifo.create` — a cache of the given capacity; a capacity that is not positive means the
  default, `100`.
* `Fifo.insert` — answers the keys evicted, oldest first.
* `Fifo.remove` — answers whether the key was present.
-/

namespace DecisionDiagrams

/-- A cache of at most `capacity` entries, oldest first, each key once. -/
structure Fifo (α : Type) where
  capacity : Nat
  entries : List (String × α)
  deriving Repr, Inhabited

namespace Fifo

variable {α : Type}

/-- The capacity used when none is given. -/
def defaultCapacity : Nat := 100

/-- An empty cache; a requested capacity that is not positive gives the default. -/
def create (requested : Int) : Fifo α :=
  ⟨if requested > 0 then requested.toNat else defaultCapacity, []⟩

/-- The value cached for a key. -/
def lookup (c : Fifo α) (k : String) : Option α :=
  (c.entries.find? (·.1 == k)).map (·.2)

/-- Whether a key is cached. -/
def contains (c : Fifo α) (k : String) : Bool :=
  c.entries.any (·.1 == k)

/-- The number of entries. -/
def size (c : Fifo α) : Nat :=
  c.entries.length

/-- The keys, oldest first. -/
def keys (c : Fifo α) : List String :=
  c.entries.map (·.1)

/-- Drops oldest entries while there are at least `capacity` of them; answers the keys
dropped, oldest first, and the entries kept. -/
def evict (capacity : Nat) : List (String × α) → List String × List (String × α)
  | [] => ([], [])
  | (k, v) :: rest =>
    if rest.length + 1 ≥ capacity then
      let (gone, kept) := evict capacity rest
      (k :: gone, kept)
    else ([], (k, v) :: rest)

/-- Replaces the value of a cached key in place. -/
def replace (c : Fifo α) (k : String) (v : α) : Fifo α :=
  { c with entries := c.entries.map fun (j, w) => if j == k then (j, v) else (j, w) }

/-- Caches a value: a present key gets the new value in place; a new key is appended after
the oldest entries are evicted to make room. Answers the evicted keys. -/
def insert (c : Fifo α) (k : String) (v : α) : List String × Fifo α :=
  if c.contains k then ([], c.replace k v)
  else
    let (gone, kept) := evict c.capacity c.entries
    (gone, { c with entries := kept ++ [(k, v)] })

/-- Removes a key; answers whether it was cached. -/
def remove (c : Fifo α) (k : String) : Bool × Fifo α :=
  if c.contains k then (true, { c with entries := c.entries.filter (·.1 != k) })
  else (false, c)

end Fifo

end DecisionDiagrams
