/-
Operation caches of the node table.

A cache is an array of entries whose size is a prime; a key is sent to one slot by a pairing
function, and a new entry overwrites whatever the slot held. Caches only save work: a result
is stored after it was computed and read back only when the slot holds the same key.

* `primeAtLeast` — the size of a cache asked to hold `n` entries: the least prime that is at
  least `n`, and at least 3.
* `pairSlot`, `tripleSlot` — the Cantor pairing of two or three numbers, reduced modulo the
  size in 64-bit unsigned arithmetic (products wrap around).
* `CacheEntry` — a stored result with the key it was stored under; a fresh slot has key
  `a = -1`, which no lookup matches.
-/

namespace DecisionDiagrams

/-- Whether `n` has no divisor in `d, d + 1, ...` up to its square root; `fuel` bounds the
search. -/
def noDivisorFrom (n d : Nat) : Nat → Bool
  | 0 => true
  | fuel + 1 =>
    if d * d > n then true
    else if n % d = 0 then false
    else noDivisorFrom n (d + 1) fuel

/-- Whether `n` is prime. -/
def isPrime (n : Nat) : Bool :=
  n ≥ 2 && noDivisorFrom n 2 n

/-- The least prime at or above `n`, looked for among `fuel` candidates. -/
def primeSearch (n : Nat) : Nat → Nat
  | 0 => n
  | fuel + 1 => if isPrime n then n else primeSearch (n + 1) fuel

/-- The size of a cache for `n` entries: the least prime at least `n`, and at least 3. -/
def primeAtLeast (n : Nat) : Nat :=
  if n ≤ 3 then 3 else primeSearch n (n + 1)

/-- The Cantor pairing of `a` and `b`, modulo `size`, in wrapping 64-bit arithmetic. -/
def pairSlot (a b size : Nat) : Nat :=
  let s := UInt64.ofNat (a + b)
  (((s * (s + 1)) / 2 + UInt64.ofNat a) % UInt64.ofNat size).toNat

/-- The pairing of two numbers already below `size`, reduced before multiplying. -/
def pairSlotSmall (a b size : Nat) : Nat :=
  let m := UInt64.ofNat size
  let s := UInt64.ofNat a + UInt64.ofNat b
  (((s % m) * ((s + 1) % m) / 2 + UInt64.ofNat a) % m).toNat

/-- The slot of a triple `(a, b, c)`: `c` paired with the slot of `(a, b)`. -/
def tripleSlot (a b c size : Nat) : Nat :=
  pairSlotSmall c (pairSlot a b size) size

/-- A stored result and its key. -/
structure CacheEntry where
  res : Nat
  a : Int
  b : Int
  c : Int
  deriving Repr, Inhabited

/-- The content of a fresh slot. -/
def CacheEntry.empty : CacheEntry :=
  ⟨0, -1, 0, 0⟩

/-- A cache of `primeAtLeast n` fresh slots. -/
def CacheEntry.table (n : Nat) : Array CacheEntry :=
  Array.replicate (primeAtLeast n) CacheEntry.empty

end DecisionDiagrams
