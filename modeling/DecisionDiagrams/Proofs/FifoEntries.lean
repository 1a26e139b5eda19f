/-
The FIFO cache as a list of entries.

A cache is its list of entries, oldest first. Every cache that a run of operations reaches from
a new one keeps the capacity it was created with, which is positive, holds no more entries than
that, and holds each key once. On such a cache every operation does what the list says: a lookup
finds the value of the key's one entry, an insertion of a present key changes its value where it
stands, an insertion of a new key evicts the oldest entries while the cache is full and appends
the new one, and a removal drops the key's entry.

* `Fifo.Op`, `Fifo.perform`, `Fifo.Reachable` — the operations of the cache, what each answers
  and leaves, and the caches that runs of them reach.
* `Fifo.evict_eq` — eviction drops the oldest entries, as many as leave one place free.
* `Fifo.WellFormed` — the invariant: a positive capacity, no more entries, each key once.
* `Fifo.Behaves` — what an operation does to the list of entries and what it answers.
* `Fifo.reachable_behaves` — every reachable cache is well formed, keeps its capacity, and every
  operation on it behaves as the list says.
-/
import Mathlib.Data.List.Nodup
import DecisionDiagrams.Cache.Fifo

namespace DecisionDiagrams

namespace Fifo

variable {α : Type}

/-! ### Runs of operations -/

/-- One operation of the cache's interface with its arguments. -/
inductive Op (α : Type)
  | insert (k : String) (v : α)
  | lookup (k : String)
  | remove (k : String)
  | size
  | capacity
  | keys

/-- What an operation answers: the keys an insertion evicted, oldest first; the value a lookup
found; whether a removal found the key; a number; the keys. -/
inductive Reply (α : Type)
  | evicted (ks : List String)
  | found (v : Option α)
  | removed (b : Bool)
  | count (n : Nat)
  | names (ks : List String)

/-- The answer of an operation and the cache it leaves. -/
def perform (c : Fifo α) : Op α → Reply α × Fifo α
  | .insert k v => (.evicted (c.insert k v).1, (c.insert k v).2)
  | .lookup k => (.found (c.lookup k), c)
  | .remove k => (.removed (c.remove k).1, (c.remove k).2)
  | .size => (.count c.size, c)
  | .capacity => (.count c.capacity, c)
  | .keys => (.names c.keys, c)

/-- The caches that runs of operations reach from a cache created with the requested capacity
`n`. A list of options sets the capacity as its last positive request does, so these are the
caches of every list of options too. -/
inductive Reachable (n : Int) : Fifo α → Prop
  | create : Reachable n (create n)
  | step {c : Fifo α} (op : Op α) : Reachable n c → Reachable n (c.perform op).2

/-! ### The operations on the list of entries -/

theorem contains_iff (c : Fifo α) (k : String) : c.contains k = true ↔ k ∈ c.keys := by
  simp [contains, keys]

@[simp] theorem keys_replace (c : Fifo α) (k : String) (v : α) : (c.replace k v).keys = c.keys := by
  simp only [keys, replace, List.map_map]
  congr 1
  funext e
  by_cases h : e.1 = k <;> simp [h]

@[simp] theorem capacity_replace (c : Fifo α) (k : String) (v : α) :
    (c.replace k v).capacity = c.capacity := rfl

@[simp] theorem size_replace (c : Fifo α) (k : String) (v : α) : (c.replace k v).size = c.size := by
  simp [size, replace]

/-- Replacing the value of a key that no entry has changes nothing. -/
theorem map_replace_of_not_mem {k : String} {v : α} {l : List (String × α)}
    (h : k ∉ l.map (·.1)) : l.map (fun (j, w) => if j == k then (j, v) else (j, w)) = l := by
  refine (List.map_congr_left fun e he => ?_).trans (List.map_id l)
  obtain ⟨j, w⟩ := e
  have hj : j ≠ k := fun hj => h (List.mem_map.2 ⟨(j, w), he, hj⟩)
  simp [hj]

/-- Eviction drops the oldest entries, as many as leave one place free under the capacity. -/
theorem evict_eq (capacity : Nat) :
    ∀ l : List (String × α), evict capacity l =
      ((l.take (l.length + 1 - capacity)).map (·.1), l.drop (l.length + 1 - capacity))
  | [] => by simp [evict]
  | (k, v) :: rest => by
    rw [evict]
    by_cases h : rest.length + 1 ≥ capacity
    · -- the oldest entry goes, and eviction goes on with the others
      have hn : ((k, v) :: rest).length + 1 - capacity = rest.length + 1 - capacity + 1 := by
        simp only [List.length_cons]
        omega
      rw [if_pos h, evict_eq capacity rest, hn]
      simp
    · have hn : ((k, v) :: rest).length + 1 - capacity = 0 := by
        simp only [List.length_cons]
        omega
      rw [if_neg h, hn]
      simp

theorem insert_of_mem {c : Fifo α} {k : String} (h : k ∈ c.keys) (v : α) :
    c.insert k v = ([], c.replace k v) := by
  rw [insert, if_pos ((contains_iff c k).2 h)]

/-- Inserting a new key evicts the `c.size + 1 - c.capacity` oldest entries and appends. -/
theorem insert_of_not_mem {c : Fifo α} {k : String} (h : k ∉ c.keys) (v : α) :
    c.insert k v = ((c.entries.take (c.size + 1 - c.capacity)).map (·.1),
      { c with entries := c.entries.drop (c.size + 1 - c.capacity) ++ [(k, v)] }) := by
  rw [insert, if_neg (fun hc => h ((contains_iff c k).1 hc)), evict_eq]
  rfl

theorem remove_eq (c : Fifo α) (k : String) :
    c.remove k = (decide (k ∈ c.keys), { c with entries := c.entries.filter (·.1 ≠ k) }) := by
  have hfilter : c.entries.filter (·.1 != k) = c.entries.filter (·.1 ≠ k) :=
    List.filter_congr fun e _ => by by_cases hek : e.1 = k <;> simp [hek]
  by_cases h : k ∈ c.keys
  · rw [remove, if_pos ((contains_iff c k).2 h), hfilter, decide_eq_true h]
  · -- no entry has the key, so the filter keeps them all
    have hall : c.entries.filter (·.1 ≠ k) = c.entries := List.filter_eq_self.2 fun e he =>
      decide_eq_true fun hek => h (List.mem_map.2 ⟨e, he, hek⟩)
    rw [remove, if_neg (fun hc => h ((contains_iff c k).1 hc)), decide_eq_false h, hall]

/-- With each key once, the first entry of a key is its only entry. -/
theorem find?_key_of_nodup {k : String} {v : α} :
    ∀ {l : List (String × α)}, (l.map (·.1)).Nodup → (k, v) ∈ l →
      l.find? (·.1 == k) = some (k, v)
  | [], _, h => absurd h List.not_mem_nil
  | (j, w) :: rest, hn, h => by
    rw [List.map_cons, List.nodup_cons] at hn
    by_cases hj : j = k
    · -- the first entry has the key, so it is `(k, v)`: a second entry would repeat the key
      subst hj
      have hw : w = v := by
        rcases List.mem_cons.1 h with h | h
        · exact (Prod.mk.inj h).2.symm
        · exact absurd (List.mem_map_of_mem (f := (·.1)) h) hn.1
      simp [hw]
    · have hrest : (k, v) ∈ rest := (List.mem_cons.1 h).resolve_left fun he =>
        hj (Prod.mk.inj he).1.symm
      simp [hj, find?_key_of_nodup hn.2 hrest]

/-- A lookup answers the value of an entry of the key. -/
theorem mem_of_lookup_eq_some {c : Fifo α} {k : String} {v : α} (h : c.lookup k = some v) :
    (k, v) ∈ c.entries := by
  obtain ⟨e, he, rfl⟩ := Option.map_eq_some_iff.1 h
  have hk : e.1 = k := by simpa using List.find?_some he
  rw [← hk]
  exact List.mem_of_find?_eq_some he

theorem lookup_eq_none_iff (c : Fifo α) (k : String) : c.lookup k = none ↔ k ∉ c.keys := by
  simp only [lookup, keys, Option.map_eq_none_iff, List.find?_eq_none, beq_iff_eq, List.mem_map]
  exact ⟨fun h ⟨e, he, hek⟩ => h e he hek, fun h e he hek => h ⟨e, he, hek⟩⟩

/-- On a cache whose keys are distinct, a lookup finds a value exactly when the key has an
entry with that value. -/
theorem lookup_eq_some_iff {c : Fifo α} (hn : c.keys.Nodup) (k : String) (v : α) :
    c.lookup k = some v ↔ (k, v) ∈ c.entries := by
  refine ⟨mem_of_lookup_eq_some, fun h => ?_⟩
  rw [lookup, find?_key_of_nodup hn h]
  rfl

/-! ### The invariant -/

/-- Replacing a value keeps the key of every entry: a lookup finds the entry it found before. -/
theorem find?_replace (c : Fifo α) (k j : String) (v : α) :
    (c.replace k v).entries.find? (·.1 == j) =
      (c.entries.find? (·.1 == j)).map fun e => if e.1 == k then (e.1, v) else e := by
  simp only [replace, List.find?_map]
  congr 1
  · congr 1
    funext e
    obtain ⟨a, w⟩ := e
    simp only [Function.comp_apply]
    split <;> rfl

theorem lookup_replace_of_ne (c : Fifo α) {k j : String} (h : j ≠ k) (v : α) :
    (c.replace k v).lookup j = c.lookup j := by
  unfold lookup
  rw [find?_replace, Option.map_map]
  cases he : c.entries.find? (·.1 == j) with
  | none => rfl
  | some e =>
    have hj : e.1 = j := by simpa using List.find?_some he
    simp [hj, h]

theorem lookup_replace_self {c : Fifo α} {k : String} (hk : k ∈ c.keys) (v : α) :
    (c.replace k v).lookup k = some v := by
  unfold lookup
  rw [find?_replace, Option.map_map]
  cases he : c.entries.find? (·.1 == k) with
  | none =>
    obtain ⟨e, hmem, rfl⟩ := List.mem_map.1 hk
    have := List.find?_eq_none.1 he e hmem
    simp at this
  | some e =>
    have hj : e.1 = k := by simpa using List.find?_some he
    simp [hj]

/-- A cache as runs of operations leave it: a positive capacity, no more entries than that,
and each key once. -/
structure WellFormed (c : Fifo α) : Prop where
  capacity_pos : 0 < c.capacity
  size_le : c.size ≤ c.capacity
  nodup : c.keys.Nodup

theorem wellFormed_create (n : Int) : (create n : Fifo α).WellFormed := by
  refine ⟨?_, by simp [size, create], by simp [keys, create]⟩
  simp only [create]
  split
  · omega
  · decide

/-- Every operation keeps its capacity. -/
@[simp] theorem perform_capacity (c : Fifo α) (op : Op α) : (c.perform op).2.capacity = c.capacity := by
  cases op with
  | insert k v =>
    show (c.insert k v).2.capacity = c.capacity
    by_cases h : k ∈ c.keys
    · rw [insert_of_mem h, capacity_replace]
    · rw [insert_of_not_mem h]
  | remove k =>
    show (c.remove k).2.capacity = c.capacity
    rw [remove_eq]
  | _ => rfl

/-- Every operation keeps the invariant. -/
theorem WellFormed.perform {c : Fifo α} (hw : c.WellFormed) (op : Op α) :
    (c.perform op).2.WellFormed := by
  have hpos := hw.capacity_pos
  cases op with
  | insert k v =>
    by_cases h : k ∈ c.keys
    · show (c.insert k v).2.WellFormed
      rw [insert_of_mem h]
      exact ⟨hpos, by simpa using hw.size_le, by simpa using hw.nodup⟩
    · show (c.insert k v).2.WellFormed
      rw [insert_of_not_mem h]
      refine ⟨hpos, ?_, ?_⟩
      · -- the new entry takes the place of the evicted ones
        have hle := hw.size_le
        simp only [size, List.length_append, List.length_drop, List.length_singleton] at hle ⊢
        omega
      · -- the kept keys are a part of the old ones, and the new key is none of them
        have hdrop : (c.keys.drop (c.size + 1 - c.capacity)).Nodup :=
          hw.nodup.sublist (List.drop_sublist _ _)
        have hnew : k ∉ c.keys.drop (c.size + 1 - c.capacity) := fun hk =>
          h (List.mem_of_mem_drop hk)
        simp only [keys, List.map_append, List.map_drop, List.map_cons, List.map_nil] at hdrop hnew ⊢
        exact hdrop.append (List.nodup_singleton k) fun a ha hb => hnew (List.mem_singleton.1 hb ▸ ha)
  | remove k =>
    show (c.remove k).2.WellFormed
    rw [remove_eq]
    exact ⟨hpos, Nat.le_trans (List.length_filter_le _ _) hw.size_le,
      hw.nodup.sublist ((List.filter_sublist (l := c.entries)).map _)⟩
  | lookup _ | size | capacity | keys => exact hw

/-- Every reachable cache is well formed and has the capacity it was created with. -/
theorem Reachable.wellFormed {n : Int} {c : Fifo α} (hc : c.Reachable n) :
    c.WellFormed ∧ c.capacity = (Fifo.create n : Fifo α).capacity := by
  induction hc with
  | create => exact ⟨wellFormed_create n, rfl⟩
  | step op _ ih => exact ⟨ih.1.perform op, (perform_capacity _ op).trans ih.2⟩

/-! ### What each operation does -/

/-- What the list of entries says an operation does. An insertion of a present key gives its
entry the new value where it stands and evicts nothing; an insertion of a new key evicts the
oldest entries while there are at least as many as the capacity, answers their keys oldest
first, and appends the new entry. A lookup answers the value of the key's entry, a removal
drops the key's entry and answers whether there was one; neither touches the capacity. -/
def Behaves (c : Fifo α) : Op α → Reply α × Fifo α → Prop
  | .insert k v, (r, c') => c'.capacity = c.capacity ∧
    if k ∈ c.keys then
      r = .evicted [] ∧
        ∃ front w back, c.entries = front ++ (k, w) :: back ∧ c'.entries = front ++ (k, v) :: back
    else
      ∃ gone kept, c.entries = gone ++ kept ∧ gone.length = c.size + 1 - c.capacity ∧
        r = .evicted (gone.map (·.1)) ∧ c'.entries = kept ++ [(k, v)]
  | .lookup k, (r, c') => c' = c ∧ ∃ v, r = .found v ∧ ∀ w, v = some w ↔ (k, w) ∈ c.entries
  | .remove k, (r, c') => c'.capacity = c.capacity ∧ r = .removed (decide (k ∈ c.keys)) ∧
    c'.entries = c.entries.filter (·.1 ≠ k)
  | .size, (r, c') => c' = c ∧ r = .count c.entries.length
  | .capacity, (r, c') => c' = c ∧ r = .count c.capacity
  | .keys, (r, c') => c' = c ∧ r = .names (c.entries.map (·.1))

/-- Replacing the value of a present key keeps its entry where it stands. -/
theorem replace_in_place {c : Fifo α} (hn : c.keys.Nodup) {k : String} (h : k ∈ c.keys) (v : α) :
    ∃ front w back, c.entries = front ++ (k, w) :: back ∧
      (c.replace k v).entries = front ++ (k, v) :: back := by
  obtain ⟨e, he, hek⟩ := List.mem_map.1 h
  obtain ⟨front, back, hsplit⟩ := List.append_of_mem he
  obtain ⟨j, w⟩ := e
  simp only at hek
  subst hek
  -- the key appears nowhere else, so the other entries keep their values
  have hn' : (front.map (·.1) ++ j :: back.map (·.1)).Nodup := by
    simpa [keys, hsplit] using hn
  have hfront : j ∉ front.map (·.1) := fun hj =>
    (List.nodup_append.1 hn').2.2 j hj j List.mem_cons_self rfl
  have hback : j ∉ back.map (·.1) := (List.nodup_cons.1 (List.nodup_append.1 hn').2.1).1
  refine ⟨front, w, back, hsplit, ?_⟩
  rw [replace, hsplit, List.map_append, List.map_cons, map_replace_of_not_mem hfront,
    map_replace_of_not_mem hback]
  simp

/-- On a well-formed cache every operation behaves as the list of entries says. -/
theorem WellFormed.behaves {c : Fifo α} (hw : c.WellFormed) :
    ∀ op : Op α, c.Behaves op (c.perform op)
  | .insert k v => by
    refine ⟨perform_capacity c (.insert k v), ?_⟩
    by_cases h : k ∈ c.keys
    · rw [if_pos h]
      obtain ⟨front, w, back, hsplit, hrep⟩ := replace_in_place hw.nodup h v
      exact ⟨by simp [insert_of_mem h], front, w, back, hsplit, by
        simpa [perform, insert_of_mem h] using hrep⟩
    · rw [if_neg h]
      -- as many entries as the invariant leaves above the capacity, at most one
      have hle : c.size + 1 - c.capacity ≤ c.entries.length := by
        have := hw.capacity_pos
        simp only [size] at this ⊢
        omega
      refine ⟨c.entries.take (c.size + 1 - c.capacity), c.entries.drop (c.size + 1 - c.capacity),
        (List.take_append_drop _ _).symm, List.length_take_of_le hle, ?_, ?_⟩
      · simp [insert_of_not_mem h]
      · simp [insert_of_not_mem h]
  | .lookup k => ⟨rfl, c.lookup k, rfl, fun w => lookup_eq_some_iff hw.nodup k w⟩
  | .remove k => by
    refine ⟨perform_capacity c (.remove k), ?_, ?_⟩
    · simp [remove_eq]
    · simp [remove_eq]
  | .size => ⟨rfl, rfl⟩
  | .capacity => ⟨rfl, rfl⟩
  | .keys => ⟨rfl, rfl⟩

end Fifo

end DecisionDiagrams
