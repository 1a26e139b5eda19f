/-
The node table as a state machine, and what one node creation does to it.

* `Kernel.Op`, `Kernel.perform` — the operations of the table's interface and the table after
  one of them; `Kernel.Reachable` — the tables that runs of operations reach from a new table.
* `Kernel.SameTable` — two tables that agree on everything but their counters and operation
  caches: the nodes, the unique table, the variables, the faults and the node limit.
* `Kernel.Extends` — a later table that keeps every internal node and every entry of the unique
  table of an earlier one. The terminals are left out: declaring variables moves their level.
* `Kernel.Structured` — the shape of every reachable table: two terminals that are their own
  children, internal nodes with two distinct children below them, a unique table that indexes
  exactly the internal nodes, and no more nodes than the limit allows.
* `Kernel.lookupNode` — the node of a triple when the table already has it.

The outcomes of `Kernel.node` are `node_of_lookupNode` (the node exists: nothing but a counter
changes) and `node_fresh` (a new triple). From them: `node_sameTable` (the result depends on the
table only through `SameTable`), `node_extends`, `node_structured` and `lookupNode_node` (the
result is afterwards the node of its triple).
-/
import Std.Data.HashMap.Lemmas
import DecisionDiagrams.Kernel.Query

namespace DecisionDiagrams

namespace Kernel

/-! ### Runs of operations -/

/-- One operation of the table's interface with its arguments. The callbacks of `allsat` and
`allnodes` carry a state of their own type. -/
inductive Op : Type 1
  | setVarnum (n : Int)
  | ithvar (i : Int)
  | nithvar (i : Int)
  | constant (b : Bool)
  | negate (n : Int)
  | apply (l r op : Int)
  | restrict (n level : Int) (val : Bool)
  | evalAt (n : Int) (σ : Nat → Bool)
  | support (n : Int)
  | satcount (n : Int)
  | allsat (n : Int) {σ : Type} (f : σ → Array Int → Except String σ) (s : σ)
  | allnodes (roots : List Int) {σ : Type} (f : σ → Nat → Triple → Except String σ) (s : σ)
  | clearError

/-- The table after an operation; the answer is dropped. -/
def perform : Op → Kernel → Kernel
  | .setVarnum n, k => ((setVarnum n).run k).2
  | .ithvar i, k => ((ithvar i).run k).2
  | .nithvar i, k => ((nithvar i).run k).2
  | .constant _, k => k
  | .negate n, k => ((negate n).run k).2
  | .apply l r op, k => ((apply l r op).run k).2
  | .restrict n level val, k => ((restrict n level val).run k).2
  | .evalAt n σ, k => ((evalAt n σ).run k).2
  | .support n, k => ((support n).run k).2
  | .satcount n, k => ((satcount n).run k).2
  | .allsat n f s, k => ((allsat n f s).run k).2
  | .allnodes roots f s, k => ((allnodes roots f s).run k).2
  | .clearError, k => k.clearError

/-- The tables that a run of operations reaches from a new table. -/
inductive Reachable : Kernel → Prop
  | create {v : Int} {limits : Limits} {k : Kernel} : Kernel.create v limits = .ok k → Reachable k
  | step {k : Kernel} (op : Op) : Reachable k → Reachable (perform op k)

/-! ### Field lemmas of the table updates -/

section Fields

variable (k : Kernel)

@[simp] theorem count_nodes (f : Counters → Counters) : (k.count f).nodes = k.nodes := rfl
@[simp] theorem count_unique (f : Counters → Counters) : (k.count f).unique = k.unique := rfl
@[simp] theorem count_varnum (f : Counters → Counters) : (k.count f).varnum = k.varnum := rfl
@[simp] theorem count_varset (f : Counters → Counters) : (k.count f).varset = k.varset := rfl
@[simp] theorem count_produced (f : Counters → Counters) :
    (k.count f).produced = k.produced := rfl
@[simp] theorem count_faults (f : Counters → Counters) : (k.count f).faults = k.faults := rfl
@[simp] theorem count_limits (f : Counters → Counters) : (k.count f).limits = k.limits := rfl
@[simp] theorem count_applyCache (f : Counters → Counters) :
    (k.count f).applyCache = k.applyCache := rfl
@[simp] theorem count_restrictCache (f : Counters → Counters) :
    (k.count f).restrictCache = k.restrictCache := rfl

@[simp] theorem record_nodes (f : Fault) : (k.record f).nodes = k.nodes := rfl
@[simp] theorem record_unique (f : Fault) : (k.record f).unique = k.unique := rfl
@[simp] theorem record_varnum (f : Fault) : (k.record f).varnum = k.varnum := rfl
@[simp] theorem record_varset (f : Fault) : (k.record f).varset = k.varset := rfl
@[simp] theorem record_produced (f : Fault) : (k.record f).produced = k.produced := rfl
@[simp] theorem record_faults (f : Fault) : (k.record f).faults = f :: k.faults := rfl
@[simp] theorem record_limits (f : Fault) : (k.record f).limits = k.limits := rfl
@[simp] theorem record_applyCache (f : Fault) : (k.record f).applyCache = k.applyCache := rfl
@[simp] theorem record_restrictCache (f : Fault) :
    (k.record f).restrictCache = k.restrictCache := rfl

@[simp] theorem resetCaches_nodes : k.resetCaches.nodes = k.nodes := rfl
@[simp] theorem resetCaches_unique : k.resetCaches.unique = k.unique := rfl
@[simp] theorem resetCaches_varnum : k.resetCaches.varnum = k.varnum := rfl
@[simp] theorem resetCaches_varset : k.resetCaches.varset = k.varset := rfl
@[simp] theorem resetCaches_produced : k.resetCaches.produced = k.produced := rfl
@[simp] theorem resetCaches_faults : k.resetCaches.faults = k.faults := rfl
@[simp] theorem resetCaches_limits : k.resetCaches.limits = k.limits := rfl

/-- Growing the caches changes nothing but the caches. -/
theorem growCaches_eq : ∃ a r c, k.growCaches =
    { k with applyCache := a, restrictCache := r, cachedFor := c } := by
  unfold growCaches resetCaches
  dsimp only
  split
  · split
    · exact ⟨_, _, _, rfl⟩
    · exact ⟨_, _, _, rfl⟩
  · exact ⟨_, _, _, rfl⟩

@[simp] theorem growCaches_nodes : k.growCaches.nodes = k.nodes := by
  obtain ⟨a, r, c, h⟩ := growCaches_eq k
  rw [h]

@[simp] theorem growCaches_unique : k.growCaches.unique = k.unique := by
  obtain ⟨a, r, c, h⟩ := growCaches_eq k
  rw [h]

@[simp] theorem growCaches_varnum : k.growCaches.varnum = k.varnum := by
  obtain ⟨a, r, c, h⟩ := growCaches_eq k
  rw [h]

@[simp] theorem growCaches_varset : k.growCaches.varset = k.varset := by
  obtain ⟨a, r, c, h⟩ := growCaches_eq k
  rw [h]

@[simp] theorem growCaches_produced : k.growCaches.produced = k.produced := by
  obtain ⟨a, r, c, h⟩ := growCaches_eq k
  rw [h]

@[simp] theorem growCaches_faults : k.growCaches.faults = k.faults := by
  obtain ⟨a, r, c, h⟩ := growCaches_eq k
  rw [h]

@[simp] theorem growCaches_limits : k.growCaches.limits = k.limits := by
  obtain ⟨a, r, c, h⟩ := growCaches_eq k
  rw [h]

/-- The caches after growing are the old ones or fresh ones. -/
theorem growCaches_caches :
    (k.growCaches.applyCache = k.applyCache ∧ k.growCaches.restrictCache = k.restrictCache) ∨
      (∃ n, k.growCaches.applyCache = CacheEntry.table n ∧
        k.growCaches.restrictCache = CacheEntry.table n) := by
  unfold growCaches resetCaches
  dsimp only
  split
  · split
    · exact .inl ⟨rfl, rfl⟩
    · exact .inr ⟨_, rfl, rfl⟩
  · exact .inl ⟨rfl, rfl⟩

end Fields

/-! ### Tables that agree, tables that grow -/

/-- Two tables that agree on everything an operation reads or answers from, apart from the
counters and the operation caches. -/
structure SameTable (k k' : Kernel) : Prop where
  nodes : k.nodes = k'.nodes
  unique : k.unique = k'.unique
  varnum : k.varnum = k'.varnum
  varset : k.varset = k'.varset
  produced : k.produced = k'.produced
  faults : k.faults = k'.faults
  maxNodes : k.limits.maxNodes = k'.limits.maxNodes

namespace SameTable

theorem refl (k : Kernel) : SameTable k k :=
  ⟨rfl, rfl, rfl, rfl, rfl, rfl, rfl⟩

theorem symm {k k' : Kernel} (h : SameTable k k') : SameTable k' k :=
  ⟨h.1.symm, h.2.symm, h.3.symm, h.4.symm, h.5.symm, h.6.symm, h.7.symm⟩

theorem trans {k k' k'' : Kernel} (h : SameTable k k') (h' : SameTable k' k'') :
    SameTable k k'' :=
  ⟨h.1.trans h'.1, h.2.trans h'.2, h.3.trans h'.3, h.4.trans h'.4, h.5.trans h'.5,
    h.6.trans h'.6, h.7.trans h'.7⟩

theorem count (k : Kernel) (f : Counters → Counters) : SameTable (k.count f) k :=
  ⟨rfl, rfl, rfl, rfl, rfl, rfl, rfl⟩

theorem record {k k' : Kernel} (h : SameTable k k') (f : Fault) :
    SameTable (k.record f) (k'.record f) :=
  ⟨h.1, h.2, h.3, h.4, h.5, by simp [h.6], h.7⟩

theorem growCaches {k k' : Kernel} (h : SameTable k k') :
    SameTable k.growCaches k'.growCaches :=
  ⟨by simp [h.1], by simp [h.2], by simp [h.3], by simp [h.4], by simp [h.5], by simp [h.6],
    by simp [h.7]⟩

theorem entry {k k' : Kernel} (h : SameTable k k') (n : Nat) : k.entry n = k'.entry n := by
  simp [Kernel.entry, h.nodes]

theorem level {k k' : Kernel} (h : SameTable k k') (n : Nat) : k.level n = k'.level n := by
  simp [Kernel.level, h.entry]

theorem lowOf {k k' : Kernel} (h : SameTable k k') (n : Nat) : k.lowOf n = k'.lowOf n := by
  simp [Kernel.lowOf, h.entry]

theorem highOf {k k' : Kernel} (h : SameTable k k') (n : Nat) : k.highOf n = k'.highOf n := by
  simp [Kernel.highOf, h.entry]

end SameTable

/-- A later table keeps every internal node of an earlier one and every entry of its unique
table. -/
structure Extends (k k' : Kernel) : Prop where
  size_le : k.nodes.size ≤ k'.nodes.size
  entry : ∀ i, 2 ≤ i → i < k.nodes.size → k'.entry i = k.entry i
  unique : ∀ (t : Triple) (i : Nat), k.unique[t]? = some i → k'.unique[t]? = some i

namespace Extends

theorem refl (k : Kernel) : Extends k k :=
  ⟨Nat.le_refl _, fun _ _ _ => rfl, fun _ _ h => h⟩

theorem trans {k k' k'' : Kernel} (h : Extends k k') (h' : Extends k' k'') :
    Extends k k'' where
  size_le := Nat.le_trans h.size_le h'.size_le
  entry i h2 hi := (h'.entry i h2 (Nat.lt_of_lt_of_le hi h.size_le)).trans (h.entry i h2 hi)
  unique t i hu := h'.unique t i (h.unique t i hu)

/-- A table with the same nodes and unique table. -/
theorem of_eq {k k' : Kernel} (hn : k'.nodes = k.nodes) (hu : k'.unique = k.unique) :
    Extends k k' where
  size_le := Nat.le_of_eq (by rw [hn])
  entry i _ _ := by simp [Kernel.entry, hn]
  unique t i h := by rwa [hu]

theorem of_sameTable {k k' : Kernel} (h : SameTable k k') : Extends k k' :=
  of_eq h.nodes.symm h.unique.symm

theorem level {k k' : Kernel} (h : Extends k k') {n : Nat} (h2 : 2 ≤ n)
    (hn : n < k.nodes.size) : k'.level n = k.level n := by
  simp [Kernel.level, h.entry n h2 hn]

theorem lowOf {k k' : Kernel} (h : Extends k k') {n : Nat} (h2 : 2 ≤ n)
    (hn : n < k.nodes.size) : k'.lowOf n = k.lowOf n := by
  simp [Kernel.lowOf, h.entry n h2 hn]

theorem highOf {k k' : Kernel} (h : Extends k k') {n : Nat} (h2 : 2 ≤ n)
    (hn : n < k.nodes.size) : k'.highOf n = k.highOf n := by
  simp [Kernel.highOf, h.entry n h2 hn]

end Extends

/-! ### The shape of a reachable table -/

/-- The shape every reachable table has. -/
structure Structured (k : Kernel) : Prop where
  two_le : 2 ≤ k.nodes.size
  false_children : (k.entry 0).low = 0 ∧ (k.entry 0).high = 0
  true_children : (k.entry 1).low = 1 ∧ (k.entry 1).high = 1
  children : ∀ i, 2 ≤ i → i < k.nodes.size →
    (k.entry i).low < i ∧ (k.entry i).high < i ∧ (k.entry i).low ≠ (k.entry i).high
  unique : ∀ (t : Triple) (i : Nat),
    k.unique[t]? = some i ↔ 2 ≤ i ∧ i < k.nodes.size ∧ k.entry i = t
  bound : 0 < k.limits.maxNodes → k.nodes.size ≤ max k.limits.maxNodes 2

/-- The shape depends only on the nodes, the unique table and the limit. -/
theorem Structured.of_eq {k : Kernel} (hs : Structured k) (k' : Kernel) (hn : k'.nodes = k.nodes)
    (hu : k'.unique = k.unique) (hl : k'.limits.maxNodes = k.limits.maxNodes) :
    Structured k' := by
  have he : ∀ i, k'.entry i = k.entry i := fun i => by simp [Kernel.entry, hn]
  obtain ⟨h1, h2, h3, h4, h5, h6⟩ := hs
  refine ⟨?_, ?_, ?_, ?_, ?_, ?_⟩
  · rwa [hn]
  · rwa [he]
  · rwa [he]
  · intro i hi hlt
    rw [he]
    exact h4 i hi (hn ▸ hlt)
  · intro t i
    rw [hu, hn, he]
    exact h5 t i
  · rw [hl, hn]
    exact h6

theorem Structured.of_sameTable {k k' : Kernel} (h : SameTable k k') (hs : Structured k) :
    Structured k' :=
  hs.of_eq k' h.nodes.symm h.unique.symm h.maxNodes.symm

/-- In a structured table a node's children, as the walks read them, are its children. -/
theorem Structured.lowOf_eq {k : Kernel} (hs : Structured k) {n : Nat} (h2 : 2 ≤ n)
    (hn : n < k.nodes.size) : k.lowOf n = (k.entry n).low := by
  simp [Kernel.lowOf, (hs.children n h2 hn).1]

theorem Structured.highOf_eq {k : Kernel} (hs : Structured k) {n : Nat} (h2 : 2 ≤ n)
    (hn : n < k.nodes.size) : k.highOf n = (k.entry n).high := by
  simp [Kernel.highOf, (hs.children n h2 hn).2.1]

theorem lowOf_lt_size (k : Kernel) {n : Nat} (h2 : 2 ≤ n) (hn : n < k.nodes.size) :
    k.lowOf n < k.nodes.size :=
  Nat.lt_trans (lowOf_lt k n (by omega)) hn

theorem highOf_lt_size (k : Kernel) {n : Nat} (h2 : 2 ≤ n) (hn : n < k.nodes.size) :
    k.highOf n < k.nodes.size :=
  Nat.lt_trans (highOf_lt k n (by omega)) hn

/-! ### One node creation -/

/-- The node of a triple when the table already has it. -/
def lookupNode (k : Kernel) (level a b : Nat) : Option Nat :=
  if a = b then some a else k.unique[(⟨level, a, b⟩ : Triple)]?

theorem lookupNode_eq_some {k : Kernel} {level a b v : Nat} :
    k.lookupNode level a b = some v ↔
      a = b ∧ v = a ∨ a ≠ b ∧ k.unique[(⟨level, a, b⟩ : Triple)]? = some v := by
  unfold lookupNode
  split <;> simp_all [eq_comm]

theorem lookupNode_of_ne (k : Kernel) {level a b : Nat} (hab : a ≠ b) :
    k.lookupNode level a b = k.unique[(⟨level, a, b⟩ : Triple)]? :=
  if_neg hab

theorem lookupNode_sameTable {k k' : Kernel} (h : SameTable k k') (level a b : Nat) :
    k.lookupNode level a b = k'.lookupNode level a b := by
  simp [lookupNode, h.unique]

theorem Extends.lookupNode {k k' : Kernel} (h : Extends k k') {level a b v : Nat}
    (hv : k.lookupNode level a b = some v) : k'.lookupNode level a b = some v := by
  rw [lookupNode_eq_some] at hv ⊢
  exact hv.imp id (And.imp_right (h.unique _ _))

/-- A node the table has is found without creating anything. -/
theorem node_of_lookupNode {k : Kernel} {level a b v : Nat}
    (h : k.lookupNode level a b = some v) :
    ∃ f, node level (some a) (some b) k = (some v, k.count f) := by
  rcases lookupNode_eq_some.1 h with ⟨rfl, rfl⟩ | ⟨hab, hu⟩
  · exact ⟨fun c => { c with uniqueAccess := c.uniqueAccess + 1 }, by simp [node]⟩
  · refine ⟨fun c => { c with uniqueAccess := c.uniqueAccess + 1, uniqueHit := c.uniqueHit + 1 },
      ?_⟩
    simp only [node, if_neg hab, count_unique, hu]
    rfl

/-- A new triple becomes the next node, unless the table is full. -/
theorem node_fresh (k : Kernel) {level a b : Nat} (hab : a ≠ b)
    (h : k.unique[(⟨level, a, b⟩ : Triple)]? = none) :
    ∃ f, node level (some a) (some b) k =
      if k.limits.maxNodes > 0 ∧ k.nodes.size ≥ k.limits.maxNodes then
        (none, (k.count f).record (.tableFull level a b))
      else
        (some k.nodes.size, growCaches { k.count f with
          nodes := k.nodes.push ⟨level, a, b⟩,
          unique := k.unique.insert ⟨level, a, b⟩ k.nodes.size,
          produced := k.produced + 1 }) := by
  refine ⟨fun c => { c with uniqueAccess := c.uniqueAccess + 1, uniqueMiss := c.uniqueMiss + 1 },
    ?_⟩
  simp only [node, if_neg hab, count_unique, h, count_limits, count_nodes]
  rfl

/-- A missing child gives no node and changes nothing but a counter. -/
theorem node_none (level : Nat) (lo hi : Option Nat) (k : Kernel)
    (h : lo = none ∨ hi = none) : ∃ f, node level lo hi k = (none, k.count f) := by
  unfold node
  rcases h with rfl | rfl
  · exact ⟨_, rfl⟩
  · cases lo <;> exact ⟨_, rfl⟩

theorem lookupNode_eq_none {k : Kernel} {level a b : Nat} (h : k.lookupNode level a b = none) :
    a ≠ b ∧ k.unique[(⟨level, a, b⟩ : Triple)]? = none := by
  unfold lookupNode at h
  split at h
  · cases h
  · exact ⟨‹_›, h⟩

/-- The three outcomes of a node creation: nothing but a counter changes (a missing child, equal
children, or a known triple); the table is full and the fault is recorded; or the new triple
becomes the next node. -/
theorem node_cases (level : Nat) (lo hi : Option Nat) (k : Kernel) :
    (∃ f, (node level lo hi k).2 = k.count f) ∨
    (∃ f a b, lo = some a ∧ hi = some b ∧
      (node level lo hi k).2 = (k.count f).record (.tableFull level a b)) ∨
    (∃ f a b, lo = some a ∧ hi = some b ∧ a ≠ b ∧ k.unique[(⟨level, a, b⟩ : Triple)]? = none ∧
      ¬ (k.limits.maxNodes > 0 ∧ k.nodes.size ≥ k.limits.maxNodes) ∧
      node level lo hi k = (some k.nodes.size, growCaches { k.count f with
          nodes := k.nodes.push ⟨level, a, b⟩,
          unique := k.unique.insert ⟨level, a, b⟩ k.nodes.size,
          produced := k.produced + 1 })) := by
  rcases lo with _ | a
  · obtain ⟨f, hf⟩ := node_none level none hi k (.inl rfl)
    exact .inl ⟨f, by rw [hf]⟩
  rcases hi with _ | b
  · obtain ⟨f, hf⟩ := node_none level (some a) none k (.inr rfl)
    exact .inl ⟨f, by rw [hf]⟩
  cases hl : k.lookupNode level a b with
  | some v =>
    obtain ⟨f, hf⟩ := node_of_lookupNode hl
    exact .inl ⟨f, by rw [hf]⟩
  | none =>
    obtain ⟨hab, hu⟩ := lookupNode_eq_none hl
    obtain ⟨f, hf⟩ := node_fresh k hab hu
    by_cases hfull : k.limits.maxNodes > 0 ∧ k.nodes.size ≥ k.limits.maxNodes
    · rw [if_pos hfull] at hf
      exact .inr (.inl ⟨f, a, b, rfl, rfl, by rw [hf]⟩)
    · rw [if_neg hfull] at hf
      exact .inr (.inr ⟨f, a, b, rfl, rfl, hab, hu, hfull, hf⟩)

/-- The outcome of a node creation depends on the table only through `SameTable`. -/
theorem node_sameTable {k k' : Kernel} (h : SameTable k k') (level : Nat) (lo hi : Option Nat) :
    (node level lo hi k).1 = (node level lo hi k').1 ∧
      SameTable (node level lo hi k).2 (node level lo hi k').2 := by
  have hcount : ∀ f f', SameTable (k.count f) (k'.count f') := fun f f' =>
    (SameTable.count _ _).trans (h.trans (SameTable.count _ _).symm)
  -- a missing child: no node on either side
  cases lo with
  | none =>
    obtain ⟨f, hf⟩ := node_none level none hi k (.inl rfl)
    obtain ⟨f', hf'⟩ := node_none level none hi k' (.inl rfl)
    rw [hf, hf']
    exact ⟨rfl, hcount f f'⟩
  | some a =>
  cases hi with
  | none =>
    obtain ⟨f, hf⟩ := node_none level (some a) none k (.inr rfl)
    obtain ⟨f', hf'⟩ := node_none level (some a) none k' (.inr rfl)
    rw [hf, hf']
    exact ⟨rfl, hcount f f'⟩
  | some b =>
  -- both children: the triple is known on both sides or new on both sides
  cases hl : k.lookupNode level a b with
  | some v =>
    obtain ⟨f, hf⟩ := node_of_lookupNode hl
    obtain ⟨f', hf'⟩ := node_of_lookupNode ((lookupNode_sameTable h level a b) ▸ hl)
    rw [hf, hf']
    exact ⟨rfl, hcount f f'⟩
  | none =>
    obtain ⟨hab, hu⟩ := lookupNode_eq_none hl
    obtain ⟨f, hf⟩ := node_fresh k hab hu
    obtain ⟨f', hf'⟩ := node_fresh k' hab (h.unique ▸ hu)
    rw [hf, hf', ← h.maxNodes, ← h.nodes]
    split
    · exact ⟨rfl, (hcount f f').record _⟩
    · refine ⟨rfl, SameTable.growCaches ⟨?_, ?_, ?_, ?_, ?_, ?_, ?_⟩⟩ <;>
        simp [h.unique, h.varnum, h.varset, h.produced, h.faults, h.maxNodes]

/-- The entries of a table with one more node. -/
theorem entry_of_nodes_eq_push {k k' : Kernel} {t : Triple} (h : k'.nodes = k.nodes.push t)
    (i : Nat) : k'.entry i = if i = k.nodes.size then t else k.entry i := by
  simp only [Kernel.entry, h, Array.getElem?_push]
  split <;> rfl

/-- The table a new triple is added to, before the caches are grown. -/
theorem extends_push {k : Kernel} (k' : Kernel) {t : Triple} (hn : k'.nodes = k.nodes.push t)
    (hu : k'.unique = k.unique.insert t k.nodes.size) (ht : k.unique[t]? = none) :
    Extends k k' where
  size_le := by simp [hn]
  entry i _ hi := by rw [entry_of_nodes_eq_push hn, if_neg (by omega)]
  unique t' i h := by
    rw [hu, Std.HashMap.getElem?_insert]
    have : ¬ (t == t') = true := by
      intro e
      rw [beq_iff_eq] at e
      rw [e, h] at ht
      cases ht
    rw [if_neg this]
    exact h

theorem node_extends (level : Nat) (lo hi : Option Nat) (k : Kernel) :
    Extends k (node level lo hi k).2 := by
  have hcount : ∀ f, Extends k (k.count f) := fun f => .of_sameTable (SameTable.count k f).symm
  rcases lo with _ | a
  · obtain ⟨f, hf⟩ := node_none level none hi k (.inl rfl)
    rw [hf]
    exact hcount f
  rcases hi with _ | b
  · obtain ⟨f, hf⟩ := node_none level (some a) none k (.inr rfl)
    rw [hf]
    exact hcount f
  cases hl : k.lookupNode level a b with
  | some v =>
    obtain ⟨f, hf⟩ := node_of_lookupNode hl
    rw [hf]
    exact hcount f
  | none =>
    obtain ⟨hab, hu⟩ := lookupNode_eq_none hl
    obtain ⟨f, hf⟩ := node_fresh k hab hu
    rw [hf]
    split
    · exact .of_eq rfl rfl
    · exact (extends_push { k.count f with
          nodes := k.nodes.push ⟨level, a, b⟩,
          unique := k.unique.insert ⟨level, a, b⟩ k.nodes.size,
          produced := k.produced + 1 } rfl rfl hu).trans (.of_eq (by simp) (by simp))

/-- Adding a new triple whose children are distinct nodes of the table keeps its shape, when the
limit leaves room. -/
theorem structured_push {k : Kernel} (k' : Kernel) {level a b : Nat} (hs : Structured k)
    (hn : k'.nodes = k.nodes.push ⟨level, a, b⟩)
    (hu : k'.unique = k.unique.insert ⟨level, a, b⟩ k.nodes.size)
    (hl : k'.limits.maxNodes = k.limits.maxNodes)
    (hfresh : k.unique[(⟨level, a, b⟩ : Triple)]? = none) (hab : a ≠ b)
    (ha : a < k.nodes.size) (hb : b < k.nodes.size)
    (hroom : ¬ (k.limits.maxNodes > 0 ∧ k.nodes.size ≥ k.limits.maxNodes)) : Structured k' := by
  have hsize : k'.nodes.size = k.nodes.size + 1 := by simp [hn]
  have hentry := entry_of_nodes_eq_push hn
  have h2 := hs.two_le
  refine ⟨by omega, ?_, ?_, ?_, ?_, ?_⟩
  · rw [hentry, if_neg (by omega)]
    exact hs.false_children
  · rw [hentry, if_neg (by omega)]
    exact hs.true_children
  · intro i hi hlt
    rw [hentry]
    split
    · subst i
      exact ⟨ha, hb, hab⟩
    · exact hs.children i hi (by omega)
  · intro t i
    rw [hu, Std.HashMap.getElem?_insert, hsize, hentry]
    by_cases ht : (⟨level, a, b⟩ : Triple) = t
    · subst t
      rw [if_pos (by simp)]
      constructor
      · intro e
        cases e
        simp
        omega
      · rintro ⟨hi2, hlt, he⟩
        split at he
        · rw [‹i = k.nodes.size›]
        · rw [(hs.unique _ i).2 ⟨hi2, by omega, he⟩] at hfresh
          cases hfresh
    · rw [if_neg (by simpa using ht), hs.unique t i]
      constructor
      · rintro ⟨hi2, hlt, he⟩
        exact ⟨hi2, by omega, by rw [if_neg (by omega)]; exact he⟩
      · rintro ⟨hi2, hlt, he⟩
        split at he
        · exact absurd he ht
        · exact ⟨hi2, by omega, he⟩
  · intro hpos
    rw [hl] at hpos ⊢
    have := hs.bound hpos
    omega

theorem node_structured {k : Kernel} (hs : Structured k) (level : Nat) {lo hi : Option Nat}
    (hlo : ∀ a, lo = some a → a < k.nodes.size) (hhi : ∀ b, hi = some b → b < k.nodes.size) :
    Structured (node level lo hi k).2 := by
  have hcount : ∀ f, Structured (k.count f) := fun f => hs.of_sameTable (SameTable.count k f).symm
  rcases lo with _ | a
  · obtain ⟨f, hf⟩ := node_none level none hi k (.inl rfl)
    rw [hf]
    exact hcount f
  rcases hi with _ | b
  · obtain ⟨f, hf⟩ := node_none level (some a) none k (.inr rfl)
    rw [hf]
    exact hcount f
  cases hl : k.lookupNode level a b with
  | some v =>
    obtain ⟨f, hf⟩ := node_of_lookupNode hl
    rw [hf]
    exact hcount f
  | none =>
    obtain ⟨hab, hu⟩ := lookupNode_eq_none hl
    obtain ⟨f, hf⟩ := node_fresh k hab hu
    rw [hf]
    split
    · exact hs.of_eq _ rfl rfl rfl
    · exact (structured_push { k.count f with
          nodes := k.nodes.push ⟨level, a, b⟩,
          unique := k.unique.insert ⟨level, a, b⟩ k.nodes.size,
          produced := k.produced + 1 } hs rfl rfl rfl hu hab (hlo a rfl) (hhi b rfl) ‹_›).of_eq _
        (by simp) (by simp) (by simp)

/-- What a node creation answers is afterwards the node of its triple, in the table. -/
theorem lookupNode_node {k : Kernel} (hs : Structured k) {level a b v : Nat}
    (ha : a < k.nodes.size) (h : (node level (some a) (some b) k).1 = some v) :
    (node level (some a) (some b) k).2.lookupNode level a b = some v ∧
      v < (node level (some a) (some b) k).2.nodes.size := by
  have hext := node_extends level (some a) (some b) k
  cases hl : k.lookupNode level a b with
  | some w =>
    obtain ⟨f, hf⟩ := node_of_lookupNode hl
    rw [hf] at h ⊢
    cases h
    refine ⟨hl, ?_⟩
    rcases lookupNode_eq_some.1 hl with ⟨-, rfl⟩ | ⟨-, hu⟩
    · exact ha
    · exact ((hs.unique _ _).1 hu).2.1
  | none =>
    obtain ⟨hab, hu⟩ := lookupNode_eq_none hl
    obtain ⟨f, hf⟩ := node_fresh k hab hu
    rw [hf] at h ⊢
    split at h
    · cases h
    · rw [if_neg ‹_›]
      cases h
      simp [lookupNode, hab]

end Kernel

end DecisionDiagrams
