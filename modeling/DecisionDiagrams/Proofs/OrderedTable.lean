/-
The representation invariant of the node table, and the one operation that breaks it.

A table is `Kernel.Ordered` when it is structured, every internal node lies above the number of
variables and above its two children, the terminals' level is the number of variables, and
`varset` lists the two literals of each variable in order. Every operation keeps it, with one
exception: a declaration of variables that accepts its number and then runs out of nodes.

* `Kernel.Levels` — the order of levels alone, with the terminals below every node whatever their
  level. A new node keeps it when it lies above its children (`Kernel.Above`, `Levels.node`).
* `Recursion.LevelBound` — a lower bound on the level of a recursion's answers; from it, the
  nodes the recursion asks for lie above their children (`Recursion.guarded_above`). Negation
  and restriction answer at or below the level of their argument, a binary operator at or below
  the higher of its operands.
* `ordered_tableInvariant` — counting, faults, the caches and node creation above the children
  keep `Ordered` (with sound caches); so do negation, the binary operators, restriction and every
  operation that only reads (`perform_ordered`).
* `setVarnum_ordered`, `setVarnum_runsOut_not_ordered` — a declaration that succeeds keeps the
  invariant; one that runs out of nodes breaks it, because the terminals have already taken the
  new level while the number of variables stays.
* `ordered_until_setVarnum_runs_out` — every table of a run in which no declaration runs out of
  nodes is ordered, and a declaration that runs out leaves a table that is not.
-/
import DecisionDiagrams.Proofs.CacheSoundness

namespace DecisionDiagrams

namespace Kernel

/-! ### The order of levels -/

/-- Every internal node lies above the terminals and above its two children; the terminals share
one level. -/
structure Levels (k : Kernel) : Prop where
  terminals : (k.entry 1).level = (k.entry 0).level
  below : ∀ i, 2 ≤ i → i < k.nodes.size → k.level i < (k.entry 0).level
  low : ∀ i, 2 ≤ i → i < k.nodes.size → k.level i < k.level (k.entry i).low
  high : ∀ i, 2 ≤ i → i < k.nodes.size → k.level i < k.level (k.entry i).high

namespace Levels

variable {k : Kernel} (hl : Levels k)
include hl

theorem level_terminal {n : Nat} (hn : n < 2) : k.level n = (k.entry 0).level := by
  obtain rfl | rfl : n = 0 ∨ n = 1 := by omega
  · rfl
  · exact hl.terminals

/-- No node lies below the terminals. -/
theorem le_top {n : Nat} (hn : n < k.nodes.size) : k.level n ≤ (k.entry 0).level := by
  by_cases h2 : n < 2
  · exact Nat.le_of_eq (hl.level_terminal h2)
  · exact Nat.le_of_lt (hl.below n (by omega) hn)

theorem lowOf (hs : Structured k) {n : Nat} (h2 : 2 ≤ n) (hn : n < k.nodes.size) :
    k.level n < k.level (k.lowOf n) := by
  rw [hs.lowOf_eq h2 hn]
  exact hl.low n h2 hn

theorem highOf (hs : Structured k) {n : Nat} (h2 : 2 ≤ n) (hn : n < k.nodes.size) :
    k.level n < k.level (k.highOf n) := by
  rw [hs.highOf_eq h2 hn]
  exact hl.high n h2 hn

/-- A table with the same nodes has the same order. -/
theorem of_eq (k' : Kernel) (hn : k'.nodes = k.nodes) : Levels k' := by
  have he : ∀ i, k'.entry i = k.entry i := fun i => by simp [Kernel.entry, hn]
  have hlv : ∀ i, k'.level i = k.level i := fun i => by simp [Kernel.level, he]
  refine ⟨?_, ?_, ?_, ?_⟩
  · rw [he, he]
    exact hl.terminals
  · intro i h2 hi
    rw [hlv, he]
    exact hl.below i h2 (by rwa [hn] at hi)
  · intro i h2 hi
    rw [hlv, he, hlv]
    exact hl.low i h2 (by rwa [hn] at hi)
  · intro i h2 hi
    rw [hlv, he, hlv]
    exact hl.high i h2 (by rwa [hn] at hi)

end Levels

/-- The guard of the order: a node of level `level` over children `a` and `b` lies above both. -/
def Above (k : Kernel) (level a b : Nat) : Prop :=
  level < k.level a ∧ level < k.level b

/-- A table with one more node, above its two children, keeps the order. -/
theorem Levels.push {k k' : Kernel} (hl : Levels k) (hs : Structured k) {level a b : Nat}
    (hn : k'.nodes = k.nodes.push ⟨level, a, b⟩) (ha : a < k.nodes.size) (hb : b < k.nodes.size)
    (habove : Above k level a b) : Levels k' := by
  have hentry := entry_of_nodes_eq_push hn
  have h2 := hs.two_le
  have hsize : k'.nodes.size = k.nodes.size + 1 := by simp [hn]
  -- the nodes of `k` keep their level, and the new one has level `level`
  have hold : ∀ i, i < k.nodes.size → k'.level i = k.level i := fun i hi => by
    simp only [Kernel.level, hentry, if_neg (Nat.ne_of_lt hi)]
  have hnew : k'.level k.nodes.size = level := by simp [Kernel.level, hentry]
  have hzero : k'.entry 0 = k.entry 0 := by rw [hentry, if_neg (by omega)]
  refine ⟨?_, ?_, ?_, ?_⟩
  · rw [hentry, if_neg (by omega), hzero]
    exact hl.terminals
  · intro i hi2 hi
    rw [hzero]
    rcases Nat.lt_or_ge i k.nodes.size with hlt | hge
    · rw [hold i hlt]
      exact hl.below i hi2 hlt
    · have : i = k.nodes.size := by omega
      subst this
      rw [hnew]
      exact Nat.lt_of_lt_of_le habove.1 (hl.le_top ha)
  · intro i hi2 hi
    rcases Nat.lt_or_ge i k.nodes.size with hlt | hge
    · have hc := (hs.children i hi2 hlt).1
      rw [hentry, if_neg (Nat.ne_of_lt hlt), hold i hlt, hold _ (by omega)]
      exact hl.low i hi2 hlt
    · have : i = k.nodes.size := by omega
      subst this
      rw [hentry, if_pos rfl, hnew]
      simp only
      rw [hold a ha]
      exact habove.1
  · intro i hi2 hi
    rcases Nat.lt_or_ge i k.nodes.size with hlt | hge
    · have hc := (hs.children i hi2 hlt).2.1
      rw [hentry, if_neg (Nat.ne_of_lt hlt), hold i hlt, hold _ (by omega)]
      exact hl.high i hi2 hlt
    · have : i = k.nodes.size := by omega
      subst this
      rw [hentry, if_pos rfl, hnew]
      simp only
      rw [hold b hb]
      exact habove.2

/-- Node creation keeps the order when the new node would lie above its children. -/
theorem Levels.node {k : Kernel} (hl : Levels k) (hs : Structured k) (level : Nat)
    {lo hi : Option Nat} (hlo : ∀ a, lo = some a → a < k.nodes.size)
    (hhi : ∀ b, hi = some b → b < k.nodes.size)
    (hg : ∀ a b, lo = some a → hi = some b → Above k level a b) :
    Levels (node level lo hi k).2 := by
  rcases node_cases level lo hi k with ⟨f, hf⟩ | ⟨f, a, b, -, -, hf⟩ |
    ⟨f, a, b, rfl, rfl, -, -, -, hf⟩
  · rw [hf]
    exact hl.of_eq _ rfl
  · rw [hf]
    exact hl.of_eq _ rfl
  · rw [hf]
    exact hl.push hs (by simp) (hlo a rfl) (hhi b rfl) (hg a b rfl rfl)

/-! ### How high a recursion answers -/

/-- A lower bound `lb` on the level of what a recursion answers: base answers are at or below
it, and a split builds at a level that is at or below it and above the bounds of the two
children. -/
structure Recursion.LevelBound {κ : Type} (R : Recursion κ) (lb : Kernel → κ → Nat) : Prop where
  base : ∀ {k : Kernel} {x : κ} {v : Nat}, Structured k → Levels k → R.inRange k x →
    R.base k x = some v → lb k x ≤ k.level v
  split_lt : ∀ {k : Kernel} {x : κ}, Structured k → Levels k → R.inRange k x →
    R.base k x = none →
      (R.split k x).1 < lb k (R.split k x).2.1 ∧ (R.split k x).1 < lb k (R.split k x).2.2
  split_ge : ∀ {k : Kernel} {x : κ}, Structured k → Levels k → R.inRange k x →
    R.base k x = none → lb k x ≤ (R.split k x).1

namespace Recursion.LevelBound

variable {κ : Type} {R : Recursion κ} {lb : Kernel → κ → Nat} (hb : R.LevelBound lb)
include hb

/-- What `find` answers lies at or below the bound. -/
theorem find_level {k : Kernel} (hs : Structured k) (hl : Levels k) :
    ∀ (x : κ) (v : Nat), R.inRange k x → R.find k x = some v → lb k x ≤ k.level v := by
  intro x
  induction h : R.measure x using Nat.strongRecOn generalizing x with
  | ind n ih =>
  intro v hx hv
  cases hbase : R.base k x with
  | some w =>
    rw [R.find_base hbase] at hv
    cases hv
    exact hb.base hs hl hx hbase
  | none =>
    obtain ⟨a, b, ha, _, hab⟩ := R.find_split hbase hv
    have hlt := R.split_lt k x hbase
    have hr := R.split_inRange x hs hx hbase
    have hsplit := hb.split_lt hs hl hx hbase
    have hge := hb.split_ge hs hl hx hbase
    have hla := ih _ (h ▸ hlt.1) _ rfl a hr.1 ha
    -- equal children give the first child; otherwise the node of the split's level
    rcases lookupNode_eq_some.1 hab with ⟨-, rfl⟩ | ⟨-, hu⟩
    · omega
    · obtain ⟨-, -, he⟩ := (hs.unique _ _).1 hu
      have : k.level v = (R.split k x).1 := by simp [Kernel.level, he]
      omega

/-- The nodes the recursion asks for lie above their children, on every table whose invariant
gives the order. -/
theorem guarded_above {I : Kernel → Prop} (hI : ∀ k, I k → Levels k) : R.Guarded I Above := by
  intro k x a b hIk hs hx hbase ha hb'
  have hl := hI k hIk
  have hr := R.split_inRange x hs hx hbase
  have hsplit := hb.split_lt hs hl hx hbase
  exact ⟨Nat.lt_of_lt_of_le hsplit.1 (find_level hb hs hl _ a hr.1 ha),
    Nat.lt_of_lt_of_le hsplit.2 (find_level hb hs hl _ b hr.2 hb')⟩

end Recursion.LevelBound

/-- Splitting a node descends below its level on both sides. -/
theorem nodeSplit_level {k : Kernel} (hs : Structured k) (hl : Levels k) {n : Nat} (h2 : 2 ≤ n)
    (hn : n < k.nodes.size) :
    (nodeSplit k n).1 < k.level (nodeSplit k n).2.1 ∧
      (nodeSplit k n).1 < k.level (nodeSplit k n).2.2 :=
  ⟨hl.lowOf hs h2 hn, hl.highOf hs h2 hn⟩

theorem negRec_levelBound : negRec.LevelBound fun k n => k.level n where
  base {k n v} _ hl _ h := by
    -- a terminal is swapped for the other terminal, at the same level
    have hn : n < 2 := Nat.lt_of_not_le fun h2 => by
      have : negBase n = none := if_neg (by omega)
      rw [show negRec.base k n = negBase n from rfl, this] at h
      cases h
    have hv : v = 1 - n := by
      have : negBase n = some (1 - n) := if_pos hn
      rw [show negRec.base k n = negBase n from rfl, this] at h
      cases h
      rfl
    have heq : k.level n = k.level v := by
      rw [hl.level_terminal hn, hv, hl.level_terminal (by omega)]
    exact Nat.le_of_eq heq
  split_lt hs hl hn h := nodeSplit_level hs hl (two_le_of_ite_none h) hn
  split_ge _ _ _ _ := Nat.le_refl _

theorem restrictRec_levelBound (lvl : Nat) (val : Bool) :
    (restrictRec lvl val).LevelBound fun k n => k.level n where
  base {k n v} hs hl hn h := by
    -- a kept node is the argument itself; a node at the level gives one of its children
    change restrictBase lvl val k n = some v at h
    rcases restrictBase_eq_some.1 h with ⟨rfl, -⟩ | ⟨h2, -, rfl⟩
    · exact Nat.le_refl _
    · split
      · exact Nat.le_of_lt (hl.high n h2 hn)
      · exact Nat.le_of_lt (hl.low n h2 hn)
  split_lt hs hl hn h := nodeSplit_level hs hl (two_le_of_ite_none h) hn
  split_ge _ _ _ _ := Nat.le_refl _

/-- A pair splits at the level of the operand it descends from, below both pairs of children
and not below the lower of the two operands. -/
theorem applySplit_level {k : Kernel} (hs : Structured k) (hl : Levels k) {x : Nat × Nat}
    (ht : ¬ (x.1 < 2 ∧ x.2 < 2)) (hx : x.1 < k.nodes.size ∧ x.2 < k.nodes.size) :
    ((applySplit k x).1 < min (k.level (applySplit k x).2.1.1) (k.level (applySplit k x).2.1.2) ∧
      (applySplit k x).1 <
        min (k.level (applySplit k x).2.2.1) (k.level (applySplit k x).2.2.2)) ∧
      min (k.level x.1) (k.level x.2) ≤ (applySplit k x).1 := by
  obtain ⟨hlx, hrx⟩ := hx
  rcases applySplit_cases k ht with ⟨h1, h2, he, hsp⟩ | ⟨h1, hr, hsp⟩ | ⟨h2, hl', hsp⟩ <;>
    rw [hsp] <;> dsimp only
  · have := hl.lowOf hs h1 hlx
    have := hl.highOf hs h1 hlx
    have := hl.lowOf hs h2 hrx
    have := hl.highOf hs h2 hrx
    omega
  · -- the right operand lies above the left one, a terminal above every internal node
    have hr : k.level x.1 < k.level x.2 := by
      rcases hr with hr2 | hlt
      · rw [hl.level_terminal hr2]
        exact hl.below x.1 h1 hlx
      · exact hlt
    have := hl.lowOf hs h1 hlx
    have := hl.highOf hs h1 hlx
    omega
  · -- and the other way round
    have hlr : k.level x.2 < k.level x.1 := by
      rcases hl' with hl2 | hlt
      · rw [hl.level_terminal hl2]
        exact hl.below x.2 h2 hrx
      · exact hlt
    have := hl.lowOf hs h2 hrx
    have := hl.highOf hs h2 hrx
    omega

theorem applyRec_levelBound (op : Operator) :
    (applyRec op).LevelBound fun k x => min (k.level x.1) (k.level x.2) where
  base {k x v} _ hl hx h := by
    -- a shortcut answers an operand or a terminal; two terminals give a terminal
    rcases applyBase_answer (show applyBase op x = some v from h) with rfl | rfl | hv
    · exact Nat.min_le_left _ _
    · exact Nat.min_le_right _ _
    · rw [hl.level_terminal hv]
      exact Nat.le_trans (Nat.min_le_left _ _) (hl.le_top hx.1)
  split_lt hs hl hx h := (applySplit_level hs hl (applyBase_none h) hx).1
  split_ge hs hl hx h := (applySplit_level hs hl (applyBase_none h) hx).2

/-! ### The representation invariant -/

/-- `p` holds the two literals of level `j` as the unique table finds them: `p.1` is the node
`(j, 0, 1)` and `p.2` the node `(j, 1, 0)`. -/
def Literals (k : Kernel) (j : Nat) (p : Nat × Nat) : Prop :=
  k.unique[(⟨j, 0, 1⟩ : Triple)]? = some p.1 ∧ k.unique[(⟨j, 1, 0⟩ : Triple)]? = some p.2

theorem Literals.mono {k k' : Kernel} (hext : Extends k k') {j : Nat} {p : Nat × Nat}
    (h : Literals k j p) : Literals k' j p :=
  ⟨hext.unique _ _ h.1, hext.unique _ _ h.2⟩

/-- The invariant for terminals at level `top`: a structured table in level order, whose
`varset` lists at each index `j` the literals of level `j`. -/
structure Layered (top : Nat) (k : Kernel) : Prop where
  structured : Structured k
  levels : Levels k
  top : (k.entry 0).level = top
  literals : ∀ j p, k.varset[j]? = some p → Literals k j p

/-- The representation invariant: the terminals lie at level `varnum`, every internal node lies
above them and above its children, and `varset` holds the literals of each of the `varnum`
levels, on top of the shape of `Structured` (children below their parent, a unique table that
finds exactly the internal nodes, the node limit). -/
structure Ordered (k : Kernel) : Prop extends Layered k.varnum k where
  varset_size : k.varset.size = k.varnum

/-- Read through the node table: entry `j` of `varset` is the nodes `(j, 0, 1)` and
`(j, 1, 0)`. -/
theorem Ordered.varset_nodes {k : Kernel} (ho : Ordered k) {j : Nat} (hj : j < k.varnum) :
    ∃ p q, k.varset[j]? = some (p, q) ∧
      2 ≤ p ∧ p < k.nodes.size ∧ k.entry p = ⟨j, 0, 1⟩ ∧
      2 ≤ q ∧ q < k.nodes.size ∧ k.entry q = ⟨j, 1, 0⟩ := by
  obtain ⟨⟨p, q⟩, hpq⟩ : ∃ pq, k.varset[j]? = some pq :=
    Option.isSome_iff_exists.1 (by simp [ho.varset_size, hj])
  have hlit := ho.literals j _ hpq
  obtain ⟨hp2, hpn, hpe⟩ := (ho.structured.unique _ _).1 hlit.1
  obtain ⟨hq2, hqn, hqe⟩ := (ho.structured.unique _ _).1 hlit.2
  exact ⟨p, q, hpq, hp2, hpn, hpe, hq2, hqn, hqe⟩

theorem Layered.of_eq {top : Nat} {k : Kernel} (h : Layered top k) (k' : Kernel)
    (hn : k'.nodes = k.nodes) (hu : k'.unique = k.unique) (hv : k'.varset = k.varset)
    (hm : k'.limits.maxNodes = k.limits.maxNodes) : Layered top k' where
  structured := h.structured.of_eq k' hn hu hm
  levels := h.levels.of_eq k' hn
  top := by
    have h0 : k'.entry 0 = k.entry 0 := by simp [Kernel.entry, hn]
    rw [h0, h.top]
  literals j p hp := by
    rw [hv] at hp
    unfold Literals
    rw [hu]
    exact h.literals j p hp

theorem Ordered.of_eq {k : Kernel} (ho : Ordered k) (k' : Kernel)
    (hn : k'.nodes = k.nodes) (hu : k'.unique = k.unique) (hv : k'.varset = k.varset)
    (hm : k'.limits.maxNodes = k.limits.maxNodes) (hvn : k'.varnum = k.varnum) : Ordered k' where
  toLayered := hvn ▸ ho.toLayered.of_eq k' hn hu hv hm
  varset_size := by rw [hv, hvn, ho.varset_size]

/-- Node creation keeps the terminals, the number of variables and `varset`. -/
theorem node_frame {k : Kernel} (hs : Structured k) (level : Nat) (lo hi : Option Nat) :
    (node level lo hi k).2.entry 0 = k.entry 0 ∧ (node level lo hi k).2.entry 1 = k.entry 1 ∧
      (node level lo hi k).2.varnum = k.varnum ∧ (node level lo hi k).2.varset = k.varset := by
  have h2 := hs.two_le
  rcases node_cases level lo hi k with ⟨f, hf⟩ | ⟨f, a, b, -, -, hf⟩ |
    ⟨f, a, b, -, -, -, -, -, hf⟩
  · rw [hf]
    exact ⟨rfl, rfl, rfl, rfl⟩
  · rw [hf]
    exact ⟨rfl, rfl, rfl, rfl⟩
  · rw [hf]
    have hentry := entry_of_nodes_eq_push (k := k.count f)
      (show (growCaches { k.count f with
          nodes := k.nodes.push ⟨level, a, b⟩,
          unique := k.unique.insert ⟨level, a, b⟩ k.nodes.size,
          produced := k.produced + 1 }).nodes = (k.count f).nodes.push ⟨level, a, b⟩ by simp)
    refine ⟨?_, ?_, by simp, by simp⟩
    · rw [hentry, if_neg (by simp; omega)]
      rfl
    · rw [hentry, if_neg (by simp; omega)]
      rfl

/-- Node creation above the children keeps the invariant at every terminal level. -/
theorem Layered.node {top : Nat} {k : Kernel} (h : Layered top k) (level : Nat)
    {lo hi : Option Nat} (hlo : ∀ a, lo = some a → a < k.nodes.size)
    (hhi : ∀ b, hi = some b → b < k.nodes.size)
    (hg : ∀ a b, lo = some a → hi = some b → Above k level a b) :
    Layered top (node level lo hi k).2 := by
  obtain ⟨h0, -, -, hv⟩ := node_frame h.structured level lo hi
  have hext := node_extends level lo hi k
  refine ⟨node_structured h.structured level hlo hhi,
    h.levels.node h.structured level hlo hhi hg, by rw [h0, h.top], fun j p hp => ?_⟩
  rw [hv] at hp
  exact (h.literals j p hp).mono hext

/-- Counting, recording faults, and creating nodes above their children keep the invariant, and
the soundness of the caches with it. -/
theorem ordered_tableInvariant :
    TableInvariant (fun k => CacheSound k ∧ Ordered k) Above where
  count f h hs := ⟨cacheSound_tableInvariant.count f h.1 hs, h.2.of_eq _ rfl rfl rfl rfl rfl⟩
  record f h hs := ⟨cacheSound_tableInvariant.record f h.1 hs, h.2.of_eq _ rfl rfl rfl rfl rfl⟩
  node level lo hi h hs hlo hhi hg := by
    obtain ⟨-, -, hvn, hv⟩ := node_frame hs level lo hi
    refine ⟨cacheSound_tableInvariant.node level lo hi h.1 hs hlo hhi fun _ _ _ _ => trivial,
      ⟨hvn ▸ h.2.toLayered.node level hlo hhi hg, ?_⟩⟩
    rw [hv, hvn, h.2.varset_size]

/-- A cache sound for its own invariant stays sound with the representation invariant: storing
an entry changes the caches only. -/
theorem Memo.Sound.ordered {κ : Type} {m : Memo κ} (h : m.Sound CacheSound) :
    m.Sound fun k => CacheSound k ∧ Ordered k where
  read hI hs hx hr := h.read hI.1 hs hx hr
  write {k x v} hI hs hx hf hv := by
    refine ⟨h.write hI.1 hs hx hf hv, ?_⟩
    obtain ⟨a, r, hw⟩ := m.write_eq x v k
    rw [hw]
    exact hI.2.of_eq _ rfl rfl rfl rfl rfl

/-- The order of a table with sound caches and the invariant, for the guards of the recursions. -/
theorem levels_of_ordered (k : Kernel) (h : CacheSound k ∧ Ordered k) : Levels k :=
  h.2.levels

theorem negate_ordered (n : Int) {k : Kernel} (hc : CacheSound k) (ho : Ordered k) :
    CacheSound ((negate n).run k).2 ∧ Ordered ((negate n).run k).2 :=
  (negate_invariant ordered_tableInvariant negMemo_sound.ordered
    (negRec_levelBound.guarded_above levels_of_ordered) n ⟨hc, ho⟩ ho.structured).1

theorem apply_ordered (l r op : Int) {k : Kernel} (hc : CacheSound k) (ho : Ordered k) :
    CacheSound ((apply l r op).run k).2 ∧ Ordered ((apply l r op).run k).2 :=
  (apply_invariant ordered_tableInvariant (fun o => (applyMemo_sound o).ordered)
    (fun o => (applyRec_levelBound o).guarded_above levels_of_ordered) l r op ⟨hc, ho⟩
    ho.structured).1

theorem restrict_ordered (n level : Int) (val : Bool) {k : Kernel} (hc : CacheSound k)
    (ho : Ordered k) :
    CacheSound ((restrict n level val).run k).2 ∧ Ordered ((restrict n level val).run k).2 :=
  (restrict_invariant ordered_tableInvariant
    (fun level val h => (restrictMemo_sound_of_nonneg level val h).ordered)
    (fun _ _ _ => (restrictRec_levelBound _ _).guarded_above levels_of_ordered)
    n level val ⟨hc, ho⟩ ho.structured).1

/-! ### Declaring variables -/

/-- Raising the terminals keeps the order: the internal nodes keep their levels, all below the
old terminals' level. -/
theorem Levels.setTerminals {k : Kernel} (hl : Levels k) (hs : Structured k) {m : Nat}
    (hm : (k.entry 0).level ≤ m) : Levels (k.setTerminals m) := by
  have h2 := hs.two_le
  have hzero := setTerminals_entry_zero m h2
  have hone := setTerminals_entry_one m h2
  have hlev : ∀ i, 2 ≤ i → (k.setTerminals m).level i = k.level i := fun i hi => by
    simp only [Kernel.level, setTerminals_entry m k hi]
  -- no node sinks: the terminals rise to `m`, the other nodes stay
  have hrise : ∀ n, k.level n ≤ (k.setTerminals m).level n := fun n => by
    by_cases h2n : 2 ≤ n
    · exact Nat.le_of_eq (hlev n h2n).symm
    · obtain rfl | rfl : n = 0 ∨ n = 1 := by omega
      · simpa only [Kernel.level, hzero] using hm
      · simpa only [Kernel.level, hone, hl.terminals] using hm
  refine ⟨by rw [hone, hzero], fun i hi2 hi => ?_, fun i hi2 hi => ?_, fun i hi2 hi => ?_⟩
  · rw [setTerminals_size] at hi
    rw [hzero, hlev i hi2]
    exact Nat.lt_of_lt_of_le (hl.below i hi2 hi) hm
  · rw [setTerminals_size] at hi
    rw [setTerminals_entry m k hi2, hlev i hi2]
    exact Nat.lt_of_lt_of_le (hl.low i hi2 hi) (hrise _)
  · rw [setTerminals_size] at hi
    rw [setTerminals_entry m k hi2, hlev i hi2]
    exact Nat.lt_of_lt_of_le (hl.high i hi2 hi) (hrise _)

theorem Layered.setTerminals {top : Nat} {k : Kernel} (h : Layered top k) {m : Nat}
    (hm : top ≤ m) : Layered m (k.setTerminals m) where
  structured := h.structured.setTerminals m
  levels := h.levels.setTerminals h.structured (by rw [h.top]; exact hm)
  top := by rw [setTerminals_entry_zero m h.structured.two_le]
  literals := h.literals

/-- Appending the literals of the next level keeps the invariant. -/
theorem Layered.pushLiterals {top : Nat} {k : Kernel} (h : Layered top k) {p : Nat × Nat}
    (hp : Literals k k.varset.size p) : Layered top { k with varset := k.varset.push p } where
  structured := h.structured.of_eq _ rfl rfl rfl
  levels := h.levels.of_eq _ rfl
  top := h.top
  literals j q hq := by
    rw [Array.getElem?_push] at hq
    split at hq
    · cases hq
      subst j
      exact hp
    · exact h.literals j q hq

/-- Declaring the levels `s, s + 1, …` below the terminals' level adds the literals of each to
`varset` at its own index, when every literal can be created. -/
theorem declareLevels_layered {m : Nat} : ∀ (n s : Nat) (k : Kernel), s + n ≤ m → Layered m k →
    k.varset.size = s → ((declareLevels (List.range' s n)).run k).1 = true →
    Layered m ((declareLevels (List.range' s n)).run k).2 ∧
      ((declareLevels (List.range' s n)).run k).2.varset.size = s + n := by
  intro n
  induction n with
  | zero => exact fun s k _ h hsize _ => ⟨h, hsize⟩
  | succ n ih =>
    intro s k hle h hsize htrue
    rw [List.range'_succ, declareLevels_cons] at htrue ⊢
    dsimp only at htrue ⊢
    have hlt : ∀ {k : Kernel}, Layered m k → ∀ c, c < 2 → c < k.nodes.size :=
      fun h c hc => Nat.lt_of_lt_of_le hc h.structured.two_le
    -- both literals of level `s` lie below the terminals at level `m`
    have hlit : ∀ {k : Kernel} (a b : Nat), Layered m k → a < 2 → b < 2 →
        Layered m (node s (some a) (some b) k).2 := fun a b h ha hb =>
      h.node s (by rintro _ ⟨⟩; exact hlt h a ha) (by rintro _ ⟨⟩; exact hlt h b hb)
        (by
          rintro _ _ ⟨⟩ ⟨⟩
          rw [Above, h.levels.level_terminal ha, h.levels.level_terminal hb, h.top]
          omega)
    have hp := hlit 0 1 h (by omega) (by omega)
    have hq := hlit 1 0 hp (by omega) (by omega)
    -- what each creation answers is afterwards the node of its triple
    have hpa : ∀ a, (node s (some 0) (some 1) k).1 = some a →
        (node s (some 1) (some 0) (node s (some 0) (some 1) k).2).2.unique[(⟨s, 0, 1⟩ : Triple)]?
          = some a := fun a ha => by
      have hfound := (node_extends s (some 1) (some 0) _).lookupNode
        (lookupNode_node h.structured (hlt h 0 (by omega)) ha).1
      simpa [lookupNode] using hfound
    have hqb : ∀ b, (node s (some 1) (some 0) (node s (some 0) (some 1) k).2).1 = some b →
        (node s (some 1) (some 0) (node s (some 0) (some 1) k).2).2.unique[(⟨s, 1, 0⟩ : Triple)]?
          = some b := fun b hb => by
      simpa [lookupNode] using (lookupNode_node hp.structured (hlt hp 1 (by omega)) hb).1
    have hvs : (node s (some 1) (some 0) (node s (some 0) (some 1) k).2).2.varset = k.varset := by
      rw [(node_frame hp.structured _ _ _).2.2.2, (node_frame h.structured _ _ _).2.2.2]
    generalize node s (some 0) (some 1) k = p at hp hq hpa hqb hvs htrue ⊢
    generalize node s (some 1) (some 0) p.2 = q at hq hpa hqb hvs htrue ⊢
    obtain ⟨_ | a, k₁⟩ := p <;> obtain ⟨_ | b, k₂⟩ := q
    · simp at htrue
    · simp at htrue
    · simp at htrue
    · dsimp only at htrue hpa hqb hvs hq ⊢
      have hnew : Literals k₂ k₂.varset.size (a, b) := by
        rw [hvs, hsize]
        exact ⟨hpa a rfl, hqb b rfl⟩
      have hrest := ih (s + 1) _ (by omega) (hq.pushLiterals hnew) (by simp [hvs, hsize]) htrue
      rwa [show s + 1 + n = s + (n + 1) by omega] at hrest

/-- A declaration that accepts its number and then runs out of nodes half-way: its number is
neither below the current one nor above the largest, and it answers faults. -/
def SetVarnumRunsOut (num : Int) (k : Kernel) : Prop :=
  ¬ (wrap32 num < k.varnum ∨ wrap32 num > maxVariables) ∧ ((setVarnum num).run k).1 ≠ none

/-- A declaration that does not run out of nodes keeps the invariant: rejected, it only records
a fault; accepted, it raises the terminals and appends the literals of every new level. -/
theorem setVarnum_ordered (num : Int) {k : Kernel} (ho : Ordered k)
    (hok : ¬ SetVarnumRunsOut num k) : Ordered ((setVarnum num).run k).2 := by
  by_cases hbad : wrap32 num < k.varnum ∨ wrap32 num > maxVariables
  · rw [setVarnum_run, if_pos hbad]
    exact ho.of_eq _ rfl rfl rfl rfl rfl
  have hm : k.varnum ≤ (wrap32 num).toNat := by omega
  have hdecl := declareLevels_layered ((wrap32 num).toNat - k.varnum) k.varnum _ (by omega)
    (ho.toLayered.setTerminals hm) ho.varset_size
  unfold SetVarnumRunsOut at hok
  rw [setVarnum_run, if_neg hbad] at hok ⊢
  dsimp only at hok ⊢
  generalize (declareLevels (List.range' k.varnum ((wrap32 num).toNat - k.varnum))).run
    (k.setTerminals (wrap32 num).toNat) = r at hdecl hok ⊢
  obtain ⟨_ | _, k'⟩ := r
  · exact absurd ⟨hbad, by simp⟩ hok
  · obtain ⟨hl, hsize⟩ := hdecl rfl
    rw [if_pos rfl]
    exact ⟨hl.of_eq _ rfl rfl rfl rfl, by simp only at hsize ⊢; omega⟩

/-- What a declaration that runs out of nodes leaves: the terminals have already taken the new
level, above the number of variables, which stays the old one. -/
theorem setVarnum_runsOut_terminals {num : Int} {k : Kernel} (hs : Structured k)
    (h : SetVarnumRunsOut num k) :
    (((setVarnum num).run k).2.entry 0).level = (wrap32 num).toNat ∧
      ((setVarnum num).run k).2.varnum = k.varnum ∧ k.varnum < (wrap32 num).toNat := by
  obtain ⟨hbad, hfail⟩ := h
  -- the declarations of the levels keep the raised terminals and the number of variables
  have hI : TableInvariant
      (fun k' => k'.entry 0 = ⟨(wrap32 num).toNat, 0, 0⟩ ∧ k'.varnum = k.varnum)
      fun _ _ _ _ => True :=
    ⟨fun _ h _ => h, fun _ h _ => h, fun level lo hi h hs' _ _ _ => by
      obtain ⟨h0, -, hv, -⟩ := node_frame hs' level lo hi
      exact ⟨h0.trans h.1, hv.trans h.2⟩⟩
  obtain ⟨⟨h0, hvn⟩, -⟩ := declareLevels_invariant hI (fun _ _ _ _ _ => trivial) (fun _ h _ => h)
    (List.range' k.varnum ((wrap32 num).toNat - k.varnum)) (k.setTerminals (wrap32 num).toNat)
    ⟨setTerminals_entry_zero _ hs.two_le, rfl⟩ (hs.setTerminals _)
  rw [setVarnum_run, if_neg hbad] at hfail ⊢
  dsimp only at hfail ⊢
  generalize hr : (declareLevels (List.range' k.varnum ((wrap32 num).toNat - k.varnum))).run
    (k.setTerminals (wrap32 num).toNat) = r at h0 hvn hfail ⊢
  obtain ⟨_ | _, k'⟩ := r
  · rw [if_neg Bool.false_ne_true]
    dsimp only at h0 hvn ⊢
    refine ⟨by rw [h0], hvn, ?_⟩
    -- with the old number there is no level to declare, and declaring none cannot fail
    refine Nat.lt_of_le_of_ne (by omega) fun heq => ?_
    rw [show (wrap32 num).toNat - k.varnum = 0 by omega] at hr
    cases hr
  · simp at hfail

/-- A declaration that runs out of nodes breaks the invariant. -/
theorem setVarnum_runsOut_not_ordered {num : Int} {k : Kernel} (hs : Structured k)
    (h : SetVarnumRunsOut num k) : ¬ Ordered ((setVarnum num).run k).2 := by
  obtain ⟨hlevel, hvarnum, hlt⟩ := setVarnum_runsOut_terminals hs h
  intro ho
  have htop := ho.top
  rw [hlevel, hvarnum] at htop
  omega

/-- A full ordered table cannot take one more variable: the first literal of the new level would
be a new node. -/
theorem setVarnum_runsOut_of_full {num : Int} {k : Kernel} (ho : Ordered k)
    (hfull : k.limits.maxNodes > 0 ∧ k.nodes.size ≥ k.limits.maxNodes)
    (haccept : ¬ (wrap32 num < k.varnum ∨ wrap32 num > maxVariables))
    (hmore : k.varnum < (wrap32 num).toNat) : SetVarnumRunsOut num k := by
  refine ⟨haccept, ?_⟩
  obtain ⟨n, hn⟩ : ∃ n, (wrap32 num).toNat - k.varnum = n + 1 := ⟨_, (Nat.succ_pred_eq_of_pos
    (by omega)).symm⟩
  -- no internal node lies at the level of the new variable
  have hu : (k.setTerminals (wrap32 num).toNat).unique[(⟨k.varnum, 0, 1⟩ : Triple)]? = none := by
    change k.unique[(⟨k.varnum, 0, 1⟩ : Triple)]? = none
    cases hv : k.unique[(⟨k.varnum, 0, 1⟩ : Triple)]? with
    | none => rfl
    | some i =>
      obtain ⟨h2, hi, he⟩ := (ho.structured.unique _ _).1 hv
      have hbelow := ho.levels.below i h2 hi
      simp [Kernel.level, he, ho.top] at hbelow
  obtain ⟨f, hf⟩ := node_fresh _ (by decide : (0 : Nat) ≠ 1) hu
  rw [if_pos ⟨hfull.1, by rw [setTerminals_size]; exact hfull.2⟩] at hf
  rw [setVarnum_run, if_neg haccept]
  dsimp only
  rw [hn, List.range'_succ, declareLevels_cons]
  dsimp only
  rw [hf]
  simp

/-! ### Runs that keep the invariant -/

/-- The table `create` declares its variables in is ordered, with no variables. -/
theorem ordered_blank (limits : Limits) : Ordered (blank limits).resetCaches := by
  have hnone : ∀ i, 2 ≤ i → i < (blank limits).resetCaches.nodes.size → False :=
    fun i h2 hi => by
      simp [Kernel.blank] at hi
      omega
  exact {
    structured := (Structured.blank limits).of_eq _ rfl rfl rfl
    levels := ⟨rfl, fun i h2 hi => (hnone i h2 hi).elim, fun i h2 hi => (hnone i h2 hi).elim,
      fun i h2 hi => (hnone i h2 hi).elim⟩
    top := rfl
    literals := fun j p hp => by simp [Kernel.blank] at hp
    varset_size := rfl }

/-- A created table is ordered: `create` succeeds only when declaring its variables on the blank
table does not run out of nodes. -/
theorem create_ordered {v : Int} {limits : Limits} {k : Kernel} (h : create v limits = .ok k) :
    CacheSound k ∧ Ordered k := by
  have hrun := create_ok h
  have hok : ¬ SetVarnumRunsOut v (blank limits).resetCaches := fun hout => hout.2 (by rw [hrun])
  have ho := setVarnum_ordered v (ordered_blank limits) hok
  rw [hrun] at ho
  exact ⟨(create_cacheSound h).2, ho⟩

/-- One operation keeps the invariant, and the soundness of the caches with it, unless it is a
declaration that runs out of nodes. -/
theorem perform_ordered (op : Op) {k : Kernel} (hc : CacheSound k) (ho : Ordered k)
    (hclean : ∀ n, op = .setVarnum n → ¬ SetVarnumRunsOut n k) :
    CacheSound (perform op k) ∧ Ordered (perform op k) := by
  rcases perform_cases op k with ⟨fs, h⟩ | ⟨num, rfl⟩ | ⟨n, rfl⟩ | ⟨l, r, o, rfl⟩ |
    ⟨n, level, val, rfl⟩
  · rw [h]
    exact ⟨hc.mono ho.structured (.of_eq rfl rfl) rfl rfl, ho.of_eq _ rfl rfl rfl rfl rfl⟩
  · exact ⟨(setVarnum_cacheSound num ho.structured hc).2,
      setVarnum_ordered num ho (hclean num rfl)⟩
  · exact negate_ordered n hc ho
  · exact apply_ordered l r o hc ho
  · exact restrict_ordered n level val hc ho

/-- The tables that a run reaches in which no declaration of variables runs out of nodes. -/
inductive CleanlyReachable : Kernel → Prop
  | create {v : Int} {limits : Limits} {k : Kernel} :
      Kernel.create v limits = .ok k → CleanlyReachable k
  | step {k : Kernel} (op : Op) : CleanlyReachable k →
      (∀ n, op = .setVarnum n → ¬ SetVarnumRunsOut n k) → CleanlyReachable (perform op k)

theorem CleanlyReachable.reachable {k : Kernel} (h : CleanlyReachable k) : Reachable k := by
  induction h with
  | create h => exact .create h
  | step op _ _ ih => exact .step op ih

theorem cleanlyReachable_ordered {k : Kernel} (h : CleanlyReachable k) :
    CacheSound k ∧ Ordered k := by
  induction h with
  | create h => exact create_ordered h
  | step op _ hclean ih => exact perform_ordered op ih.1 ih.2 hclean

/-- The representation invariant holds on every table of a run in which no declaration of
variables runs out of nodes, and a declaration that runs out, on any reachable table, leaves a
table that breaks it. -/
theorem ordered_until_setVarnum_runs_out (k : Kernel) :
    (CleanlyReachable k → Ordered k) ∧
      ∀ n, Reachable k → SetVarnumRunsOut n k → ¬ Ordered (perform (.setVarnum n) k) :=
  ⟨fun h => (cleanlyReachable_ordered h).2,
    fun _ hr hout => setVarnum_runsOut_not_ordered (reachable_cacheSound hr).1 hout⟩

/-- The table created with no variables and room for the two terminals only. -/
def terminalsOnly : Kernel :=
  ((setVarnum 0).run (blank ⟨2, 10000, 0⟩).resetCaches).2

theorem cleanlyReachable_terminalsOnly : CleanlyReachable terminalsOnly :=
  .create (show create 0 ⟨2, 10000, 0⟩ = .ok terminalsOnly from rfl)

/-- The table with room for the terminals only is full: declaring one variable runs out. -/
theorem terminalsOnly_runsOut : SetVarnumRunsOut 1 terminalsOnly :=
  setVarnum_runsOut_of_full (cleanlyReachable_ordered cleanlyReachable_terminalsOnly).2
    (by decide) (by decide) (by decide)

/-- On the table with room for the terminals only, which is ordered, declaring one variable
runs out of nodes and breaks the invariant. -/
theorem terminalsOnly_declaration_breaks_order :
    CleanlyReachable terminalsOnly ∧ Ordered terminalsOnly ∧ SetVarnumRunsOut 1 terminalsOnly ∧
      ¬ Ordered (perform (.setVarnum 1) terminalsOnly) :=
  ⟨cleanlyReachable_terminalsOnly,
    (ordered_until_setVarnum_runs_out terminalsOnly).1 cleanlyReachable_terminalsOnly,
    terminalsOnly_runsOut,
    (ordered_until_setVarnum_runs_out terminalsOnly).2 1 cleanlyReachable_terminalsOnly.reachable
      terminalsOnly_runsOut⟩

/-- A reachable table whose terminals lie at level `1` while it has no variable: the table with
room for the terminals only, after a declaration of one variable. -/
theorem terminals_above_varnum_after_failed_declaration :
    Reachable (perform (.setVarnum 1) terminalsOnly) ∧
      (perform (.setVarnum 1) terminalsOnly).level 0 = 1 ∧
      (perform (.setVarnum 1) terminalsOnly).varnum = 0 := by
  have hk := cleanlyReachable_terminalsOnly
  obtain ⟨hlevel, hvarnum, -⟩ := setVarnum_runsOut_terminals
    (cleanlyReachable_ordered hk).2.structured terminalsOnly_runsOut
  exact ⟨.step _ hk.reachable, hlevel, hvarnum⟩

end Kernel

end DecisionDiagrams
