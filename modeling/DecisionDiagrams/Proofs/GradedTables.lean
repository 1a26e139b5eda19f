/-
Tables whose internal nodes are graded.

A declaration of variables that runs out of nodes leaves the terminals at a level that no longer
lies below every internal node, so not every reachable table is in level order. What every
reachable table keeps is the order among its internal nodes: each lies above those of its
children that are internal (`Kernel.Graded`). The recursions, the walks and the nodes a node
reaches never read the level of a terminal. Moving the terminals of a graded table below every
internal node gives a table in level order that agrees with it on all of these, so the theory of
ordered tables carries over through that move.

* `Kernel.Graded` — the invariant, and `Kernel.AboveInternal`, the guard under which a new node
  keeps it.
* `Graded.levels_setTerminals` — a graded table with its terminals below every node is in level
  order; `Recursion.find_setTerminals`, `walk_setTerminals`, `reaches_setTerminals` — moving the
  terminals changes no answer found, no walk and no node reached.
* `reachable_graded` — every reachable table is structured and graded, with sound caches.
* `Recursion.Computes.find_walk_graded`, `eq_of_walk_eq_graded`, `reaches_level_iff_graded` — on
  a graded table what a recursion finds meets its specification, a node is determined by its
  function, and a node depends exactly on the levels of the internal nodes it reaches.
-/
import DecisionDiagrams.Proofs.Canonicity
import DecisionDiagrams.Proofs.Compilation

namespace DecisionDiagrams

namespace Kernel

/-! ### The invariant -/

/-- Every internal node lies above each of its children that is an internal node. Nothing is
said of the level of the terminals. -/
structure Graded (k : Kernel) : Prop where
  low : ∀ i, 2 ≤ i → i < k.nodes.size → 2 ≤ (k.entry i).low →
    k.level i < k.level (k.entry i).low
  high : ∀ i, 2 ≤ i → i < k.nodes.size → 2 ≤ (k.entry i).high →
    k.level i < k.level (k.entry i).high

theorem Levels.graded {k : Kernel} (hl : Levels k) : Graded k :=
  ⟨fun i h2 hi _ => hl.low i h2 hi, fun i h2 hi _ => hl.high i h2 hi⟩

/-- A table with the same nodes is graded alike. -/
theorem Graded.of_eq {k k' : Kernel} (hg : Graded k) (hn : k'.nodes = k.nodes) : Graded k' := by
  have he : ∀ i, k'.entry i = k.entry i := fun i => by simp [Kernel.entry, hn]
  have hlv : ∀ i, k'.level i = k.level i := fun i => by simp [Kernel.level, he]
  refine ⟨fun i h2 hi hc => ?_, fun i h2 hi hc => ?_⟩
  · rw [he] at hc ⊢
    rw [hlv, hlv]
    exact hg.low i h2 (by rwa [hn] at hi) hc
  · rw [he] at hc ⊢
    rw [hlv, hlv]
    exact hg.high i h2 (by rwa [hn] at hi) hc

/-- The guard of the grading: a node of level `level` over children `a` and `b` lies above each
of them that is an internal node. -/
def AboveInternal (k : Kernel) (level a b : Nat) : Prop :=
  (2 ≤ a → level < k.level a) ∧ (2 ≤ b → level < k.level b)

/-- A table with one more node, above its internal children, stays graded. -/
theorem Graded.push {k k' : Kernel} (hg : Graded k) (hs : Structured k) {level a b : Nat}
    (hn : k'.nodes = k.nodes.push ⟨level, a, b⟩) (ha : a < k.nodes.size)
    (hb : b < k.nodes.size) (habove : AboveInternal k level a b) : Graded k' := by
  have hentry := entry_of_nodes_eq_push hn
  have hold : ∀ i, i < k.nodes.size → k'.level i = k.level i := fun i hi => by
    simp only [Kernel.level, hentry, if_neg (Nat.ne_of_lt hi)]
  have hsize : k'.nodes.size = k.nodes.size + 1 := by simp [hn]
  -- the nodes of `k` keep their entries; the new one is the triple, above its children
  have hcases : ∀ i, 2 ≤ i → i < k'.nodes.size →
      (k'.entry i = k.entry i ∧ i < k.nodes.size) ∨
        (k'.entry i = ⟨level, a, b⟩ ∧ k'.level i = level) := by
    intro i _ hi
    rcases Nat.lt_or_ge i k.nodes.size with hlt | hge
    · exact .inl ⟨by rw [hentry, if_neg (Nat.ne_of_lt hlt)], hlt⟩
    · have hi' : i = k.nodes.size := by omega
      exact .inr ⟨by rw [hentry, if_pos hi'], by simp [Kernel.level, hentry, hi']⟩
  refine ⟨fun i h2 hi hc => ?_, fun i h2 hi hc => ?_⟩
  · rcases hcases i h2 hi with ⟨he, hlt⟩ | ⟨he, hlv⟩
    · rw [he] at hc ⊢
      rw [hold i hlt, hold _ (Nat.lt_trans (hs.children i h2 hlt).1 hlt)]
      exact hg.low i h2 hlt hc
    · rw [he] at hc ⊢
      rw [hlv, hold a ha]
      exact habove.1 hc
  · rcases hcases i h2 hi with ⟨he, hlt⟩ | ⟨he, hlv⟩
    · rw [he] at hc ⊢
      rw [hold i hlt, hold _ (Nat.lt_trans (hs.children i h2 hlt).2.1 hlt)]
      exact hg.high i h2 hlt hc
    · rw [he] at hc ⊢
      rw [hlv, hold b hb]
      exact habove.2 hc

/-- Node creation keeps the grading when the new node would lie above its internal children. -/
theorem Graded.node {k : Kernel} (hg : Graded k) (hs : Structured k) (level : Nat)
    {lo hi : Option Nat} (hlo : ∀ a, lo = some a → a < k.nodes.size)
    (hhi : ∀ b, hi = some b → b < k.nodes.size)
    (hguard : ∀ a b, lo = some a → hi = some b → AboveInternal k level a b) :
    Graded (node level lo hi k).2 := by
  rcases node_cases level lo hi k with ⟨f, hf⟩ | ⟨f, a, b, -, -, hf⟩ |
    ⟨f, a, b, rfl, rfl, -, -, -, hf⟩
  · rw [hf]
    exact hg.of_eq rfl
  · rw [hf]
    exact hg.of_eq rfl
  · rw [hf]
    exact hg.push hs (by simp) (hlo a rfl) (hhi b rfl) (hguard a b rfl rfl)

/-- Counting, recording faults and creating nodes above their internal children keep the
grading, and the soundness of the caches with it. -/
theorem graded_tableInvariant :
    TableInvariant (fun k => CacheSound k ∧ Graded k) AboveInternal where
  count f h hs := ⟨cacheSound_tableInvariant.count f h.1 hs, h.2.of_eq rfl⟩
  record f h hs := ⟨cacheSound_tableInvariant.record f h.1 hs, h.2.of_eq rfl⟩
  node level lo hi h hs hlo hhi hg :=
    ⟨cacheSound_tableInvariant.node level lo hi h.1 hs hlo hhi fun _ _ _ _ => trivial,
      h.2.node hs level hlo hhi hg⟩

/-! ### Moving the terminals below every node -/

theorem setTerminals_level (T : Nat) (k : Kernel) {i : Nat} (h2 : 2 ≤ i) :
    (k.setTerminals T).level i = k.level i := by
  simp only [Kernel.level, setTerminals_entry T k h2]

theorem setTerminals_level_terminal (T : Nat) {k : Kernel} (hs : Structured k) {c : Nat}
    (hc : c < 2) : (k.setTerminals T).level c = T := by
  obtain rfl | rfl : c = 0 ∨ c = 1 := by omega
  · simp [Kernel.level, setTerminals_entry_zero T hs.two_le]
  · simp [Kernel.level, setTerminals_entry_one T hs.two_le]

theorem setTerminals_lowOf (T : Nat) (k : Kernel) {i : Nat} (h2 : 2 ≤ i) :
    (k.setTerminals T).lowOf i = k.lowOf i := by
  simp only [Kernel.lowOf, setTerminals_entry T k h2]

theorem setTerminals_highOf (T : Nat) (k : Kernel) {i : Nat} (h2 : 2 ≤ i) :
    (k.setTerminals T).highOf i = k.highOf i := by
  simp only [Kernel.highOf, setTerminals_entry T k h2]

/-- Moving the terminals keeps the grading, which does not read their level. -/
theorem Graded.setTerminals {k : Kernel} (hg : Graded k) (T : Nat) :
    Graded (k.setTerminals T) := by
  refine ⟨fun i h2 hi hc => ?_, fun i h2 hi hc => ?_⟩
  · rw [setTerminals_entry T k h2] at hc ⊢
    rw [setTerminals_level T k h2, setTerminals_level T k hc]
    exact hg.low i h2 (by simpa using hi) hc
  · rw [setTerminals_entry T k h2] at hc ⊢
    rw [setTerminals_level T k h2, setTerminals_level T k hc]
    exact hg.high i h2 (by simpa using hi) hc

/-- Every table has a level below all its nodes. -/
theorem exists_level_bound (k : Kernel) : ∃ T, ∀ i, i < k.nodes.size → k.level i < T := by
  refine ⟨(∑ j ∈ Finset.range k.nodes.size, k.level j) + 1, fun i hi => ?_⟩
  have hle : k.level i ≤ ∑ j ∈ Finset.range k.nodes.size, k.level j :=
    Finset.single_le_sum (fun j _ => Nat.zero_le (k.level j)) (Finset.mem_range.2 hi)
  omega

/-- A graded table with its terminals at a level below all its nodes is in level order. -/
theorem Graded.levels_setTerminals {k : Kernel} (hg : Graded k) (hs : Structured k) {T : Nat}
    (hT : ∀ i, i < k.nodes.size → k.level i < T) : Levels (k.setTerminals T) where
  terminals := by rw [setTerminals_entry_one T hs.two_le, setTerminals_entry_zero T hs.two_le]
  below i h2 hi := by
    rw [setTerminals_entry_zero T hs.two_le, setTerminals_level T k h2]
    exact hT i (by simpa using hi)
  low i h2 hi := by
    have hi' : i < k.nodes.size := by simpa using hi
    rw [setTerminals_entry T k h2, setTerminals_level T k h2]
    -- an internal child lies below the node, a terminal child at `T`
    by_cases hc : 2 ≤ (k.entry i).low
    · rw [setTerminals_level T k hc]
      exact hg.low i h2 hi' hc
    · rw [setTerminals_level_terminal T hs (by omega)]
      exact hT i hi'
  high i h2 hi := by
    have hi' : i < k.nodes.size := by simpa using hi
    rw [setTerminals_entry T k h2, setTerminals_level T k h2]
    by_cases hc : 2 ≤ (k.entry i).high
    · rw [setTerminals_level T k hc]
      exact hg.high i h2 hi' hc
    · rw [setTerminals_level_terminal T hs (by omega)]
      exact hT i hi'

/-- Moving the terminals back: a table extends the one with its terminals moved. -/
theorem extends_of_setTerminals (T : Nat) (k : Kernel) : Extends (k.setTerminals T) k where
  size_le := by simp
  entry i h2 _ := (setTerminals_entry T k h2).symm
  unique _ _ h := h

/-- Moving the terminals changes no answer that a recursion finds. -/
theorem Recursion.find_setTerminals {κ : Type} (R : Recursion κ) {k : Kernel}
    (hs : Structured k) (T : Nat) {x : κ} (hx : R.inRange k x) :
    R.find (k.setTerminals T) x = R.find k x := by
  have hx' := R.inRange_mono x (extends_setTerminals T k) hx
  cases h : R.find k x with
  | some v => exact R.find_mono hs (extends_setTerminals T k) x v hx h
  | none =>
    cases h' : R.find (k.setTerminals T) x with
    | none => rfl
    | some v =>
      rw [R.find_mono (hs.setTerminals T) (extends_of_setTerminals T k) x v hx' h'] at h
      cases h

/-- Moving the terminals changes no walk from a node of the table. -/
theorem walk_setTerminals (T : Nat) {k : Kernel} (σ : Nat → Bool) {n : Nat}
    (hn : n < k.nodes.size) : (k.setTerminals T).walk σ n = k.walk σ n :=
  walk_extends (extends_setTerminals T k) σ n hn

/-- Moving the terminals changes no node reached. -/
theorem reaches_setTerminals (T : Nat) {k : Kernel} {r i : Nat} :
    Reaches (k.setTerminals T) r i ↔ Reaches k r i :=
  ⟨Reaches.of_children fun _ _ h2 =>
      ⟨(setTerminals_lowOf T k h2).symm, (setTerminals_highOf T k h2).symm⟩,
    Reaches.of_children fun _ _ h2 => ⟨setTerminals_lowOf T k h2, setTerminals_highOf T k h2⟩⟩

/-! ### Every reachable table is graded -/

/-- A recursion with a lower bound on the level of its answers asks, on a graded table, only for
nodes above their internal children: the bound holds of the table with its terminals moved below
every node, which answers the same. -/
theorem Recursion.LevelBound.guarded_graded {κ : Type} {R : Recursion κ}
    {lb : Kernel → κ → Nat} (hb : R.LevelBound lb) {I : Kernel → Prop}
    (hI : ∀ k, I k → Graded k) : R.Guarded I AboveInternal := by
  intro k x a b hIk hs hx hbase ha hb'
  obtain ⟨T, hT⟩ := exists_level_bound k
  have hext := extends_setTerminals T k
  have hl := (hI k hIk).levels_setTerminals hs hT
  have hs' := hs.setTerminals T
  have hr := R.split_inRange x hs hx hbase
  have hsplit := R.split_stable x hext hx hbase
  have hlt := hb.split_lt hs' hl (R.inRange_mono x hext hx)
    ((R.base_stable x hext hx).trans hbase)
  rw [hsplit] at hlt
  -- the answers of the children lie at or below their bounds in the moved table
  have hla := hb.find_level hs' hl _ a (R.inRange_mono _ hext hr.1)
    (by rw [R.find_setTerminals hs T hr.1]; exact ha)
  have hlb := hb.find_level hs' hl _ b (R.inRange_mono _ hext hr.2)
    (by rw [R.find_setTerminals hs T hr.2]; exact hb')
  refine ⟨fun h2 => ?_, fun h2 => ?_⟩
  · rw [← setTerminals_level T k h2]
    exact Nat.lt_of_lt_of_le hlt.1 hla
  · rw [← setTerminals_level T k h2]
    exact Nat.lt_of_lt_of_le hlt.2 hlb

/-- Storing an entry changes the caches only, so it keeps the grading. -/
theorem graded_write {k : Kernel} (a r : Array CacheEntry) (hg : Graded k) :
    Graded { k with applyCache := a, restrictCache := r } :=
  hg.of_eq rfl

theorem setVarnum_graded (num : Int) {k : Kernel} (hs : Structured k) (hc : CacheSound k)
    (hg : Graded k) :
    Structured ((setVarnum num).run k).2 ∧ CacheSound ((setVarnum num).run k).2 ∧
      Graded ((setVarnum num).run k).2 := by
  -- the literals have the terminals as children, and the terminals' level is no part of the
  -- grading
  obtain ⟨⟨hc', hg'⟩, hs'⟩ := setVarnum_invariant graded_tableInvariant
    (fun _ _ _ ha hb => ⟨fun h => by omega, fun h => by omega⟩)
    (fun _ h hs => ⟨h.1.mono hs (.of_eq rfl rfl) rfl rfl, h.2.of_eq rfl⟩)
    (fun n h hs => ⟨h.1.mono hs (extends_setTerminals n _) rfl rfl, h.2.setTerminals n⟩)
    (fun _ h hs => ⟨h.1.mono hs (.of_eq rfl rfl) rfl rfl, h.2.of_eq rfl⟩) num ⟨hc, hg⟩ hs
  exact ⟨hs', hc', hg'⟩

theorem gradedOf (k : Kernel) (h : CacheSound k ∧ Graded k) : Graded k :=
  h.2

/-- One operation keeps the shape of the table, the soundness of its caches and the grading. -/
theorem perform_graded (op : Op) {k : Kernel} (hs : Structured k) (hc : CacheSound k)
    (hg : Graded k) :
    Structured (perform op k) ∧ CacheSound (perform op k) ∧ Graded (perform op k) := by
  rcases perform_cases op k with ⟨fs, h⟩ | ⟨num, rfl⟩ | ⟨n, rfl⟩ | ⟨l, r, o, rfl⟩ |
    ⟨n, level, val, rfl⟩
  · rw [h]
    exact ⟨hs.of_eq _ rfl rfl rfl, hc.mono hs (.of_eq rfl rfl) rfl rfl, hg.of_eq rfl⟩
  · exact setVarnum_graded num hs hc hg
  · obtain ⟨⟨hc', hg'⟩, hs'⟩ := negate_invariant graded_tableInvariant
      (negMemo_sound.and graded_write) (negRec_levelBound.guarded_graded gradedOf)
      n ⟨hc, hg⟩ hs
    exact ⟨hs', hc', hg'⟩
  · obtain ⟨⟨hc', hg'⟩, hs'⟩ := apply_invariant graded_tableInvariant
      (fun o => (applyMemo_sound o).and graded_write)
      (fun o => (applyRec_levelBound o).guarded_graded gradedOf) l r o ⟨hc, hg⟩ hs
    exact ⟨hs', hc', hg'⟩
  · obtain ⟨⟨hc', hg'⟩, hs'⟩ := restrict_invariant graded_tableInvariant
      (fun level val h => (restrictMemo_sound_of_nonneg level val h).and graded_write)
      (fun _ _ _ => (restrictRec_levelBound _ _).guarded_graded gradedOf)
      n level val ⟨hc, hg⟩ hs
    exact ⟨hs', hc', hg'⟩

/-- Every reachable table is structured and graded, and its caches are sound. A created table is
in level order; every operation keeps the grading, also a declaration that runs out of nodes. -/
theorem reachable_graded {k : Kernel} (h : Reachable k) :
    Structured k ∧ CacheSound k ∧ Graded k := by
  induction h with
  | create h =>
    obtain ⟨hc, ho⟩ := create_ordered h
    exact ⟨ho.structured, hc, ho.levels.graded⟩
  | step op _ ih => exact perform_graded op ih.1 ih.2.1 ih.2.2

/-! ### The theory of ordered tables on graded tables -/

/-- A specification met on a weaker invariant is met on a stronger one. -/
theorem Recursion.Computes.mono {κ : Type} {R : Recursion κ} {I I' : Kernel → Prop}
    {spec : Kernel → κ → (Nat → Bool) → Nat} (hc : R.Computes I spec)
    (h : ∀ k, I' k → I k) : R.Computes I' spec :=
  ⟨fun σ hI hs hx hb => hc.base σ (h _ hI) hs hx hb,
    fun σ hI hs hx hb => hc.split σ (h _ hI) hs hx hb, hc.stable⟩

/-- What a recursion finds on a graded table meets every specification that it meets on tables
in level order. -/
theorem Recursion.Computes.find_walk_graded {κ : Type} {R : Recursion κ}
    {spec : Kernel → κ → (Nat → Bool) → Nat} (hc : R.Computes Levels spec) {k : Kernel}
    (hs : Structured k) (hg : Graded k) {x : κ} {v : Nat} (hx : R.inRange k x)
    (hv : R.find k x = some v) (σ : Nat → Bool) : k.walk σ v = spec k x σ := by
  obtain ⟨T, hT⟩ := exists_level_bound k
  have hx' := R.inRange_mono x (extends_setTerminals T k) hx
  have hv' : R.find (k.setTerminals T) x = some v := by
    rw [R.find_setTerminals hs T hx]
    exact hv
  have hw := hc.find_walk (hg.levels_setTerminals hs hT) (hs.setTerminals T) x v hx' hv' σ
  rw [walk_setTerminals T σ (R.find_lt hs x v hx hv),
    ← hc.stable σ (extends_of_setTerminals T k) hx'] at hw
  exact hw

/-- Canonicity on every graded table: two nodes that compute the same function are one node. -/
theorem eq_of_walk_eq_graded {k : Kernel} (hs : Structured k) (hg : Graded k) {a b : Nat}
    (ha : a < k.nodes.size) (hb : b < k.nodes.size) (h : ∀ σ, k.walk σ a = k.walk σ b) :
    a = b := by
  obtain ⟨T, hT⟩ := exists_level_bound k
  refine eq_of_walk_eq (hs.setTerminals T) (hg.levels_setTerminals hs hT) (by simpa using ha)
    (by simpa using hb) fun σ => ?_
  rw [walk_setTerminals T σ ha, walk_setTerminals T σ hb, h σ]

/-- On a graded table a node depends exactly on the levels of the internal nodes it reaches. -/
theorem reaches_level_iff_graded {k : Kernel} (hs : Structured k) (hg : Graded k) {n : Nat}
    (hn : n < k.nodes.size) (l : Nat) :
    (∃ i, Reaches k n i ∧ 2 ≤ i ∧ k.level i = l) ↔ k.DependsOn n l := by
  obtain ⟨T, hT⟩ := exists_level_bound k
  have h := reaches_level_iff (hs.setTerminals T) (hg.levels_setTerminals hs hT)
    (by simpa using hn) l
  have hdep : (k.setTerminals T).DependsOn n l ↔ k.DependsOn n l := by
    simp only [DependsOn, walk_setTerminals T _ hn]
  rw [← hdep, ← h]
  constructor
  · rintro ⟨i, hi, h2, rfl⟩
    exact ⟨i, (reaches_setTerminals T).2 hi, h2, setTerminals_level T k h2⟩
  · rintro ⟨i, hi, h2, rfl⟩
    exact ⟨i, (reaches_setTerminals T).1 hi, h2, (setTerminals_level T k h2).symm⟩

end Kernel

end DecisionDiagrams
