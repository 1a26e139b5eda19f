/-
Ordered decision graphs and their canonicity.

A decision graph gives each node id a shape: a terminal with its value, or a test of a level
with a low and a high child. A walk from a node under an assignment of the levels follows the
child that the tested level's value chooses. In an ordered graph the children of a test lie
below it, so a walk from a node reached from the root ends at a terminal within as many steps as
there are levels, and the value of that terminal is the node's function. In a reduced graph no
test has equal children, no two tests share level and children, and each terminal value is one
node. Then distinct nodes have distinct functions, and two reduced graphs of one function are
isomorphic.

* `Graph.eval_test` — Shannon expansion: a test computes its high child where its level is
  true, its low child elsewhere.
* `Graph.Reduced.eq_of_eval_eq` — in a reduced graph a node is determined by its function.
* `Graph.exists_eval_eq` — each node of an ordered graph has a node with the same function in a
  reduced graph of the same function.
* `Graph.iso_of_eval_eq` — canonicity: two reduced graphs of one function are isomorphic.
* `Graph.exists_reduction` — an ordered graph maps onto a reduced graph of the same function,
  merging the tests whose children have one image and keeping the others.
-/
import DecisionDiagrams.Proofs.NodeFunctions

namespace DecisionDiagrams

/-- A node of a decision graph, its children named by id. -/
inductive Shape
  | leaf (b : Bool)
  | test (level low high : Nat)
  deriving DecidableEq, Repr

/-- The same shape with its children renamed. -/
def Shape.rename (φ : Nat → Nat) : Shape → Shape
  | leaf b => leaf b
  | test L lo hi => test L (φ lo) (φ hi)

/-- A decision graph: the shape of each node id, `none` off the graph. -/
structure Graph where
  shape : Nat → Option Shape

namespace Graph

open Kernel (fixLevel fixLevel_same fixLevel_ne)

variable (G : Graph)

/-- The nodes reached from a root through the children of tests. -/
inductive Reach (r : Nat) : Nat → Prop
  | root : Reach r r
  | low {n L lo hi : Nat} : Reach r n → G.shape n = some (.test L lo hi) → Reach r lo
  | high {n L lo hi : Nat} : Reach r n → G.shape n = some (.test L lo hi) → Reach r hi

/-- The level of a node: the level it tests, or `N`, below every level, for a terminal. -/
def rank (N n : Nat) : Nat :=
  match G.shape n with
  | some (.test L _ _) => L
  | _ => N

/-- One step of a walk: a test goes to the child its level's value chooses, a terminal stays. -/
def step (τ : Nat → Bool) (n : Nat) : Nat :=
  match G.shape n with
  | some (.test L lo hi) => if τ L then hi else lo
  | _ => n

/-- The node a walk from `n` is at after `k` steps. -/
def walk (τ : Nat → Bool) : Nat → Nat → Nat
  | 0, n => n
  | k + 1, n => walk τ k (G.step τ n)

/-- The value of a terminal, false for any other node. -/
def leafValue (n : Nat) : Bool :=
  match G.shape n with
  | some (.leaf b) => b
  | _ => false

/-- The function of a node over `N` levels: the value where a walk of `N` steps ends. -/
def eval (N : Nat) (τ : Nat → Bool) (n : Nat) : Bool :=
  G.leafValue (G.walk τ N n)

/-- The graph's children lie below their tests, within `N` levels, from root `r` on. -/
structure Ordered (N r : Nat) : Prop where
  closed : ∀ n, G.Reach r n → G.shape n ≠ none
  below : ∀ n L lo hi, G.Reach r n → G.shape n = some (.test L lo hi) →
    L < N ∧ L < G.rank N lo ∧ L < G.rank N hi

/-- An ordered graph with no redundant test and no two nodes of the same shape. -/
structure Reduced (N r : Nat) : Prop extends Ordered G N r where
  children_ne : ∀ n L lo hi, G.Reach r n → G.shape n = some (.test L lo hi) → lo ≠ hi
  tests_inj : ∀ n m L lo hi, G.Reach r n → G.Reach r m → G.shape n = some (.test L lo hi) →
    G.shape m = some (.test L lo hi) → n = m
  leaves_inj : ∀ n m b, G.Reach r n → G.Reach r m → G.shape n = some (.leaf b) →
    G.shape m = some (.leaf b) → n = m

/-- A node depends on a level when setting the level true and false gives it different values
somewhere. -/
def DependsOn (N n L : Nat) : Prop :=
  ∃ τ, G.eval N (fixLevel τ L true) n ≠ G.eval N (fixLevel τ L false) n

variable {G}

/-! ### Walks -/

theorem rank_test {N n L lo hi : Nat} (h : G.shape n = some (.test L lo hi)) : G.rank N n = L := by
  rw [rank, h]

theorem rank_leaf {N n : Nat} {b : Bool} (h : G.shape n = some (.leaf b)) : G.rank N n = N := by
  rw [rank, h]

theorem step_test {τ : Nat → Bool} {n L lo hi : Nat} (h : G.shape n = some (.test L lo hi)) :
    G.step τ n = if τ L then hi else lo := by
  rw [step, h]

theorem step_leaf {τ : Nat → Bool} {n : Nat} {b : Bool} (h : G.shape n = some (.leaf b)) :
    G.step τ n = n := by
  rw [step, h]

theorem walk_leaf {τ : Nat → Bool} {n : Nat} {b : Bool} (h : G.shape n = some (.leaf b)) :
    ∀ k, G.walk τ k n = n
  | 0 => rfl
  | k + 1 => by rw [walk, step_leaf h, walk_leaf h k]

theorem eval_leaf {N : Nat} {τ : Nat → Bool} {n : Nat} {b : Bool}
    (h : G.shape n = some (.leaf b)) : G.eval N τ n = b := by
  rw [eval, walk_leaf h, leafValue, h]

theorem Reach.step {r n : Nat} (h : G.Reach r n) (τ : Nat → Bool) : G.Reach r (G.step τ n) := by
  unfold Graph.step
  split
  · rename_i L lo hi hs
    split
    · exact h.high hs
    · exact h.low hs
  · exact h

theorem Reach.walk {r n : Nat} (h : G.Reach r n) (τ : Nat → Bool) :
    ∀ k, G.Reach r (G.walk τ k n) := by
  intro k
  induction k generalizing n with
  | zero => exact h
  | succ k ih => exact ih (h.step τ)

/-- Reaching is transitive: what a reached node reaches is reached. -/
theorem Reach.trans {r n m : Nat} (hn : G.Reach r n) (hm : G.Reach n m) : G.Reach r m := by
  induction hm with
  | root => exact hn
  | low _ hs ih => exact ih.low hs
  | high _ hs ih => exact ih.high hs

section Ordered

variable {N r : Nat} (hG : G.Ordered N r)
include hG

/-- A walk from a reached node rests at a terminal once it has taken as many steps as there are
levels below the node. -/
theorem Ordered.walk_stable {τ : Nat → Bool} :
    ∀ d n, N - G.rank N n = d → G.Reach r n →
      (∃ b, G.shape (G.walk τ d n) = some (.leaf b)) ∧
        ∀ k, d ≤ k → G.walk τ k n = G.walk τ d n := by
  intro d
  induction d using Nat.strongRecOn with
  | ind d ih =>
  intro n hd hn
  rcases hs : G.shape n with _ | s
  · exact absurd hs (hG.closed n hn)
  cases s with
  | leaf b =>
    refine ⟨⟨b, by rw [walk_leaf hs, hs]⟩, fun k _ => by rw [walk_leaf hs, walk_leaf hs]⟩
  | test L lo hi =>
    -- one step down to a child that lies below, then the child's walk
    obtain ⟨hLN, hlo, hhi⟩ := hG.below n L lo hi hn hs
    rw [rank_test hs] at hd
    have hc : N - G.rank N (G.step τ n) < d ∧ G.Reach r (G.step τ n) := by
      refine ⟨?_, hn.step τ⟩
      rw [step_test hs]
      split <;> omega
    obtain ⟨d', hd'⟩ : ∃ d', d = d' + 1 := ⟨d - 1, by omega⟩
    subst hd'
    obtain ⟨hleaf, hrest⟩ := ih _ hc.1 _ rfl hc.2
    have hd'c : N - G.rank N (G.step τ n) ≤ d' := by omega
    refine ⟨?_, fun k hk => ?_⟩
    · rw [walk, hrest d' hd'c]
      exact hleaf
    · obtain ⟨k', rfl⟩ : ∃ k', k = k' + 1 := ⟨k - 1, by omega⟩
      rw [walk, walk, hrest k' (by omega), hrest d' hd'c]

/-- The function of a reached node is read where its shortest complete walk ends. -/
theorem Ordered.eval_eq_walk {τ : Nat → Bool} {n : Nat} (hn : G.Reach r n) :
    G.eval N τ n = G.leafValue (G.walk τ (N - G.rank N n) n) := by
  rw [eval, (hG.walk_stable _ n rfl hn).2 N (Nat.sub_le N _)]

/-- Shannon expansion: a test computes its high child where its level is true, its low child
elsewhere. -/
theorem eval_test {τ : Nat → Bool} {n L lo hi : Nat} (hn : G.Reach r n)
    (hs : G.shape n = some (.test L lo hi)) :
    G.eval N τ n = if τ L then G.eval N τ hi else G.eval N τ lo := by
  obtain ⟨hLN, hlo, hhi⟩ := hG.below n L lo hi hn hs
  obtain ⟨N', rfl⟩ : ∃ N', N = N' + 1 := ⟨N - 1, by omega⟩
  -- both children rest at a terminal within the remaining steps
  have hrest : ∀ c, G.Reach r c → L < G.rank (N' + 1) c →
      G.walk τ N' c = G.walk τ (N' + 1) c := fun c hc hlt => by
    rw [(hG.walk_stable _ c rfl hc).2 N' (by omega),
      (hG.walk_stable _ c rfl hc).2 (N' + 1) (by omega)]
  rw [eval, walk, step_test hs]
  split
  · rw [hrest hi (hn.high hs) hhi, eval]
  · rw [hrest lo (hn.low hs) hlo, eval]

/-- A node reads only its own level and the levels below it, down to the last. -/
theorem eval_congr {τ τ' : Nat → Bool} :
    ∀ n, G.Reach r n → (∀ L, G.rank N n ≤ L → L < N → τ L = τ' L) →
      G.eval N τ n = G.eval N τ' n := by
  -- induction on the number of levels below the node
  suffices h : ∀ d n, N - G.rank N n = d → G.Reach r n →
      (∀ L, G.rank N n ≤ L → L < N → τ L = τ' L) → G.eval N τ n = G.eval N τ' n from
    fun n => h _ n rfl
  intro d
  induction d using Nat.strongRecOn with
  | ind d ih =>
  intro n hd hn hτ
  rcases hs : G.shape n with _ | s
  · exact absurd hs (hG.closed n hn)
  cases s with
  | leaf b => rw [eval_leaf hs, eval_leaf hs]
  | test L lo hi =>
    obtain ⟨hLN, hlo, hhi⟩ := hG.below n L lo hi hn hs
    rw [rank_test hs] at hd hτ
    have hchild : ∀ c, G.Reach r c → L < G.rank N c → G.eval N τ c = G.eval N τ' c :=
      fun c hc hlt => ih _ (by omega) c rfl hc fun L' hL' hL'N => hτ L' (by omega) hL'N
    rw [eval_test hG hn hs, eval_test hG hn hs, hτ L (Nat.le_refl L) hLN,
      hchild hi (hn.high hs) hhi, hchild lo (hn.low hs) hlo]

/-- Fixing a level above a node changes nothing. -/
theorem eval_fixLevel_of_lt {τ : Nat → Bool} {n L : Nat} (hn : G.Reach r n) (hL : L < G.rank N n)
    (b : Bool) : G.eval N (fixLevel τ L b) n = G.eval N τ n :=
  eval_congr hG n hn fun L' hL' _ => fixLevel_ne τ b (by omega)

/-- The low child computes its test with the test's level false. -/
theorem eval_low {τ : Nat → Bool} {n L lo hi : Nat} (hn : G.Reach r n)
    (hs : G.shape n = some (.test L lo hi)) : G.eval N τ lo = G.eval N (fixLevel τ L false) n := by
  rw [eval_test hG hn hs, fixLevel_same, if_neg Bool.false_ne_true,
    eval_fixLevel_of_lt hG (hn.low hs) (hG.below n L lo hi hn hs).2.1]

/-- The high child computes its test with the test's level true. -/
theorem eval_high {τ : Nat → Bool} {n L lo hi : Nat} (hn : G.Reach r n)
    (hs : G.shape n = some (.test L lo hi)) : G.eval N τ hi = G.eval N (fixLevel τ L true) n := by
  rw [eval_test hG hn hs, fixLevel_same, if_pos rfl,
    eval_fixLevel_of_lt hG (hn.high hs) (hG.below n L lo hi hn hs).2.2]

/-- A node depends only on its own level and those below it. -/
theorem DependsOn.rank_le {n L : Nat} (hn : G.Reach r n) (h : G.DependsOn N n L) :
    G.rank N n ≤ L := by
  obtain ⟨τ, hτ⟩ := h
  by_contra hlt
  apply hτ
  rw [eval_fixLevel_of_lt hG hn (by omega), eval_fixLevel_of_lt hG hn (by omega)]

/-- A node reached stands at a level or at the terminals' rank below them. -/
theorem Ordered.rank_le {n : Nat} (hn : G.Reach r n) : G.rank N n ≤ N := by
  rcases hs : G.shape n with _ | s
  · exact absurd hs (hG.closed n hn)
  cases s with
  | leaf b => rw [rank_leaf hs]
  | test L lo hi =>
    rw [rank_test hs]
    exact (hG.below n L lo hi hn hs).1.le

end Ordered

/-! ### Reduced graphs -/

section Reduced

variable {N r : Nat} (hG : G.Reduced N r)
include hG

/-- In a reduced graph a node is determined by its function. A test with the function of a
node below its level would have two children with that function, hence equal children; so two
nodes with one function test one level, and their children are equal by induction. -/
theorem Reduced.eq_of_eval_eq {n m : Nat} (hn : G.Reach r n) (hm : G.Reach r m)
    (h : ∀ τ, G.eval N τ n = G.eval N τ m) : n = m := by
  -- induction on the levels below the two nodes together
  suffices hsum : ∀ s n m, (N - G.rank N n) + (N - G.rank N m) = s → G.Reach r n →
      G.Reach r m → (∀ τ, G.eval N τ n = G.eval N τ m) → n = m from hsum _ n m rfl hn hm h
  intro s
  induction s using Nat.strongRecOn with
  | ind s ih =>
  intro n m hsum hn hm h
  -- a test whose function is that of a node below its level has equal children
  have collapse : ∀ {n m L lo hi}, (N - G.rank N n) + (N - G.rank N m) = s → G.Reach r n →
      G.Reach r m → G.shape n = some (.test L lo hi) → L < G.rank N m →
      (∀ τ, G.eval N τ n = G.eval N τ m) → False := by
    intro n m L lo hi hsum hn hm hs hlt h
    obtain ⟨hLN, hlo, hhi⟩ := hG.below n L lo hi hn hs
    rw [rank_test hs] at hsum
    have elo := ih _ (by omega) lo m rfl (hn.low hs) hm fun τ => by
      rw [eval_low hG.toOrdered hn hs, h, eval_fixLevel_of_lt hG.toOrdered hm hlt]
    have ehi := ih _ (by omega) hi m rfl (hn.high hs) hm fun τ => by
      rw [eval_high hG.toOrdered hn hs, h, eval_fixLevel_of_lt hG.toOrdered hm hlt]
    exact hG.children_ne n L lo hi hn hs (elo.trans ehi.symm)
  rcases hsn : G.shape n with _ | sn
  · exact absurd hsn (hG.closed n hn)
  rcases hsm : G.shape m with _ | sm
  · exact absurd hsm (hG.closed m hm)
  cases sn with
  | leaf b =>
    cases sm with
    | leaf b' =>
      have hb : b = b' := by
        have := h fun _ => false
        rwa [eval_leaf hsn, eval_leaf hsm] at this
      subst hb
      exact hG.leaves_inj n m b hn hm hsn hsm
    | test L' lo' hi' =>
      exact (collapse (by omega) hm hn hsm (by rw [rank_leaf hsn]; exact
        (hG.below m L' lo' hi' hm hsm).1) fun τ => (h τ).symm).elim
  | test L lo hi =>
    cases sm with
    | leaf b' =>
      exact (collapse hsum hn hm hsn (by rw [rank_leaf hsm]; exact
        (hG.below n L lo hi hn hsn).1) h).elim
    | test L' lo' hi' =>
      rcases Nat.lt_trichotomy L L' with hlt | rfl | hgt
      · exact (collapse hsum hn hm hsn (by rw [rank_test hsm]; exact hlt) h).elim
      · -- one level: the children have the same functions, so they are the same
        rw [rank_test hsn, rank_test hsm] at hsum
        obtain ⟨hLN, hlo, hhi⟩ := hG.below n L lo hi hn hsn
        obtain ⟨-, hlo', hhi'⟩ := hG.below m L lo' hi' hm hsm
        have elo := ih _ (by omega) lo lo' rfl (hn.low hsn) (hm.low hsm) fun τ => by
          rw [eval_low hG.toOrdered hn hsn, eval_low hG.toOrdered hm hsm, h]
        have ehi := ih _ (by omega) hi hi' rfl (hn.high hsn) (hm.high hsm) fun τ => by
          rw [eval_high hG.toOrdered hn hsn, eval_high hG.toOrdered hm hsm, h]
        subst elo ehi
        exact hG.tests_inj n m L lo hi hn hm hsn hsm
      · exact (collapse (by omega) hm hn hsm (by rw [rank_test hsn]; exact hgt)
          fun τ => (h τ).symm).elim

/-- A test of a reduced graph depends on its level: its children have different functions. -/
theorem Reduced.dependsOn_test {n L lo hi : Nat} (hn : G.Reach r n)
    (hs : G.shape n = some (.test L lo hi)) : G.DependsOn N n L := by
  have hne := hG.children_ne n L lo hi hn hs
  by_contra hindep
  apply hne
  refine hG.eq_of_eval_eq (hn.low hs) (hn.high hs) fun τ => ?_
  rw [eval_low hG.toOrdered hn hs, eval_high hG.toOrdered hn hs]
  by_contra hτ
  exact hindep ⟨τ, fun h => hτ h.symm⟩

/-- A node whose function is constant is the terminal of that value. -/
theorem Reduced.leaf_of_eval {m : Nat} {b : Bool} (hm : G.Reach r m)
    (h : ∀ τ, G.eval N τ m = b) : G.shape m = some (.leaf b) := by
  rcases hs : G.shape m with _ | s
  · exact absurd hs (hG.closed m hm)
  cases s with
  | leaf b' =>
    have := h fun _ => false
    rw [eval_leaf hs] at this
    rw [this]
  | test L lo hi =>
    obtain ⟨τ, hτ⟩ := hG.dependsOn_test hm hs
    exact absurd ((h _).trans (h _).symm) hτ

/-- Where a node does not depend on the levels above `L`, fixing level `L` gives the function
of a node again. -/
theorem Reduced.exists_fixLevel {m L : Nat} (hm : G.Reach r m)
    (hindep : ∀ L' < L, ¬ G.DependsOn N m L') (b : Bool) :
    ∃ m', G.Reach r m' ∧ ∀ τ, G.eval N τ m' = G.eval N (fixLevel τ L b) m := by
  rcases hs : G.shape m with _ | s
  · exact absurd hs (hG.closed m hm)
  cases s with
  | leaf b' => exact ⟨m, hm, fun τ => by rw [eval_leaf hs, eval_leaf hs]⟩
  | test L' lo hi =>
    rcases Nat.lt_trichotomy L' L with hlt | rfl | hgt
    · exact absurd (hG.dependsOn_test hm hs) (hindep L' hlt)
    · cases b
      · exact ⟨lo, hm.low hs, fun τ => eval_low hG.toOrdered hm hs⟩
      · exact ⟨hi, hm.high hs, fun τ => eval_high hG.toOrdered hm hs⟩
    · refine ⟨m, hm, fun τ => ?_⟩
      rw [eval_fixLevel_of_lt hG.toOrdered hm (by rw [rank_test hs]; exact hgt)]

end Reduced

/-! ### Graphs of one function -/

section Compare

variable {H : Graph} {N r r' : Nat}

/-- Each node of an ordered graph has a node with the same function in a reduced graph of the
same function: follow the path to it, fixing one level at each test. -/
theorem exists_eval_eq (hG : G.Ordered N r) (hH : H.Reduced N r')
    (h : ∀ τ, G.eval N τ r = H.eval N τ r') :
    ∀ n, G.Reach r n → ∃ m, H.Reach r' m ∧ ∀ τ, G.eval N τ n = H.eval N τ m := by
  -- the function of a test of `G` does not depend on the levels above the test
  have hindep : ∀ n L lo hi m, G.Reach r n → G.shape n = some (.test L lo hi) →
      H.Reach r' m → (∀ τ, G.eval N τ n = H.eval N τ m) → ∀ L' < L, ¬ H.DependsOn N m L' := by
    intro n L lo hi m hn hs hm hnm L' hL' ⟨τ, hτ⟩
    apply hτ
    rw [← hnm, ← hnm, eval_fixLevel_of_lt hG hn (by rw [rank_test hs]; exact hL'),
      eval_fixLevel_of_lt hG hn (by rw [rank_test hs]; exact hL')]
  intro n hn
  induction hn with
  | root => exact ⟨r', .root, h⟩
  | @low n L lo hi hn hs ih =>
    obtain ⟨m, hm, hnm⟩ := ih
    obtain ⟨m', hm', hfix⟩ := hH.exists_fixLevel hm (hindep n L lo hi m hn hs hm hnm) false
    exact ⟨m', hm', fun τ => by rw [eval_low hG hn hs, hnm, hfix]⟩
  | @high n L lo hi hn hs ih =>
    obtain ⟨m, hm, hnm⟩ := ih
    obtain ⟨m', hm', hfix⟩ := hH.exists_fixLevel hm (hindep n L lo hi m hn hs hm hnm) true
    exact ⟨m', hm', fun τ => by rw [eval_high hG hn hs, hnm, hfix]⟩

/-- A test of an ordered graph that depends on its level corresponds to a test of the same level
in a reduced graph, with children of the same functions. -/
theorem test_of_eval_eq_of_dependsOn (hG : G.Ordered N r) (hH : H.Reduced N r')
    {n m L lo hi : Nat} (hn : G.Reach r n) (hs : G.shape n = some (.test L lo hi))
    (hdepn : G.DependsOn N n L) (hm : H.Reach r' m) (hnm : ∀ τ, G.eval N τ n = H.eval N τ m) :
    ∃ lo' hi', H.shape m = some (.test L lo' hi') ∧ (∀ τ, G.eval N τ lo = H.eval N τ lo') ∧
      ∀ τ, G.eval N τ hi = H.eval N τ hi' := by
  rcases hsm : H.shape m with _ | s
  · exact absurd hsm (hH.closed m hm)
  -- both nodes depend on their own levels, and only on the levels below them
  have hdep : H.DependsOn N m L := by
    obtain ⟨τ, hτ⟩ := hdepn
    exact ⟨τ, by rwa [← hnm, ← hnm]⟩
  cases s with
  | leaf b =>
    obtain ⟨τ, hτ⟩ := hdep
    exact absurd (by rw [eval_leaf hsm, eval_leaf hsm]) hτ
  | test L' lo' hi' =>
    have hle : L' ≤ L := by simpa [rank_test hsm] using hdep.rank_le hH.toOrdered hm
    have hge : L ≤ L' := by
      have hdep' : G.DependsOn N n L' := by
        obtain ⟨τ, hτ⟩ := hH.dependsOn_test hm hsm
        exact ⟨τ, by rwa [hnm, hnm]⟩
      simpa [rank_test hs] using hdep'.rank_le hG hn
    obtain rfl : L' = L := Nat.le_antisymm hle hge
    refine ⟨lo', hi', rfl, fun τ => ?_, fun τ => ?_⟩
    · rw [eval_low hG hn hs, eval_low hH.toOrdered hm hsm, hnm]
    · rw [eval_high hG hn hs, eval_high hH.toOrdered hm hsm, hnm]

/-- A test of a reduced graph corresponds to a test of the same level in another reduced graph,
with children of the same functions. -/
theorem Reduced.test_of_eval_eq (hG : G.Reduced N r) (hH : H.Reduced N r') {n m L lo hi : Nat}
    (hn : G.Reach r n) (hs : G.shape n = some (.test L lo hi)) (hm : H.Reach r' m)
    (hnm : ∀ τ, G.eval N τ n = H.eval N τ m) :
    ∃ lo' hi', H.shape m = some (.test L lo' hi') ∧ (∀ τ, G.eval N τ lo = H.eval N τ lo') ∧
      ∀ τ, G.eval N τ hi = H.eval N τ hi' :=
  test_of_eval_eq_of_dependsOn hG.toOrdered hH hn hs (hG.dependsOn_test hn hs) hm hnm

/-- The map of an ordered graph into a reduced graph of the same function: each node reached goes
to a node reached with its function, which is the only one. -/
theorem exists_eval_map (hG : G.Ordered N r) (hH : H.Reduced N r')
    (h : ∀ τ, G.eval N τ r = H.eval N τ r') :
    ∃ φ : Nat → Nat, (∀ n, G.Reach r n → H.Reach r' (φ n) ∧ ∀ τ, G.eval N τ n = H.eval N τ (φ n)) ∧
      ∀ n m, G.Reach r n → H.Reach r' m → (∀ τ, G.eval N τ n = H.eval N τ m) → φ n = m := by
  classical
  have hex := exists_eval_eq hG hH h
  let φ : Nat → Nat := fun n => if hn : G.Reach r n then Classical.choose (hex n hn) else n
  have hφ : ∀ n (hn : G.Reach r n), H.Reach r' (φ n) ∧ ∀ τ, G.eval N τ n = H.eval N τ (φ n) :=
    fun n hn => by
      simp only [φ, dif_pos hn]
      exact Classical.choose_spec (hex n hn)
  exact ⟨φ, hφ, fun n m hn hm hnm =>
    hH.eq_of_eval_eq (hφ n hn).1 hm fun τ => ((hφ n hn).2 τ).symm.trans (hnm τ)⟩

/-- Canonicity: two reduced graphs of one function are isomorphic. The isomorphism sends each
node reached from the first root to the node with its function, and keeps shapes. -/
theorem iso_of_eval_eq (hG : G.Reduced N r) (hH : H.Reduced N r')
    (h : ∀ τ, G.eval N τ r = H.eval N τ r') :
    ∃ φ : Nat → Nat, φ r = r' ∧
      (∀ n, G.Reach r n → H.Reach r' (φ n) ∧ H.shape (φ n) = (G.shape n).map (Shape.rename φ)) ∧
      (∀ n m, G.Reach r n → G.Reach r m → φ n = φ m → n = m) ∧
      ∀ m, H.Reach r' m → ∃ n, G.Reach r n ∧ φ n = m := by
  -- each node goes to the node of the other graph with its function
  obtain ⟨φ, hφ, huniq⟩ := exists_eval_map hG.toOrdered hH h
  refine ⟨φ, huniq r r' .root .root h, fun n hn => ⟨(hφ n hn).1, ?_⟩,
    fun n m hn hm hφnm => hG.eq_of_eval_eq hn hm fun τ => by rw [(hφ n hn).2, hφnm, (hφ m hm).2],
    fun m hm => ?_⟩
  · rcases hs : G.shape n with _ | s
    · exact absurd hs (hG.closed n hn)
    cases s with
    | leaf b =>
      exact hH.leaf_of_eval (hφ n hn).1 fun τ => by rw [← (hφ n hn).2, eval_leaf hs]
    | test L lo hi =>
      obtain ⟨lo', hi', hsm, hlo, hhi⟩ := hG.test_of_eval_eq hH hn hs (hφ n hn).1 (hφ n hn).2
      rw [hsm, Option.map_some, Shape.rename, huniq lo lo' (hn.low hs) ((hφ n hn).1.low hsm) hlo,
        huniq hi hi' (hn.high hs) ((hφ n hn).1.high hsm) hhi]
  · obtain ⟨n, hn, hmn⟩ := exists_eval_eq hH.toOrdered hG (fun τ => (h τ).symm) m hm
    exact ⟨n, hn, huniq n m hn hm fun τ => (hmn τ).symm⟩

/-! ### Reducing an ordered graph -/

/-- A node of an ordered graph stands at or above a node of a reduced graph with its function: a
test of the reduced graph depends on its level, so the other node does too. -/
theorem rank_le_of_eval_eq (hG : G.Ordered N r) (hH : H.Reduced N r') {n m : Nat}
    (hn : G.Reach r n) (hm : H.Reach r' m) (hnm : ∀ τ, G.eval N τ n = H.eval N τ m) :
    G.rank N n ≤ H.rank N m := by
  rcases hs : H.shape m with _ | s
  · exact absurd hs (hH.closed m hm)
  cases s with
  | leaf b =>
    rw [rank_leaf hs]
    exact hG.rank_le hn
  | test L lo hi =>
    obtain ⟨τ, hτ⟩ := hH.dependsOn_test hm hs
    rw [rank_test hs]
    exact DependsOn.rank_le hG hn ⟨τ, by rwa [hnm, hnm]⟩

/-- Below a node of an ordered graph with the function of a node of a reduced graph, the first
node at the reduced node's level has that function: the tests above that level do not read
their levels. -/
theorem exists_at_rank (hG : G.Ordered N r) (hH : H.Reduced N r') {m : Nat} (hm : H.Reach r' m) :
    ∀ n, G.Reach r n → (∀ τ, G.eval N τ n = H.eval N τ m) →
      ∃ n', G.Reach r n' ∧ G.rank N n' = H.rank N m ∧ ∀ τ, G.eval N τ n' = H.eval N τ m := by
  -- induction on the levels between the two nodes
  suffices hd : ∀ d n, H.rank N m - G.rank N n = d → G.Reach r n →
      (∀ τ, G.eval N τ n = H.eval N τ m) →
      ∃ n', G.Reach r n' ∧ G.rank N n' = H.rank N m ∧ ∀ τ, G.eval N τ n' = H.eval N τ m from
    fun n => hd _ n rfl
  intro d
  induction d using Nat.strongRecOn with
  | ind d ih =>
  intro n hd hn hnm
  have hle := rank_le_of_eval_eq hG hH hn hm hnm
  by_cases heq : G.rank N n = H.rank N m
  · exact ⟨n, hn, heq, hnm⟩
  -- a node above the level is a test whose low child keeps the function
  have hlt : G.rank N n < H.rank N m := by omega
  rcases hs : G.shape n with _ | s
  · exact absurd hs (hG.closed n hn)
  cases s with
  | leaf b =>
    rw [rank_leaf hs] at hlt
    exact absurd (hH.toOrdered.rank_le hm) (by omega)
  | test L lo hi =>
    rw [rank_test hs] at hlt hd
    have hlo := (hG.below n L lo hi hn hs).2.1
    refine ih _ (by omega) lo rfl (hn.low hs) fun τ => ?_
    rw [eval_low hG hn hs, hnm, eval_fixLevel_of_lt hH.toOrdered hm hlt]

/-- Below a node of an ordered graph with the function of a test of a reduced graph lies a test
of the same level with that function. -/
theorem exists_test_of_eval_eq (hG : G.Ordered N r) (hH : H.Reduced N r') {n m L lo hi : Nat}
    (hn : G.Reach r n) (hm : H.Reach r' m) (hs : H.shape m = some (.test L lo hi))
    (hnm : ∀ τ, G.eval N τ n = H.eval N τ m) :
    ∃ n' lo' hi', G.Reach r n' ∧ G.shape n' = some (.test L lo' hi') ∧
      ∀ τ, G.eval N τ n' = H.eval N τ m := by
  obtain ⟨n', hn', hrank, hn'm⟩ := exists_at_rank hG hH hm n hn hnm
  rw [rank_test hs] at hrank
  rcases hs' : G.shape n' with _ | s'
  · exact absurd hs' (hG.closed n' hn')
  cases s' with
  | leaf b =>
    rw [rank_leaf hs'] at hrank
    exact absurd (hH.below m L lo hi hm hs).1 (by omega)
  | test L' lo' hi' =>
    rw [rank_test hs'] at hrank
    subst hrank
    exact ⟨n', lo', hi', hn', hs', hn'm⟩

/-- Every node a reduced graph reaches has the function of a node that an ordered graph of the
same function reaches: the children of a test are found below the first test at its level. -/
theorem exists_of_reach_reduced (hG : G.Ordered N r) (hH : H.Reduced N r')
    (h : ∀ τ, G.eval N τ r = H.eval N τ r') :
    ∀ m, H.Reach r' m → ∃ n, G.Reach r n ∧ ∀ τ, G.eval N τ n = H.eval N τ m := by
  intro m hm
  induction hm with
  | root => exact ⟨r, .root, h⟩
  | @low m L lo hi hm hs ih =>
    obtain ⟨n, hn, hnm⟩ := ih
    obtain ⟨n', lo', hi', hn', hs', hn'm⟩ := exists_test_of_eval_eq hG hH hn hm hs hnm
    exact ⟨lo', hn'.low hs', fun τ => by
      rw [eval_low hG hn' hs', hn'm, ← eval_low hH.toOrdered hm hs]⟩
  | @high m L lo hi hm hs ih =>
    obtain ⟨n, hn, hnm⟩ := ih
    obtain ⟨n', lo', hi', hn', hs', hn'm⟩ := exists_test_of_eval_eq hG hH hn hm hs hnm
    exact ⟨hi', hn'.high hs', fun τ => by
      rw [eval_high hG hn' hs', hn'm, ← eval_high hH.toOrdered hm hs]⟩

/-- Reduction: an ordered graph maps onto a reduced graph of the same function, bottom up. Each
node reached goes to the node of its function; a leaf goes to the leaf of its value; a test whose
children go to one node goes there too, and any other test goes to a test of its level whose
children are its children's images. Every node the reduced graph reaches is an image. -/
theorem exists_reduction (hG : G.Ordered N r) (hH : H.Reduced N r')
    (h : ∀ τ, G.eval N τ r = H.eval N τ r') :
    ∃ ρ : Nat → Nat, ρ r = r' ∧ (∀ n, G.Reach r n → H.Reach r' (ρ n)) ∧
      (∀ m, H.Reach r' m → ∃ n, G.Reach r n ∧ ρ n = m) ∧
      (∀ n b, G.Reach r n → G.shape n = some (.leaf b) → H.shape (ρ n) = some (.leaf b)) ∧
      ∀ n L lo hi, G.Reach r n → G.shape n = some (.test L lo hi) →
        (ρ lo = ρ hi → ρ n = ρ lo) ∧
          (ρ lo ≠ ρ hi → H.shape (ρ n) = some (.test L (ρ lo) (ρ hi))) := by
  obtain ⟨ρ, hρ, huniq⟩ := exists_eval_map hG hH h
  refine ⟨ρ, huniq r r' .root .root h, fun n hn => (hρ n hn).1, fun m hm => ?_,
    fun n b hn hs => ?_, fun n L lo hi hn hs => ⟨fun heq => ?_, fun hne => ?_⟩⟩
  · obtain ⟨n, hn, hnm⟩ := exists_of_reach_reduced hG hH h m hm
    exact ⟨n, hn, huniq n m hn hm hnm⟩
  · exact hH.leaf_of_eval (hρ n hn).1 fun τ => by rw [← (hρ n hn).2, eval_leaf hs]
  · -- children of one function: the test computes it too
    have hlo := hρ lo (hn.low hs)
    have hhi := hρ hi (hn.high hs)
    refine huniq n (ρ lo) hn hlo.1 fun τ => ?_
    rw [eval_test hG hn hs, ← hlo.2]
    split
    · rw [hhi.2, ← heq, ← hlo.2]
    · rfl
  · -- children of different functions: the test depends on its level
    have hdep : G.DependsOn N n L := by
      by_contra hind
      apply hne
      refine huniq lo (ρ hi) (hn.low hs) (hρ hi (hn.high hs)).1 fun τ => ?_
      rw [← (hρ hi (hn.high hs)).2, eval_low hG hn hs, eval_high hG hn hs]
      by_contra hτ
      exact hind ⟨τ, fun h' => hτ h'.symm⟩
    obtain ⟨lo', hi', hsm, hlo', hhi'⟩ :=
      test_of_eval_eq_of_dependsOn hG hH hn hs hdep (hρ n hn).1 (hρ n hn).2
    rw [hsm, huniq lo lo' (hn.low hs) ((hρ n hn).1.low hsm) hlo',
      huniq hi hi' (hn.high hs) ((hρ n hn).1.high hsm) hhi']

end Compare

end Graph

end DecisionDiagrams
