/-
A node of the table is determined by the function it computes.

In a structured table in level order no node has equal children, no two internal nodes share
a triple, and children lie above their parent. A child computes its parent with the parent's
level fixed, and it does not read that level. So a node that computes the same function as a
node lying above its level has two children that both compute that function; by induction they
are that node, and the parent would have equal children. Two nodes with the same function thus
stand at the same level, their children compute the same functions and are the same nodes by
induction, and the unique table makes the two parents one node.

* `Kernel.walk_highOf`, `Kernel.walk_lowOf` — a child computes its parent with the parent's
  level set to true, resp. false.
* `Kernel.eq_of_walk_eq` — two nodes of a structured table in level order with the same walks
  under every assignment are the same node.
* `Kernel.reaches_level_iff` — a node depends on a level exactly when one of the internal nodes
  it reaches stands at that level, so nodes with complementary functions reach the same levels.
-/
import DecisionDiagrams.Proofs.Support

namespace DecisionDiagrams

namespace Kernel

/-- A node reached is the root, or is reached from a child of an internal root. -/
theorem Reaches.from_root {k : Kernel} {n i : Nat} (h : Reaches k n i) :
    i = n ∨ 2 ≤ n ∧ ∃ c, (c = k.lowOf n ∨ c = k.highOf n) ∧ Reaches k c i := by
  induction h with
  | root => exact .inl rfl
  | @low i _ h2 ih =>
    rcases ih with rfl | ⟨h2n, c, hc, hci⟩
    · exact .inr ⟨h2, _, .inl rfl, .root⟩
    · exact .inr ⟨h2n, c, hc, hci.low h2⟩
  | @high i _ h2 ih =>
    rcases ih with rfl | ⟨h2n, c, hc, hci⟩
    · exact .inr ⟨h2, _, .inr rfl, .root⟩
    · exact .inr ⟨h2n, c, hc, hci.high h2⟩

section Canonical

variable {k : Kernel} (hs : Structured k) (hl : Levels k)
include hs hl

/-- The high child computes its parent with the parent's level set to true. -/
theorem walk_highOf {n : Nat} (h2 : 2 ≤ n) (hn : n < k.nodes.size) (σ : Nat → Bool) :
    k.walk σ (k.highOf n) = k.walk (fixLevel σ (k.level n) true) n := by
  rw [walk_internal _ _ h2, fixLevel_same, if_pos rfl,
    walk_fixLevel_of_lt hs hl σ true _ (highOf_lt_size k h2 hn) fun _ => hl.highOf hs h2 hn]

/-- The low child computes its parent with the parent's level set to false. -/
theorem walk_lowOf {n : Nat} (h2 : 2 ≤ n) (hn : n < k.nodes.size) (σ : Nat → Bool) :
    k.walk σ (k.lowOf n) = k.walk (fixLevel σ (k.level n) false) n := by
  rw [walk_internal _ _ h2, fixLevel_same, if_neg Bool.false_ne_true,
    walk_fixLevel_of_lt hs hl σ false _ (lowOf_lt_size k h2 hn) fun _ => hl.lowOf hs h2 hn]

/-- When node `a` computes the function of a node `b` lying above `a`'s level, so do both
children of `a`: fixing `a`'s level changes nothing for `b`. -/
theorem children_walk_of_above {a b : Nat} (h2 : 2 ≤ a) (ha : a < k.nodes.size)
    (hb : b < k.nodes.size) (habove : 2 ≤ b → k.level a < k.level b)
    (h : ∀ σ, k.walk σ a = k.walk σ b) :
    (∀ σ, k.walk σ (k.highOf a) = k.walk σ b) ∧ (∀ σ, k.walk σ (k.lowOf a) = k.walk σ b) := by
  refine ⟨fun σ => ?_, fun σ => ?_⟩
  · rw [walk_highOf hs hl h2 ha, h, walk_fixLevel_of_lt hs hl σ true b hb habove]
  · rw [walk_lowOf hs hl h2 ha, h, walk_fixLevel_of_lt hs hl σ false b hb habove]

omit hl in
/-- Two internal nodes with the same level and the same children are one node. -/
theorem eq_of_same_children {a b : Nat} (h2a : 2 ≤ a) (ha : a < k.nodes.size) (h2b : 2 ≤ b)
    (hb : b < k.nodes.size) (hlv : k.level a = k.level b) (hlo : k.lowOf a = k.lowOf b)
    (hhi : k.highOf a = k.highOf b) : a = b := by
  have he : k.entry b = k.entry a := by
    show (⟨(k.entry b).level, (k.entry b).low, (k.entry b).high⟩ : Triple) =
      ⟨(k.entry a).level, (k.entry a).low, (k.entry a).high⟩
    rw [← hs.lowOf_eq h2a ha, ← hs.highOf_eq h2a ha, ← hs.lowOf_eq h2b hb,
      ← hs.highOf_eq h2b hb, hlo, hhi]
    exact congrArg (fun l => (⟨l, _, _⟩ : Triple)) hlv.symm
  have hua := (hs.unique (k.entry a) a).2 ⟨h2a, ha, rfl⟩
  have hub := (hs.unique (k.entry a) b).2 ⟨h2b, hb, he⟩
  exact Option.some.inj (hua.symm.trans hub)

/-- Canonicity: two nodes that compute the same function are the same node. -/
theorem eq_of_walk_eq {a b : Nat} (ha : a < k.nodes.size) (hb : b < k.nodes.size)
    (h : ∀ σ, k.walk σ a = k.walk σ b) : a = b := by
  -- induction on the sum of the two nodes: children are below their parent
  suffices hsum : ∀ s a b, a + b = s → a < k.nodes.size → b < k.nodes.size →
      (∀ σ, k.walk σ a = k.walk σ b) → a = b from hsum _ a b rfl ha hb h
  intro s
  induction s using Nat.strongRecOn with
  | ind s ih =>
  intro a b hab ha hb h
  -- an internal node with the function of a node above its level would have equal children
  have collapse : ∀ {a b : Nat}, a + b = s → 2 ≤ a → a < k.nodes.size → b < k.nodes.size →
      (2 ≤ b → k.level a < k.level b) → (∀ σ, k.walk σ a = k.walk σ b) → False := by
    intro a b hab h2 ha hb habove h
    obtain ⟨hhi, hlo⟩ := children_walk_of_above hs hl h2 ha hb habove h
    have ehi := ih _ (by have := highOf_lt k a (by omega); omega) _ b rfl
      (highOf_lt_size k h2 ha) hb hhi
    have elo := ih _ (by have := lowOf_lt k a (by omega); omega) _ b rfl
      (lowOf_lt_size k h2 ha) hb hlo
    apply (hs.children a h2 ha).2.2
    rw [← hs.lowOf_eq h2 ha, ← hs.highOf_eq h2 ha, elo, ehi]
  by_cases ha2 : a < 2 <;> by_cases hb2 : b < 2
  · -- two terminals are their own walks
    have := h fun _ => false
    rwa [walk_terminal _ _ ha2, walk_terminal _ _ hb2] at this
  · exact (collapse (by omega) (by omega) hb ha (fun h2 => absurd h2 (by omega))
      fun σ => (h σ).symm).elim
  · exact (collapse hab (by omega) ha hb (fun h2 => absurd h2 (by omega)) h).elim
  · have h2a : 2 ≤ a := by omega
    have h2b : 2 ≤ b := by omega
    rcases Nat.lt_trichotomy (k.level a) (k.level b) with hlt | hlv | hgt
    · exact (collapse hab h2a ha hb (fun _ => hlt) h).elim
    · -- the same level: the children compute the same functions, so they are the same
      have ehi := ih _ (by have := highOf_lt k a (by omega); have := highOf_lt k b (by omega); omega)
        _ _ rfl (highOf_lt_size k h2a ha) (highOf_lt_size k h2b hb) fun σ => by
          rw [walk_highOf hs hl h2a ha, walk_highOf hs hl h2b hb, hlv, h]
      have elo := ih _ (by have := lowOf_lt k a (by omega); have := lowOf_lt k b (by omega); omega)
        _ _ rfl (lowOf_lt_size k h2a ha) (lowOf_lt_size k h2b hb) fun σ => by
          rw [walk_lowOf hs hl h2a ha, walk_lowOf hs hl h2b hb, hlv, h]
      exact eq_of_same_children hs h2a ha h2b hb hlv elo ehi
    · exact (collapse (by omega) h2b hb ha (fun _ => hgt) fun σ => (h σ).symm).elim

/-- The levels of the internal nodes below a node grow along the way down. -/
theorem Reaches.level_le {n i : Nat} (hn : n < k.nodes.size) (h : Reaches k n i) :
    k.level n ≤ k.level i := by
  induction h with
  | root => exact Nat.le_refl _
  | @low i hi hi2 ih =>
    have := hl.low i hi2 (Nat.lt_of_le_of_lt hi.le hn)
    rw [← hs.lowOf_eq hi2 (Nat.lt_of_le_of_lt hi.le hn)] at this
    omega
  | @high i hi hi2 ih =>
    have := hl.high i hi2 (Nat.lt_of_le_of_lt hi.le hn)
    rw [← hs.highOf_eq hi2 (Nat.lt_of_le_of_lt hi.le hn)] at this
    omega

/-- Node `n` depends on level `l`: two assignments that differ only there give it different
walks. -/
def DependsOn (k : Kernel) (n l : Nat) : Prop :=
  ∃ σ, k.walk (fixLevel σ l true) n ≠ k.walk (fixLevel σ l false) n

omit hs hl in
theorem fixLevel_comm (σ : Nat → Bool) {l l' : Nat} (h : l ≠ l') (a b : Bool) :
    fixLevel (fixLevel σ l a) l' b = fixLevel (fixLevel σ l' b) l a := by
  funext j
  by_cases hj : j = l
  · subst hj
    simp [fixLevel, h]
  · by_cases hj' : j = l'
    · subst hj'
      simp [fixLevel, hj]
    · simp [fixLevel, hj, hj']

/-- An internal node depends on its own level: its children differ, so by canonicity some
assignment tells them apart. -/
theorem dependsOn_level {n : Nat} (h2 : 2 ≤ n) (hn : n < k.nodes.size) :
    k.DependsOn n (k.level n) := by
  have hne : k.lowOf n ≠ k.highOf n := by
    rw [hs.lowOf_eq h2 hn, hs.highOf_eq h2 hn]
    exact (hs.children n h2 hn).2.2
  obtain ⟨σ, hσ⟩ : ∃ σ, k.walk σ (k.lowOf n) ≠ k.walk σ (k.highOf n) := by
    by_contra hall
    exact hne (eq_of_walk_eq hs hl (lowOf_lt_size k h2 hn) (highOf_lt_size k h2 hn)
      fun σ => Classical.not_not.1 fun h => hall ⟨σ, h⟩)
  refine ⟨σ, fun h => hσ ?_⟩
  rw [walk_lowOf hs hl h2 hn, walk_highOf hs hl h2 hn, h]

/-- A node depends on what a child depends on below the node's own level: the assignment that
takes the walk to that child tells the node apart as it tells the child apart. -/
theorem DependsOn.of_child {n c l : Nat} (h2 : 2 ≤ n) (hn : n < k.nodes.size)
    (hc : c = k.lowOf n ∨ c = k.highOf n) (hlt : k.level n < l) (hd : k.DependsOn c l) :
    k.DependsOn n l := by
  obtain ⟨σ, hσ⟩ := hd
  -- the value of the node's own level that leads to the child
  obtain ⟨b, hb⟩ : ∃ b, ∀ τ, k.walk τ c = k.walk (fixLevel τ (k.level n) b) n := by
    rcases hc with rfl | rfl
    · exact ⟨false, walk_lowOf hs hl h2 hn⟩
    · exact ⟨true, walk_highOf hs hl h2 hn⟩
  refine ⟨fixLevel σ (k.level n) b, fun h => hσ ?_⟩
  rw [hb, hb, fixLevel_comm σ (Nat.ne_of_lt hlt).symm, fixLevel_comm σ (Nat.ne_of_lt hlt).symm, h]

/-- A node depends on the level of every internal node it reaches. -/
theorem dependsOn_of_reaches {n : Nat} (hn : n < k.nodes.size) :
    ∀ i, Reaches k n i → 2 ≤ i → k.DependsOn n (k.level i) := by
  -- strong induction on the node: a node reached is the node itself or reached by a child
  induction n using Nat.strongRecOn with
  | ind n ih =>
  intro i hi h2i
  rcases hi.from_root with rfl | ⟨h2n, c, hc, hci⟩
  · exact dependsOn_level hs hl h2i hn
  · have hcn : c < n := by
      rcases hc with rfl | rfl
      · exact lowOf_lt k n (by omega)
      · exact highOf_lt k n (by omega)
    have hcsize : c < k.nodes.size := by omega
    -- the child lies strictly below the node's level, and the reached node below the child's
    have hlt : k.level n < k.level i := by
      have hnc : k.level n < k.level c := by
        rcases hc with rfl | rfl
        · rw [hs.lowOf_eq h2n hn]; exact hl.low n h2n hn
        · rw [hs.highOf_eq h2n hn]; exact hl.high n h2n hn
      exact Nat.lt_of_lt_of_le hnc (hci.level_le hs hl hcsize)
    exact (ih c hcn hcsize i hci h2i).of_child hs hl h2n hn hc hlt

/-- The levels a node depends on are the levels of the internal nodes it reaches. -/
theorem reaches_level_iff {n : Nat} (hn : n < k.nodes.size) (l : Nat) :
    (∃ i, Reaches k n i ∧ 2 ≤ i ∧ k.level i = l) ↔ k.DependsOn n l := by
  constructor
  · rintro ⟨i, hi, h2, rfl⟩
    exact dependsOn_of_reaches hs hl hn i hi h2
  · rintro ⟨σ, hσ⟩
    by_contra hnone
    have hne : ∀ i, Reaches k n i → 2 ≤ i → k.level i ≠ l := fun i hi h2 heq =>
      hnone ⟨i, hi, h2, heq⟩
    refine hσ (walk_congr_reaches fun i hi h2 => ?_)
    rw [fixLevel_ne σ true (hne i hi h2), fixLevel_ne σ false (hne i hi h2)]

end Canonical

end Kernel

end DecisionDiagrams
