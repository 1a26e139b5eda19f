/-
Counting the models of a node.

An assignment of the levels below `varnum` is a function `Fin varnum → Bool`; the levels from
`varnum` on, where the terminals of an ordered table lie, read as false. `Kernel.models` counts
the assignments under which the walk from a node reaches true. `satcount` gets that number
without enumerating them: `pathCounts` tabulates, from the bottom of the table up, the true paths
of each node, each weighed by two to the number of levels its edges skip, and the count of a node
is that number times two to the node's own level.

* `Kernel.card_update_half` — fixing one coordinate of the assignments in a set that does not
  look at that coordinate keeps half of them.
* `Kernel.two_mul_models` — the count of an internal node is half the counts of its children.
* `Kernel.models_eq_pathCount` — on an ordered table, the count of a node is two to its level
  times its weighed number of true paths.
* `Kernel.satcount_run` — `satcount` answers the count of a node of an ordered table and keeps
  the table; a bad reference answers `0` and records two faults.
-/
import DecisionDiagrams.Proofs.TruePaths

namespace DecisionDiagrams

namespace Kernel

/-- An assignment of the first `V` levels as an assignment of every level: the levels from `V`
on are false. -/
def extend {V : Nat} (τ : Fin V → Bool) (l : Nat) : Bool :=
  if h : l < V then τ ⟨l, h⟩ else false

/-- Changing one coordinate of an assignment fixes its level. -/
theorem extend_update {V : Nat} (τ : Fin V → Bool) (j : Fin V) (b : Bool) :
    extend (Function.update τ j b) = fixLevel (extend τ) j b := by
  funext l
  simp only [extend, fixLevel, Function.update_apply, Fin.ext_iff]
  by_cases hl : l < V
  · simp [hl]
  · have hj : l ≠ j := fun h => hl (h ▸ j.isLt)
    simp [hl, hj]

/-- The number of assignments of the levels below `varnum` under which the walk from node `n`
reaches true. -/
def models (k : Kernel) (n : Nat) : Nat :=
  (Finset.univ.filter fun τ : Fin k.varnum → Bool => k.walk (extend τ) n = 1).card

/-! ### Halving by one coordinate -/

section Halving

variable {V : Nat} (j : Fin V) (p : (Fin V → Bool) → Prop) [DecidablePred p]
  (hp : ∀ τ b, p (Function.update τ j b) ↔ p τ)
include hp

/-- Changing coordinate `j` is a bijection between the assignments of the set giving `j` one
value and those giving it the other. -/
theorem card_update_flip (v : Bool) :
    (Finset.univ.filter fun τ => τ j = v ∧ p τ).card =
      (Finset.univ.filter fun τ => τ j = !v ∧ p τ).card := by
  apply Finset.card_nbij' (fun τ => Function.update τ j (!v)) (fun τ => Function.update τ j v)
  · intro τ hτ
    simp only [Finset.mem_coe, Finset.mem_filter, Finset.mem_univ, true_and] at hτ ⊢
    exact ⟨Function.update_self j _ τ, (hp τ _).2 hτ.2⟩
  · intro τ hτ
    simp only [Finset.mem_coe, Finset.mem_filter, Finset.mem_univ, true_and] at hτ ⊢
    exact ⟨Function.update_self j _ τ, (hp τ _).2 hτ.2⟩
  · intro τ hτ
    simp only [Finset.mem_coe, Finset.mem_filter, Finset.mem_univ, true_and] at hτ
    dsimp only
    rw [Function.update_idem, ← hτ.1, Function.update_eq_self]
  · intro τ hτ
    simp only [Finset.mem_coe, Finset.mem_filter, Finset.mem_univ, true_and] at hτ
    dsimp only
    rw [Function.update_idem, ← hτ.1, Function.update_eq_self]

/-- Among the assignments of a set that does not look at coordinate `j`, half give `j` any one
value. -/
theorem card_update_half (v : Bool) :
    2 * (Finset.univ.filter fun τ => τ j = v ∧ p τ).card = (Finset.univ.filter p).card := by
  have hsplit := @Finset.card_filter_add_card_filter_not _ (Finset.univ.filter p)
    (fun τ => τ j = v) _ _
  rw [Finset.filter_filter, Finset.filter_filter] at hsplit
  have hnot : (Finset.univ.filter fun τ => p τ ∧ ¬τ j = v) =
      Finset.univ.filter fun τ => τ j = !v ∧ p τ :=
    Finset.filter_congr fun τ _ => by cases v <;> cases τ j <;> simp [and_comm]
  have hyes : (Finset.univ.filter fun τ => p τ ∧ τ j = v) =
      Finset.univ.filter fun τ => τ j = v ∧ p τ :=
    Finset.filter_congr fun τ _ => and_comm
  rw [hnot, hyes, ← card_update_flip j p hp v] at hsplit
  omega

end Halving

/-! ### The count of a node from the counts of its children -/

@[simp] theorem models_false (k : Kernel) : k.models 0 = 0 := by
  simp [models, walk_terminal k _ (show 0 < 2 by omega)]

@[simp] theorem models_true (k : Kernel) : k.models 1 = 2 ^ k.varnum := by
  simp [models, walk_terminal k _ (show 1 < 2 by omega)]

/-- On an ordered table, the assignments that reach true from an internal node are those that
take its high branch and reach true from the high child, and those that take the low one and
reach true from the low child; as the children do not look at the node's level, each child
counts twice as many. -/
theorem two_mul_models {k : Kernel} (ho : Ordered k) {n : Nat} (h2 : 2 ≤ n)
    (hn : n < k.nodes.size) : 2 * k.models n = k.models (k.lowOf n) + k.models (k.highOf n) := by
  have hs := ho.structured
  have hl := ho.levels
  have hlvl : k.level n < k.varnum := ho.top ▸ hl.below n h2 hn
  let j : Fin k.varnum := ⟨k.level n, hlvl⟩
  -- a child's walk does not read the node's level
  have hchild : ∀ c, c < k.nodes.size → (2 ≤ c → k.level n < k.level c) →
      ∀ τ b, k.walk (extend (Function.update τ j b)) c = 1 ↔ k.walk (extend τ) c = 1 := by
    intro c hc habove τ b
    rw [extend_update, walk_fixLevel_of_lt hs hl _ _ c hc habove]
  have hlo := hchild _ (lowOf_lt_size k h2 hn) fun _ => hl.lowOf hs h2 hn
  have hhi := hchild _ (highOf_lt_size k h2 hn) fun _ => hl.highOf hs h2 hn
  have hsplit := @Finset.card_filter_add_card_filter_not _
    (Finset.univ.filter fun τ : Fin k.varnum → Bool => k.walk (extend τ) n = 1)
    (fun τ => τ j = true) _ _
  rw [Finset.filter_filter, Finset.filter_filter] at hsplit
  have hwalk : ∀ τ : Fin k.varnum → Bool, k.walk (extend τ) n =
      if τ j then k.walk (extend τ) (k.highOf n) else k.walk (extend τ) (k.lowOf n) := by
    intro τ
    have hext : extend τ (k.level n) = τ j := dif_pos hlvl
    rw [walk_internal _ _ h2, hext]
  have hyes : (Finset.univ.filter fun τ : Fin k.varnum → Bool =>
      k.walk (extend τ) n = 1 ∧ τ j = true) =
      Finset.univ.filter fun τ => τ j = true ∧ k.walk (extend τ) (k.highOf n) = 1 :=
    Finset.filter_congr fun τ _ => by rw [hwalk]; cases τ j <;> simp
  have hno : (Finset.univ.filter fun τ : Fin k.varnum → Bool =>
      k.walk (extend τ) n = 1 ∧ ¬τ j = true) =
      Finset.univ.filter fun τ => τ j = false ∧ k.walk (extend τ) (k.lowOf n) = 1 :=
    Finset.filter_congr fun τ _ => by rw [hwalk]; cases τ j <;> simp
  rw [hyes, hno] at hsplit
  unfold models
  rw [← hsplit, Nat.mul_add, card_update_half j _ hhi, card_update_half j _ hlo, Nat.add_comm]

/-! ### Weighed paths -/

/-- The true paths from node `n`, each weighed by two to the number of levels its edges skip
below `n`: the numbers that `pathCounts` tabulates. -/
def pathCount (k : Kernel) (n : Nat) : Nat :=
  if _h : n < 2 then n
  else
    Nat.pow 2 (k.level (k.lowOf n) - k.level n - 1) * pathCount k (k.lowOf n) +
      Nat.pow 2 (k.level (k.highOf n) - k.level n - 1) * pathCount k (k.highOf n)
termination_by n
decreasing_by
  · exact lowOf_lt k _ (by omega)
  · exact highOf_lt k _ (by omega)

/-- A fold over `0, …, m - 1` that pushes, for each number, a value computed from those pushed
before builds the table of those values. -/
theorem foldl_range_push {F : Array Nat → Nat → Array Nat} (c : Nat → Nat)
    (hF : ∀ acc m, acc.size = m → (∀ i < m, acc[i]? = some (c i)) → F acc m = acc.push (c m)) :
    ∀ m, ((List.range m).foldl F #[]).size = m ∧
      ∀ i < m, ((List.range m).foldl F #[])[i]? = some (c i) := by
  intro m
  induction m with
  | zero => simp
  | succ m ih =>
    obtain ⟨hsize, hget⟩ := ih
    rw [List.range_succ, List.foldl_append, List.foldl_cons, List.foldl_nil, hF _ m hsize hget]
    refine ⟨by rw [Array.size_push, hsize], fun i hi => ?_⟩
    rw [Array.getElem?_push]
    by_cases him : i = m
    · rw [if_pos (him.trans hsize.symm), him]
    · rw [if_neg (fun h => him (h.trans hsize)), hget i (by omega)]

/-- The table of `pathCounts` up to `n` holds the weighed number of true paths of each node up
to `n`. -/
theorem pathCounts_getElem? (k : Kernel) {n i : Nat} (hi : i ≤ n) :
    (k.pathCounts n)[i]? = some (k.pathCount i) := by
  refine (foldl_range_push k.pathCount (fun acc m _ hacc => ?_) (n + 1)).2 i (by omega)
  by_cases hm : m < 2
  · rw [if_pos hm, pathCount, dif_pos hm]
  · rw [if_neg hm, pathCount, dif_neg hm]
    have hlo := lowOf_lt k m (by omega)
    have hhi := highOf_lt k m (by omega)
    simp only [hacc _ hlo, hacc _ hhi, Option.getD_some]

/-- On an ordered table, the count of a node is two to its level times its weighed number of
true paths: two to the number of levels skipped above it, and below it the paths' weights. -/
theorem models_eq_pathCount {k : Kernel} (ho : Ordered k) :
    ∀ n, n < k.nodes.size → k.models n = 2 ^ k.level n * k.pathCount n := by
  intro n
  induction n using Nat.strongRecOn with
  | ind n ih =>
  intro hn
  have hl := ho.levels
  by_cases h2 : n < 2
  · -- a terminal lies at level `varnum`
    rw [pathCount, dif_pos h2, hl.level_terminal h2, ho.top]
    obtain rfl | rfl : n = 0 ∨ n = 1 := by omega
    · simp
    · simp
  have hs := ho.structured
  have hlo := lowOf_lt k n (by omega)
  have hhi := highOf_lt k n (by omega)
  have hlvl_lo := hl.lowOf hs (by omega) hn
  have hlvl_hi := hl.highOf hs (by omega) hn
  have htwo := two_mul_models ho (by omega) hn
  rw [ih _ hlo (lowOf_lt_size k (by omega) hn), ih _ hhi (highOf_lt_size k (by omega) hn)] at htwo
  rw [pathCount, dif_neg h2]
  -- each child's count is the node's, shifted by the levels the edge skips
  have hshift : ∀ c, k.level n < k.level c →
      2 * 2 ^ k.level n * Nat.pow 2 (k.level c - k.level n - 1) = 2 ^ k.level c := by
    intro c hc
    rw [Nat.pow_eq, ← Nat.pow_succ', ← Nat.pow_add]
    congr 1
    omega
  have hgoal : 2 * k.models n =
      2 * (2 ^ k.level n * (Nat.pow 2 (k.level (k.lowOf n) - k.level n - 1) * k.pathCount (k.lowOf n) +
        Nat.pow 2 (k.level (k.highOf n) - k.level n - 1) * k.pathCount (k.highOf n))) := by
    rw [htwo, Nat.mul_add, Nat.mul_add, ← Nat.mul_assoc, ← Nat.mul_assoc, ← Nat.mul_assoc,
      ← Nat.mul_assoc, hshift _ hlvl_lo, hshift _ hlvl_hi]
  exact Nat.eq_of_mul_eq_mul_left (by omega) hgoal

/-- Counting the models of a node reference on an ordered table: a node of the table gets its
count and the table stays as it was; a bad reference gets `0` and records the bad reference and
the wrong operand. -/
theorem satcount_run {k : Kernel} (ho : Ordered k) (n : Int) :
    (satcount n).run k =
      if 0 ≤ n ∧ n < k.nodes.size then (k.models n.toNat, k)
      else (0, (k.record (.illegalReference n)).record (.wrongOperand .satcount n)) := by
  unfold satcount
  by_cases hbad : n < 0 ∨ n ≥ k.nodes.size
  · have hv : ¬(0 ≤ n ∧ n < k.nodes.size) := by omega
    rw [checkRef_bind_of_bad hbad, if_neg hv]
    rfl
  · have hv : 0 ≤ n ∧ n < k.nodes.size := by omega
    have hn : n.toNat < k.nodes.size := by omega
    rw [checkRef_bind_of_ok hbad, if_pos hv]
    show (Nat.pow 2 (k.level n.toNat) * (k.pathCounts n.toNat)[n.toNat]?.getD 0, k) = _
    rw [pathCounts_getElem? k (Nat.le_refl _), Option.getD_some, Nat.pow_eq,
      models_eq_pathCount ho _ hn]

end Kernel

end DecisionDiagrams
