/-
Passes of sifting over given costs.

Sifting goes over the positions of an order from the left and, at each, adopts the order with
the names at that position and the next exchanged when it costs strictly less. Over costs `A`
given for every order this is `Order.pass A`, a function of orders; sifting repeats passes from
the start order until a pass adopts nothing or the allowed number of passes is made. Each pass
that adopts a swap leaves a strictly cheaper order, so the orders current before the passes are
distinct permutations of the start order, and a search makes at most as many passes as the start
order has distinct permutations.

* `Order.pass` — one pass; `Order.passCompared` — the orders it compares, in order.
* `Order.pass_eq_or_lt` — a pass leaves the order as it is, or a strictly cheaper one.
* `Order.le_swapAt_of_pass_eq` — an order a pass leaves as it is costs no more than any order
  with two neighbours exchanged.
* `Order.passesOf` — the number of passes of a search: the first pass after which it stops;
  `Order.passesOf_le_card` bounds it by the number of distinct permutations.
* `Order.currentOrders` — the orders current during the passes, from the start order through
  each adopted swap; `Order.pairwise_currentOrders`: each costs strictly less than those before.
-/
import Mathlib
import DecisionDiagrams.Order.Sift

namespace DecisionDiagrams

namespace Order

/-! ### Exchanging neighbours -/

theorem swapAt_perm (o : List String) (i : Nat) : (swapAt o i).Perm o := by
  unfold swapAt
  split
  · next a b rest h =>
    have ho : o.take i ++ a :: b :: rest = o := by rw [← h, List.take_append_drop]
    exact ((List.Perm.swap a b rest).append_left _).trans (List.Perm.of_eq ho)
  · exact List.Perm.refl o

theorem length_swapAt (o : List String) (i : Nat) : (swapAt o i).length = o.length :=
  (swapAt_perm o i).length_eq

/-! ### One pass -/

section Pass

variable (A : List String → Int)

/-- The comparison at position `i`: the order with the names at `i` and `i + 1` exchanged
replaces the current one when it costs strictly less. -/
def adoptAt (o : List String) (i : Nat) : List String :=
  if A (swapAt o i) < A o then swapAt o i else o

/-- A pass: the comparisons at the positions `0, 1, ...` of the order, from the left. -/
def pass (o : List String) : List String :=
  (List.range (o.length - 1)).foldl (adoptAt A) o

/-- The orders compared at the given positions from the order `o`: at each position the current
order, then the order with that position exchanged. -/
def comparedAt : List Nat → List String → List (List String)
  | [], _ => []
  | i :: is, o => o :: swapAt o i :: comparedAt is (adoptAt A o i)

/-- The orders a pass compares, in order. -/
def passCompared (o : List String) : List (List String) :=
  comparedAt A (List.range (o.length - 1)) o

variable {A}

theorem adoptAt_perm (o : List String) (i : Nat) : (adoptAt A o i).Perm o := by
  unfold adoptAt
  split
  · exact swapAt_perm o i
  · exact List.Perm.refl o

/-- Comparisons leave the order as it is, or a strictly cheaper one. -/
theorem foldl_adoptAt_eq_or_lt (is : List Nat) (o : List String) :
    is.foldl (adoptAt A) o = o ∨ A (is.foldl (adoptAt A) o) < A o := by
  induction is generalizing o with
  | nil => exact .inl rfl
  | cons i is ih =>
    rw [List.foldl_cons]
    by_cases hlt : A (swapAt o i) < A o
    · -- the swap is adopted, and what follows costs no more than it
      rw [show adoptAt A o i = swapAt o i from if_pos hlt]
      right
      rcases ih (swapAt o i) with h | h
      · rw [h]
        exact hlt
      · exact h.trans hlt
    · rw [show adoptAt A o i = o from if_neg hlt]
      exact ih o

theorem foldl_adoptAt_perm (is : List Nat) (o : List String) :
    (is.foldl (adoptAt A) o).Perm o := by
  induction is generalizing o with
  | nil => exact List.Perm.refl o
  | cons i is ih => exact (ih _).trans (adoptAt_perm o i)

theorem pass_perm (o : List String) : (pass A o).Perm o :=
  foldl_adoptAt_perm _ o

/-- A pass leaves the order as it is, or a strictly cheaper one. -/
theorem pass_eq_or_lt (o : List String) : pass A o = o ∨ A (pass A o) < A o :=
  foldl_adoptAt_eq_or_lt _ o

theorem pass_le (o : List String) : A (pass A o) ≤ A o := by
  rcases pass_eq_or_lt o with h | h
  · exact le_of_eq (congrArg A h)
  · exact h.le

/-- The orders compared from an order are permutations of it. -/
theorem perm_of_mem_comparedAt {is : List Nat} {o x : List String}
    (hx : x ∈ comparedAt A is o) : x.Perm o := by
  induction is generalizing o with
  | nil => simp [comparedAt] at hx
  | cons i is ih =>
    simp only [comparedAt, List.mem_cons] at hx
    rcases hx with rfl | rfl | hx
    · exact List.Perm.refl _
    · exact swapAt_perm _ i
    · exact (ih hx).trans (adoptAt_perm o i)

/-- Comparisons that leave an order as it is adopted nothing: each exchanged order costs at
least as much. -/
theorem le_swapAt_of_foldl_eq {is : List Nat} {o : List String}
    (h : is.foldl (adoptAt A) o = o) : ∀ i ∈ is, A o ≤ A (swapAt o i) := by
  induction is with
  | nil => simp
  | cons i is ih =>
    rw [List.foldl_cons] at h
    -- a swap adopted at `i` would leave a strictly cheaper order for good
    have hkeep : adoptAt A o i = o := by
      by_contra hne
      have hlt : A (adoptAt A o i) < A o := by
        unfold adoptAt at hne ⊢
        split at hne
        · next hlt => rwa [if_pos hlt]
        · exact absurd rfl hne
      rcases foldl_adoptAt_eq_or_lt is (adoptAt A o i) with h' | h'
      · rw [h'] at h
        exact hne h
      · rw [h] at h'
        exact absurd (h'.trans hlt) (lt_irrefl _)
    rw [hkeep] at h
    intro j hj
    rcases List.mem_cons.1 hj with rfl | hj
    · unfold adoptAt at hkeep
      split at hkeep
      · next hlt => exact absurd (hkeep ▸ hlt) (lt_irrefl _)
      · next hle => exact not_lt.1 hle
    · exact ih h j hj

/-- An order that a pass leaves as it is costs no more than any order with two neighbours
exchanged. -/
theorem le_swapAt_of_pass_eq {o : List String} (h : pass A o = o) {i : Nat}
    (hi : i + 1 < o.length) : A o ≤ A (swapAt o i) :=
  le_swapAt_of_foldl_eq h i (List.mem_range.2 (by omega))

variable (A) in
/-- The orders adopted by the comparisons at the given positions from the order `o`, in the
order they are adopted. -/
def adoptedAt : List Nat → List String → List (List String)
  | [], _ => []
  | i :: is, o =>
    if A (swapAt o i) < A o then swapAt o i :: adoptedAt is (swapAt o i) else adoptedAt is o

/-- Each adopted order costs strictly less than the order the comparisons start from. -/
theorem lt_of_mem_adoptedAt {is : List Nat} {o x : List String} (hx : x ∈ adoptedAt A is o) :
    A x < A o := by
  induction is generalizing o with
  | nil => simp [adoptedAt] at hx
  | cons i is ih =>
    unfold adoptedAt at hx
    split at hx
    · next hlt =>
      rcases List.mem_cons.1 hx with rfl | hx
      · exact hlt
      · exact (ih hx).trans hlt
    · exact ih hx

/-- The orders adopted one after the other cost strictly less each time. -/
theorem pairwise_adoptedAt (is : List Nat) (o : List String) :
    (adoptedAt A is o).Pairwise fun a b => A b < A a := by
  induction is generalizing o with
  | nil => exact List.Pairwise.nil
  | cons i is ih =>
    unfold adoptedAt
    split
    · exact List.Pairwise.cons (fun b hb => lt_of_mem_adoptedAt hb) (ih _)
    · exact ih o

/-- The comparisons end on the order they start from or on the last one adopted. -/
theorem foldl_adoptAt_mem (is : List Nat) (o : List String) :
    is.foldl (adoptAt A) o = o ∨ is.foldl (adoptAt A) o ∈ adoptedAt A is o := by
  induction is generalizing o with
  | nil => exact .inl rfl
  | cons i is ih =>
    rw [List.foldl_cons]
    unfold adoptedAt
    split
    · next hlt =>
      rw [show adoptAt A o i = swapAt o i from if_pos hlt]
      right
      rcases ih (swapAt o i) with h | h
      · rw [h]
        exact List.mem_cons_self
      · exact List.mem_cons_of_mem _ h
    · next hlt =>
      rw [show adoptAt A o i = o from if_neg hlt]
      exact ih o

/-- The order the comparisons end on costs no more than any order they adopted. -/
theorem foldl_le_of_mem_adoptedAt {is : List Nat} {o x : List String}
    (hx : x ∈ adoptedAt A is o) : A (is.foldl (adoptAt A) o) ≤ A x := by
  induction is generalizing o with
  | nil => simp [adoptedAt] at hx
  | cons i is ih =>
    rw [List.foldl_cons]
    unfold adoptedAt at hx
    split at hx
    · next hlt =>
      rw [show adoptAt A o i = swapAt o i from if_pos hlt]
      rcases List.mem_cons.1 hx with rfl | hx
      · rcases foldl_adoptAt_eq_or_lt is (swapAt o i) with h | h
        · exact le_of_eq (congrArg A h)
        · exact h.le
      · exact ih hx
    · next hlt =>
      rw [show adoptAt A o i = o from if_neg hlt]
      exact ih hx

end Pass

/-! ### Passes from the start order -/

section Search

variable (A : List String → Int) (maxPasses : Nat) (start : List String)

/-- A search stops after its `q`-th pass when it has made the passes allowed, a positive
`maxPasses`, or when that pass adopted no swap. -/
def Stops (q : Nat) : Prop :=
  0 < q ∧ ((0 < maxPasses ∧ q = maxPasses) ∨ (pass A)^[q] start = (pass A)^[q - 1] start)

instance : DecidablePred (Stops A maxPasses start) := fun q =>
  inferInstanceAs (Decidable (0 < q ∧
    ((0 < maxPasses ∧ q = maxPasses) ∨ (pass A)^[q] start = (pass A)^[q - 1] start)))

/-- The orders current during the first `q` passes from the start order, in the order they
became current: the start order, then the orders each pass adopted. -/
def currentOrders : Nat → List (List String)
  | 0 => [start]
  | q + 1 => currentOrders q ++
    adoptedAt A (List.range (((pass A)^[q] start).length - 1)) ((pass A)^[q] start)

variable {A start}

theorem iterate_pass_perm (j : Nat) : ((pass A)^[j] start).Perm start := by
  induction j with
  | zero => exact List.Perm.refl _
  | succ j ih =>
    rw [Function.iterate_succ_apply']
    exact (pass_perm _).trans ih

/-- Passes never leave an order costlier than the start order. -/
theorem iterate_pass_le (j : Nat) : A ((pass A)^[j] start) ≤ A start := by
  induction j with
  | zero => exact le_rfl
  | succ j ih =>
    rw [Function.iterate_succ_apply']
    exact (pass_le _).trans ih

/-- The order current after `q` passes is one of the current orders, and costs no more than any
of them. -/
theorem iterate_mem_currentOrders (q : Nat) :
    (pass A)^[q] start ∈ currentOrders A start q ∧
      ∀ x ∈ currentOrders A start q, A ((pass A)^[q] start) ≤ A x := by
  induction q with
  | zero => simp [currentOrders]
  | succ q ih =>
    obtain ⟨hmem, hle⟩ := ih
    have hpass : (pass A)^[q + 1] start = (List.range (((pass A)^[q] start).length - 1)).foldl
        (adoptAt A) ((pass A)^[q] start) := Function.iterate_succ_apply' _ _ _
    rw [currentOrders, hpass]
    refine ⟨?_, fun x hx => ?_⟩
    · rcases foldl_adoptAt_mem (List.range (((pass A)^[q] start).length - 1))
        ((pass A)^[q] start) with h | h
      · rw [h]
        exact List.mem_append_left _ hmem
      · exact List.mem_append_right _ h
    · rcases List.mem_append.1 hx with hx | hx
      · exact (pass_le _).trans (hle x hx)
      · exact foldl_le_of_mem_adoptedAt hx

/-- The orders current during a search cost strictly less each time, so no order is current
twice. -/
theorem pairwise_currentOrders (q : Nat) :
    (currentOrders A start q).Pairwise fun a b => A b < A a := by
  induction q with
  | zero => exact List.pairwise_singleton _ _
  | succ q ih =>
    rw [currentOrders]
    refine List.pairwise_append.2 ⟨ih, pairwise_adoptedAt _ _, fun a ha b hb => ?_⟩
    exact lt_of_lt_of_le (lt_of_mem_adoptedAt hb) ((iterate_mem_currentOrders q).2 a ha)

/-- A pass that adopts a swap leaves a strictly cheaper order. -/
theorem iterate_succ_lt {j : Nat} (h : (pass A)^[j + 1] start ≠ (pass A)^[j] start) :
    A ((pass A)^[j + 1] start) < A ((pass A)^[j] start) := by
  rw [Function.iterate_succ_apply'] at h ⊢
  exact (pass_eq_or_lt _).resolve_left h

/-- Passes that each adopt a swap leave ever cheaper orders. -/
theorem iterate_pass_lt {q : Nat}
    (h : ∀ j, j < q → (pass A)^[j + 1] start ≠ (pass A)^[j] start) {i j : Nat} (hij : i < j)
    (hjq : j ≤ q) : A ((pass A)^[j] start) < A ((pass A)^[i] start) := by
  induction j, hij using Nat.le_induction with
  | base => exact iterate_succ_lt (h i hjq)
  | succ j hij ih => exact (iterate_succ_lt (h j hjq)).trans (ih (by omega))

/-- The orders current before passes that each adopt a swap are distinct permutations of the
start order, so there are fewer passes than distinct permutations. -/
theorem succ_le_card {q : Nat} (h : ∀ j, j < q → (pass A)^[j + 1] start ≠ (pass A)^[j] start) :
    q + 1 ≤ start.permutations.toFinset.card := by
  have hnodup : ((List.range (q + 1)).map fun j => (pass A)^[j] start).Nodup := by
    refine (List.nodup_map_iff_inj_on List.nodup_range).2 fun i hi j hj hij => ?_
    rw [List.mem_range] at hi hj
    by_contra hne
    rcases Nat.lt_or_gt_of_ne hne with hlt | hlt
    · exact absurd hij (ne_of_apply_ne A (iterate_pass_lt h hlt (by omega)).ne')
    · exact absurd hij (ne_of_apply_ne A (iterate_pass_lt h hlt (by omega)).ne)
  have hsub : ((List.range (q + 1)).map fun j => (pass A)^[j] start).toFinset ⊆
      start.permutations.toFinset := by
    intro o ho
    simp only [List.mem_toFinset, List.mem_map] at ho ⊢
    obtain ⟨j, -, rfl⟩ := ho
    exact List.mem_permutations.2 (iterate_pass_perm j)
  calc q + 1 = ((List.range (q + 1)).map fun j => (pass A)^[j] start).toFinset.card := by
        rw [List.toFinset_card_of_nodup hnodup, List.length_map, List.length_range]
    _ ≤ start.permutations.toFinset.card := Finset.card_le_card hsub

theorem exists_stops : ∃ q, Stops A maxPasses start q := by
  by_contra hne
  simp only [not_exists] at hne
  -- without a stop every pass adopts a swap, more often than there are permutations
  have hswap : ∀ j, j < start.permutations.toFinset.card →
      (pass A)^[j + 1] start ≠ (pass A)^[j] start :=
    fun j _ heq => hne (j + 1) ⟨Nat.succ_pos j, .inr (by simpa using heq)⟩
  exact absurd (succ_le_card hswap) (Nat.lt_irrefl _)

variable (A start)

/-- The number of passes of a search: the first after which it stops. -/
def passesOf : Nat :=
  Nat.find (@exists_stops A maxPasses start)

/-- The orders a search compares: those of its passes, then the order it ends with. -/
def searchCompared : List (List String) :=
  ((List.range (passesOf A maxPasses start)).flatMap fun j =>
    passCompared A ((pass A)^[j] start)) ++ [(pass A)^[passesOf A maxPasses start] start]

variable {A maxPasses start}

theorem passesOf_stops : Stops A maxPasses start (passesOf A maxPasses start) :=
  Nat.find_spec (exists_stops maxPasses)

/-- The orders a search compares are permutations of the start order. -/
theorem perm_of_mem_searchCompared {o : List String}
    (ho : o ∈ searchCompared A maxPasses start) : o.Perm start := by
  simp only [searchCompared, List.mem_append, List.mem_flatMap, List.mem_singleton] at ho
  rcases ho with ⟨j, -, hj⟩ | rfl
  · exact (perm_of_mem_comparedAt hj).trans (iterate_pass_perm j)
  · exact iterate_pass_perm _

theorem passesOf_pos : 0 < passesOf A maxPasses start :=
  passesOf_stops.1

/-- Every pass of a search but the last adopts a swap. -/
theorem iterate_pass_ne {j : Nat} (hj : j + 1 < passesOf A maxPasses start) :
    (pass A)^[j + 1] start ≠ (pass A)^[j] start := fun heq =>
  Nat.find_min (exists_stops maxPasses) hj ⟨Nat.succ_pos j, .inr (by simpa using heq)⟩

/-- A search makes at most as many passes as the start order has distinct permutations. -/
theorem passesOf_le_card : passesOf A maxPasses start ≤ start.permutations.toFinset.card := by
  have h : passesOf A maxPasses start - 1 + 1 ≤ start.permutations.toFinset.card :=
    succ_le_card fun j hj => @iterate_pass_ne A maxPasses start j (by omega)
  omega

/-- A search makes at most the passes allowed. -/
theorem passesOf_le (h : 0 < maxPasses) : passesOf A maxPasses start ≤ maxPasses :=
  Nat.find_min' (exists_stops maxPasses) ⟨h, .inl ⟨h, rfl⟩⟩

/-- Unless it has made the passes allowed, a search ends with a pass that adopts no swap. -/
theorem iterate_passesOf (h : ¬(0 < maxPasses ∧ passesOf A maxPasses start = maxPasses)) :
    (pass A)^[passesOf A maxPasses start] start =
      (pass A)^[passesOf A maxPasses start - 1] start :=
  passesOf_stops.2.resolve_left h

/-- An order that ends a pass adopting no swap is left as it is by a further pass. -/
theorem pass_iterate_eq {q : Nat} (hq : 0 < q)
    (h : (pass A)^[q] start = (pass A)^[q - 1] start) :
    pass A ((pass A)^[q] start) = (pass A)^[q] start := by
  obtain ⟨q, rfl⟩ : ∃ q', q = q' + 1 := ⟨q - 1, by omega⟩
  rw [Nat.add_sub_cancel] at h
  calc pass A ((pass A)^[q + 1] start) = pass A ((pass A)^[q] start) := by rw [h]
    _ = (pass A)^[q + 1] start := (Function.iterate_succ_apply' _ _ _).symm

end Search

end Order

end DecisionDiagrams
