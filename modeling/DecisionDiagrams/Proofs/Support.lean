/-
The nodes below a node, and the levels it depends on.

A walk from a node meets only nodes below it: the node itself and, at each internal node, one
of its children. The walk under any assignment stays among these nodes, so the levels of the
internal ones are all the walk reads. `reach` marks them in one pass from the top of the table
down, since every child is below its parent; `support` lists their levels.

* `Kernel.Reaches` — the nodes a node reaches: itself, and both children of every internal node
  it reaches.
* `Kernel.walk_congr_reaches` — two assignments that agree on the levels of the internal nodes
  a node reaches give it the same walk.
* `Kernel.reach_iff` — `reach` marks exactly the nodes its root reaches.
* `Kernel.support_run` — the support of a node is the increasing list of the levels of the
  internal nodes it reaches.
-/
import Mathlib
import DecisionDiagrams.Proofs.NodeFunctions

namespace DecisionDiagrams

namespace Kernel

/-- The nodes that node `r` reaches: itself, and the two children of every internal node it
reaches. -/
inductive Reaches (k : Kernel) (r : Nat) : Nat → Prop
  | root : Reaches k r r
  | low {i : Nat} : Reaches k r i → 2 ≤ i → Reaches k r (k.lowOf i)
  | high {i : Nat} : Reaches k r i → 2 ≤ i → Reaches k r (k.highOf i)

namespace Reaches

variable {k : Kernel} {r i : Nat}

/-- A node reached lies at or below the root. -/
theorem le (h : Reaches k r i) : i ≤ r := by
  induction h with
  | root => exact Nat.le_refl r
  | low _ h2 ih => exact Nat.le_trans (Nat.le_of_lt (lowOf_lt k _ (by omega))) ih
  | high _ h2 ih => exact Nat.le_trans (Nat.le_of_lt (highOf_lt k _ (by omega))) ih

/-- A node reached is the root or a child of an internal node reached, which is above it. -/
theorem parent (h : Reaches k r i) :
    i = r ∨ ∃ p, Reaches k r p ∧ 2 ≤ p ∧ i < p ∧ (i = k.lowOf p ∨ i = k.highOf p) := by
  cases h with
  | root => exact .inl rfl
  | low hp h2 => exact .inr ⟨_, hp, h2, lowOf_lt k _ (by omega), .inl rfl⟩
  | high hp h2 => exact .inr ⟨_, hp, h2, highOf_lt k _ (by omega), .inr rfl⟩

/-- Reaching reads only the children of the internal nodes reached: a table that gives them the
same children reaches the same nodes. -/
theorem of_children {k' : Kernel}
    (hc : ∀ j, Reaches k r j → 2 ≤ j → k'.lowOf j = k.lowOf j ∧ k'.highOf j = k.highOf j)
    (h : Reaches k r i) : Reaches k' r i := by
  induction h with
  | root => exact .root
  | low hj h2 ih =>
    rw [← (hc _ hj h2).1]
    exact ih.low h2
  | high hj h2 ih =>
    rw [← (hc _ hj h2).2]
    exact ih.high h2

end Reaches

/-- A walk reads only the levels of the internal nodes its start reaches. -/
theorem walk_congr_reaches {k : Kernel} {r : Nat} {σ τ : Nat → Bool}
    (h : ∀ i, Reaches k r i → 2 ≤ i → σ (k.level i) = τ (k.level i)) :
    k.walk σ r = k.walk τ r := by
  suffices hall : ∀ i, Reaches k r i → k.walk σ i = k.walk τ i from hall r .root
  intro i
  induction i using Nat.strongRecOn with
  | ind i ih =>
  intro hi
  by_cases h2 : i < 2
  · rw [walk_terminal _ _ h2, walk_terminal _ _ h2]
  · have h2' : 2 ≤ i := by omega
    rw [walk_internal _ _ h2', walk_internal _ _ h2', h i hi h2',
      ih _ (lowOf_lt k i (by omega)) (hi.low h2'), ih _ (highOf_lt k i (by omega)) (hi.high h2')]

/-! ### Marking the nodes reached -/

/-- Whether position `i` of a mark array is set. -/
def isMarked (m : Array Bool) (i : Nat) : Bool :=
  m[i]?.getD false

theorem isMarked_set {m : Array Bool} {j i : Nat} :
    isMarked (m.setIfInBounds j true) i = ((i = j ∧ j < m.size) || isMarked m i) := by
  unfold isMarked
  rw [Array.getElem?_setIfInBounds]
  by_cases hij : j = i
  · subst hij
    by_cases hj : j < m.size <;> simp [hj]
  · simp [hij, Ne.symm hij]

theorem isMarked_of_set {m : Array Bool} {j i : Nat} (h : isMarked m i) :
    isMarked (m.setIfInBounds j true) i := by
  simp [isMarked_set, h]

/-- One step of `reach`: a marked internal node marks its two children. -/
def markStep (k : Kernel) (m : Array Bool) (i : Nat) : Array Bool :=
  if 2 ≤ i ∧ m[i]?.getD false then
    (m.setIfInBounds (k.lowOf i) true).setIfInBounds (k.highOf i) true
  else m

/-- The marks while `reach` goes down the table: below `j` nothing is processed yet. Every mark
is a node reached, and a node reached is marked once it is the root or a child of a node at or
above `j`. -/
structure MarksFrom (k : Kernel) (r j : Nat) (m : Array Bool) : Prop where
  size : m.size = k.nodes.size
  sound : ∀ i, isMarked m i → Reaches k r i
  complete : ∀ i, Reaches k r i →
    (i = r ∨ ∃ p, Reaches k r p ∧ 2 ≤ p ∧ j ≤ p ∧ (i = k.lowOf p ∨ i = k.highOf p)) →
    isMarked m i

theorem markStep_size (k : Kernel) (m : Array Bool) (j : Nat) :
    (markStep k m j).size = m.size := by
  unfold markStep
  split <;> simp

theorem isMarked_markStep {k : Kernel} {m : Array Bool} {j i : Nat} (h : isMarked m i) :
    isMarked (markStep k m j) i := by
  unfold markStep
  split
  · exact isMarked_of_set (isMarked_of_set h)
  · exact h

/-- Processing node `j` keeps the invariant one position lower. -/
theorem MarksFrom.step {k : Kernel} {r j : Nat} {m : Array Bool} (hr : r < k.nodes.size)
    (h : MarksFrom k r (j + 1) m) : MarksFrom k r j (markStep k m j) := by
  refine ⟨(markStep_size k m j).trans h.size, fun i hi => ?_, fun i hi hpar => ?_⟩
  · unfold markStep at hi
    split at hi
    · rename_i hj
      have hjr := h.sound j hj.2
      rw [isMarked_set, isMarked_set] at hi
      simp only [Bool.or_eq_true, decide_eq_true_eq] at hi
      rcases hi with ⟨rfl, -⟩ | ⟨rfl, -⟩ | hi
      · exact hjr.high hj.1
      · exact hjr.low hj.1
      · exact h.sound i hi
    · exact h.sound i hi
  · rcases hpar with rfl | ⟨p, hp, hp2, hjp, hip⟩
    · exact isMarked_markStep (h.complete _ hi (.inl rfl))
    by_cases hpj : j + 1 ≤ p
    · exact isMarked_markStep (h.complete i hi (.inr ⟨p, hp, hp2, hpj, hip⟩))
    -- the parent is node `j` itself: it was marked as the root or as a child of a node above
    have hpj' : p = j := by omega
    subst hpj'
    have hmarked : isMarked m p := by
      refine h.complete p hp ?_
      rcases hp.parent with hpr | ⟨q, hq, hq2, hpq, hpc⟩
      · exact .inl hpr
      · exact .inr ⟨q, hq, hq2, hpq, hpc⟩
    have hpsize : p < m.size := h.size ▸ Nat.lt_of_le_of_lt hp.le hr
    unfold markStep
    rw [if_pos ⟨hp2, hmarked⟩, isMarked_set, isMarked_set]
    rcases hip with rfl | rfl
    · simp [Nat.lt_trans (lowOf_lt k p (by omega)) hpsize]
    · simp [Nat.lt_trans (highOf_lt k p (by omega)) hpsize]

theorem foldl_markStep {k : Kernel} {r : Nat} (hr : r < k.nodes.size) :
    ∀ (n : Nat) (m : Array Bool), MarksFrom k r n m →
      MarksFrom k r 0 ((List.range n).reverse.foldl (markStep k) m) := by
  intro n
  induction n with
  | zero => exact fun m h => h
  | succ n ih =>
    intro m h
    rw [List.range_succ, List.reverse_append, List.reverse_singleton, List.singleton_append,
      List.foldl_cons]
    exact ih _ (h.step hr)

/-- `reach` from one root marks exactly the nodes the root reaches. -/
theorem reach_iff {k : Kernel} {r : Nat} (hr : r < k.nodes.size) (i : Nat) :
    isMarked (k.reach [r]) i ↔ Reaches k r i := by
  have hstart : MarksFrom k r k.nodes.size
      ((Array.replicate k.size false).setIfInBounds r true) := by
    refine ⟨by simp [Kernel.size], fun i hi => ?_, fun i _ hpar => ?_⟩
    · rw [isMarked_set] at hi
      simp only [Bool.or_eq_true, decide_eq_true_eq] at hi
      rcases hi with ⟨rfl, -⟩ | hi
      · exact .root
      · simp only [isMarked, Array.getElem?_replicate] at hi
        split at hi <;> simp at hi
    · rcases hpar with rfl | ⟨p, hp, -, hsize, -⟩
      · simp [isMarked_set, Kernel.size, hr]
      · exact absurd (Nat.lt_of_le_of_lt hp.le hr) (by omega)
  have hfinal := foldl_markStep hr k.nodes.size _ hstart
  refine ⟨hfinal.sound i, fun hi => hfinal.complete i hi ?_⟩
  rcases hi.parent with h | ⟨p, hp, hp2, -, hc⟩
  · exact .inl h
  · exact .inr ⟨p, hp, hp2, Nat.zero_le p, hc⟩

/-! ### The support -/

theorem mem_insertSorted {x y : Nat} {l : List Nat} : x ∈ insertSorted y l ↔ x = y ∨ x ∈ l := by
  induction l with
  | nil => simp [insertSorted]
  | cons z zs ih =>
    unfold insertSorted
    split
    · simp
    · split
      · subst_vars
        simp
      · simp only [List.mem_cons, ih]
        tauto

theorem insertSorted_pairwise {y : Nat} {l : List Nat} (h : l.Pairwise (· < ·)) :
    (insertSorted y l).Pairwise (· < ·) := by
  induction l with
  | nil => simp [insertSorted]
  | cons z zs ih =>
    rw [List.pairwise_cons] at h
    unfold insertSorted
    split
    · rename_i hyz
      exact List.Pairwise.cons (fun w hw => by
        rcases List.mem_cons.1 hw with rfl | hw
        · exact hyz
        · exact Nat.lt_trans hyz (h.1 w hw)) (List.Pairwise.cons h.1 h.2)
    · split
      · exact List.Pairwise.cons h.1 h.2
      · rename_i hyz hne
        refine List.Pairwise.cons (fun w hw => ?_) (ih h.2)
        rcases mem_insertSorted.1 hw with rfl | hw
        · omega
        · exact h.1 w hw

/-- The levels of a list of nodes, as `support` collects them. -/
theorem foldl_insertSorted (k : Kernel) (nodes : List Nat) :
    ∀ acc : List Nat, acc.Pairwise (· < ·) →
      (nodes.foldl (fun acc i => insertSorted (k.level i) acc) acc).Pairwise (· < ·) ∧
      ∀ l, l ∈ nodes.foldl (fun acc i => insertSorted (k.level i) acc) acc ↔
        l ∈ acc ∨ ∃ i ∈ nodes, k.level i = l := by
  induction nodes with
  | nil => intro acc h; simp [h]
  | cons i is ih =>
    intro acc h
    obtain ⟨hs, hm⟩ := ih _ (insertSorted_pairwise h)
    refine ⟨hs, fun l => ?_⟩
    rw [List.foldl_cons, hm, mem_insertSorted]
    simp only [List.mem_cons, exists_eq_or_imp]
    tauto

/-- The support of a node of the table: the increasing list of the levels of the internal nodes
it reaches. Nothing but the answer changes. -/
theorem support_run {k : Kernel} {n : Nat} (hn : n < k.nodes.size) :
    ∃ L, (support n).run k = (some L, k) ∧ L.Pairwise (· < ·) ∧
      ∀ l, l ∈ L ↔ ∃ i, Reaches k n i ∧ 2 ≤ i ∧ k.level i = l := by
  unfold support
  rw [checkRef_bind_of_ok (by omega)]
  obtain ⟨hs, hm⟩ := foldl_insertSorted k
    ((marked (k.reach [(n : Int).toNat])).filter (2 ≤ ·)) [] List.Pairwise.nil
  refine ⟨_, rfl, hs, fun l => ?_⟩
  rw [hm]
  simp only [List.not_mem_nil, false_or, List.mem_filter, marked, List.mem_range,
    decide_eq_true_eq, Int.toNat_natCast]
  constructor
  · rintro ⟨i, ⟨⟨-, hi⟩, h2⟩, rfl⟩
    exact ⟨i, (reach_iff hn i).1 hi, h2, rfl⟩
  · rintro ⟨i, hi, h2, rfl⟩
    have hlt : i < (k.reach [n]).size := by
      have := (reach_iff hn i).2 hi
      unfold isMarked at this
      by_contra hge
      rw [Array.getElem?_eq_none (Nat.le_of_not_lt hge)] at this
      exact absurd this (by decide)
    exact ⟨i, ⟨⟨hlt, (reach_iff hn i).2 hi⟩, h2⟩, rfl⟩

end Kernel

end DecisionDiagrams
