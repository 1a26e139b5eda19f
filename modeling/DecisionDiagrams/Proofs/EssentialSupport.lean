/-
The support of a node is the set of levels its function depends on.

`support` lists the levels of the internal nodes a node reaches. On a reachable table these are
exactly the levels that matter: an internal node of a structured, graded table tells its two
children apart, so every level met on the way down changes the function for some assignment.
The list is therefore a function of the node's truth values alone, and so are the sorted names
the simplifier lists as the support of an expression, whatever the order of its engine's levels.

* `Kernel.support_run_essential` — the support of a node is the increasing list of the levels
  whose value changes its evaluation.
* `Engine.inSupport_iff_dependsOnName`, `Engine.supportNames_eq_of_value_eq` — the same for
  names; gathered in `Kernel.support_lists_essential_levels`.
-/
import DecisionDiagrams.Proofs.TableOperations
import DecisionDiagrams.Proofs.Covers

namespace DecisionDiagrams

namespace Kernel

/-- Evaluating a node of the table walks from it and leaves the table as it is. -/
theorem evalAt_run_of_lt {k : Kernel} {n : Int} (h0 : 0 ≤ n) (hn : n < k.nodes.size)
    (σ : Nat → Bool) : (evalAt n σ).run k = (((k.walk σ n.toNat : Nat) : Int), k) := by
  unfold evalAt
  rw [checkRef_bind_of_ok (by omega)]
  rfl

/-- A bad reference has no support. -/
theorem support_run_of_invalid {k : Kernel} {n : Int} (hn : ¬(0 ≤ n ∧ n < k.nodes.size)) :
    ((support n).run k).1 = none := by
  unfold support
  rw [StateT.run_bind, checkRef_run, if_pos (by omega)]
  rfl

/-- A node depends on a level exactly when evaluating it with that level false and true gives
two answers for some values of the other levels. -/
theorem dependsOn_iff_evalAt {k : Kernel} {n : Int} (h0 : 0 ≤ n) (hn : n < k.nodes.size)
    (l : Nat) : k.DependsOn n.toNat l ↔
      ∃ σ, ((evalAt n (fixLevel σ l false)).run k).1 ≠ ((evalAt n (fixLevel σ l true)).run k).1 := by
  simp only [evalAt_run_of_lt h0 hn]
  constructor
  · rintro ⟨σ, hσ⟩
    exact ⟨σ, fun h => hσ (by exact_mod_cast h.symm)⟩
  · rintro ⟨σ, hσ⟩
    exact ⟨σ, fun h => hσ (by rw [h])⟩

/-- The support of a node of a reachable table is the increasing list of the levels it depends
on, and reading it changes nothing. -/
theorem support_run_essential {k : Kernel} (hk : Reachable k) {n : Nat} (hn : n < k.nodes.size) :
    ∃ L, (support n).run k = (some L, k) ∧ L.Pairwise (· < ·) ∧ ∀ l, l ∈ L ↔ k.DependsOn n l := by
  obtain ⟨hs, -, hg⟩ := reachable_graded hk
  obtain ⟨L, hrun, hsorted, hmem⟩ := support_run hn
  exact ⟨L, hrun, hsorted, fun l => (hmem l).trans (reaches_level_iff_graded hs hg hn l)⟩

end Kernel

namespace Engine

open Kernel

/-- Expression `x` depends on name `y`: under some assignment, changing the value of `y` alone
changes its truth value. -/
def DependsOnName (e : Engine) (x : Nat) (y : String) : Prop :=
  ∃ σ, e.value x (Function.update σ y true) ≠ e.value x (Function.update σ y false)

/-- Two truth values of walks that end at different terminals differ. -/
theorem walk_beq_one_ne {k : Kernel} {σ τ : Nat → Bool} {x : Nat}
    (h : k.walk σ x ≠ k.walk τ x) : (k.walk σ x == 1) ≠ (k.walk τ x == 1) := by
  have hσ := walk_lt_two k σ x
  have hτ := walk_lt_two k τ x
  intro heq
  apply h
  -- both walks end at a terminal, `0` or `1`, so agreeing on being `1` they are equal
  rw [Bool.eq_iff_iff, beq_iff_eq, beq_iff_eq] at heq
  by_cases h1 : k.walk σ x = 1
  · have := heq.1 h1
    omega
  · have := mt heq.2 h1
    omega

/-- Setting a name changes the value of no level that another name stands at. -/
theorem levels_update_of_ne {e : Engine} {σ : String → Bool} {y : String} (b : Bool) {l : Nat}
    (hl : l < e.names.size) (hy : e.names[l] ≠ y) :
    e.levels (Function.update σ y b) l = e.levels σ l := by
  simp only [levels, Array.getElem?_eq_getElem hl, Option.getD_some]
  exact Function.update_of_ne hy b σ

/-- The support names are sorted. -/
theorem supportNames_sorted (e : Engine) (x : Nat) : ((supportNames x).run e).1.Pairwise (· ≤ ·) := by
  simp only [supportNames, run_bind, onKernel_run, run_get, run_pure]
  refine (List.pairwise_mergeSort (fun a b c hab hbc => ?_) (fun a b => ?_) _).imp
    fun h => of_decide_eq_true h
  · simp only [decide_eq_true_eq] at hab hbc ⊢
    exact le_trans hab hbc
  · simp only [Bool.or_eq_true, decide_eq_true_eq]
    exact le_total a b

section Names

variable {e : Engine} (hs : Sound e)
include hs

/-- The level of a name of the support, set through its name, is set in the walk: the walk of an
expression under an assignment of names with `y` set to `b` is its walk under an assignment of
levels with `y`'s level set to `b`. -/
theorem walk_update_name {x : Nat} (hx : x < e.kernel.nodes.size) {l : Nat}
    (hl : l < e.names.size) (τ : Nat → Bool) (b : Bool) :
    e.kernel.walk (e.levels (Function.update (fun y => τ (e.levelOf y)) e.names[l] b)) x =
      e.kernel.walk (fixLevel τ l b) x := by
  refine walk_congr_reaches fun i hi h2 => ?_
  have hil := hs.level_lt_names h2 (Nat.lt_of_le_of_lt hi.le hx)
  -- the name of the level read is the name set, or another one, at another level
  by_cases hli : e.kernel.level i = l
  · rw [hli, fixLevel_same]
    simp [levels, hl]
  · have hne : e.names[e.kernel.level i] ≠ e.names[l] := fun heq =>
      hli (level_inj hs.nodup hil hl heq)
    rw [levels_update_of_ne b hil hne, fixLevel_ne τ b hli]
    obtain ⟨hlt, hget⟩ := levelOf_of_mem hs.nodup (Array.getElem_mem_toList hil)
    simp only [levels, Array.getElem?_eq_getElem hil, Option.getD_some]
    rw [level_inj hs.nodup hlt hil hget]

/-- A name is in the support of an expression exactly when the expression depends on it. -/
theorem inSupport_iff_dependsOnName {x : Nat} (hx : x < e.kernel.nodes.size) (y : String) :
    e.InSupport x y ↔ e.DependsOnName x y := by
  constructor
  · -- the level of a node reached is one the function depends on; read it through its name
    rintro ⟨i, hi, h2, hy⟩
    obtain ⟨hl, hname⟩ := Array.getElem?_eq_some_iff.1 hy
    have hdep := (reaches_level_iff_graded hs.ordered.structured hs.ordered.levels.graded hx _).1
      ⟨i, hi, h2, rfl⟩
    obtain ⟨τ, hτ⟩ := hdep
    refine ⟨fun y => τ (e.levelOf y), ?_⟩
    simp only [value]
    rw [← hname, walk_update_name hs hx hl, walk_update_name hs hx hl]
    exact walk_beq_one_ne hτ
  · -- a name no node reached stands for changes no level the walk reads
    rintro ⟨σ, hσ⟩
    by_contra hnot
    apply hσ
    simp only [value]
    congr 1
    refine walk_congr_reaches fun i hi h2 => ?_
    have hil := hs.level_lt_names h2 (Nat.lt_of_le_of_lt hi.le hx)
    have hne : e.names[e.kernel.level i] ≠ y := fun heq =>
      hnot ⟨i, hi, h2, by rw [Array.getElem?_eq_getElem hil, heq]⟩
    rw [levels_update_of_ne true hil hne, levels_update_of_ne false hil hne]

end Names

/-- The support names of an expression are determined by its truth values: two expressions of
two sound engines with the same truth values under every assignment have the same support names,
whatever the levels of the names in each engine. -/
theorem supportNames_eq_of_value_eq {e₁ e₂ : Engine} (hs₁ : Sound e₁) (hs₂ : Sound e₂)
    {x₁ x₂ : Nat} (hx₁ : x₁ < e₁.kernel.nodes.size) (hx₂ : x₂ < e₂.kernel.nodes.size)
    (h : ∀ σ, e₁.value x₁ σ = e₂.value x₂ σ) :
    ((supportNames x₁).run e₁).1 = ((supportNames x₂).run e₂).1 := by
  obtain ⟨L₁, hrun₁, hnd₁, hmem₁⟩ := supportNames_run hs₁ hx₁
  obtain ⟨L₂, hrun₂, hnd₂, hmem₂⟩ := supportNames_run hs₂ hx₂
  have hsorted₁ := supportNames_sorted e₁ x₁
  have hsorted₂ := supportNames_sorted e₂ x₂
  rw [hrun₁] at hsorted₁ ⊢
  rw [hrun₂] at hsorted₂ ⊢
  -- the same names, each once, sorted alike
  have hdep : ∀ y, e₁.DependsOnName x₁ y ↔ e₂.DependsOnName x₂ y := fun y => by
    simp only [DependsOnName, h]
  have hperm : L₁.Perm L₂ := (List.perm_ext_iff_of_nodup hnd₁ hnd₂).2 fun y => by
    rw [hmem₁, hmem₂, inSupport_iff_dependsOnName hs₁ hx₁, inSupport_iff_dependsOnName hs₂ hx₂,
      hdep]
  exact hperm.eq_of_pairwise' hsorted₁ hsorted₂

end Engine

namespace Kernel

/-- The support of a node is the set of levels its function depends on. On every reachable
table, the support of a node of the table is the increasing list of the levels `l` for which
evaluating the node with `l` false and with `l` true differ under some values of the other
levels, and reading it changes nothing; a reference outside the table has no support. Hence the
names that a sound engine lists as the support of an expression are determined by the truth
values of the expression, and so is the choice of cover made on their number. -/
theorem support_lists_essential_levels {k : Kernel} (hk : Reachable k) (n : Int) :
    ((0 ≤ n ∧ n < k.nodes.size) →
      ∃ L, (support n).run k = (some L, k) ∧ L.Pairwise (· < ·) ∧
        ∀ l, l ∈ L ↔ ∃ σ, ((evalAt n (fixLevel σ l false)).run k).1 ≠
          ((evalAt n (fixLevel σ l true)).run k).1) ∧
    (¬(0 ≤ n ∧ n < k.nodes.size) → ((support n).run k).1 = none) ∧
    ∀ {e₁ e₂ : Engine} {x₁ x₂ : Nat}, Engine.Sound e₁ → Engine.Sound e₂ →
      x₁ < e₁.kernel.nodes.size → x₂ < e₂.kernel.nodes.size →
      (∀ σ, e₁.value x₁ σ = e₂.value x₂ σ) →
      ((Engine.supportNames x₁).run e₁).1 = ((Engine.supportNames x₂).run e₂).1 := by
  refine ⟨fun ⟨h0, hn⟩ => ?_, support_run_of_invalid, fun hs₁ hs₂ hx₁ hx₂ h =>
    Engine.supportNames_eq_of_value_eq hs₁ hs₂ hx₁ hx₂ h⟩
  obtain ⟨L, hrun, hsorted, hmem⟩ := support_run_essential hk (show n.toNat < k.nodes.size by omega)
  refine ⟨L, by rw [← hrun, Int.toNat_of_nonneg h0], hsorted, fun l => ?_⟩
  rw [hmem, dependsOn_iff_evalAt h0 hn]

/-- On the table of one variable, the support of its positive literal, node `2`. -/
theorem support_lists_essential_levels_oneVariable :
    Reachable oneVariable ∧
    (((0 : Int) ≤ 2 ∧ (2 : Int) < oneVariable.nodes.size) →
      ∃ L, (support 2).run oneVariable = (some L, oneVariable) ∧ L.Pairwise (· < ·) ∧
        ∀ l, l ∈ L ↔ ∃ σ, ((evalAt 2 (fixLevel σ l false)).run oneVariable).1 ≠
          ((evalAt 2 (fixLevel σ l true)).run oneVariable).1) ∧
    (¬((0 : Int) ≤ 2 ∧ (2 : Int) < oneVariable.nodes.size) →
      ((support 2).run oneVariable).1 = none) ∧
    ∀ {e₁ e₂ : Engine} {x₁ x₂ : Nat}, Engine.Sound e₁ → Engine.Sound e₂ →
      x₁ < e₁.kernel.nodes.size → x₂ < e₂.kernel.nodes.size →
      (∀ σ, e₁.value x₁ σ = e₂.value x₂ σ) →
      ((Engine.supportNames x₁).run e₁).1 = ((Engine.supportNames x₂).run e₂).1 :=
  ⟨reachable_oneVariable, support_lists_essential_levels reachable_oneVariable 2⟩

end Kernel

end DecisionDiagrams
