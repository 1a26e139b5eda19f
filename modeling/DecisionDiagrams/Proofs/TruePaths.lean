/-
The true paths of a node, as `allsat` lists them.

`Kernel.cubes` goes down from a node, low branch first, and hands the profile of each path to
the true terminal to its function: `0` or `1` at the levels tested on the path, `-1` at the
others. An assignment agrees with a profile when it gives every level the profile fixes its
value. It agrees with one of the profiles of a node exactly when its walk from the node reaches
true, and the profiles fix only levels of nodes that the node reaches.

* `Kernel.Fixes`, `Kernel.Agrees` — a profile fixing a level, and an assignment agreeing with a
  profile.
* `Kernel.cubes_collect` — a fold that collects the profiles gets exactly these.
* `Kernel.allsat_collect` — the same from the blank profile of a node of an ordered table; the
  table is left as it was.
-/
import DecisionDiagrams.Proofs.Support

namespace DecisionDiagrams

namespace Kernel

/-- Profile `p` fixes level `l` to the value `v`: `1` for true, `0` for false. -/
def Fixes (p : Array Int) (l : Nat) (v : Bool) : Prop :=
  p[l]? = some (if v then 1 else 0)

/-- Assignment `σ` agrees with profile `p` on every level the profile fixes. -/
def Agrees (σ : Nat → Bool) (p : Array Int) : Prop :=
  ∀ l v, Fixes p l v → σ l = v

/-- The reach of a node reached is reached. -/
theorem Reaches.trans {k : Kernel} {r j i : Nat} (hj : Reaches k r j) (hi : Reaches k j i) :
    Reaches k r i := by
  induction hi with
  | root => exact hj
  | low _ h2 ih => exact ih.low h2
  | high _ h2 ih => exact ih.high h2

/-! ### Profiles of the two branches -/

theorem untested_getElem? (p : Array Int) (a b l : Nat) :
    (untested p a b)[l]? = if a ≤ l ∧ l < b then p[l]?.map (fun _ => -1) else p[l]? := by
  have hfold : ∀ (vs : List Nat) (p : Array Int),
      (vs.foldl (fun p v => p.setIfInBounds v (-1)) p)[l]? =
        if l ∈ vs then p[l]?.map (fun _ => -1) else p[l]? := by
    intro vs
    induction vs with
    | nil => simp
    | cons v vs ih =>
      intro p
      rw [List.foldl_cons, ih, Array.getElem?_setIfInBounds]
      by_cases hv : v = l
      · subst hv
        by_cases hlt : v < p.size <;> simp [hlt]
      · simp [hv, Ne.symm hv]
  rw [untested, hfold]
  by_cases h : a ≤ l ∧ l < b
  · rw [if_pos (List.mem_range'_1.2 (by omega)), if_pos h]
  · rw [if_neg (fun hm => h (by have := List.mem_range'_1.1 hm; omega)), if_neg h]

theorem untested_size (p : Array Int) (a b : Nat) : (untested p a b).size = p.size := by
  have hfold : ∀ (vs : List Nat) (p : Array Int),
      (vs.foldl (fun p v => p.setIfInBounds v (-1)) p).size = p.size := by
    intro vs
    induction vs with
    | nil => simp
    | cons v vs ih => intro p; rw [List.foldl_cons, ih, Array.size_setIfInBounds]
  exact hfold _ p

/-- The profile of a branch: the level of the node fixed to the branch's value, and the levels
skipped on the edge left untested. -/
def branchProfile (p : Array Int) (lvl : Nat) (val : Bool) (b : Nat) : Array Int :=
  untested (p.setIfInBounds lvl (if val then 1 else 0)) (lvl + 1) b

/-- What the profile of a branch fixes: the node's level, to the branch's value, and what the
profile before it fixes outside the skipped levels. -/
theorem fixes_branchProfile {p : Array Int} {lvl : Nat} (hlvl : lvl < p.size) (val : Bool)
    (b l : Nat) (v : Bool) :
    Fixes (branchProfile p lvl val b) l v ↔
      (l = lvl ∧ v = val) ∨ (l ≠ lvl ∧ ¬ (lvl + 1 ≤ l ∧ l < b) ∧ Fixes p l v) := by
  unfold Fixes branchProfile
  rw [untested_getElem?, Array.getElem?_setIfInBounds]
  by_cases hl : l = lvl
  · subst hl
    cases val <;> cases v <;> simp [hlvl]
  · by_cases hr : lvl + 1 ≤ l ∧ l < b
    · rw [if_pos hr, if_neg (Ne.symm hl)]
      cases p[l]? <;> cases v <;> simp [hl, hr]
    · rw [if_neg hr, if_neg (Ne.symm hl)]
      exact ⟨fun h => .inr ⟨hl, hr, h⟩, fun h => h.elim (fun h => absurd h.1 hl) (fun h => h.2.2)⟩

section Branch

variable {p : Array Int} {lvl : Nat} (hlvl : lvl < p.size)
  (hblank : ∀ l v, Fixes p l v → l < lvl)
include hlvl hblank

/-- An assignment agrees with the profile of a branch when it agrees with the profile before it
and takes the branch. -/
theorem agrees_branchProfile (σ : Nat → Bool) (val : Bool) (b : Nat) :
    Agrees σ (branchProfile p lvl val b) ↔ Agrees σ p ∧ σ lvl = val := by
  constructor
  · intro h
    refine ⟨fun l v hf => ?_, h lvl val ((fixes_branchProfile hlvl val b lvl val).2 (.inl ⟨rfl, rfl⟩))⟩
    have hlt := hblank l v hf
    exact h l v ((fixes_branchProfile hlvl val b l v).2 (.inr ⟨by omega, by omega, hf⟩))
  · rintro ⟨h, hv⟩ l v hf
    rcases (fixes_branchProfile hlvl val b l v).1 hf with ⟨rfl, rfl⟩ | ⟨-, -, hf⟩
    · exact hv
    · exact h l v hf

/-- The profile of a branch fixes only levels above the node it goes to. -/
theorem blank_branchProfile (val : Bool) {b : Nat} (hb : lvl < b) :
    ∀ l v, Fixes (branchProfile p lvl val b) l v → l < b := by
  intro l v hf
  rcases (fixes_branchProfile hlvl val b l v).1 hf with ⟨rfl, -⟩ | ⟨-, -, hf⟩
  · exact hb
  · exact Nat.lt_trans (hblank l v hf) hb

end Branch

/-! ### Collecting the profiles -/

section Collect

variable {k : Kernel} (hs : Structured k) (hl : Levels k) {β : Type} (g : Array Int → β)
include hs hl

/-- The profiles that `cubes` hands to a collecting function for node `n`, from a profile that
fixes only levels above `n`: an assignment agrees with one of them exactly when it agrees with
the profile and reaches true from `n`, and each fixes only what the profile fixes and levels of
nodes that `n` reaches. -/
theorem cubes_collect : ∀ (n : Nat) (prof : Array Int) (s : List β), n < k.nodes.size →
    (k.entry 0).level ≤ prof.size → (∀ l v, Fixes prof l v → l < k.level n) →
    ∃ P : List (Array Int),
      cubes k (fun acc p => .ok (acc ++ [g p])) n prof s = (s ++ P.map g, none) ∧
      (∀ σ, (∃ p ∈ P, Agrees σ p) ↔ Agrees σ prof ∧ k.walk σ n = 1) ∧
      ∀ p ∈ P, ∀ l v, Fixes p l v →
        Fixes prof l v ∨ ∃ i, Reaches k n i ∧ 2 ≤ i ∧ k.level i = l := by
  intro n
  induction n using Nat.strongRecOn with
  | ind n ih =>
  intro prof s hn hsize hblank
  rw [cubes]
  by_cases h1 : n = 1
  · -- the true terminal hands over the profile itself
    subst h1
    refine ⟨[prof], by simp [step], fun σ => ?_, fun p hp l v hf => .inl ?_⟩
    · simp [walk_terminal k σ (show 1 < 2 by omega)]
    · rw [List.mem_singleton.1 hp] at hf
      exact hf
  rw [if_neg h1]
  by_cases h0 : n < 2
  · -- the false terminal hands over nothing
    rw [dif_pos h0]
    obtain rfl : n = 0 := by omega
    refine ⟨[], by simp, fun σ => ?_, by simp⟩
    simp [walk_terminal k σ (show 0 < 2 by omega)]
  rw [dif_neg h0]
  have h2 : 2 ≤ n := by omega
  have hlvl : k.level n < prof.size := Nat.lt_of_lt_of_le (hl.below n h2 hn) hsize
  -- one branch: its child's profiles, or none for the false terminal
  have branch : ∀ (c : Nat) (val : Bool) (s : List β), c < n → (2 ≤ c → Reaches k n c) →
      c < k.nodes.size → k.level n < k.level c → ∃ P : List (Array Int),
        (if c ≠ 0 then cubes k (fun acc p => .ok (acc ++ [g p])) c
            (branchProfile prof (k.level n) val (k.level c)) s else (s, none)) =
          (s ++ P.map g, none) ∧
        (∀ σ, (∃ p ∈ P, Agrees σ p) ↔ Agrees σ prof ∧ σ (k.level n) = val ∧ k.walk σ c = 1) ∧
        ∀ p ∈ P, ∀ l v, Fixes p l v →
          Fixes prof l v ∨ ∃ i, Reaches k n i ∧ 2 ≤ i ∧ k.level i = l := by
    intro c val s hc hreach hcs hlc
    by_cases hc0 : c = 0
    · subst hc0
      refine ⟨[], by simp, fun σ => ?_, by simp⟩
      simp [walk_terminal k σ (show 0 < 2 by omega)]
    rw [if_pos hc0]
    obtain ⟨P, hrun, hsem, hfix⟩ := ih c hc (branchProfile prof (k.level n) val (k.level c)) s hcs
      (by rw [branchProfile, untested_size, Array.size_setIfInBounds]; exact hsize)
      (blank_branchProfile hlvl hblank val hlc)
    refine ⟨P, hrun, fun σ => ?_, fun p hp l v hf => ?_⟩
    · rw [hsem, agrees_branchProfile hlvl hblank, and_assoc]
    · rcases hfix p hp l v hf with hf | ⟨i, hi, hi2, rfl⟩
      · rcases (fixes_branchProfile hlvl val _ l v).1 hf with ⟨rfl, -⟩ | ⟨-, -, hf⟩
        · exact .inr ⟨n, .root, h2, rfl⟩
        · exact .inl hf
      · exact .inr ⟨i, (hreach (by have := hi.le; by_contra; omega)).trans hi, hi2, rfl⟩
  have hlo := lowOf_lt k n (by omega)
  have hhi := highOf_lt k n (by omega)
  obtain ⟨Plo, hrunlo, hsemlo, hfixlo⟩ := branch (k.lowOf n) false s hlo
    (fun _ => .low .root h2) (lowOf_lt_size k h2 hn) (hl.lowOf hs h2 hn)
  obtain ⟨Phi, hrunhi, hsemhi, hfixhi⟩ := branch (k.highOf n) true (s ++ Plo.map g) hhi
    (fun _ => .high .root h2) (highOf_lt_size k h2 hn) (hl.highOf hs h2 hn)
  refine ⟨Plo ++ Phi, ?_, fun σ => ?_, fun p hp => ?_⟩
  · -- the low branch runs first, then the high one on what it collected
    simp only [branchProfile] at hrunlo hrunhi
    simp only [Bool.false_eq_true, if_false, if_true] at hrunlo hrunhi
    simp only [ne_eq, ite_not] at hrunlo hrunhi ⊢
    rw [hrunlo]
    dsimp only
    rw [hrunhi, List.map_append, List.append_assoc]
  · rw [walk_internal _ _ h2]
    simp only [List.mem_append, or_and_right, exists_or, hsemlo, hsemhi]
    cases σ (k.level n) <;> simp
  · rcases List.mem_append.1 hp with hp | hp
    · exact hfixlo p hp
    · exact hfixhi p hp

end Collect

/-- The profiles of the true paths of a node of an ordered table, collected from the blank
profile: an assignment agrees with one of them exactly when it reaches true, each fixes only
levels of nodes the node reaches, and the table is left as it was. -/
theorem allsat_collect {k : Kernel} (ho : Ordered k) {β : Type} (g : Array Int → β) {n : Nat}
    (hn : n < k.nodes.size) (s : List β) :
    ∃ P : List (Array Int),
      (allsat n (fun acc p => .ok (acc ++ [g p])) s).run k = ((s ++ P.map g, none), k) ∧
      (∀ σ, (∃ p ∈ P, Agrees σ p) ↔ k.walk σ n = 1) ∧
      ∀ p ∈ P, ∀ l v, Fixes p l v → ∃ i, Reaches k n i ∧ 2 ≤ i ∧ k.level i = l := by
  have hblank : ∀ l v, Fixes (Array.replicate k.varnum (-1)) l v → l < k.level n := by
    intro l v hf
    unfold Fixes at hf
    rw [Array.getElem?_replicate] at hf
    split at hf <;> cases v <;> simp at hf
  obtain ⟨P, hrun, hsem, hfix⟩ := cubes_collect ho.structured ho.levels g n
    (Array.replicate k.varnum (-1)) s hn (by rw [ho.top]; simp) hblank
  refine ⟨P, ?_, fun σ => ?_, fun p hp l v hf => ?_⟩
  · unfold allsat
    rw [checkRef_bind_of_ok (by omega)]
    simp only [Bool.not_true, Bool.false_eq_true, if_false, Int.toNat_natCast]
    rw [← hrun]
    rfl
  · rw [hsem]
    exact ⟨fun h => h.2, fun h => ⟨fun l v hf => absurd (hblank l v hf) (by
      unfold Fixes at hf
      rw [Array.getElem?_replicate] at hf
      split at hf <;> cases v <;> simp at hf), h⟩⟩
  · rcases hfix p hp l v hf with hf | h
    · exact absurd (hblank l v hf) (by
        unfold Fixes at hf
        rw [Array.getElem?_replicate] at hf
        split at hf <;> cases v <;> simp at hf)
    · exact h

end Kernel

end DecisionDiagrams
