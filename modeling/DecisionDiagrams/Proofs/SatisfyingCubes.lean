/-
The cubes of the true paths of a node, as `allsat` hands them out.

A true path of a node goes down from it to the true terminal, taking one branch at each internal
node it passes. Its cube is the profile of `varnum` entries that holds the branch taken at the
level of each node on the path, `1` for high and `0` for low, and `-1` at every other level. On
an ordered table `allsat` folds its function over the cubes of the true paths of the node, each
path once and low branches first, and stops at the first failure. The cubes are pairwise
disjoint, an assignment agrees with one of them exactly when its walk reaches true, and a cube
with `c` entries `-1` holds `2 ^ c` assignments of the levels, so the weights of the cubes add up
to the count of the node.

* `Kernel.truePaths`, `Kernel.TruePath` — the true paths of a node, listed and described.
* `Kernel.cube` — the profile of a path.
* `Kernel.allsat_run` — `allsat` folds its function over the cubes of the true paths.
* `Kernel.cube_spec` — what a cube holds.
* `Kernel.cubes_disjoint`, `Kernel.sum_cube_weights` — the cubes are disjoint and their weights
  add up to the count of the node.
-/
import DecisionDiagrams.Proofs.ModelCounting

namespace DecisionDiagrams

namespace Kernel

/-! ### Folding until the first error -/

section FoldUntil

variable {σ α : Type} {f : σ → α → Except String σ}

theorem foldUntil_singleton (s : σ) (x : α) : foldUntil f s [x] = step f s x := by
  rw [foldUntil]
  rcases step f s x with ⟨t, _ | e⟩ <;> rfl

/-- A fold that gets through a first list goes on with the second from where it got. -/
theorem foldUntil_append_of_none {s s' : σ} {xs : List α} (h : foldUntil f s xs = (s', none))
    (ys : List α) : foldUntil f s (xs ++ ys) = foldUntil f s' ys := by
  induction xs generalizing s with
  | nil => cases h; rfl
  | cons x xs ih =>
    rw [List.cons_append, foldUntil]
    rw [foldUntil] at h
    rcases hx : step f s x with ⟨t, _ | e⟩
    · rw [hx] at h
      exact ih h
    · rw [hx] at h
      cases h

/-- A fold that fails on a first list never reaches the second. -/
theorem foldUntil_append_of_some {s s' : σ} {e : String} {xs : List α}
    (h : foldUntil f s xs = (s', some e)) (ys : List α) : foldUntil f s (xs ++ ys) = (s', some e) := by
  induction xs generalizing s with
  | nil => cases h
  | cons x xs ih =>
    rw [List.cons_append, foldUntil]
    rw [foldUntil] at h
    rcases hx : step f s x with ⟨t, _ | e'⟩
    · rw [hx] at h
      exact ih h
    · rw [hx] at h
      exact h

/-- If the first `m` calls succeed and the next one fails, the fold answers the state after the
`m` calls with that failure, and makes no further call. -/
theorem foldUntil_stops {s s' : σ} {e : String} {xs : List α} {m : Nat} (hm : m < xs.length)
    (h : foldUntil f s (xs.take m) = (s', none)) (he : f s' xs[m] = .error e) :
    foldUntil f s xs = (s', some e) := by
  rw [← List.take_append_drop m xs, foldUntil_append_of_none h, List.drop_eq_getElem_cons hm,
    foldUntil, step, he]

/-- A fold that collects what it is given collects the whole list. -/
theorem foldUntil_collect {β : Type} (g : α → β) (s : List β) (xs : List α) :
    foldUntil (fun acc x => .ok (acc ++ [g x])) s xs = (s ++ xs.map g, none) := by
  induction xs generalizing s with
  | nil => simp [foldUntil]
  | cons x xs ih => simp [foldUntil, step, ih]

end FoldUntil

/-! ### True paths -/

/-- The child of node `n` on a branch: the high child for `true`, the low one for `false`. -/
def child (k : Kernel) (n : Nat) (b : Bool) : Nat :=
  if b then k.highOf n else k.lowOf n

@[simp] theorem child_false (k : Kernel) (n : Nat) : k.child n false = k.lowOf n := rfl

@[simp] theorem child_true (k : Kernel) (n : Nat) : k.child n true = k.highOf n := rfl

theorem child_lt (k : Kernel) {n : Nat} (h : 0 < n) (b : Bool) : k.child n b < n := by
  cases b
  · exact lowOf_lt k n h
  · exact highOf_lt k n h

/-- The children of an internal node of an ordered table are nodes of the table below it. -/
theorem Ordered.child {k : Kernel} (ho : Ordered k) {n : Nat} (h2 : 2 ≤ n) (hn : n < k.nodes.size)
    (b : Bool) : k.child n b < k.nodes.size ∧ k.level n < k.level (k.child n b) := by
  cases b
  · exact ⟨lowOf_lt_size k h2 hn, ho.levels.lowOf ho.structured h2 hn⟩
  · exact ⟨highOf_lt_size k h2 hn, ho.levels.highOf ho.structured h2 hn⟩

/-- The paths from node `n` down to the true terminal, low branches first: each lists the
internal nodes it passes with the branch it takes there. -/
def truePaths (k : Kernel) (n : Nat) : List (List (Nat × Bool)) :=
  if n = 1 then [[]]
  else if _h : n < 2 then []
  else
    (truePaths k (k.lowOf n)).map (fun p => (n, false) :: p) ++
      (truePaths k (k.highOf n)).map (fun p => (n, true) :: p)
termination_by n
decreasing_by
  · exact lowOf_lt k _ (by omega)
  · exact highOf_lt k _ (by omega)

@[simp] theorem truePaths_true (k : Kernel) : k.truePaths 1 = [[]] := by
  rw [truePaths, if_pos rfl]

@[simp] theorem truePaths_false (k : Kernel) : k.truePaths 0 = [] := by
  rw [truePaths, if_neg (by omega), dif_pos (by omega)]

theorem truePaths_internal (k : Kernel) {n : Nat} (h2 : 2 ≤ n) :
    k.truePaths n = (k.truePaths (k.child n false)).map (fun p => (n, false) :: p) ++
      (k.truePaths (k.child n true)).map (fun p => (n, true) :: p) := by
  rw [truePaths, if_neg (by omega), dif_neg (by omega)]
  rfl

/-- A path from node `n` to the true terminal, with the branch it takes at each internal node. -/
inductive TruePath (k : Kernel) : Nat → List (Nat × Bool) → Prop
  | done : TruePath k 1 []
  | step {n : Nat} {p : List (Nat × Bool)} (b : Bool) :
      2 ≤ n → TruePath k (k.child n b) p → TruePath k n ((n, b) :: p)

/-- `truePaths` lists exactly the true paths. -/
theorem mem_truePaths (k : Kernel) : ∀ n p, p ∈ k.truePaths n ↔ k.TruePath n p := by
  intro n
  induction n using Nat.strongRecOn with
  | ind n ih =>
  intro p
  by_cases h1 : n = 1
  · subst h1
    rw [truePaths_true, List.mem_singleton]
    constructor
    · rintro rfl
      exact .done
    · intro hp
      cases hp with
      | done => rfl
      | step b h2 => omega
  by_cases h0 : n = 0
  · subst h0
    simp only [truePaths_false, List.not_mem_nil, false_iff]
    intro hp
    cases hp with
    | step b h2 => omega
  have h2 : 2 ≤ n := by omega
  have hc := fun b => ih _ (child_lt k (by omega) b)
  rw [truePaths_internal k h2, List.mem_append, List.mem_map, List.mem_map]
  constructor
  · rintro (⟨q, hq, rfl⟩ | ⟨q, hq, rfl⟩)
    · exact .step false h2 ((hc false q).1 hq)
    · exact .step true h2 ((hc true q).1 hq)
  · intro hp
    cases hp with
    | done => omega
    | step b _ hq =>
      cases b
      · exact .inl ⟨_, (hc false _).2 hq, rfl⟩
      · exact .inr ⟨_, (hc true _).2 hq, rfl⟩

/-- The branches of the true paths come in increasing order, `false` before `true`: low
branches first. -/
theorem truePaths_lex (k : Kernel) :
    ∀ n, (k.truePaths n).Pairwise fun p q => List.Lex (· < ·) (p.map Prod.snd) (q.map Prod.snd) := by
  intro n
  induction n using Nat.strongRecOn with
  | ind n ih =>
  by_cases h1 : n = 1
  · subst h1
    simp
  by_cases h0 : n = 0
  · subst h0
    simp
  rw [truePaths_internal k (by omega), List.pairwise_append, List.pairwise_map, List.pairwise_map]
  refine ⟨?_, ?_, ?_⟩
  · exact (ih _ (child_lt k (by omega) false)).imp fun h => .cons h
  · exact (ih _ (child_lt k (by omega) true)).imp fun h => .cons h
  · -- a low path leaves `n` on `false`, a high one on `true`
    intro p hp q hq
    obtain ⟨p, -, rfl⟩ := List.mem_map.1 hp
    obtain ⟨q, -, rfl⟩ := List.mem_map.1 hq
    exact .rel (show false < true by decide)

/-- Each true path is listed once. -/
theorem truePaths_nodup (k : Kernel) (n : Nat) : (k.truePaths n).Nodup := by
  refine (truePaths_lex k n).imp fun {p q} h heq => ?_
  subst heq
  exact List.lex_irrefl (fun b => lt_irrefl b) _ h

section Paths

variable {k : Kernel} (ho : Ordered k)
include ho

/-- A true path passes internal nodes of the table, none above its start. -/
theorem TruePath.nodes {n : Nat} {p : List (Nat × Bool)} (h : k.TruePath n p)
    (hn : n < k.nodes.size) : ∀ ib ∈ p, 2 ≤ ib.1 ∧ ib.1 < k.nodes.size ∧ k.level n ≤ k.level ib.1 := by
  induction h with
  | done => simp
  | @step n p b h2 _ ih =>
    obtain ⟨hc, hlvl⟩ := ho.child h2 hn b
    intro ib hib
    rcases List.mem_cons.1 hib with rfl | hib
    · exact ⟨h2, hn, Nat.le_refl _⟩
    · obtain ⟨h2', hsize, hle⟩ := ih hc ib hib
      exact ⟨h2', hsize, by omega⟩

/-- A true path passes at most one node per level from its start down to `varnum`. -/
theorem TruePath.length_le {n : Nat} {p : List (Nat × Bool)} (h : k.TruePath n p)
    (hn : n < k.nodes.size) : p.length + k.level n ≤ k.varnum := by
  induction h with
  | done => simp [ho.levels.level_terminal (show 1 < 2 by omega), ho.top]
  | @step n p b h2 _ ih =>
    obtain ⟨hc, hlvl⟩ := ho.child h2 hn b
    have := ih hc
    simp only [List.length_cons]
    omega

end Paths

/-- Two different true paths from one node part at some node, where one goes low and the other
high. -/
theorem TruePath.diverge {k : Kernel} {n : Nat} {p q : List (Nat × Bool)} (hp : k.TruePath n p)
    (hq : k.TruePath n q) (hne : p ≠ q) : ∃ i b, (i, b) ∈ p ∧ (i, !b) ∈ q := by
  induction hp generalizing q with
  | done =>
    cases hq with
    | done => exact absurd rfl hne
    | step b h2 => omega
  | @step n p b h2 _ ih =>
    cases hq with
    | done => omega
    | step b' _ hq =>
      by_cases hb : b' = b
      · subst hb
        obtain ⟨i, c, hi, hi'⟩ := ih hq fun h => hne (h ▸ rfl)
        exact ⟨i, c, .tail _ hi, .tail _ hi'⟩
      · exact ⟨n, b, .head _, by rw [show b' = !b by cases b <;> cases b' <;> simp_all]; exact .head _⟩

/-! ### Profiles of paths -/

/-- The profile of a path from profile `prof`: the level of each node the path passes set to the
branch it takes there, `1` for high and `0` for low. -/
def pathProfile (k : Kernel) (prof : Array Int) (p : List (Nat × Bool)) : Array Int :=
  p.foldl (fun q ib => q.setIfInBounds (k.level ib.1) (if ib.2 then 1 else 0)) prof

/-- The cube of a path: its profile from the profile of `varnum` levels all untested. -/
def cube (k : Kernel) (p : List (Nat × Bool)) : Array Int :=
  k.pathProfile (Array.replicate k.varnum (-1)) p

/-- A profile whose levels from `l` on are untested. -/
def BlankFrom (prof : Array Int) (l : Nat) : Prop :=
  ∀ m, l ≤ m → m < prof.size → prof[m]? = some (-1)

section Profiles

variable (k : Kernel)

@[simp] theorem pathProfile_nil (prof : Array Int) : k.pathProfile prof [] = prof := rfl

@[simp] theorem pathProfile_cons (prof : Array Int) (ib : Nat × Bool) (p : List (Nat × Bool)) :
    k.pathProfile prof (ib :: p) =
      k.pathProfile (prof.setIfInBounds (k.level ib.1) (if ib.2 then 1 else 0)) p := rfl

@[simp] theorem size_pathProfile (prof : Array Int) (p : List (Nat × Bool)) :
    (k.pathProfile prof p).size = prof.size := by
  induction p generalizing prof with
  | nil => rfl
  | cons ib p ih => rw [pathProfile_cons, ih, Array.size_setIfInBounds]

/-- A path leaves the levels of the nodes it does not pass as they were. -/
theorem pathProfile_getElem?_of_ne {prof : Array Int} {p : List (Nat × Bool)} {l : Nat}
    (h : ∀ ib ∈ p, k.level ib.1 ≠ l) : (k.pathProfile prof p)[l]? = prof[l]? := by
  induction p generalizing prof with
  | nil => rfl
  | cons ib p ih =>
    rw [pathProfile_cons, ih fun ib' hib' => h ib' (.tail _ hib'), Array.getElem?_setIfInBounds,
      if_neg (h ib (.head _))]

/-- The profiles of the paths through a first node are the profiles of the rest of the paths,
from the profile with the node's level set to its branch. -/
theorem map_pathProfile_cons (prof : Array Int) (n : Nat) (b : Bool) (ps : List (List (Nat × Bool))) :
    (ps.map fun p => (n, b) :: p).map (k.pathProfile prof) =
      ps.map (k.pathProfile (prof.setIfInBounds (k.level n) (if b then 1 else 0))) := by
  rw [List.map_map]
  rfl

end Profiles

theorem BlankFrom.mono {prof : Array Int} {l l' : Nat} (h : BlankFrom prof l) (hl : l ≤ l') :
    BlankFrom prof l' :=
  fun m hm hsize => h m (Nat.le_trans hl hm) hsize

/-- Setting the level of a node keeps the levels below it untested. -/
theorem BlankFrom.setIfInBounds {prof : Array Int} {l : Nat} (h : BlankFrom prof l) (v : Int) :
    BlankFrom (prof.setIfInBounds l v) (l + 1) := by
  intro m hm hsize
  rw [Array.size_setIfInBounds] at hsize
  rw [Array.getElem?_setIfInBounds, if_neg (by omega)]
  exact h m (by omega) hsize

/-- Marking untested levels that are untested changes nothing. -/
theorem untested_of_blank {prof : Array Int} {a : Nat} (h : BlankFrom prof a) (b : Nat) :
    untested prof a b = prof := by
  apply Array.ext_getElem?
  intro l
  rw [untested_getElem?]
  split
  · rename_i hl
    by_cases hsize : l < prof.size
    · rw [h l hl.1 hsize]
      rfl
    · rw [Array.getElem?_eq_none (by omega)]
      rfl
  · rfl

/-- The blank profile of `varnum` levels. -/
theorem blankFrom_replicate (V l : Nat) : BlankFrom (Array.replicate V (-1)) l := by
  intro m _ hm
  rw [Array.size_replicate] at hm
  rw [Array.getElem?_replicate, if_pos hm]

/-- Testing an untested level lowers the number of untested entries by one. -/
theorem count_setIfInBounds_untested {prof : Array Int} {l : Nat} (hl : l < prof.size)
    (hblank : prof[l]? = some (-1)) (b : Bool) :
    (prof.setIfInBounds l (if b then 1 else 0)).count (-1) = prof.count (-1) - 1 := by
  have hl' : l < prof.toList.length := by simpa using hl
  rw [← Array.count_toList, Array.toList_setIfInBounds, List.count_set hl',
    ← Array.count_toList]
  have hget : prof.toList[l] = -1 := by
    simpa [hl] using hblank
  cases b <;> simp [hget]

section Ordered

variable {k : Kernel} (ho : Ordered k)
include ho

/-- On a true path each node's level holds the branch taken there: the nodes after it lie
below it. -/
theorem TruePath.fixes {n : Nat} {p : List (Nat × Bool)} (h : k.TruePath n p)
    (hn : n < k.nodes.size) {prof : Array Int} (hsize : k.varnum ≤ prof.size) :
    ∀ ib ∈ p, Fixes (k.pathProfile prof p) (k.level ib.1) ib.2 := by
  induction h generalizing prof with
  | done => simp
  | @step n p b h2 hp ih =>
    obtain ⟨hc, hlvl⟩ := ho.child h2 hn b
    have hbelow : k.level n < prof.size :=
      Nat.lt_of_lt_of_le (ho.top ▸ ho.levels.below n h2 hn) hsize
    intro ib hib
    rcases List.mem_cons.1 hib with rfl | hib
    · -- the rest of the path sets levels below `n` only
      unfold Fixes
      rw [pathProfile_cons, pathProfile_getElem?_of_ne k fun ib hib =>
        Nat.ne_of_gt (Nat.lt_of_lt_of_le hlvl ((hp.nodes ho hc) ib hib).2.2),
        Array.getElem?_setIfInBounds, if_pos rfl, if_pos hbelow]
    · rw [pathProfile_cons]
      exact ih hc (by rw [Array.size_setIfInBounds]; exact hsize) ib hib

/-- Each node of a true path turns one untested level of the profile into a tested one. -/
theorem TruePath.count_pathProfile {n : Nat} {p : List (Nat × Bool)} (h : k.TruePath n p)
    (hn : n < k.nodes.size) {prof : Array Int} (hsize : prof.size = k.varnum)
    (hblank : BlankFrom prof (k.level n)) :
    (k.pathProfile prof p).count (-1) = prof.count (-1) - p.length := by
  induction h generalizing prof with
  | done => simp
  | @step n p b h2 _ ih =>
    obtain ⟨hc, hlvl⟩ := ho.child h2 hn b
    have hbelow : k.level n < prof.size := hsize ▸ ho.top ▸ ho.levels.below n h2 hn
    rw [pathProfile_cons, ih hc (by rw [Array.size_setIfInBounds]; exact hsize)
      ((hblank.setIfInBounds _).mono hlvl), count_setIfInBounds_untested hbelow
      (hblank _ (Nat.le_refl _) hbelow) b, List.length_cons]
    omega

/-! ### The fold of `allsat` -/

/-- From a profile whose levels from the node's own level on are untested, `cubes` folds its
function over the profiles of the node's true paths, low branches first, and stops at the first
failure. The skipped levels it marks untested on each edge are untested already. -/
theorem cubes_eq_foldUntil {σ : Type} (f : σ → Array Int → Except String σ) :
    ∀ n prof s, n < k.nodes.size → BlankFrom prof (k.level n) →
      cubes k f n prof s = foldUntil f s ((k.truePaths n).map (k.pathProfile prof)) := by
  intro n
  induction n using Nat.strongRecOn with
  | ind n ih =>
  intro prof s hn hblank
  rw [cubes]
  by_cases h1 : n = 1
  · subst h1
    rw [if_pos rfl, truePaths_true, List.map_singleton, pathProfile_nil, foldUntil_singleton]
  rw [if_neg h1]
  by_cases h0 : n < 2
  · obtain rfl : n = 0 := by omega
    rw [dif_pos h0, truePaths_false]
    rfl
  rw [dif_neg h0]
  have h2 : 2 ≤ n := by omega
  -- one branch: the child's paths, from the profile with the node's level set to the branch
  have branch : ∀ (b : Bool) (s : σ),
      (if k.child n b ≠ 0 then cubes k f (k.child n b)
          (untested (prof.setIfInBounds (k.level n) (if b then 1 else 0)) (k.level n + 1)
            (k.level (k.child n b))) s
        else (s, none)) =
        foldUntil f s ((k.truePaths (k.child n b)).map
          (k.pathProfile (prof.setIfInBounds (k.level n) (if b then 1 else 0)))) := by
    intro b s
    obtain ⟨hc, hlvl⟩ := ho.child h2 hn b
    have hblank' := hblank.setIfInBounds (if b then 1 else 0)
    by_cases hc0 : k.child n b = 0
    · rw [if_neg (not_not.2 hc0), hc0, truePaths_false]
      rfl
    · rw [if_pos hc0, untested_of_blank hblank',
        ih _ (child_lt k (by omega) b) _ _ hc (hblank'.mono hlvl)]
  have hlo := branch false s
  simp only [child_false, Bool.false_eq_true, if_false] at hlo
  rw [truePaths_internal k h2, List.map_append, map_pathProfile_cons, map_pathProfile_cons]
  simp only [child_false, child_true, Bool.false_eq_true, if_false, if_true]
  rw [hlo]
  -- the low paths first; the high ones only if no call failed
  rcases hA : foldUntil f s ((k.truePaths (k.lowOf n)).map
      (k.pathProfile (prof.setIfInBounds (k.level n) 0))) with ⟨s', _ | e⟩
  · have hhi := branch true s'
    simp only [child_true, if_true] at hhi
    rw [foldUntil_append_of_none hA]
    exact hhi
  · rw [foldUntil_append_of_some hA]

/-- On an ordered table `allsat` on a node folds its function over the cubes of the node's true
paths, low branches first, stops at the first failure, and keeps the table. -/
theorem allsat_run {n : Nat} (hn : n < k.nodes.size) {σ : Type}
    (f : σ → Array Int → Except String σ) (s : σ) :
    (allsat n f s).run k = (foldUntil f s ((k.truePaths n).map k.cube), k) := by
  unfold allsat
  rw [checkRef_bind_of_ok (by omega)]
  simp only [Bool.not_true, Bool.false_eq_true, if_false, Int.toNat_natCast]
  show (cubes k f n (Array.replicate k.varnum (-1)) s, k) = _
  rw [cubes_eq_foldUntil ho f n _ s hn (blankFrom_replicate _ _)]
  rfl

/-- The cube of a true path has one entry per level: the branch taken at the level of each node
of the path, `-1` at the others. -/
theorem cube_spec {n : Nat} {p : List (Nat × Bool)} (h : k.TruePath n p) (hn : n < k.nodes.size) :
    (k.cube p).size = k.varnum ∧ (∀ ib ∈ p, Fixes (k.cube p) (k.level ib.1) ib.2) ∧
      ∀ l < k.varnum, (∀ ib ∈ p, k.level ib.1 ≠ l) → (k.cube p)[l]? = some (-1) := by
  refine ⟨by simp [cube], h.fixes ho hn (by simp), fun l hl hne => ?_⟩
  rw [cube, pathProfile_getElem?_of_ne k hne, Array.getElem?_replicate, if_pos hl]

/-- No assignment agrees with the cubes of two different true paths: where the paths part, the
cubes fix one level to different values. -/
theorem cubes_disjoint {n : Nat} (hn : n < k.nodes.size) :
    ((k.truePaths n).map k.cube).Pairwise fun a b => ∀ τ, ¬(Agrees τ a ∧ Agrees τ b) := by
  rw [List.pairwise_map]
  refine (truePaths_nodup k n).imp_of_mem fun hp hq hne τ ⟨ha, hb⟩ => ?_
  rw [mem_truePaths] at hp hq
  obtain ⟨i, b, hi, hi'⟩ := hp.diverge hq hne
  have h1 := ha _ _ ((cube_spec ho hp hn).2.1 _ hi)
  have h2 := hb _ _ ((cube_spec ho hq hn).2.1 _ hi')
  rw [h1] at h2
  cases b <;> simp at h2

/-- An assignment agrees with the cube of a true path exactly when its walk reaches true. -/
theorem agrees_cube_iff {n : Nat} (hn : n < k.nodes.size) (τ : Nat → Bool) :
    (∃ c ∈ (k.truePaths n).map k.cube, Agrees τ c) ↔ k.walk τ n = 1 := by
  obtain ⟨P, hrun, hsem, -⟩ := allsat_collect ho id hn []
  rw [allsat_run ho hn, foldUntil_collect] at hrun
  have hP : (k.truePaths n).map k.cube = P := by
    simpa using congrArg (fun r => r.1.1) hrun
  rw [hP]
  exact hsem τ

/-- A cube leaves untested the levels its path does not pass. -/
theorem count_cube {n : Nat} {p : List (Nat × Bool)} (h : k.TruePath n p)
    (hn : n < k.nodes.size) : (k.cube p).count (-1) = k.varnum - p.length := by
  rw [cube, h.count_pathProfile ho hn (by simp) (blankFrom_replicate _ _), Array.count_replicate]
  simp

/-- The true paths of a node, each weighed by two to the number of levels it does not pass, weigh
the count of the node: each child's paths weigh half the child's count. -/
theorem sum_path_weights :
    ∀ n, n < k.nodes.size →
      ((k.truePaths n).map fun p => 2 ^ (k.varnum - p.length)).sum = k.models n := by
  intro n
  induction n using Nat.strongRecOn with
  | ind n ih =>
  intro hn
  by_cases h2 : n < 2
  · obtain rfl | rfl : n = 0 ∨ n = 1 := by omega
    · simp
    · simp
  have h2' : 2 ≤ n := by omega
  have half : ∀ b, 2 * (((k.truePaths (k.child n b)).map fun p => (n, b) :: p).map
      fun p => 2 ^ (k.varnum - p.length)).sum = k.models (k.child n b) := by
    intro b
    obtain ⟨hc, hlvl⟩ := ho.child h2' hn b
    rw [← ih _ (child_lt k (by omega) b) hc, List.map_map, ← List.sum_map_mul_left]
    congr 1
    apply List.map_congr_left
    intro p hp
    have hlen := ((mem_truePaths k _ p).1 hp).length_le ho hc
    simp only [Function.comp, List.length_cons]
    rw [← Nat.pow_succ']
    congr 1
    omega
  apply Nat.eq_of_mul_eq_mul_left (show 0 < 2 by omega)
  rw [truePaths_internal k h2', List.map_append, List.sum_append, Nat.mul_add, half false,
    half true, two_mul_models ho h2' hn]
  rfl

/-- The weights of the cubes of a node, two to the number of their untested levels, add up to
the count of the node. -/
theorem sum_cube_weights {n : Nat} (hn : n < k.nodes.size) :
    (((k.truePaths n).map k.cube).map fun c => 2 ^ c.count (-1)).sum = k.models n := by
  rw [List.map_map, ← sum_path_weights ho n hn]
  congr 1
  apply List.map_congr_left
  intro p hp
  simp only [Function.comp, count_cube ho ((mem_truePaths k n p).1 hp) hn]

end Ordered

/-! ### Runs -/


end Kernel

end DecisionDiagrams
