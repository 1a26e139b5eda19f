/-
Declaring variables, exactly.

`setVarnum` reads its number as a 32-bit integer `w`. It refuses `w` below the number of
variables or above the largest; otherwise the terminals take `w` as their level and the literals
of the new levels are requested one after the other, the positive literal of a level first. A
request for a literal the table has answers it; one for a literal the table lacks creates it,
unless the table is full. So the declaration succeeds exactly when the literals it lacks fit
under the node limit, and it then has `w` variables.

A declaration that runs out of nodes keeps the number of variables, but the literals of the
levels it did create stay appended to `varset`. The table is then full and lacks a literal of the
next level, and stays so: no later declaration can go past that level. Every later declaration
that succeeds therefore stops below it, where `varset` holds the literals of each level at the
level's own index, and on every reachable table the literals of each declared variable `j` are
the nodes `(j, 0, 1)` and `(j, 1, 0)`.

* `Kernel.Full`, `Kernel.missingLiterals`, `Kernel.Fits`, `Kernel.declareLevels_fits` — when
  declaring levels succeeds.
* `Kernel.Frontier`, `Kernel.Declared`, `Kernel.reachable_declared` — the invariant.
* `Kernel.setVarnum_exact` — the main statement.
-/
import DecisionDiagrams.Proofs.TableOperations

namespace DecisionDiagrams

namespace Kernel

/-! ### Requests for a node -/

/-- A table that can create no node: there is a node limit and the table has reached it. -/
def Full (k : Kernel) : Prop :=
  k.limits.maxNodes > 0 ∧ k.nodes.size ≥ k.limits.maxNodes

theorem Full.of_eq {k k' : Kernel} (h : Full k) (hn : k'.nodes.size = k.nodes.size)
    (hl : k'.limits.maxNodes = k.limits.maxNodes) : Full k' := by
  unfold Full at *
  omega

/-- A full table creates nothing: a request changes no node and no entry of the unique table. -/
theorem node_of_full {k : Kernel} (hfull : Full k) (level : Nat) (lo hi : Option Nat) :
    (node level lo hi k).2.nodes = k.nodes ∧ (node level lo hi k).2.unique = k.unique := by
  rcases node_cases level lo hi k with ⟨f, hf⟩ | ⟨f, a, b, -, -, hf⟩ |
    ⟨f, a, b, -, -, -, -, hroom, -⟩
  · rw [hf]
    exact ⟨rfl, rfl⟩
  · rw [hf]
    exact ⟨rfl, rfl⟩
  · exact absurd hfull hroom

theorem node_limits (level : Nat) (lo hi : Option Nat) (k : Kernel) :
    (node level lo hi k).2.limits = k.limits := by
  rcases node_cases level lo hi k with ⟨f, hf⟩ | ⟨f, a, b, -, -, hf⟩ |
    ⟨f, a, b, -, -, -, -, -, hf⟩
  · rw [hf]
    rfl
  · rw [hf]
    rfl
  · rw [hf]
    simp

/-- A request changes the entry of no other triple in the unique table. -/
theorem node_unique_of_ne (level a b : Nat) (k : Kernel) {u : Triple} (hu : u ≠ ⟨level, a, b⟩) :
    (node level (some a) (some b) k).2.unique[u]? = k.unique[u]? := by
  rcases node_cases level (some a) (some b) k with ⟨f, hf⟩ | ⟨f, a', b', -, -, hf⟩ |
    ⟨f, a', b', ha, hb, -, -, -, hf⟩
  · rw [hf]
    rfl
  · rw [hf]
    rfl
  · cases ha
    cases hb
    rw [hf, growCaches_unique, Std.HashMap.getElem?_insert,
      if_neg (fun h => hu (beq_iff_eq.1 h).symm)]

/-- A request with distinct children answers nothing exactly when the table lacks the triple
and is full. -/
theorem node_eq_none_iff {level a b : Nat} (hab : a ≠ b) (k : Kernel) :
    (node level (some a) (some b) k).1 = none ↔
      k.unique[(⟨level, a, b⟩ : Triple)]? = none ∧ Full k := by
  cases hl : k.lookupNode level a b with
  | some v =>
    obtain ⟨f, hf⟩ := node_of_lookupNode hl
    rw [hf]
    rw [lookupNode_of_ne k hab] at hl
    simp [hl]
  | none =>
    obtain ⟨-, hu⟩ := lookupNode_eq_none hl
    obtain ⟨f, hf⟩ := node_fresh k hab hu
    rw [hf]
    unfold Full
    split <;> simp_all

/-- A request that answers a node grows the table by one node exactly when the table lacked
the triple. -/
theorem node_size_of_ne_none {level a b : Nat} (hab : a ≠ b) {k : Kernel}
    (h : (node level (some a) (some b) k).1 ≠ none) :
    (node level (some a) (some b) k).2.nodes.size =
      k.nodes.size + if k.unique[(⟨level, a, b⟩ : Triple)]? = none then 1 else 0 := by
  cases hl : k.lookupNode level a b with
  | some v =>
    obtain ⟨f, hf⟩ := node_of_lookupNode hl
    rw [lookupNode_of_ne k hab] at hl
    rw [hf, hl]
    rfl
  | none =>
    obtain ⟨-, hu⟩ := lookupNode_eq_none hl
    obtain ⟨f, hf⟩ := node_fresh k hab hu
    rw [hf] at h ⊢
    split at h
    · exact absurd rfl h
    · rw [if_neg ‹_›, if_pos hu]
      simp

/-! ### The literals of some levels -/

/-- The triples of the two literals of a level, the positive one first. -/
def literalTriples (level : Nat) : List Triple :=
  [⟨level, 0, 1⟩, ⟨level, 1, 0⟩]

/-- The number of literals of the levels that the table lacks. -/
def missingLiterals (k : Kernel) (levels : List Nat) : Nat :=
  (levels.flatMap literalTriples).countP fun t => (k.unique[t]?).isNone

/-- `m` new nodes fit in the table: there is no node limit, there are none, or the table has
room for all of them. -/
def Fits (k : Kernel) (m : Nat) : Prop :=
  k.limits.maxNodes = 0 ∨ m = 0 ∨ k.nodes.size + m ≤ k.limits.maxNodes

/-- After a request that created `c` nodes in a table that was not full, the nodes still to be
created fit exactly when they fit with those `c` before. -/
theorem fits_step {k k' : Kernel} {c m : Nat} (hc : c ≤ 1) (hroom : c = 1 → ¬ Full k)
    (hsize : k'.nodes.size = k.nodes.size + c) (hl : k'.limits.maxNodes = k.limits.maxNodes) :
    k'.Fits m ↔ k.Fits (c + m) := by
  unfold Fits Full at *
  omega

theorem not_fits_of_full {k : Kernel} (hfull : Full k) (m : Nat) : ¬ k.Fits (1 + m) := by
  unfold Fits Full at *
  omega

theorem missingLiterals_cons (k : Kernel) (l : Nat) (rest : List Nat) :
    k.missingLiterals (l :: rest) =
      (if k.unique[(⟨l, 0, 1⟩ : Triple)]? = none then 1 else 0) +
        ((if k.unique[(⟨l, 1, 0⟩ : Triple)]? = none then 1 else 0) + k.missingLiterals rest) := by
  unfold missingLiterals
  rw [List.flatMap_cons, List.countP_append]
  simp only [literalTriples, List.countP_cons, List.countP_nil, Option.isNone_iff_eq_none]
  split <;> split <;> omega

/-- Literals of other levels are counted alike in two tables whose unique tables agree off the
triples of level `l`. -/
theorem missingLiterals_congr {k k' : Kernel} {l : Nat} {levels : List Nat} (hl : l ∉ levels)
    (h : ∀ u : Triple, u.level ≠ l → k'.unique[u]? = k.unique[u]?) :
    k'.missingLiterals levels = k.missingLiterals levels := by
  unfold missingLiterals
  refine List.countP_congr fun t ht => ?_
  obtain ⟨l', hl', ht'⟩ := List.mem_flatMap.1 ht
  have hne : t.level ≠ l := by
    simp only [literalTriples, List.mem_cons, List.not_mem_nil, or_false] at ht'
    rcases ht' with rfl | rfl <;> exact fun h => hl (h ▸ hl')
  rw [h t hne]

/-! ### Declaring levels -/

theorem Structured.terminal_lt {k : Kernel} (hs : Structured k) {c : Nat} (hc : c < 2) :
    c < k.nodes.size :=
  Nat.lt_of_lt_of_le hc hs.two_le

/-- One request for a literal of level `l`, whose children `a` and `b` are the terminals, on a
structured table: the table stays structured with its limits, no other triple changes its
entry, the request answers nothing exactly when the table lacks the literal and is full, and
otherwise the table grows by one node exactly when it lacked it. -/
theorem literal_request {k : Kernel} (hs : Structured k) (l : Nat) {a b : Nat} (ha : a < 2)
    (hb : b < 2) (hab : a ≠ b) :
    Structured (node l (some a) (some b) k).2 ∧
      (node l (some a) (some b) k).2.limits = k.limits ∧
      (∀ u : Triple, u ≠ ⟨l, a, b⟩ → (node l (some a) (some b) k).2.unique[u]? = k.unique[u]?) ∧
      ((node l (some a) (some b) k).1 = none ↔
        k.unique[(⟨l, a, b⟩ : Triple)]? = none ∧ Full k) ∧
      ((node l (some a) (some b) k).1 ≠ none → (node l (some a) (some b) k).2.nodes.size =
        k.nodes.size + if k.unique[(⟨l, a, b⟩ : Triple)]? = none then 1 else 0) :=
  ⟨node_structured hs l (by rintro _ ⟨⟩; exact hs.terminal_lt ha)
      (by rintro _ ⟨⟩; exact hs.terminal_lt hb),
    node_limits l _ _ k, fun _ hu => node_unique_of_ne l a b k hu, node_eq_none_iff hab k,
    node_size_of_ne_none hab⟩

theorem ite_missing_le (k : Kernel) (t : Triple) :
    (if k.unique[t]? = none then 1 else 0) ≤ 1 := by
  split <;> omega

/-- Declaring the levels `s, …, s + n - 1` succeeds exactly when the literals of those levels
that the table lacks fit in it. The induction is on the levels; at each level the two requests
either create what the table lacks while it has room, or meet a full table that lacks one. -/
theorem declareLevels_fits : ∀ (n s : Nat) (k : Kernel), Structured k →
    (((declareLevels (List.range' s n)).run k).1 = true ↔
      k.Fits (k.missingLiterals (List.range' s n))) := by
  intro n
  induction n with
  | zero => exact fun s k _ => iff_of_true rfl (.inr (.inl rfl))
  | succ n ih =>
    intro s k hs
    rw [List.range'_succ, declareLevels_cons, missingLiterals_cons]
    dsimp only
    obtain ⟨hs₁, hl₁, hu₁, hnone₁, hsize₁⟩ := literal_request hs s
      (show (0 : Nat) < 2 by omega) (show (1 : Nat) < 2 by omega) (by omega)
    obtain ⟨hs₂, hl₂, hu₂, hnone₂, hsize₂⟩ := literal_request hs₁ s
      (show (1 : Nat) < 2 by omega) (show (0 : Nat) < 2 by omega) (by omega)
    -- the negative literal is missing after the first request iff it was missing before
    rw [hu₁ ⟨s, 1, 0⟩ (by simp)] at hnone₂ hsize₂
    -- the later levels are counted alike after both requests
    have hrest : (node s (some 1) (some 0) (node s (some 0) (some 1) k).2).2.missingLiterals
        (List.range' (s + 1) n) = k.missingLiterals (List.range' (s + 1) n) :=
      missingLiterals_congr (show s ∉ List.range' (s + 1) n from fun h => by
        rw [List.mem_range'_1] at h; omega) fun u hu => by
        rw [hu₂ u (by rintro rfl; exact hu rfl), hu₁ u (by rintro rfl; exact hu rfl)]
    generalize node s (some 0) (some 1) k = p at *
    generalize node s (some 1) (some 0) p.2 = q at *
    obtain ⟨_ | a, k₁⟩ := p
    · -- the positive literal is missing in a full table
      obtain ⟨hmiss, hfull⟩ := hnone₁.1 rfl
      rw [if_pos hmiss]
      exact iff_of_false Bool.false_ne_true (not_fits_of_full hfull _)
    obtain ⟨_ | b, k₂⟩ := q
    · -- the negative literal is missing in the full table the first request left
      obtain ⟨hmiss, hfull⟩ := hnone₂.1 rfl
      rw [if_pos hmiss]
      refine iff_of_false Bool.false_ne_true fun hfit =>
        not_fits_of_full hfull (k.missingLiterals (List.range' (s + 1) n)) ?_
      refine (fits_step (ite_missing_le k _) (fun h1 hfull' => ?_) (hsize₁ (by simp))
        (by rw [hl₁])).2 hfit
      exact absurd (hnone₁.2 ⟨by split at h1 <;> simp_all, hfull'⟩) (by simp)
    · dsimp only at hs₂ hl₂ hsize₂ hrest hl₁ hsize₁ ⊢
      rw [ih (s + 1) { k₂ with varset := k₂.varset.push (a, b) } (hs₂.of_eq _ rfl rfl rfl)]
      change k₂.Fits (k₂.missingLiterals _) ↔ _
      rw [hrest, fits_step (ite_missing_le k _) (fun h1 hfull => ?_) (hsize₂ (by simp))
        (by rw [hl₂]), fits_step (ite_missing_le k _) (fun h1 hfull => ?_) (hsize₁ (by simp))
        (by rw [hl₁])]
      · -- a request that answered created its literal only in a table that was not full
        exact absurd (hnone₁.2 ⟨by split at h1 <;> simp_all, hfull⟩) (by simp)
      · exact absurd (hnone₂.2 ⟨by split at h1 <;> simp_all, hfull⟩) (by simp)

/-- The table can no longer declare level `f`: it is full and lacks a literal of `f`. -/
def Blocked (k : Kernel) (f : Nat) : Prop :=
  Full k ∧ (k.unique[(⟨f, 0, 1⟩ : Triple)]? = none ∨ k.unique[(⟨f, 1, 0⟩ : Triple)]? = none)

/-- `k'` is `k` with the literals of the levels `s, …, s + m - 1` appended to `varset`, each
as the nodes of its level in `k'`. -/
structure Appends (k k' : Kernel) (s m : Nat) : Prop where
  size : k'.varset.size = k.varset.size + m
  kept : ∀ j, j < k.varset.size → k'.varset[j]? = k.varset[j]?
  literals : ∀ i, i < m → ∃ p, k'.varset[k.varset.size + i]? = some p ∧ Literals k' (s + i) p

theorem Appends.of_varset {k₀ k k' : Kernel} {s m : Nat} (h : Appends k₀ k' s m)
    (hv : k₀.varset = k.varset) : Appends k k' s m :=
  ⟨hv ▸ h.size, hv ▸ h.kept, hv ▸ h.literals⟩

/-- Declaring levels keeps the shape of the table and every node of it. -/
theorem declareLevels_extends (levels : List Nat) {k : Kernel} (hs : Structured k) :
    Extends k ((declareLevels levels).run k).2 ∧ Structured ((declareLevels levels).run k).2 :=
  declareLevels_invariant (extends_tableInvariant k) (fun _ _ _ _ _ => trivial)
    (fun _ h _ => h.trans (.of_eq rfl rfl)) levels k (.refl k) hs

/-- Declaring the levels `s, …, s + n - 1` appends the literals of a first part of them to
`varset`, and succeeds exactly when that part is all of them; when it fails, the table can no
longer declare the next level. -/
theorem declareLevels_appends : ∀ (n s : Nat) (k : Kernel), Structured k →
    ∃ m, m ≤ n ∧ Appends k ((declareLevels (List.range' s n)).run k).2 s m ∧
      (((declareLevels (List.range' s n)).run k).1 = true ↔ m = n) ∧
      (((declareLevels (List.range' s n)).run k).1 = false →
        Blocked ((declareLevels (List.range' s n)).run k).2 (s + m)) := by
  intro n
  induction n with
  | zero =>
    exact fun s k _ => ⟨0, Nat.le_refl 0, ⟨rfl, fun _ _ => rfl, fun i hi => absurd hi (by omega)⟩,
      iff_of_true rfl rfl, fun h => by cases h⟩
  | succ n ih =>
    intro s k hs
    rw [List.range'_succ, declareLevels_cons]
    dsimp only
    obtain ⟨hs₁, -, hu₁, hnone₁, -⟩ := literal_request hs s
      (show (0 : Nat) < 2 by omega) (show (1 : Nat) < 2 by omega) (by omega)
    obtain ⟨hs₂, -, hu₂, hnone₂, -⟩ := literal_request hs₁ s
      (show (1 : Nat) < 2 by omega) (show (0 : Nat) < 2 by omega) (by omega)
    rw [hu₁ ⟨s, 1, 0⟩ (by simp)] at hnone₂
    -- a literal that is answered is afterwards the node of its triple
    have hfound₁ : ∀ a, (node s (some 0) (some 1) k).1 = some a →
        (node s (some 1) (some 0) (node s (some 0) (some 1) k).2).2.unique[(⟨s, 0, 1⟩ : Triple)]?
          = some a := fun a ha => by
      rw [hu₂ _ (by simp)]
      simpa [lookupNode] using (lookupNode_node hs (hs.terminal_lt (by omega)) ha).1
    have hfound₂ : ∀ b, (node s (some 1) (some 0) (node s (some 0) (some 1) k).2).1 = some b →
        (node s (some 1) (some 0) (node s (some 0) (some 1) k).2).2.unique[(⟨s, 1, 0⟩ : Triple)]?
          = some b := fun b hb => by
      simpa [lookupNode] using (lookupNode_node hs₁ (hs₁.terminal_lt (by omega)) hb).1
    have hvs : (node s (some 1) (some 0) (node s (some 0) (some 1) k).2).2.varset = k.varset := by
      rw [(node_frame hs₁ _ _ _).2.2.2, (node_frame hs _ _ _).2.2.2]
    -- a request that answers nothing leaves a full table, in which the next request creates
    -- nothing either
    have hfull₁ : (node s (some 0) (some 1) k).1 = none →
        Blocked (node s (some 1) (some 0) (node s (some 0) (some 1) k).2).2 s := fun h => by
      obtain ⟨hmiss, hfull⟩ := hnone₁.1 h
      obtain ⟨hn₁, hq₁⟩ := node_of_full hfull s (some 0) (some 1)
      obtain ⟨hn₂, hq₂⟩ := node_of_full (hfull.of_eq (by rw [hn₁]) (by rw [node_limits]))
        s (some 1) (some 0)
      refine ⟨hfull.of_eq (by rw [hn₂, hn₁]) (by rw [node_limits, node_limits]), .inl ?_⟩
      rw [hq₂, hq₁]
      exact hmiss
    have hfull₂ : (node s (some 1) (some 0) (node s (some 0) (some 1) k).2).1 = none →
        Blocked (node s (some 1) (some 0) (node s (some 0) (some 1) k).2).2 s := fun h => by
      obtain ⟨hmiss, hfull⟩ := hnone₂.1 h
      obtain ⟨hn₂, hq₂⟩ := node_of_full hfull s (some 1) (some 0)
      refine ⟨hfull.of_eq (by rw [hn₂]) (by rw [node_limits]), .inr ?_⟩
      rw [hq₂, hu₁ _ (by simp)]
      exact hmiss
    generalize node s (some 0) (some 1) k = p at *
    generalize node s (some 1) (some 0) p.2 = q at *
    -- the declaration stops at level `s` unless both literals are answered
    have hstop : ∀ k' : Kernel, k'.varset = k.varset → Blocked k' s →
        ∃ m, m ≤ n + 1 ∧ Appends k (record (.cannotAllocate s) k') s m ∧
          (false = true ↔ m = n + 1) ∧ (false = false → Blocked (record (.cannotAllocate s) k') (s + m)) :=
      fun k' hv hb => ⟨0, by omega, ⟨by simp [hv], fun j _ => by simp [hv], fun i hi => absurd hi (by omega)⟩,
        iff_of_false (by decide) (by omega), fun _ => hb⟩
    obtain ⟨_ | a, k₁⟩ := p
    · exact hstop _ hvs (hfull₁ rfl)
    obtain ⟨_ | b, k₂⟩ := q
    · exact hstop _ hvs (hfull₂ rfl)
    dsimp only at hs₂ hvs hfound₁ hfound₂ ⊢
    -- both literals are answered: they become entry `k.varset.size` of `varset`
    obtain ⟨m, hm, hap, hok, hblock⟩ := ih (s + 1) { k₂ with varset := k₂.varset.push (a, b) }
      (hs₂.of_eq _ rfl rfl rfl)
    have hext := (declareLevels_extends (List.range' (s + 1) n)
      (show Structured { k₂ with varset := k₂.varset.push (a, b) } from hs₂.of_eq _ rfl rfl rfl)).1
    have hsize : ({ k₂ with varset := k₂.varset.push (a, b) } : Kernel).varset.size =
        k.varset.size + 1 := by simp [hvs]
    refine ⟨m + 1, by omega, ⟨?_, fun j hj => ?_, fun i hi => ?_⟩, ?_, ?_⟩
    · rw [hap.size, hsize]
      omega
    · rw [hap.kept j (by omega)]
      simp [hvs, Array.getElem?_push, Nat.ne_of_lt hj]
    · rcases i with _ | i
      · refine ⟨(a, b), ?_, Literals.mono hext ⟨hfound₁ a rfl, hfound₂ b rfl⟩⟩
        rw [hap.kept _ (by omega)]
        simp [hvs]
      · obtain ⟨p, hp, hlit⟩ := hap.literals i (by omega)
        rw [hsize, show k.varset.size + 1 + i = k.varset.size + (i + 1) by omega] at hp
        rw [show s + 1 + i = s + (i + 1) by omega] at hlit
        exact ⟨p, hp, hlit⟩
    · rw [hok]
      omega
    · intro hf
      have hb := hblock hf
      rwa [show s + 1 + m = s + (m + 1) by omega] at hb

/-! ### The declared levels of a reachable table -/

theorem Blocked.of_eq {k k' : Kernel} {f : Nat} (h : Blocked k f)
    (hn : k'.nodes.size = k.nodes.size) (hu : k'.unique = k.unique)
    (hl : k'.limits.maxNodes = k.limits.maxNodes) : Blocked k' f :=
  ⟨h.1.of_eq hn hl, by rw [hu]; exact h.2⟩

/-- A table stays blocked at a level through every request: a full table creates nothing. -/
theorem Blocked.node {k : Kernel} {f : Nat} (h : Blocked k f) (level : Nat) (lo hi : Option Nat) :
    Blocked (node level lo hi k).2 f := by
  obtain ⟨hn, hu⟩ := node_of_full h.1 level lo hi
  exact h.of_eq (by rw [hn]) hu (by rw [node_limits])

/-- Level `f` bounds what the table has declared: the number of variables is at most `f`, below
`f` entry `j` of `varset` holds the literals of level `j`, and `varset` runs past the number of
variables only when the table can no longer declare level `f`. -/
structure Frontier (k : Kernel) (f : Nat) : Prop where
  varnum_le : k.varnum ≤ f
  le_size : f ≤ k.varset.size
  literals : ∀ j, j < f → ∃ p, k.varset[j]? = some p ∧ Literals k j p
  ahead : k.varset.size = k.varnum ∨ Blocked k f

/-- The literals of the declared levels are right: the table has a frontier. -/
def Declared (k : Kernel) : Prop :=
  ∃ f, Frontier k f

theorem Frontier.of_eq {k k' : Kernel} {f : Nat} (h : Frontier k f)
    (hn : k'.nodes.size = k.nodes.size) (hu : k'.unique = k.unique) (hv : k'.varnum = k.varnum)
    (hs : k'.varset = k.varset) (hl : k'.limits.maxNodes = k.limits.maxNodes) : Frontier k' f where
  varnum_le := hv ▸ h.varnum_le
  le_size := hs ▸ h.le_size
  literals j hj := by
    rw [hs]
    obtain ⟨p, hp, hlit⟩ := h.literals j hj
    exact ⟨p, hp, by rw [Literals, hu]; exact hlit⟩
  ahead := by
    rw [hs, hv]
    exact h.ahead.imp id fun hb => hb.of_eq hn hu hl

theorem Frontier.node {k : Kernel} {f : Nat} (h : Frontier k f) (hs : Structured k) (level : Nat)
    (lo hi : Option Nat) : Frontier (node level lo hi k).2 f := by
  obtain ⟨-, -, hv, hvs⟩ := node_frame hs level lo hi
  have hext := node_extends level lo hi k
  refine ⟨hv ▸ h.varnum_le, hvs ▸ h.le_size, fun j hj => ?_, ?_⟩
  · rw [hvs]
    obtain ⟨p, hp, hlit⟩ := h.literals j hj
    exact ⟨p, hp, hlit.mono hext⟩
  · rw [hvs, hv]
    exact h.ahead.imp id fun hb => hb.node level lo hi

/-- A table blocked at a level stays blocked while counting, recording faults and requesting
nodes. -/
theorem blocked_tableInvariant (f : Nat) :
    TableInvariant (fun k => Blocked k f) fun _ _ _ _ => True where
  count _ h _ := h.of_eq rfl rfl rfl
  record _ h _ := h.of_eq rfl rfl rfl
  node level lo hi h _ _ _ _ := h.node level lo hi

/-- Counting, recording faults and requesting nodes keep a frontier, and the soundness of the
caches with it: a request changes neither `varset` nor the number of variables, keeps every
literal, and creates nothing in a blocked table. -/
theorem frontier_tableInvariant (f : Nat) :
    TableInvariant (fun k => CacheSound k ∧ Frontier k f) fun _ _ _ _ => True where
  count g h hs := ⟨cacheSound_tableInvariant.count g h.1 hs, h.2.of_eq rfl rfl rfl rfl rfl⟩
  record g h hs := ⟨cacheSound_tableInvariant.record g h.1 hs, h.2.of_eq rfl rfl rfl rfl rfl⟩
  node level lo hi h hs hlo hhi _ :=
    ⟨cacheSound_tableInvariant.node level lo hi h.1 hs hlo hhi fun _ _ _ _ => trivial,
      h.2.node hs level lo hi⟩

/-- Storing an entry changes the caches only, so it keeps a frontier. -/
theorem frontier_write {k : Kernel} {f : Nat} (a r : Array CacheEntry) (h : Frontier k f) :
    Frontier { k with applyCache := a, restrictCache := r } f :=
  h.of_eq rfl rfl rfl rfl rfl

/-- A declaration keeps the literals of the declared levels right. Where `varset` is as long as
the number of variables, a declaration that succeeds moves the frontier to its number and one
that runs out of nodes to the level where it stopped. On a blocked table the frontier stays:
a declaration that succeeds there stops below it, since the table cannot create the literal of
the frontier's level that it lacks. -/
theorem setVarnum_declared (num : Int) {k : Kernel} (hs : Structured k) {f : Nat}
    (h : Frontier k f) : Declared ((setVarnum num).run k).2 := by
  rw [setVarnum_run]
  split
  · exact ⟨f, h.of_eq rfl rfl rfl rfl rfl⟩
  have hs₀ := hs.setTerminals (wrap32 num).toNat
  have h₀ : Frontier (k.setTerminals (wrap32 num).toNat) f := h.of_eq (by simp) rfl rfl rfl rfl
  obtain ⟨m, hm, hap, hok, hblock⟩ :=
    declareLevels_appends ((wrap32 num).toNat - k.varnum) k.varnum _ hs₀
  have hext := (declareLevels_extends (List.range' k.varnum ((wrap32 num).toNat - k.varnum)) hs₀).1
  have hvn := (declareLevels_invariant (varnum_tableInvariant k.varnum) (fun _ _ _ _ _ => trivial)
    (fun _ h _ => h) (List.range' k.varnum ((wrap32 num).toNat - k.varnum))
    (k.setTerminals (wrap32 num).toNat) rfl hs₀).1
  have hbl := fun hb : Blocked k f => (declareLevels_invariant (blocked_tableInvariant f)
    (fun _ _ _ _ _ => trivial) (fun _ h _ => h.of_eq rfl rfl rfl)
    (List.range' k.varnum ((wrap32 num).toNat - k.varnum)) (k.setTerminals (wrap32 num).toNat)
    (hb.of_eq (by simp) rfl rfl) hs₀).1
  dsimp only
  generalize (declareLevels (List.range' k.varnum ((wrap32 num).toNat - k.varnum))).run
    (k.setTerminals (wrap32 num).toNat) = r at hap hok hblock hext hvn hbl
  replace hap : Appends k r.2 k.varnum m := hap.of_varset rfl
  -- the literals below the old frontier stay, in the later table
  have hold : ∀ j, j < f → ∃ p, r.2.varset[j]? = some p ∧ Literals r.2 j p := fun j hj => by
    obtain ⟨p, hp, hlit⟩ := h.literals j hj
    exact ⟨p, (hap.kept j (Nat.lt_of_lt_of_le hj h.le_size)).trans hp,
      hlit.mono ((extends_setTerminals _ k).trans hext)⟩
  rcases h.ahead with hclean | hb
  · -- `varset` as long as the number of variables: the new literals land at their own levels
    have hf : f = k.varnum := Nat.le_antisymm (hclean ▸ h.le_size) h.varnum_le
    subst hf
    have hlits : ∀ j, j < k.varnum + m → ∃ p, r.2.varset[j]? = some p ∧ Literals r.2 j p :=
      fun j hj => by
        by_cases hlt : j < k.varnum
        · exact hold j hlt
        · obtain ⟨p, hp, hlit⟩ := hap.literals (j - k.varnum) (by omega)
          rw [hclean, show k.varnum + (j - k.varnum) = j by omega] at hp
          rw [show k.varnum + (j - k.varnum) = j by omega] at hlit
          exact ⟨p, hp, hlit⟩
    split
    · rename_i hr
      have hmn := hok.1 hr
      exact ⟨(wrap32 num).toNat, le_refl _, by rw [hap.size]; omega,
        fun j hj => hlits j (by omega), .inl (by rw [hap.size]; change _ = (wrap32 num).toNat; omega)⟩
    · rename_i hr
      exact ⟨k.varnum + m, by rw [hvn]; omega, by rw [hap.size, hclean],
        hlits, .inr (hblock (by simpa using hr))⟩
  · -- a blocked table stays blocked at the frontier
    have hb' := hbl hb
    split
    · rename_i hr
      -- every requested level was declared, so the frontier's level was not requested
      have hle : (wrap32 num).toNat ≤ f := by
        refine Nat.le_of_not_lt fun hlt => ?_
        obtain ⟨p, -, hlit⟩ := hap.literals (f - k.varnum) (by have := hok.1 hr; have := h.varnum_le; omega)
        rw [show k.varnum + (f - k.varnum) = f by have := h.varnum_le; omega] at hlit
        rcases hb'.2 with hn | hn
        · rw [hlit.1] at hn
          cases hn
        · rw [hlit.2] at hn
          cases hn
      exact ⟨f, hle, by rw [hap.size]; have := h.le_size; omega, hold, .inr hb'⟩
    · exact ⟨f, by rw [hvn]; exact h.varnum_le, by rw [hap.size]; have := h.le_size; omega,
        hold, .inr hb'⟩

theorem Frontier.blank (limits : Limits) : Frontier (blank limits).resetCaches 0 where
  varnum_le := Nat.le_refl 0
  le_size := Nat.zero_le _
  literals _ h := absurd h (Nat.not_lt_zero _)
  ahead := .inl rfl

/-- One operation keeps the literals of the declared levels right. -/
theorem perform_declared (op : Op) {k : Kernel} (hs : Structured k) (hc : CacheSound k)
    (h : Declared k) : Declared (perform op k) := by
  obtain ⟨f, hf⟩ := h
  rcases perform_cases op k with ⟨fs, h⟩ | ⟨num, rfl⟩ | ⟨n, rfl⟩ | ⟨l, r, o, rfl⟩ |
    ⟨n, level, val, rfl⟩
  · rw [h]
    exact ⟨f, hf.of_eq rfl rfl rfl rfl rfl⟩
  · exact setVarnum_declared num hs hf
  · exact ⟨f, (negate_invariant (frontier_tableInvariant f) (negMemo_sound.and frontier_write)
      (negMemo.guarded_true fun k' => CacheSound k' ∧ Frontier k' f) n ⟨hc, hf⟩ hs).1.2⟩
  · exact ⟨f, (apply_invariant (frontier_tableInvariant f)
      (fun o => (applyMemo_sound o).and frontier_write)
      (fun o => (applyMemo o).guarded_true fun k' => CacheSound k' ∧ Frontier k' f)
      l r o ⟨hc, hf⟩ hs).1.2⟩
  · exact ⟨f, (restrict_invariant (frontier_tableInvariant f)
      (fun level val h => (restrictMemo_sound_of_nonneg level val h).and frontier_write)
      (fun _ _ _ => (restrictMemo _ _ _).guarded_true fun k' => CacheSound k' ∧ Frontier k' f)
      n level val ⟨hc, hf⟩ hs).1.2⟩

theorem create_declared {v : Int} {limits : Limits} {k : Kernel} (h : create v limits = .ok k) :
    Declared k := by
  have hd := setVarnum_declared v ((Structured.blank limits).of_eq (blank limits).resetCaches
    rfl rfl rfl) (Frontier.blank limits)
  rwa [create_ok h] at hd

/-- Every reachable table keeps the literals of its declared levels right. -/
theorem reachable_declared {k : Kernel} (h : Reachable k) : Declared k := by
  induction h with
  | create h => exact create_declared h
  | step op hk ih =>
    obtain ⟨hs, hc⟩ := reachable_cacheSound hk
    exact perform_declared op hs hc ih

/-! ### The literals that a table answers -/

/-- Every declared variable `j` answers its literals: `ithvar j` is the node `(j, 0, 1)` and
`nithvar j` the node `(j, 1, 0)`, and asking for them changes nothing. -/
def AnswersLiterals (k : Kernel) : Prop :=
  ∀ j : Nat, j < k.varnum → ∃ p q : Nat,
    (ithvar j).run k = ((p : Int), k) ∧ (nithvar j).run k = ((q : Int), k) ∧
      p < k.nodes.size ∧ k.entry p = ⟨j, 0, 1⟩ ∧ q < k.nodes.size ∧ k.entry q = ⟨j, 1, 0⟩

/-- A table with a frontier answers the literals of its declared variables, as long as their
number is no larger than the largest, so that it reads as itself in 32 bits. -/
theorem Frontier.answersLiterals {k : Kernel} {f : Nat} (h : Frontier k f) (hs : Structured k)
    (hmax : (k.varnum : Int) ≤ maxVariables) : AnswersLiterals k := by
  intro j hj
  obtain ⟨p, hp, hlit⟩ := h.literals j (Nat.lt_of_lt_of_le hj h.varnum_le)
  have hw : wrap32 (j : Int) = j := wrap32_of_le (by omega) (by omega)
  have hknown : ¬ ((j : Int) < 0 ∨ wrap32 (j : Int) ≥ k.varnum) := by
    rw [hw]
    omega
  obtain ⟨-, hp₁, he₁⟩ := (hs.unique _ _).1 hlit.1
  obtain ⟨-, hp₂, he₂⟩ := (hs.unique _ _).1 hlit.2
  refine ⟨p.1, p.2, ?_, ?_, hp₁, he₁, hp₂, he₂⟩
  · rw [ithvar_run, if_neg hknown, Int.toNat_natCast, hp]
    rfl
  · rw [nithvar_run, if_neg hknown, Int.toNat_natCast, hp]
    rfl

theorem reachable_answersLiterals {k : Kernel} (h : Reachable k) : AnswersLiterals k := by
  obtain ⟨f, hf⟩ := reachable_declared h
  exact hf.answersLiterals (reachable_cacheSound h).1 (reachable_varnum_le h)

/-! ### Exact declarations -/

/-- A declaration answers no fault exactly when it accepts its number, read in 32 bits, and the
literals that the table lacks for the new levels fit under the node limit. -/
theorem setVarnum_none_iff (num : Int) {k : Kernel} (hs : Structured k) :
    ((setVarnum num).run k).1 = none ↔ k.varnum ≤ wrap32 num ∧ wrap32 num ≤ maxVariables ∧
      k.Fits (k.missingLiterals (List.range' k.varnum ((wrap32 num).toNat - k.varnum))) := by
  have hfits := declareLevels_fits ((wrap32 num).toNat - k.varnum) k.varnum _
    (hs.setTerminals (wrap32 num).toNat)
  -- raising the terminals changes neither the literals the table lacks nor its room
  have hsame : ∀ levels, (k.setTerminals (wrap32 num).toNat).Fits
      ((k.setTerminals (wrap32 num).toNat).missingLiterals levels) ↔
      k.Fits (k.missingLiterals levels) := fun levels => by
    simp only [Fits, setTerminals_size]
    rfl
  rw [setVarnum_run]
  split
  · rename_i hbad
    refine iff_of_false (Option.some_ne_none _) ?_
    rintro ⟨h₁, h₂, -⟩
    omega
  · rename_i hok
    rw [← hsame, ← hfits]
    dsimp only
    split
    · rename_i hr
      exact iff_of_true rfl ⟨by omega, by omega, hr⟩
    · rename_i hr
      exact iff_of_false (Option.some_ne_none _) fun h => hr h.2.2

/-- A declaration that answers a fault keeps the number of variables. -/
theorem setVarnum_varnum_of_fault {num : Int} {k : Kernel} (hs : Structured k)
    (h : ((setVarnum num).run k).1 ≠ none) : ((setVarnum num).run k).2.varnum = k.varnum := by
  rcases setVarnum_varnum num hs with hv | ⟨-, -, -⟩
  · exact hv
  · rw [setVarnum_run] at h ⊢
    split
    · rfl
    · rename_i hok
      rw [if_neg hok] at h
      have hd := (declareLevels_invariant (varnum_tableInvariant k.varnum)
        (fun _ _ _ _ _ => trivial) (fun _ h _ => h)
        (List.range' k.varnum ((wrap32 num).toNat - k.varnum)) (k.setTerminals (wrap32 num).toNat)
        rfl (hs.setTerminals _)).1
      dsimp only at h ⊢
      split
      · rename_i hr
        rw [if_pos hr] at h
        exact absurd rfl h
      · exact hd

/-- A created table was asked for a number at least zero, which it reads in 32 bits as a number
of variables within the largest, and has that many variables. -/
theorem create_accepts {v : Int} {limits : Limits} {k : Kernel} (h : create v limits = .ok k) :
    0 ≤ v ∧ 0 ≤ wrap32 v ∧ wrap32 v ≤ maxVariables ∧ (k.varnum : Int) = wrap32 v := by
  have hv : 0 ≤ v := by
    unfold create at h
    split at h
    · cases h
    · omega
  obtain ⟨hok, hvarnum⟩ := setVarnum_none (congrArg Prod.fst (create_ok h))
  rw [create_ok h] at hvarnum
  dsimp only at hvarnum
  refine ⟨hv, ?_, ?_, ?_⟩ <;> simp only [Kernel.blank, Kernel.resetCaches] at hok <;> omega

/-- Declaring variables on a reachable table. The declaration reads its number `num` as a
32-bit integer `wrap32 num`. It answers no fault exactly when that number lies between the number
of variables and the largest number, and the literals of the new levels that the table lacks fit
under the node limit; it then has `wrap32 num` variables. A refused number records its fault and
changes nothing else; a declaration that runs out of nodes keeps the number of variables. Either
way every declared variable `j` answers the literals `(j, 0, 1)` and `(j, 1, 0)` afterwards. A
created table was asked for a number `v ≥ 0` whose 32-bit reading lies within the largest number,
has that many variables and answers their literals. -/
theorem setVarnum_exact {k : Kernel} (hk : Reachable k) (num : Int) :
    (((setVarnum num).run k).1 = none ↔ k.varnum ≤ wrap32 num ∧ wrap32 num ≤ maxVariables ∧
      k.Fits (k.missingLiterals (List.range' k.varnum ((wrap32 num).toNat - k.varnum)))) ∧
    (((setVarnum num).run k).1 = none → ((setVarnum num).run k).2.varnum = (wrap32 num).toNat) ∧
    ((wrap32 num < k.varnum ∨ wrap32 num > maxVariables) →
      (setVarnum num).run k = (some (.badVarnum num :: k.faults), k.record (.badVarnum num))) ∧
    (((setVarnum num).run k).1 ≠ none → ((setVarnum num).run k).2.varnum = k.varnum) ∧
    AnswersLiterals ((setVarnum num).run k).2 ∧
    ∀ (v : Int) (limits : Limits) (k' : Kernel), create v limits = .ok k' →
      0 ≤ v ∧ 0 ≤ wrap32 v ∧ wrap32 v ≤ maxVariables ∧ (k'.varnum : Int) = wrap32 v ∧
        AnswersLiterals k' := by
  have hs := (reachable_cacheSound hk).1
  refine ⟨setVarnum_none_iff num hs, fun h => (setVarnum_none h).2, fun hbad => ?_,
    setVarnum_varnum_of_fault hs, reachable_answersLiterals (hk.step (.setVarnum num)),
    fun v limits k' hc => ?_⟩
  · rw [setVarnum_run, if_pos hbad]
  · obtain ⟨h0, hw0, hmax, hvarnum⟩ := create_accepts hc
    exact ⟨h0, hw0, hmax, hvarnum, reachable_answersLiterals (.create hc)⟩

/-- Declaring three variables on the table with one. -/
theorem setVarnum_three_on_oneVariable :
    Reachable oneVariable ∧ ((setVarnum 3).run oneVariable).2.varnum = 3 ∧
      AnswersLiterals ((setVarnum 3).run oneVariable).2 := by
  have h := setVarnum_exact reachable_oneVariable 3
  have hv : oneVariable.varnum = 1 := by unfold oneVariable; cbv
  have hnone : ((setVarnum 3).run oneVariable).1 = none :=
    h.1.2 ⟨by rw [hv]; decide, by decide, .inl (by unfold oneVariable; cbv)⟩
  exact ⟨reachable_oneVariable, by rw [h.2.1 hnone]; decide, h.2.2.2.2.1⟩

set_option maxRecDepth 100000 in
/-- The number `2^32 + 1` reads as `1` in 32 bits: on a new table with no variables, declaring
that many answers no fault and declares one variable. -/
theorem setVarnum_wraps_large_number :
    let k := ((setVarnum 0).run (blank {}).resetCaches).2
    Reachable k ∧ ((setVarnum 4294967297).run k).1 = none ∧
      ((setVarnum 4294967297).run k).2.varnum = 1 := by
  intro k
  refine ⟨.create (show create 0 {} = .ok k from rfl), ?_, ?_⟩
  · simp only [k]
    cbv
  · simp only [k]
    cbv

end Kernel

end DecisionDiagrams
