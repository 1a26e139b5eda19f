/-
Decision trees and their canonicity.

A decision tree over `N` levels is an ordered decision graph whose root tests level `0` when
there is a level, whose tests test the level after their parent's, whose leaves of one value are
one node, and in which each test but the root is the child of one test only, on one side only,
and computes a function that is not constant. Unlike a reduced graph, a tree may hold many
nodes of one function, so its nodes are not found by their functions; they are found by the
path to them. Walking two trees of one function in step from their roots, the nodes met
together compute one function, so they are leaves of one value or tests of one level, and each
node of either tree is met with exactly one node of the other.

* `Graph.Tree` — a decision tree.
* `Graph.Twin` — the nodes met together when two graphs are walked in step from their roots.
* `Graph.Twin.agree` — twins of two trees of one function compute one function, stand at one
  level, and are leaves together.
* `Graph.Twin.unique` — in two trees of one function a node has one twin.
* `Graph.tree_iso_of_eval_eq` — canonicity: two decision trees of one function are
  isomorphic.
-/
import DecisionDiagrams.Proofs.DecisionGraphs

namespace DecisionDiagrams

namespace Graph

open Kernel (fixLevel)

variable (G : Graph)

/-- Node `c` is the child of the test `p` on the side `b`: its high child when `b` is true. -/
def Link (p : Nat) (b : Bool) (c : Nat) : Prop :=
  ∃ L lo hi, G.shape p = some (.test L lo hi) ∧ c = if b then hi else lo

/-- A node is a leaf. -/
def IsLeaf (n : Nat) : Prop :=
  ∃ b, G.shape n = some (.leaf b)

/-- A decision tree over `N` levels from root `r`. -/
structure Tree (N r : Nat) : Prop extends G.Ordered N r where
  root : 0 < N → ∃ lo hi, G.shape r = some (.test 0 lo hi)
  next : ∀ p b c, G.Reach r p → G.Link p b c → ¬ G.IsLeaf c → G.rank N c = G.rank N p + 1
  varies : ∀ n, G.Reach r n → n ≠ r → ¬ G.IsLeaf n → ∃ τ τ', G.eval N τ n ≠ G.eval N τ' n
  parent : ∀ p q b b' c, G.Reach r p → G.Reach r q → G.Link p b c → G.Link q b' c →
    ¬ G.IsLeaf c → p = q ∧ b = b'
  leaves_inj : ∀ n m b, G.Reach r n → G.Reach r m → G.shape n = some (.leaf b) →
    G.shape m = some (.leaf b) → n = m

variable {G}

/-! ### Links -/

theorem link_low {p L lo hi : Nat} (h : G.shape p = some (.test L lo hi)) : G.Link p false lo :=
  ⟨L, lo, hi, h, rfl⟩

theorem link_high {p L lo hi : Nat} (h : G.shape p = some (.test L lo hi)) : G.Link p true hi :=
  ⟨L, lo, hi, h, rfl⟩

theorem Link.eq {p c c' : Nat} {b : Bool} (h : G.Link p b c) (h' : G.Link p b c') : c = c' := by
  obtain ⟨L, lo, hi, hs, rfl⟩ := h
  obtain ⟨L', lo', hi', hs', rfl⟩ := h'
  rw [hs, Option.some.injEq, Shape.test.injEq] at hs'
  obtain ⟨-, rfl, rfl⟩ := hs'
  rfl

theorem Link.reach {r p c : Nat} {b : Bool} (hp : G.Reach r p) (h : G.Link p b c) :
    G.Reach r c := by
  obtain ⟨L, lo, hi, hs, rfl⟩ := h
  cases b
  · exact hp.low hs
  · exact hp.high hs

/-- A node reached is the root or the child of a node reached. -/
theorem Reach.eq_or_link {r n : Nat} (h : G.Reach r n) : n = r ∨ ∃ p b, G.Reach r p ∧ G.Link p b n := by
  cases h with
  | root => exact .inl rfl
  | low hp hs => exact .inr ⟨_, false, hp, link_low hs⟩
  | high hp hs => exact .inr ⟨_, true, hp, link_high hs⟩

theorem Link.not_isLeaf {p c : Nat} {b : Bool} (h : G.Link p b c) : ¬ G.IsLeaf p := by
  obtain ⟨L, lo, hi, hs, -⟩ := h
  rintro ⟨v, hv⟩
  rw [hs] at hv
  cases hv

section Ordered

variable {N r : Nat} (hG : G.Ordered N r)
include hG

/-- A child stands below its parent. -/
theorem Link.rank_lt {p c : Nat} {b : Bool} (hp : G.Reach r p) (h : G.Link p b c) :
    G.rank N p < G.rank N c := by
  obtain ⟨L, lo, hi, hs, rfl⟩ := h
  obtain ⟨-, hlo, hhi⟩ := hG.below p L lo hi hp hs
  rw [rank_test hs]
  cases b
  · exact hlo
  · exact hhi

/-- A child computes its parent with the parent's level set to its side. -/
theorem Link.eval {p c : Nat} {b : Bool} (hp : G.Reach r p) (h : G.Link p b c) (τ : Nat → Bool) :
    G.eval N τ c = G.eval N (fixLevel τ (G.rank N p) b) p := by
  obtain ⟨L, lo, hi, hs, rfl⟩ := h
  rw [rank_test hs]
  cases b
  · exact eval_low hG hp hs
  · exact eval_high hG hp hs

/-- A node reached that is not a leaf is a test. -/
theorem Ordered.exists_test {n : Nat} (hn : G.Reach r n) (hl : ¬ G.IsLeaf n) :
    ∃ L lo hi, G.shape n = some (.test L lo hi) := by
  rcases hs : G.shape n with _ | s
  · exact absurd hs (hG.closed n hn)
  cases s with
  | leaf b => exact absurd ⟨b, hs⟩ hl
  | test L lo hi => exact ⟨L, lo, hi, rfl⟩

end Ordered

/-! ### Trees -/

section Tree

variable {N r : Nat} (hG : G.Tree N r)
include hG

/-- The root is no node's child: it stands at level `0`, or it is a leaf and there is no test. -/
theorem Tree.not_link_root {p : Nat} {b : Bool} (hp : G.Reach r p) : ¬ G.Link p b r := by
  intro h
  have hlt := h.rank_lt hG.toOrdered hp
  obtain ⟨L, lo, hi, hs, -⟩ := h
  have hLN := (hG.below p L lo hi hp hs).1
  obtain ⟨lo', hi', hr⟩ := hG.root (by omega)
  rw [rank_test hr] at hlt
  omega

/-- Below the root, a node is a leaf exactly when its function is constant. -/
theorem Tree.isLeaf_iff {n : Nat} (hn : G.Reach r n) (hnr : n ≠ r) :
    G.IsLeaf n ↔ ∀ τ τ', G.eval N τ n = G.eval N τ' n := by
  constructor
  · rintro ⟨v, hv⟩ τ τ'
    rw [eval_leaf hv, eval_leaf hv]
  · intro hconst
    by_contra hl
    obtain ⟨τ, τ', hne⟩ := hG.varies n hn hnr hl
    exact hne (hconst τ τ')

/-- The rank of the root: level `0` when there is a level, the leaves' rank otherwise. -/
theorem Tree.rank_root : G.rank N r = 0 ∧ (G.IsLeaf r ↔ N = 0) := by
  rcases Nat.eq_zero_or_pos N with rfl | hN
  · -- without levels there is no test, so the root is a leaf
    have hl : G.IsLeaf r := by
      by_contra hl
      obtain ⟨L, lo, hi, hs⟩ := hG.exists_test .root hl
      exact absurd (hG.below r L lo hi .root hs).1 (Nat.not_lt_zero L)
    obtain ⟨v, hv⟩ := hl
    exact ⟨rank_leaf hv, ⟨fun _ => rfl, fun _ => ⟨v, hv⟩⟩⟩
  · obtain ⟨lo, hi, hr⟩ := hG.root hN
    refine ⟨rank_test hr, ⟨fun ⟨v, hv⟩ => ?_, fun h => absurd h (by omega)⟩⟩
    rw [hr] at hv
    cases hv

end Tree

/-! ### Walking two graphs in step -/

variable {H : Graph}

/-- The nodes met together when `G` from `r` and `H` from `r'` are walked in step: the roots,
and the children on one side of two nodes met together. -/
inductive Twin (G H : Graph) (r r' : Nat) : Nat → Nat → Prop
  | root : Twin G H r r' r r'
  | child {n m c c' : Nat} (b : Bool) : Twin G H r r' n m → G.Link n b c → H.Link m b c' →
      Twin G H r r' c c'

variable {r r' : Nat}

theorem Twin.symm {n m : Nat} (h : Twin G H r r' n m) : Twin H G r' r m n := by
  induction h with
  | root => exact .root
  | child b _ hl hl' ih => exact .child b ih hl' hl

theorem Twin.reach {n m : Nat} (h : Twin G H r r' n m) : G.Reach r n ∧ H.Reach r' m := by
  induction h with
  | root => exact ⟨.root, .root⟩
  | child b _ hl hl' ih => exact ⟨hl.reach ih.1, hl'.reach ih.2⟩

section Twins

variable {N : Nat} (hG : G.Tree N r) (hH : H.Tree N r')
  (h : ∀ τ, G.eval N τ r = H.eval N τ r')
include hG hH h

/-- Twins compute one function, stand at one level, and are leaves together. The induction is
on the walk: a child computes its parent with the parent's level fixed, and below the roots a
node is a leaf exactly when its function is constant. -/
theorem Twin.agree {n m : Nat} (hnm : Twin G H r r' n m) :
    (∀ τ, G.eval N τ n = H.eval N τ m) ∧ G.rank N n = H.rank N m ∧ (G.IsLeaf n ↔ H.IsLeaf m) := by
  induction hnm with
  | root =>
    obtain ⟨hGr, hGl⟩ := hG.rank_root
    obtain ⟨hHr, hHl⟩ := hH.rank_root
    exact ⟨h, hGr.trans hHr.symm, hGl.trans hHl.symm⟩
  | @child n m c c' b hnm hl hl' ih =>
    obtain ⟨heval, hrank, hleaf⟩ := ih
    obtain ⟨hn, hm⟩ := hnm.reach
    have hc := hl.reach hn
    have hc' := hl'.reach hm
    have hev : ∀ τ, G.eval N τ c = H.eval N τ c' := fun τ => by
      rw [hl.eval hG.toOrdered hn, hl'.eval hH.toOrdered hm, hrank, heval]
    -- neither child is a root, so each is a leaf exactly when its function is constant
    have hlc : G.IsLeaf c ↔ H.IsLeaf c' := by
      rw [hG.isLeaf_iff hc fun e => hG.not_link_root hn (e ▸ hl),
        hH.isLeaf_iff hc' fun e => hH.not_link_root hm (e ▸ hl')]
      simp only [hev]
    refine ⟨hev, ?_, hlc⟩
    by_cases hcl : G.IsLeaf c
    · obtain ⟨v, hv⟩ := hcl
      obtain ⟨v', hv'⟩ := hlc.1 ⟨v, hv⟩
      rw [rank_leaf hv, rank_leaf hv']
    · rw [hG.next n b c hn hl hcl, hH.next m b c' hm hl' (fun h' => hcl (hlc.2 h')), hrank]

/-- Twin leaves hold one value. -/
theorem Twin.leaf {n m : Nat} (hnm : Twin G H r r' n m) {v : Bool}
    (hv : G.shape n = some (.leaf v)) : H.shape m = some (.leaf v) := by
  obtain ⟨heval, -, hleaf⟩ := hnm.agree hG hH h
  obtain ⟨v', hv'⟩ := hleaf.1 ⟨v, hv⟩
  have hval := heval fun _ => false
  rw [eval_leaf hv, eval_leaf hv'] at hval
  rw [hv', hval]

/-- A node has one twin. The induction is on the walk to the first twin: the root is no child,
a leaf's twins are the leaf of its value, and a test below the root has one parent and one side,
whose twin has one child on that side. -/
theorem Twin.unique {n m : Nat} (hnm : Twin G H r r' n m) {m' : Nat} (hnm' : Twin G H r r' n m') :
    m = m' := by
  induction hnm generalizing m' with
  | root =>
    cases hnm' with
    | root => rfl
    | child b hp hl _ => exact absurd hl (hG.not_link_root hp.reach.1)
  | @child n m c c' b hnm hl hl' ih =>
    have hn := hnm.reach.1
    cases hnm' with
    | root => exact absurd hl (hG.not_link_root hn)
    | @child n₁ m₁ _ _ b₁ hnm₁ hl₁ hl₁' =>
      by_cases hcl : G.IsLeaf c
      · -- both twins are the leaf of the value of `c`
        obtain ⟨v, hv⟩ := hcl
        exact hH.leaves_inj c' m' v (hl'.reach hnm.reach.2) (hl₁'.reach hnm₁.reach.2)
          ((Twin.child b hnm hl hl').leaf hG hH h hv) ((Twin.child b₁ hnm₁ hl₁ hl₁').leaf hG hH h hv)
      · obtain ⟨rfl, rfl⟩ := hG.parent n₁ n b₁ b c hnm₁.reach.1 hn hl₁ hl hcl
        rw [ih hnm₁] at hl'
        exact hl'.eq hl₁'

/-- Every node reached has a twin: the twin of a test is a test, which has a child on each
side. -/
theorem Twin.exists {n : Nat} (hn : G.Reach r n) : ∃ m, Twin G H r r' n m := by
  induction hn with
  | root => exact ⟨r', .root⟩
  | @low n L lo hi hn hs ih =>
    obtain ⟨m, hnm⟩ := ih
    obtain ⟨L', lo', hi', hs'⟩ := hH.exists_test hnm.reach.2
      fun hl => (link_low hs).not_isLeaf ((hnm.agree hG hH h).2.2.2 hl)
    exact ⟨lo', .child false hnm (link_low hs) (link_low hs')⟩
  | @high n L lo hi hn hs ih =>
    obtain ⟨m, hnm⟩ := ih
    obtain ⟨L', lo', hi', hs'⟩ := hH.exists_test hnm.reach.2
      fun hl => (link_high hs).not_isLeaf ((hnm.agree hG hH h).2.2.2 hl)
    exact ⟨hi', .child true hnm (link_high hs) (link_high hs')⟩

/-- A twin has the shape of its node, with the children renamed by any map that sends each node
to its twin. -/
theorem Twin.shape {φ : Nat → Nat} (hφ : ∀ {n m}, Twin G H r r' n m → φ n = m) {n m : Nat}
    (hnm : Twin G H r r' n m) : H.shape m = (G.shape n).map (Shape.rename φ) := by
  rcases hs : G.shape n with _ | s
  · exact absurd hs (hG.closed n hnm.reach.1)
  cases s with
  | leaf v => rw [hnm.leaf hG hH h hs, Option.map_some, Shape.rename]
  | test L lo hi =>
    -- the twin is a test of the same level, whose children are the twins of the children
    obtain ⟨-, hrank, hleaf⟩ := hnm.agree hG hH h
    obtain ⟨L', lo', hi', hs'⟩ := hH.exists_test hnm.reach.2
      fun hl => (link_low hs).not_isLeaf (hleaf.2 hl)
    rw [rank_test hs, rank_test hs'] at hrank
    rw [hs', Option.map_some, Shape.rename, hrank,
      hφ (.child false hnm (link_low hs) (link_low hs')),
      hφ (.child true hnm (link_high hs) (link_high hs'))]

end Twins

/-- Canonicity of decision trees: two decision trees of one function are isomorphic. The
isomorphism sends each node reached from the first root to its twin, and keeps shapes. -/
theorem tree_iso_of_eval_eq {N : Nat} (hG : G.Tree N r) (hH : H.Tree N r')
    (h : ∀ τ, G.eval N τ r = H.eval N τ r') :
    ∃ φ : Nat → Nat, φ r = r' ∧
      (∀ n, G.Reach r n → H.Reach r' (φ n) ∧ H.shape (φ n) = (G.shape n).map (Shape.rename φ)) ∧
      (∀ n m, G.Reach r n → G.Reach r m → φ n = φ m → n = m) ∧
      ∀ m, H.Reach r' m → ∃ n, G.Reach r n ∧ φ n = m := by
  have h' : ∀ τ, H.eval N τ r' = G.eval N τ r := fun τ => (h τ).symm
  classical
  -- each node goes to its twin
  let φ : Nat → Nat := fun n => if hn : ∃ m, Twin G H r r' n m then hn.choose else n
  have hφ : ∀ {n m}, Twin G H r r' n m → φ n = m := fun {n m} hnm => by
    simp only [φ, dif_pos (⟨m, hnm⟩ : ∃ m, Twin G H r r' n m)]
    exact (Exists.choose_spec (⟨m, hnm⟩ : ∃ m, Twin G H r r' n m)).unique hG hH h hnm
  refine ⟨φ, hφ .root, fun n hn => ?_, fun n n' hn hn' heq => ?_, fun m hm => ?_⟩
  · obtain ⟨m, hnm⟩ := Twin.exists hG hH h hn
    rw [hφ hnm]
    exact ⟨hnm.reach.2, hnm.shape hG hH h hφ⟩
  · -- two nodes with one twin are twins of one node of `H`
    obtain ⟨m, hnm⟩ := Twin.exists hG hH h hn
    obtain ⟨m', hnm'⟩ := Twin.exists hG hH h hn'
    rw [hφ hnm, hφ hnm'] at heq
    subst heq
    exact hnm.symm.unique hH hG h' hnm'.symm
  · obtain ⟨n, hmn⟩ := Twin.exists hH hG h' hm
    exact ⟨n, hmn.reach.2, hφ hmn.symm⟩

end Graph

end DecisionDiagrams
