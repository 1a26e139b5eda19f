/-
The node table as a decision graph.

A table gives each node number a shape: the two terminals are leaves of their values, and an
internal node tests its level with its low and high children. On an ordered table this graph
is a reduced ordered decision graph from every node, over the `varnum` levels: children lie
below their parents, no test has equal children, the unique table leaves no two tests of one
shape, and the two terminals differ. The graph reaches what the table reaches, and the function
of a node is where the table's walk ends.

* `Kernel.graph` — the table as a decision graph.
* `Kernel.graph_reach_iff` — the graph reaches exactly the nodes the table reaches.
* `Kernel.graph_reduced` — an ordered table is reduced from each of its nodes.
* `Kernel.graph_eval` — a node's function is the terminal its walk ends at.
* `Arena.TableIso`, `Arena.Reduced.table_iso` — a reduced arena whose root holds the function of
  a node of a sound engine's table, for the order of the engine's names, is isomorphic to the
  table below that node.
* `Diagram.reduced_build_isomorphic_to_table` — the reduced build of a made diagram, for the
  order of its variables, is the table below the formula's node, and its size is the number of
  nodes that the table marks from that node.
-/
import DecisionDiagrams.Proofs.DecisionGraphs
import DecisionDiagrams.Proofs.Support
import DecisionDiagrams.Proofs.BreadthFirstWalks
import DecisionDiagrams.Proofs.DeclaredLevels
import DecisionDiagrams.Proofs.ManualOrder

namespace DecisionDiagrams

namespace Kernel

/-- The table as a decision graph: the terminals are leaves of their values, an internal node
tests its level with its children, and numbers off the table have no shape. -/
def graph (k : Kernel) : Graph :=
  ⟨fun n => if n < k.nodes.size then
    some (if n < 2 then .leaf (n == 1) else .test (k.level n) (k.lowOf n) (k.highOf n))
    else none⟩

variable {k : Kernel}

theorem graph_shape_terminal (hs : Structured k) {n : Nat} (hn : n < 2) :
    k.graph.shape n = some (.leaf (n == 1)) := by
  have := hs.two_le
  simp only [graph, if_pos (show n < k.nodes.size by omega), if_pos hn]

theorem graph_shape_internal {n : Nat} (h2 : 2 ≤ n) (hn : n < k.nodes.size) :
    k.graph.shape n = some (.test (k.level n) (k.lowOf n) (k.highOf n)) := by
  simp only [graph, if_pos hn, if_neg (show ¬n < 2 by omega)]

/-- A test of the graph is an internal node of the table, with its level and children. -/
theorem eq_of_graph_shape_test {n L lo hi : Nat} (h : k.graph.shape n = some (.test L lo hi)) :
    2 ≤ n ∧ n < k.nodes.size ∧ L = k.level n ∧ lo = k.lowOf n ∧ hi = k.highOf n := by
  simp only [graph] at h
  split at h
  · split at h
    · cases h
    · rename_i hn h2
      simp only [Option.some.injEq, Shape.test.injEq] at h
      obtain ⟨rfl, rfl, rfl⟩ := h
      exact ⟨by omega, hn, rfl, rfl, rfl⟩
  · cases h

/-- A leaf of the graph is a terminal of the table, with its value. -/
theorem eq_of_graph_shape_leaf {n : Nat} {b : Bool} (h : k.graph.shape n = some (.leaf b)) :
    n < 2 ∧ b = (n == 1) := by
  simp only [graph] at h
  split at h
  · split at h
    · rename_i h2
      simp only [Option.some.injEq, Shape.leaf.injEq] at h
      exact ⟨h2, h.symm⟩
    · cases h
  · cases h

/-- The graph reaches exactly the nodes the table reaches. -/
theorem graph_reach_iff {r : Nat} (hr : r < k.nodes.size) (i : Nat) :
    k.graph.Reach r i ↔ Reaches k r i := by
  constructor
  · intro h
    induction h with
    | root => exact .root
    | low _ hsh ih =>
      obtain ⟨h2, -, -, rfl, -⟩ := eq_of_graph_shape_test hsh
      exact ih.low h2
    | high _ hsh ih =>
      obtain ⟨h2, -, -, -, rfl⟩ := eq_of_graph_shape_test hsh
      exact ih.high h2
  · intro h
    induction h with
    | root => exact .root
    | @low i hi h2 ih =>
      exact ih.low (graph_shape_internal h2 (Nat.lt_of_le_of_lt hi.le hr))
    | @high i hi h2 ih =>
      exact ih.high (graph_shape_internal h2 (Nat.lt_of_le_of_lt hi.le hr))

/-- The rank of a node in the graph over `varnum` levels: its level, or `varnum` for a
terminal, which is the terminals' level in an ordered table. -/
theorem graph_rank (ho : Ordered k) {n : Nat} (hn : n < k.nodes.size) :
    k.graph.rank k.varnum n = k.level n := by
  by_cases h2 : n < 2
  · rw [Graph.rank_leaf (graph_shape_terminal ho.structured h2), ho.levels.level_terminal h2,
      ho.top]
  · rw [Graph.rank_test (graph_shape_internal (by omega) hn)]

/-- An ordered table is a reduced ordered decision graph from each of its nodes, over its
`varnum` levels. -/
theorem graph_reduced (ho : Ordered k) {r : Nat} (hr : r < k.nodes.size) :
    k.graph.Reduced k.varnum r := by
  have hs := ho.structured
  have hl := ho.levels
  refine ⟨⟨fun n hn => ?_, fun n L lo hi _ hsh => ?_⟩, fun n L lo hi _ hsh => ?_,
    fun n m L lo hi _ _ hn hm => ?_, fun n m b hn hm hsn hsm => ?_⟩
  · -- every node reached lies in the table
    have hlt := Nat.lt_of_le_of_lt ((graph_reach_iff hr n).1 hn).le hr
    simp [graph, hlt]
  · obtain ⟨h2, hn, rfl, rfl, rfl⟩ := eq_of_graph_shape_test hsh
    rw [graph_rank ho (lowOf_lt_size k h2 hn), graph_rank ho (highOf_lt_size k h2 hn)]
    exact ⟨ho.top ▸ hl.below n h2 hn, hl.lowOf hs h2 hn, hl.highOf hs h2 hn⟩
  · obtain ⟨h2, hn, -, rfl, rfl⟩ := eq_of_graph_shape_test hsh
    rw [hs.lowOf_eq h2 hn, hs.highOf_eq h2 hn]
    exact (hs.children n h2 hn).2.2
  · -- two tests of one shape are one entry, which the unique table finds once
    obtain ⟨hn2, hnn, hL, hlo, hhi⟩ := eq_of_graph_shape_test hn
    obtain ⟨hm2, hmm, hL', hlo', hhi'⟩ := eq_of_graph_shape_test hm
    have hentry : ∀ {j}, 2 ≤ j → j < k.nodes.size → L = k.level j → lo = k.lowOf j →
        hi = k.highOf j → k.entry j = ⟨L, lo, hi⟩ := by
      intro j h2 hj hL hlo hhi
      rw [hL, hlo, hhi, hs.lowOf_eq h2 hj, hs.highOf_eq h2 hj]
      rfl
    have hun := (hs.unique ⟨L, lo, hi⟩ n).2 ⟨hn2, hnn, hentry hn2 hnn hL hlo hhi⟩
    have hum := (hs.unique ⟨L, lo, hi⟩ m).2 ⟨hm2, hmm, hentry hm2 hmm hL' hlo' hhi'⟩
    rw [hun] at hum
    exact Option.some.inj hum
  · -- the two terminals are leaves of different values
    obtain ⟨hn2, hbn⟩ := eq_of_graph_shape_leaf hsn
    obtain ⟨hm2, hbm⟩ := eq_of_graph_shape_leaf hsm
    have hiff : n = 1 ↔ m = 1 := by
      simpa only [beq_iff_eq, eq_iff_iff] using congrArg (· = true) (hbn.symm.trans hbm)
    omega

/-- The function of a node is the terminal its walk ends at. -/
theorem graph_eval (ho : Ordered k) (τ : Nat → Bool) {n : Nat} (hn : n < k.nodes.size) :
    k.graph.eval k.varnum τ n = (k.walk τ n == 1) := by
  induction n using Nat.strongRecOn with
  | ind n ih =>
  by_cases h2 : n < 2
  · rw [Graph.eval_leaf (graph_shape_terminal ho.structured h2), walk_terminal _ _ h2]
  · -- Shannon expansion at the node, and the walk's step agree
    have h2' : 2 ≤ n := by omega
    rw [Graph.eval_test (graph_reduced ho hn).toOrdered .root (graph_shape_internal h2' hn),
      walk_internal _ _ h2', ih _ (lowOf_lt k n (by omega)) (lowOf_lt_size k h2' hn),
      ih _ (highOf_lt k n (by omega)) (highOf_lt_size k h2' hn)]
    split <;> rfl

/-- A node is marked exactly when it is listed among the marked nodes. -/
theorem mem_marked (m : Array Bool) (i : Nat) : i ∈ marked m ↔ isMarked m i := by
  unfold marked isMarked
  rw [List.mem_filter, List.mem_range]
  refine ⟨fun h => h.2, fun h => ⟨?_, h⟩⟩
  by_contra hlt
  rw [Array.getElem?_eq_none (by omega)] at h
  cases h

/-- The nodes that `reach` marks from a node of the table are those it reaches, each listed
once. -/
theorem marked_reach_spec {x : Nat} (hx : x < k.nodes.size) :
    (marked (k.reach [x])).Nodup ∧ ∀ i, i ∈ marked (k.reach [x]) ↔ Reaches k x i :=
  ⟨List.nodup_range.filter _, fun i => (mem_marked _ i).trans (reach_iff hx i)⟩

end Kernel

namespace Arena

open Kernel

/-- An isomorphism `φ` of the table below node `x` onto the diagram from `r` in an arena, with
level `L` of the table the variable `order[L]`: it takes `x` to the root and the nodes `x`
reaches one to one onto the nodes the root reaches; a terminal goes to a terminal of its value,
and an internal node to a test of the variable of its level, at its level, whose children are
its own children's images. -/
structure TableIso (k : Kernel) (x : Nat) (order : List String) (a : Arena) (r : Nat)
    (φ : Nat → Nat) : Prop where
  root : φ x = r
  reach : ∀ i, Reaches k x i → a.graph.Reach r (φ i)
  inj : ∀ i j, Reaches k x i → Reaches k x j → φ i = φ j → i = j
  onto : ∀ j, a.graph.Reach r j → ∃ i, Reaches k x i ∧ φ i = j
  terminal : ∀ i, Reaches k x i → i < 2 → ∃ y, a.at? (φ i) = some y ∧ y.isTerminal = true ∧
    y.terminalValue = (i == 1)
  internal : ∀ i, Reaches k x i → 2 ≤ i → ∃ y, a.at? (φ i) = some y ∧ y.isTerminal = false ∧
    y.var = order[k.level i]? ∧ y.level = k.level i ∧ y.low = some (φ (k.lowOf i)) ∧
    y.high = some (φ (k.highOf i))

/-- An engine whose names are an order reads each level as the variable the order puts there. -/
theorem levels_eq_orderLevels {e : Engine} {order : List String} (h : e.names.toList = order)
    (σ : String → Bool) : e.levels σ = orderLevels order σ := by
  funext l
  rw [Engine.levels, orderLevels, ← h, Array.getElem?_toList]

section Reduced

variable {a : Arena} {e : Engine} {order : List String} (hR : a.Reduced e order)
include hR

/-- Canonicity against the table: a reduced arena whose root holds the function of node `x` of a
sound engine's table, for the order of the engine's names, is isomorphic to the table below `x`.
Both are reduced decision graphs of one function over the levels of the order. -/
theorem Reduced.table_iso {e₀ : Engine} (hs : Engine.Sound e₀) (hnames : e₀.names.toList = order)
    {x : Nat} (hx : x < e₀.kernel.nodes.size) {root : Nat} {r : DNode} (hr : a.at? root = some r)
    (hval : ∀ σ, r.value.holds e σ = e₀.value x σ) : ∃ φ, TableIso e₀.kernel x order a root φ := by
  have ho := hs.ordered
  have hvar : e₀.kernel.varnum = order.length := by
    rw [← hs.size, ← hnames, Array.length_toList]
  have hnodup : order.Nodup := hnames ▸ hs.nodup
  have hG := graph_reduced ho hx
  rw [hvar] at hG
  have hH := hR.graph hr
  -- every assignment of the levels is read from an assignment of the names
  have heval : ∀ τ, e₀.kernel.graph.eval order.length τ x = a.graph.eval order.length τ root := by
    intro τ
    have hτ : ∀ L, L < order.length → τ L = orderLevels order (fun v => τ (order.idxOf v)) L :=
      fun L hL => (orderLevels_idxOf hnodup τ hL).symm
    calc e₀.kernel.graph.eval order.length τ x
        = (e₀.kernel.walk τ x == 1) := hvar ▸ graph_eval ho τ hx
      _ = e₀.value x (fun v => τ (order.idxOf v)) := by
          rw [Engine.value, levels_eq_orderLevels hnames,
            walk_congr_of_ordered ho (fun l hl => hτ l (hvar ▸ hl)) x hx]
      _ = r.value.holds e (fun v => τ (order.idxOf v)) := (hval _).symm
      _ = a.graph.eval order.length τ root :=
          (eval_of_settled_idxOf hnodup (fun _ _ h => h) hR.settled hr τ).symm
  obtain ⟨φ, hroot, hmap, hinj, honto⟩ := Graph.iso_of_eval_eq hG hH heval
  have hreach : ∀ i, Reaches e₀.kernel x i → e₀.kernel.graph.Reach x i := fun i hi =>
    (graph_reach_iff hx i).2 hi
  refine ⟨φ, ⟨hroot, fun i hi => (hmap i (hreach i hi)).1,
    fun i j hi hj => hinj i j (hreach i hi) (hreach j hj),
    fun j hj => (honto j hj).imp fun i hi => ⟨(graph_reach_iff hx i).1 hi.1, hi.2⟩,
    fun i hi h2 => ?_, fun i hi h2 => ?_⟩⟩
  · -- a terminal of the table is a leaf of its value, and so is its image
    have hs' := (hmap i (hreach i hi)).2
    rw [graph_shape_terminal ho.structured h2, Option.map_some, Shape.rename] at hs'
    exact exists_of_shape_leaf hs'
  · -- an internal node is a test of its level, and so is its image, with the variable there
    have hs' := (hmap i (hreach i hi)).2
    have hin : i < e₀.kernel.nodes.size := Nat.lt_of_le_of_lt hi.le hx
    rw [graph_shape_internal h2 hin, Option.map_some, Shape.rename] at hs'
    obtain ⟨y, hy, hyt, hyl, hylo, hyhi⟩ := exists_of_shape_test hs'
    obtain ⟨hyv, -, hyi⟩ := hR.node hy
    obtain ⟨hylo', hyhi'⟩ := hyi hyt
    refine ⟨y, hy, hyt, ?_, hyl, ?_, ?_⟩
    · rw [hyv, hyt, if_neg Bool.false_ne_true, hyl]
    · rw [hylo', hylo]
    · rw [hyhi', hyhi]

/-- A reduced arena isomorphic to the table below `x` has as many nodes reached from its root
as the table marks from `x`, and its walk lists them. -/
theorem TableIso.reachableCount_eq {k : Kernel} {x root : Nat} {φ : Nat → Nat}
    (hφ : TableIso k x order a root φ) (hroot : (a.at? root).isSome) (hx : x < k.nodes.size) :
    Diagram.reachableCount a root = (marked (k.reach [x])).length := by
  obtain ⟨hnd₁, hmem₁⟩ := hR.walkOrder_spec hroot
  obtain ⟨hnd₂, hmem₂⟩ := marked_reach_spec hx
  -- the images of the marked nodes are the nodes the walk lists
  have hperm : ((marked (k.reach [x])).map φ).Perm (Diagram.walkOrder a root) := by
    refine (List.perm_ext_iff_of_nodup ?_ hnd₁).2 fun j => ?_
    · exact hnd₂.map_on fun i hi j hj hij => hφ.inj i j ((hmem₂ i).1 hi) ((hmem₂ j).1 hj) hij
    · rw [List.mem_map, hmem₁]
      constructor
      · rintro ⟨i, hi, rfl⟩
        exact hφ.reach i ((hmem₂ i).1 hi)
      · intro hj
        obtain ⟨i, hi, rfl⟩ := hφ.onto j hj
        exact ⟨i, (hmem₂ i).2 hi, rfl⟩
  rw [Diagram.reachableCount, ← hperm.length_eq, List.length_map]

end Reduced

end Arena

namespace Diagram

open Engine Arena Kernel

/-- The reduced build of a diagram made from a text without a node limit, before any order is
given, is the simplifier's table below the formula's node. The build succeeds; an isomorphism
takes the nodes that the formula's node reaches in the table one to one onto the nodes that the
build's root reaches, with level `k` of the table the variable `k` of the text and the
terminals `0` and `1` the false and true terminals. The size of the build, and the measure of
the reduced diagram for the order of the variables, are the number of nodes that the table marks
from the formula's node, terminals included. -/
theorem reduced_build_isomorphic_to_table {text : String} {limits : Limits}
    (hlim : limits.maxNodes = 0) {d : Diagram} (h : create text limits none = .ok d) :
    ∃ b : Built, ((build .robdd).run d).1 = .ok b.root ∧
      ((build .robdd).run d).2.robdd = some b ∧
      (∃ φ, TableIso d.engine.kernel d.root d.vars b.arena b.root φ) ∧
      size ((build .robdd).run d).2 .robdd = (marked (d.engine.kernel.reach [d.root])).length ∧
      ((measure .robdd d.vars).run d).1 = .ok (marked (d.engine.kernel.reach [d.root])).length := by
  obtain ⟨f, -, -, -, -, -, hp, -⟩ := create_eq_ok h
  have hd := create_made hlim h hp
  have hc := hd.coherent
  have hnames := create_names h
  -- the installed build, for the order of the variables
  obtain ⟨root, a, e, hrun, -, -, -, hshape, r, hr, hval⟩ := hd.build_run .robdd
  have hR : a.Reduced e d.vars := create_order_none h ▸ hshape
  obtain ⟨φ, hφ⟩ := hR.table_iso hc.sound hnames hc.root hr fun σ =>
    (hval σ).trans (hd.value σ).symm
  -- the measured build, from base `0`
  obtain ⟨res, a', e', hrun', hmeas, -⟩ :=
    measure_run .robdd d.vars d (checkOrder_of_perm _ _ hc.nodup (List.Perm.refl _))
  obtain ⟨root₂, a₂, e₂, hrun₂, -, -, -, hshape₂, r₂, hr₂, hval₂⟩ :=
    runBuild_run hd.faithful hc.root (fun y hy => hnames ▸ hy) hc.nodup .robdd 0
  rw [hrun₂, Prod.mk.injEq, Prod.mk.injEq] at hrun'
  obtain ⟨⟨hres, ha⟩, -⟩ := hrun'
  have hR₂ : a₂.Reduced e₂ d.vars := hshape₂
  obtain ⟨φ₂, hφ₂⟩ := hR₂.table_iso hc.sound hnames hc.root hr₂ hval₂
  refine ⟨⟨a, root⟩, by rw [hrun], by rw [hrun]; rfl, ⟨φ, hφ⟩, ?_, ?_⟩
  · rw [hrun]
    simp only [size, built?_install]
    exact hφ.reachableCount_eq hR (by rw [hr]; rfl) hc.root
  · rw [hmeas, ← hres, ← ha]
    exact congrArg Except.ok (hφ₂.reachableCount_eq hR₂ (by rw [hr₂]; rfl) hc.root)

set_option maxRecDepth 100000 in
/-- The reduced build of the formula `a`, made without limits. -/
theorem reduced_build_isomorphic_to_table_of_a :
    let d := fresh "a" ((render 2).run ((parseAndSimplify "a").run (created {})).2).2 2 "a"
    ({} : Limits).maxNodes = 0 ∧ create "a" {} none = .ok d ∧
      ∃ b : Built, ((build .robdd).run d).1 = .ok b.root ∧
        ((build .robdd).run d).2.robdd = some b ∧
        (∃ φ, TableIso d.engine.kernel d.root d.vars b.arena b.root φ) ∧
        size ((build .robdd).run d).2 .robdd = (marked (d.engine.kernel.reach [d.root])).length ∧
        ((measure .robdd d.vars).run d).1 =
          .ok (marked (d.engine.kernel.reach [d.root])).length := by
  have h₀ : create "a" {} none =
      .ok (fresh "a" ((render 2).run ((parseAndSimplify "a").run (created {})).2).2 2 "a") := by
    cbv
  exact ⟨rfl, h₀, reduced_build_isomorphic_to_table rfl h₀⟩

end Diagram

end DecisionDiagrams
