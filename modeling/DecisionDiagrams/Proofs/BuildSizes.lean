/-
The sizes of the builds.

The size of a build is the number of nodes its root reaches. For either kind it depends only on
the function of the diagram's formula and on the order. Two reduced builds of one function for
one order are isomorphic; so are two decision trees, because the tree build makes a node for a
cofactor exactly when the cofactor is not constant, and the expressions of a sound engine other
than the two constants are not constant. An isomorphism takes the nodes reached one to one onto
the nodes reached, so the sizes agree. The measure of an order, on any state of a diagram made
from a formula, and the size of the build installed for that order thus give one number.

* `Engine.exists_value_ne` — an expression of a sound engine is not constant.
* `Diagram.TreeArena.tree` — from its root, the arena of a tree build is a decision tree.
* `Diagram.TreeArena.iso` — two tree builds of one function for one order are isomorphic.
* `Arena.Iso.reachableCount_eq` — isomorphic diagrams have the same size.
* `Diagram.runBuild_size_eq` — two builds of one kind, for one order, from formula nodes of one
  function, have the same size.
* `Diagram.Made.measure_eq` — diagrams made from equivalent formulas measure an order alike.
* `Diagram.Made.size_build` — the size of the build installed for the diagram's order is the
  measure of that order.
-/
import DecisionDiagrams.Proofs.TreeGraphs
import DecisionDiagrams.Proofs.TreeReductions

namespace DecisionDiagrams

open Kernel (fixLevel)

/-- An expression of a sound engine other than the two constants is not constant: it depends on
the level of its variable, and every assignment of the levels is read from an assignment of the
names. -/
theorem Engine.exists_value_ne {e : Engine} (hs : e.Sound) {x : Nat} (h2 : 2 ≤ x)
    (hx : x < e.kernel.nodes.size) : ∃ σ σ', e.value x σ ≠ e.value x σ' := by
  obtain ⟨ρ, hρ⟩ := Kernel.dependsOn_level hs.ordered.structured hs.ordered.levels h2 hx
  -- the names valued by their levels read the levels back
  have hread : ∀ τ : Nat → Bool,
      e.kernel.walk (e.levels fun v => τ (e.levelOf v)) x = e.kernel.walk τ x := fun τ =>
    Kernel.walk_congr_of_ordered hs.ordered (fun l hl => by
      have hl' : l < e.names.size := hs.size ▸ hl
      obtain ⟨hlt, hget⟩ := Engine.levelOf_of_mem hs.nodup (Array.getElem_mem_toList hl')
      rw [Engine.levels, Array.getElem?_eq_getElem hl', Option.getD_some,
        Engine.level_inj hs.nodup hlt hl' hget]) x hx
  refine ⟨fun v => fixLevel ρ (e.kernel.level x) true (e.levelOf v),
    fun v => fixLevel ρ (e.kernel.level x) false (e.levelOf v), fun h => hρ ?_⟩
  rw [Engine.value, Engine.value, hread, hread] at h
  -- two walks end at terminals, which their values tell apart
  have h₁ := Kernel.walk_lt_two e.kernel (fixLevel ρ (e.kernel.level x) true) x
  have h₀ := Kernel.walk_lt_two e.kernel (fixLevel ρ (e.kernel.level x) false) x
  revert h
  generalize e.kernel.walk (fixLevel ρ (e.kernel.level x) true) x = w₁ at h₁ ⊢
  generalize e.kernel.walk (fixLevel ρ (e.kernel.level x) false) x = w₀ at h₀ ⊢
  interval_cases w₁ <;> interval_cases w₀ <;> simp

namespace Arena

open Relation

variable {a : Arena} {e : Engine} {order : List String} {below : Nat → Nat → Prop}

/-- A node of the arena is a leaf of its graph exactly when it is a terminal. -/
theorem isLeaf_graph_iff {j : Nat} {n : DNode} (hn : a.at? j = some n) :
    a.graph.IsLeaf j ↔ n.isTerminal = true := by
  constructor
  · rintro ⟨b, hb⟩
    obtain ⟨n', hn', hnt, -⟩ := exists_of_shape_leaf hb
    rw [hn, Option.some.injEq] at hn'
    rw [hn']
    exact hnt
  · exact fun ht => ⟨_, shape_of_terminal hn ht⟩

/-- The child on one side of a node is its low child or its high child. -/
theorem low_or_high_of_side {n : DNode} {b : Bool} {c : Nat}
    (h : (if b then n.high else n.low) = some c) : n.low = some c ∨ n.high = some c := by
  cases b
  · exact .inl h
  · exact .inr h

/-- A link of the graph from a settled node is a child of the node. -/
theorem Settled.link {j c : Nat} {b : Bool} (hset : a.Settled e order below j)
    (h : a.graph.Link j b c) :
    ∃ n, a.at? j = some n ∧ n.isTerminal = false ∧ (if b then n.high else n.low) = some c := by
  obtain ⟨L, lo, hi, hs, rfl⟩ := h
  obtain ⟨n, hn, hnt, -, rfl, rfl⟩ := exists_of_shape_test hs
  obtain ⟨-, hlo, hhi, -⟩ := hset.test hn hnt
  refine ⟨n, hn, hnt, ?_⟩
  cases b
  · exact hlo
  · exact hhi

/-- A settled node whose terminals have no children is laid out as its shape says. -/
theorem Settled.formed {j : Nat} {x : DNode} (hset : a.Settled e order below j)
    (hx : a.at? j = some x) (hleaf : x.isTerminal = true → x.low = none ∧ x.high = none) :
    x.Formed order := by
  unfold DNode.Formed
  cases ht : x.isTerminal
  · obtain ⟨hv, hlo, hhi, -⟩ := hset.test hx ht
    exact ⟨by rw [if_neg Bool.false_ne_true]; exact hv, fun h => Bool.noConfusion h,
      fun _ => ⟨hlo, hhi⟩⟩
  · obtain ⟨x', hx', -, hterm, -⟩ := hset
    rw [hx, Option.some.injEq] at hx'
    subst hx'
    exact ⟨by rw [if_pos rfl]; exact var_eq_none_of_isTerminal ht,
      fun _ => ⟨(hterm ht).1, hleaf ht⟩, fun h => Bool.noConfusion h⟩

/-- Isomorphic diagrams whose walks list the nodes they reach have the same size: the images of
the nodes the first walk lists are the nodes the second lists. -/
theorem Iso.reachableCount_eq {a' : Arena} {r r' : Nat} {φ : Nat → Nat} (hφ : Iso a r a' r' φ)
    (hspec : (Diagram.walkOrder a r).Nodup ∧ ∀ j, j ∈ Diagram.walkOrder a r ↔ a.graph.Reach r j)
    (hspec' : (Diagram.walkOrder a' r').Nodup ∧
      ∀ j, j ∈ Diagram.walkOrder a' r' ↔ a'.graph.Reach r' j) :
    Diagram.reachableCount a r = Diagram.reachableCount a' r' := by
  have hperm : ((Diagram.walkOrder a r).map φ).Perm (Diagram.walkOrder a' r') := by
    refine (List.perm_ext_iff_of_nodup ?_ hspec'.1).2 fun j => ?_
    · exact hspec.1.map_on fun i hi j hj hij =>
        hφ.inj i j ((hspec.2 i).1 hi) ((hspec.2 j).1 hj) hij
    · rw [List.mem_map, hspec'.2]
      constructor
      · rintro ⟨i, hi, rfl⟩
        exact hφ.reach i ((hspec.2 i).1 hi)
      · intro hj
        obtain ⟨i, hi, rfl⟩ := hφ.onto j hj
        exact ⟨i, (hspec.2 i).2 hi, rfl⟩
  rw [Diagram.reachableCount, Diagram.reachableCount, ← hperm.length_eq, List.length_map]

end Arena

namespace Diagram

open Engine Arena

variable {order : List String} {ts : Terminals} {a : Arena} {e : Engine}

/-- A terminal of an expansion is the terminal of its value. -/
theorem ExpandingArena.eq_terminal (hX : ExpandingArena order ts a e) {j : Nat} {n : DNode}
    (hn : a.at? j = some n) (ht : n.isTerminal = true) :
    j = if n.terminalValue then ts.yes else ts.no := by
  by_cases hy : j = ts.yes
  · rw [hy, hX.yes, Option.some.injEq] at hn
    rw [← hn, hy]
    rfl
  by_cases hno : j = ts.no
  · rw [hno, hX.no, Option.some.injEq] at hn
    rw [← hn, hno]
    rfl
  exact absurd ht (by rw [(hX.inner j n hn hy hno).1.1]; decide)

/-- From its root, the arena of a tree build is a decision tree: its nodes are settled one level
apart, the root stands at level `0` and is a test when there is a level, a test with a parent
holds an expression, which is not constant, no test has two parents or is both children of one
node, and the terminals are the two of the build. -/
theorem TreeArena.tree (hT : TreeArena order ts a e) (hs : e.Sound)
    (hset : ∀ j m, a.at? j = some m → a.Settled e order (· + 1 = ·) j) {root : Nat} {r : DNode}
    (hr : a.at? root = some r) (hlev : r.level = 0)
    (hint : 0 < order.length → r.isTerminal = false) : a.graph.Tree order.length root := by
  have hbelow : ∀ L L', L + 1 = L' → L < L' := fun L _ h => h ▸ Nat.lt_succ_self L
  have hreach : ∀ i, a.graph.Reach root i → a.Settled e order (· + 1 = ·) i := fun i hi => by
    obtain ⟨m, hm⟩ := exists_of_reach hset hr hi
    exact hset i m hm
  -- the node of a test reached is internal
  have hnode : ∀ {c}, a.graph.Reach root c → ¬ a.graph.IsLeaf c →
      ∃ y, a.at? c = some y ∧ y.isTerminal = false := fun {c} hc hcl => by
    obtain ⟨y, hy⟩ := exists_of_reach hset hr hc
    exact ⟨y, hy, by simpa [isLeaf_graph_iff hy] using hcl⟩
  refine ⟨ordered_of_settled hbelow hreach, fun hN => ?_, ?_, ?_, ?_, ?_⟩
  · exact ⟨_, _, by rw [shape_of_internal hr (hint hN), hlev]⟩
  · intro p b c hp hl hcl
    obtain ⟨n, hn, hnt, hc⟩ := (hreach p hp).link hl
    obtain ⟨y, hy, hyt⟩ := hnode (hl.reach hp) hcl
    rw [rank_of_at? hy, rank_of_at? hn, if_neg (by simp [hyt]), if_neg (by simp [hnt])]
    exact ((hreach p hp).child_below hn hnt (low_or_high_of_side hc) hy hyt).symm
  · intro n hn hnr hnl
    -- a test below the root has a parent, so it holds an expression
    obtain ⟨p, b, hp, hl⟩ := hn.eq_or_link.resolve_left hnr
    obtain ⟨m, hm, -, hc⟩ := (hreach p hp).link hl
    obtain ⟨y, hy, hyt⟩ := hnode hn hnl
    obtain ⟨x, hx⟩ := hT.expr p n y ⟨m, hm, low_or_high_of_side hc⟩ hy hyt
    obtain ⟨y', hy', hval, -⟩ := hreach n hn
    rw [hy, Option.some.injEq] at hy'
    subst hy'
    rw [hx] at hval
    obtain ⟨σ, σ', hne⟩ := Engine.exists_value_ne hs hval.1 hval.2
    refine ⟨orderLevels order σ, orderLevels order σ', ?_⟩
    rw [eval_of_settled hbelow hreach σ n y hn hy, eval_of_settled hbelow hreach σ' n y hn hy, hx]
    exact hne
  · intro p q b b' c hp hq hlp hlq hcl
    obtain ⟨n, hn, -, hc⟩ := (hreach p hp).link hlp
    obtain ⟨m, hm, -, hc'⟩ := (hreach q hq).link hlq
    obtain ⟨y, hy, hyt⟩ := hnode (hlp.reach hp) hcl
    obtain ⟨hcy, hcn⟩ := hT.toExpandingArena.ne_terminals hy hyt
    obtain rfl := hT.parent p q c hcy hcn ⟨n, hn, low_or_high_of_side hc⟩
      ⟨m, hm, low_or_high_of_side hc'⟩
    rw [hn, Option.some.injEq] at hm
    subst hm
    -- a node is both children of one test only when it is a terminal
    refine ⟨rfl, ?_⟩
    by_contra hbb
    have hboth : n.low = some c ∧ n.high = some c := by
      cases b <;> cases b' <;> simp_all
    exact (hT.sides p n c hn hboth.1 hboth.2).elim hcy hcn
  · intro n m b _ _ hsn hsm
    obtain ⟨x, hx, hxt, hxv⟩ := exists_of_shape_leaf hsn
    obtain ⟨y, hy, hyt, hyv⟩ := exists_of_shape_leaf hsm
    rw [hT.toExpandingArena.eq_terminal hx hxt, hT.toExpandingArena.eq_terminal hy hyt, hxv, hyv]

/-- Canonicity of tree builds: two tree arenas for one order whose roots, at level `0` and tests
when there is a level, hold the same truth values are isomorphic from their roots. -/
theorem TreeArena.iso (hnodup : order.Nodup) {ts' : Terminals} {a' : Arena} {e' : Engine}
    (hT : TreeArena order ts a e) (hT' : TreeArena order ts' a' e') (hs : e.Sound) (hs' : e'.Sound)
    (hset : ∀ j m, a.at? j = some m → a.Settled e order (· + 1 = ·) j)
    (hset' : ∀ j m, a'.at? j = some m → a'.Settled e' order (· + 1 = ·) j) {root root' : Nat}
    {r r' : DNode} (hr : a.at? root = some r) (hr' : a'.at? root' = some r') (hlev : r.level = 0)
    (hlev' : r'.level = 0) (hint : 0 < order.length → r.isTerminal = false)
    (hint' : 0 < order.length → r'.isTerminal = false)
    (h : ∀ σ, r.value.holds e σ = r'.value.holds e' σ) : ∃ φ, Iso a root a' root' φ := by
  have hbelow : ∀ L L', L + 1 = L' → L < L' := fun L _ h => h ▸ Nat.lt_succ_self L
  have heval : ∀ τ, a.graph.eval order.length τ root = a'.graph.eval order.length τ root' :=
    fun τ => by
      rw [eval_of_settled_idxOf hnodup hbelow hset hr, eval_of_settled_idxOf hnodup hbelow hset' hr',
        h]
  obtain ⟨φ, hroot, hmap, hinj, honto⟩ :=
    Graph.tree_iso_of_eval_eq (hT.tree hs hset hr hlev hint) (hT'.tree hs' hset' hr' hlev' hint')
      heval
  exact ⟨φ, iso_of_graph
    (fun j x _ hx => (hset j x hx).formed hx (hT.toExpandingArena.leaf_children j x hx))
    (fun j y _ hy => (hset' j y hy).formed hy (hT'.toExpandingArena.leaf_children j y hy))
    hroot hmap hinj honto⟩

/-- Two builds of one kind for one order, on faithful engines whose names are variables of the
order, from formula nodes that hold the same truth values, succeed from any bases and have the
same size: their arenas are isomorphic from their roots. -/
theorem runBuild_size_eq {d d' : Diagram} (hf : Faithful d.engine) (hf' : Faithful d'.engine)
    (hroot : d.root < d.engine.kernel.nodes.size) (hroot' : d'.root < d'.engine.kernel.nodes.size)
    (hnames : ∀ y ∈ d.engine.names.toList, y ∈ order)
    (hnames' : ∀ y ∈ d'.engine.names.toList, y ∈ order) (hnodup : order.Nodup)
    (h : ∀ σ, d.engine.value d.root σ = d'.engine.value d'.root σ) (k : Kind) (base base' : Nat) :
    ∃ root a e root' a' e', (runBuild d k order base).run d.engine = ((.ok root, a), e) ∧
      (runBuild d' k order base').run d'.engine = ((.ok root', a'), e') ∧
      reachableCount a root = reachableCount a' root' := by
  cases k with
  | bdd =>
    obtain ⟨root, a, e, hrun, hfe, -, -, -, hT, hset, r, hr, hval, hlev, hint⟩ :=
      decisionTree_run hf hroot hnames hnodup base
    obtain ⟨root', a', e', hrun', hfe', -, -, -, hT', hset', r', hr', hval', hlev', hint'⟩ :=
      decisionTree_run hf' hroot' hnames' hnodup base'
    obtain ⟨φ, hφ⟩ := hT.iso hnodup hT' hfe.sound hfe'.sound hset hset' hr hr' hlev hlev' hint
      hint' fun σ => by rw [hval, hval', h]
    exact ⟨root, a, e, root', a', e', hrun, hrun', hφ.reachableCount_eq
      (walkOrder_spec_of_settled hset hT.toExpandingArena.leaf_children (by rw [hr]; rfl))
      (walkOrder_spec_of_settled hset' hT'.toExpandingArena.leaf_children (by rw [hr']; rfl))⟩
  | robdd =>
    obtain ⟨root, a, e, hrun, -, -, -, hR, r, hr, hval⟩ :=
      runBuild_run hf hroot hnames hnodup .robdd base
    obtain ⟨root', a', e', hrun', -, -, -, hR', r', hr', hval'⟩ :=
      runBuild_run hf' hroot' hnames' hnodup .robdd base'
    obtain ⟨φ, hφ⟩ := Reduced.iso hnodup (hR : a.Reduced e order) (hR' : a'.Reduced e' order) hr hr'
      fun σ => by rw [hval, hval', h]
    exact ⟨root, a, e, root', a', e', hrun, hrun', hφ.reachableCount_eq
      ((hR : a.Reduced e order).walkOrder_spec (by rw [hr]; rfl))
      ((hR' : a'.Reduced e' order).walkOrder_spec (by rw [hr']; rfl))⟩

/-- Two diagrams made from equivalent formulas, with the same variables, measure each order of
their variables alike, whatever their engines: the measure succeeds on both with one size. -/
theorem Made.measure_eq {d d' : Diagram} {f f' : Formula} (hd : Made d f) (hd' : Made d' f')
    (hff : ∀ σ, f.eval σ = f'.eval σ) (hvars : d'.vars = d.vars) (k : Kind) {o : List String}
    (ho : o.Perm d.vars) :
    ∃ n, ((measure k o).run d).1 = .ok n ∧ ((measure k o).run d').1 = .ok n := by
  have hc := hd.coherent
  have hc' := hd'.coherent
  have hnodup : o.Nodup := ho.nodup_iff.2 hc.nodup
  obtain ⟨res, a, e, hrun, hmeas, -⟩ := measure_run k o d (checkOrder_of_perm _ _ hc.nodup ho)
  obtain ⟨res', a', e', hrun', hmeas', -⟩ :=
    measure_run k o d' (checkOrder_of_perm _ _ hc'.nodup (hvars ▸ ho))
  obtain ⟨root, a₁, e₁, root', a₁', e₁', hrun₁, hrun₁', hsize⟩ := runBuild_size_eq hd.faithful
    hd'.faithful hc.root hc'.root (fun y hy => ho.symm.subset (hc.names y hy))
    (fun y hy => ho.symm.subset (hvars ▸ hc'.names y hy)) hnodup
    (fun σ => by rw [hd.value, hd'.value, hff]) k 0 0
  rw [hrun₁, Prod.mk.injEq, Prod.mk.injEq] at hrun
  rw [hrun₁', Prod.mk.injEq, Prod.mk.injEq] at hrun'
  obtain ⟨⟨rfl, rfl⟩, -⟩ := hrun
  obtain ⟨⟨rfl, rfl⟩, -⟩ := hrun'
  exact ⟨reachableCount a₁ root, hmeas, by rw [hmeas', hsize]; rfl⟩

/-- The build of a made diagram for its order succeeds, keeps the order, and installs a build
whose size is the measure of that order. -/
theorem Made.size_build {d : Diagram} {f : Formula} (hd : Made d f) (k : Kind) :
    ∃ n root, ((measure k d.order).run d).1 = .ok n ∧ ((build k).run d).1 = .ok root ∧
      ((build k).run d).2.order = d.order ∧ size ((build k).run d).2 k = n := by
  have hc := hd.coherent
  have hnodup : d.order.Nodup := hc.perm.nodup_iff.2 hc.nodup
  have hnames : ∀ y ∈ d.engine.names.toList, y ∈ d.order :=
    fun y hy => hc.perm.symm.subset (hc.names y hy)
  obtain ⟨res, a, e, hrun, hmeas, -⟩ :=
    measure_run k d.order d (checkOrder_of_perm _ _ hc.nodup hc.perm)
  obtain ⟨root, a₁, e₁, root', a₁', e₁', hrun₁, hrun₁', hsize⟩ := runBuild_size_eq hd.faithful
    hd.faithful hc.root hc.root hnames hnames hnodup (fun _ => rfl) k 0 d.next
  rw [hrun₁, Prod.mk.injEq, Prod.mk.injEq] at hrun
  obtain ⟨⟨rfl, rfl⟩, -⟩ := hrun
  -- the installed build is the second run, from the diagram's next id
  have hbuild := build_run_ok hrun₁'
  refine ⟨reachableCount a₁ root, root', hmeas, by rw [hbuild], by rw [hbuild]; cases k <;> rfl, ?_⟩
  rw [hbuild, size, built?_install, hsize]

end Diagram

end DecisionDiagrams
