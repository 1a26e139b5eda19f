/-
The decision tree and its reduction.

The two builds of a diagram for one order compute one function in two shapes. The decision tree
makes a new node for every cofactor that is not constant, so each test it reaches, the root
apart, has one parent, and only the two terminals are shared. The reduced diagram is that tree
reduced bottom up: a test whose two children reduce to one node becomes that node, and tests of
one variable whose children reduce to the same nodes become one node. Both builds leave settled
arenas whose roots hold the diagram's expression, so the reduction of an ordered decision graph
onto a reduced graph of its function takes the tree onto the reduced diagram, and the reduced
diagram never has more nodes than the tree.

* `Arena.Reduction` — a reduction of the diagram from one root onto the diagram from another.
* `Arena.reduction_of_settled` — a settled arena reduces onto a reduced arena of the same
  function.
* `Diagram.TreeArena.unique_parent` — in a tree build each test reached, the root apart, has
  exactly one parent.
* `Diagram.reduced_build_reduces_tree` — the reduced build of a made diagram is the reduction of
  its decision tree, and measures no more nodes.
-/
import DecisionDiagrams.Proofs.BreadthFirstWalks
import DecisionDiagrams.Proofs.DecisionTrees
import DecisionDiagrams.Proofs.ManualOrder

namespace DecisionDiagrams

namespace Arena

open Relation

/-- A reduction `ρ` of the diagram from `r` in `a` onto the diagram from `r'` in `a'`: it takes
the root to the root and the nodes reached onto the nodes reached. A terminal goes to a terminal
of its value; a test whose children go to one node goes there too, and any other test goes to a
test of its variable, at its level, whose children are its children's images; tests of one
variable whose children go to the same nodes go to one node. -/
structure Reduction (a : Arena) (r : Nat) (a' : Arena) (r' : Nat) (ρ : Nat → Nat) : Prop where
  root : ρ r = r'
  reach : ∀ i, a.graph.Reach r i → a'.graph.Reach r' (ρ i)
  onto : ∀ j, a'.graph.Reach r' j → ∃ i, a.graph.Reach r i ∧ ρ i = j
  terminal : ∀ i x, a.graph.Reach r i → a.at? i = some x → x.isTerminal = true →
    ∃ y, a'.at? (ρ i) = some y ∧ y.isTerminal = true ∧ y.terminalValue = x.terminalValue
  collapse : ∀ i x lo hi, a.graph.Reach r i → a.at? i = some x → x.isTerminal = false →
    x.low = some lo → x.high = some hi → ρ lo = ρ hi → ρ i = ρ lo
  keep : ∀ i x lo hi, a.graph.Reach r i → a.at? i = some x → x.isTerminal = false →
    x.low = some lo → x.high = some hi → ρ lo ≠ ρ hi → ∃ y, a'.at? (ρ i) = some y ∧
      y.isTerminal = false ∧ y.var = x.var ∧ y.level = x.level ∧ y.low = some (ρ lo) ∧
      y.high = some (ρ hi)
  merge : ∀ i j x y lo hi lo' hi', a.graph.Reach r i → a.graph.Reach r j → a.at? i = some x →
    a.at? j = some y → x.isTerminal = false → y.isTerminal = false → x.var = y.var →
    x.low = some lo → x.high = some hi → y.low = some lo' → y.high = some hi' →
    ρ lo = ρ lo' → ρ hi = ρ hi' → ρ i = ρ j

section Settled

variable {a a' : Arena} {e e' : Engine} {order : List String} {below : Nat → Nat → Prop}

/-- A test of an arena is a test of its graph, at its level, with its children. -/
theorem shape_of_children {i lo hi : Nat} {x : DNode} (hx : a.at? i = some x)
    (ht : x.isTerminal = false) (hlo : x.low = some lo) (hhi : x.high = some hi) :
    a.graph.shape i = some (.test x.level lo hi) := by
  rw [shape_of_internal hx ht, hlo, hhi, Option.getD_some, Option.getD_some]

/-- A settled arena reduces onto a reduced arena for the same order whose root holds the truth
values of its own root: both are ordered decision graphs of one function over the levels of the
order, the second reduced. -/
theorem reduction_of_settled (hnodup : order.Nodup) (hbelow : ∀ L L', below L L' → L < L')
    (hset : ∀ j m, a.at? j = some m → a.Settled e order below j) (hR : a'.Reduced e' order)
    {r r' : Nat} {x x' : DNode} (hx : a.at? r = some x) (hx' : a'.at? r' = some x')
    (h : ∀ σ, x.value.holds e σ = x'.value.holds e' σ) : ∃ ρ, Reduction a r a' r' ρ := by
  have hreach : ∀ i, a.graph.Reach r i → a.Settled e order below i := fun i hri =>
    (exists_of_reach hset hx hri).elim fun m hm => hset i m hm
  have heval : ∀ τ, a.graph.eval order.length τ r = a'.graph.eval order.length τ r' := fun τ => by
    rw [eval_of_settled_idxOf hnodup hbelow hset hx,
      eval_of_settled_idxOf hnodup (fun _ _ h => h) hR.settled hx', h]
  obtain ⟨ρ, hroot, hmaps, honto, hleaf, htest⟩ :=
    Graph.exists_reduction (ordered_of_settled hbelow hreach) (hR.graph hx') heval
  have hcollapse : ∀ i x lo hi, a.graph.Reach r i → a.at? i = some x → x.isTerminal = false →
      x.low = some lo → x.high = some hi → ρ lo = ρ hi → ρ i = ρ lo :=
    fun i x lo hi hri hx ht hlo hhi => (htest i _ lo hi hri (shape_of_children hx ht hlo hhi)).1
  -- a test kept is a test of the reduced arena, reading the variable of its level
  have hkeep : ∀ i x lo hi, a.graph.Reach r i → a.at? i = some x → x.isTerminal = false →
      x.low = some lo → x.high = some hi → ρ lo ≠ ρ hi → ∃ y, a'.at? (ρ i) = some y ∧
        y.isTerminal = false ∧ y.var = x.var ∧ y.level = x.level ∧ y.low = some (ρ lo) ∧
        y.high = some (ρ hi) := by
    intro i x lo hi hri hx ht hlo hhi hne
    obtain ⟨y, hy, hyt, hyl, hylo, hyhi⟩ :=
      exists_of_shape_test ((htest i _ lo hi hri (shape_of_children hx ht hlo hhi)).2 hne)
    obtain ⟨hyv, -, hyi⟩ := hR.node hy
    obtain ⟨hylo', hyhi'⟩ := hyi hyt
    refine ⟨y, hy, hyt, ?_, hyl, by rw [hylo', hylo], by rw [hyhi', hyhi]⟩
    rw [hyv, hyt, if_neg Bool.false_ne_true, hyl, ((hreach i hri).test hx ht).1]
  refine ⟨ρ, ⟨hroot, hmaps, honto, fun i x hri hx ht => ?_, hcollapse, hkeep, ?_⟩⟩
  · exact exists_of_shape_leaf (hleaf i _ hri (shape_of_terminal hx ht))
  · -- tests of one variable whose children go to the same nodes go to one node
    intro i j x y lo hi lo' hi' hri hrj hx hy hxt hyt hv hlo hhi hlo' hhi' heqlo heqhi
    by_cases hc : ρ lo = ρ hi
    · have hc' : ρ lo' = ρ hi' := by rw [← heqlo, ← heqhi]; exact hc
      rw [hcollapse i x lo hi hri hx hxt hlo hhi hc, hcollapse j y lo' hi' hrj hy hyt hlo' hhi' hc',
        heqlo]
    · have hc' : ρ lo' ≠ ρ hi' := by rw [← heqlo, ← heqhi]; exact hc
      obtain ⟨u, hu, hut, huv, -, hulo, huhi⟩ := hkeep i x lo hi hri hx hxt hlo hhi hc
      obtain ⟨w, hw, hwt, hwv, -, hwlo, hwhi⟩ := hkeep j y lo' hi' hrj hy hyt hlo' hhi' hc'
      exact hR.tests_inj _ _ u w hu hw hut hwt (huv.trans (hv.trans hwv.symm))
        (by rw [hulo, hwlo, heqlo]) (by rw [huhi, hwhi, heqhi])

end Settled

/-- A reduction takes the nodes reached onto the nodes reached, so where the walks list exactly
the nodes reached, the second walk lists no more nodes than the first. -/
theorem Reduction.reachableCount_le {a a' : Arena} {r r' : Nat} {ρ : Nat → Nat}
    (hρ : Reduction a r a' r' ρ)
    (hspec : (Diagram.walkOrder a r).Nodup ∧ ∀ j, j ∈ Diagram.walkOrder a r ↔ a.graph.Reach r j)
    (hspec' : (Diagram.walkOrder a' r').Nodup ∧
      ∀ j, j ∈ Diagram.walkOrder a' r' ↔ a'.graph.Reach r' j) :
    Diagram.reachableCount a' r' ≤ Diagram.reachableCount a r := by
  have hsub : Diagram.walkOrder a' r' ⊆ (Diagram.walkOrder a r).map ρ := by
    intro j hj
    obtain ⟨i, hi, rfl⟩ := hρ.onto j ((hspec'.2 j).1 hj)
    exact List.mem_map_of_mem ((hspec.2 i).2 hi)
  calc Diagram.reachableCount a' r'
      ≤ ((Diagram.walkOrder a r).map ρ).length := (List.subperm_of_subset hspec'.1 hsub).length_le
    _ = Diagram.reachableCount a r := List.length_map _

end Arena

namespace Diagram

open Engine Arena Relation

section Tree

variable {order : List String} {ts : Terminals} {a : Arena} {e : Engine}

/-- The terminals of an expansion have no children. -/
theorem ExpandingArena.leaf_children (hX : ExpandingArena order ts a e) :
    ∀ j m, a.at? j = some m → m.isTerminal = true → m.low = none ∧ m.high = none := by
  intro j m hm ht
  by_cases hy : j = ts.yes
  · rw [hy, hX.yes, Option.some.injEq] at hm
    exact ⟨by rw [← hm]; rfl, by rw [← hm]; rfl⟩
  by_cases hno : j = ts.no
  · rw [hno, hX.no, Option.some.injEq] at hm
    exact ⟨by rw [← hm]; rfl, by rw [← hm]; rfl⟩
  exact absurd ht (by rw [(hX.inner j m hm hy hno).1.1]; decide)

/-- The tests of an expansion are the nodes other than the two terminals. -/
theorem ExpandingArena.ne_terminals (hX : ExpandingArena order ts a e) {c : Nat} {x : DNode}
    (hx : a.at? c = some x) (ht : x.isTerminal = false) : c ≠ ts.yes ∧ c ≠ ts.no := by
  constructor
  · rintro rfl
    rw [hX.yes, Option.some.injEq] at hx
    rw [← hx] at ht
    cases ht
  · rintro rfl
    rw [hX.no, Option.some.injEq] at hx
    rw [← hx] at ht
    cases ht

/-- In a tree build each test that the root reaches, the root apart, has exactly one parent, and
the root reaches that parent: only the terminals are shared. -/
theorem TreeArena.unique_parent (hT : TreeArena order ts a e)
    (hset : ∀ j m, a.at? j = some m → a.Settled e order (· + 1 = ·) j) {root c : Nat}
    (hc : a.graph.Reach root c) (hcr : c ≠ root) {x : DNode} (hx : a.at? c = some x)
    (ht : x.isTerminal = false) :
    ∃ p, a.graph.Reach root p ∧ a.ParentOf p c ∧ ∀ q, a.ParentOf q c → q = p := by
  have hleaf := hT.toExpandingArena.leaf_children
  -- the last link of a path from the root is a parent, and no test has two parents
  obtain ⟨p, hp, hpc⟩ := (((parentOf_iff_reach_of_settled hset hleaf).2 hc).cases_tail).resolve_left
    hcr
  have hne := hT.toExpandingArena.ne_terminals hx ht
  exact ⟨p, (parentOf_iff_reach_of_settled hset hleaf).1 hp, hpc,
    fun q hqc => hT.parent q p c hne.1 hne.2 hqc hpc⟩

end Tree

/-- A tree build of a made diagram for its order succeeds: it clears the highlight and installs a
tree arena from the diagram's next id, every node settled, whose root holds the diagram's
expression. -/
theorem Made.build_tree {d : Diagram} {f : Formula} (hd : Made d f) :
    ∃ root a e, (build .bdd).run d =
        (.ok root, install .bdd a root (clearHighlight { d with engine := e })) ∧
      TreeArena d.order ⟨d.next, d.next + 1⟩ a e ∧
      (∀ j n, a.at? j = some n → a.Settled e d.order (· + 1 = ·) j) ∧
      ∃ r, a.at? root = some r ∧ ∀ σ, r.value.holds e σ = d.engine.value d.root σ := by
  have hc := hd.coherent
  obtain ⟨root, a, e, hrun, -, -, -, -, hT, hset, r, hr, hval, -⟩ := decisionTree_run hd.faithful
    hc.root (fun y hy => hc.perm.symm.subset (hc.names y hy)) (hc.perm.nodup_iff.2 hc.nodup) d.next
  exact ⟨root, a, e, build_run_ok hrun, hT, hset, r, hr, hval⟩

/-- The reduced build is the reduction of the decision tree. For a diagram made from a text
without a node limit and with an order, both builds succeed. Every test that the tree's root
reaches, the root apart, has exactly one parent. The tree reduces onto the reduced diagram: its
terminals go to the terminals of their values, a test whose children reduce to one node becomes
that node, the other tests go to tests of their variables whose children are their children's
images, and tests of one variable whose children reduce alike become one node. So the measure of
the reduced diagram for the order is at most the measure of the tree. -/
theorem reduced_build_reduces_tree {text : String} {limits : Limits} (hlim : limits.maxNodes = 0)
    {o : List String} {d : Diagram} (h : create text limits (some o) = .ok d) :
    ∃ t b : Built, ((build .bdd).run d).1 = .ok t.root ∧ ((build .bdd).run d).2.bdd = some t ∧
      ((build .robdd).run d).1 = .ok b.root ∧ ((build .robdd).run d).2.robdd = some b ∧
      (∀ c x, t.arena.graph.Reach t.root c → c ≠ t.root → t.arena.at? c = some x →
        x.isTerminal = false → ∃ p, t.arena.graph.Reach t.root p ∧ t.arena.ParentOf p c ∧
          ∀ q, t.arena.ParentOf q c → q = p) ∧
      (∃ ρ, Reduction t.arena t.root b.arena b.root ρ) ∧
      ∃ nt nr, ((measure .bdd o).run d).1 = .ok nt ∧ ((measure .robdd o).run d).1 = .ok nr ∧
        nr ≤ nt := by
  obtain ⟨f, -, -, -, -, -, hp, -⟩ := create_eq_ok h
  have hd := create_made hlim h hp
  have hc := hd.coherent
  have ho : d.order = o := create_order h
  have hnodup : o.Nodup := ho ▸ hc.perm.nodup_iff.2 hc.nodup
  have hnames : ∀ y ∈ d.engine.names.toList, y ∈ o :=
    fun y hy => ho ▸ hc.perm.symm.subset (hc.names y hy)
  have hbelow : ∀ L L', L + 1 = L' → L < L' := fun L _ h => h ▸ Nat.lt_succ_self L
  -- the installed builds: the tree reduces onto the reduced diagram
  obtain ⟨rt, at₁, et, hrunt, hT, hsett, xt, hxt, hvalt⟩ := hd.build_tree
  obtain ⟨rr, ar, er, hrunr, -, -, -, hR, xr, hxr, hvalr⟩ := hd.build_run .robdd
  rw [ho] at hT hsett hR
  obtain ⟨ρ, hρ⟩ := reduction_of_settled hnodup hbelow hsett hR hxt hxr fun σ =>
    (hvalt σ).trans ((hd.value σ).trans (hvalr σ).symm)
  -- the measured builds, from base `0`
  have hchk : checkOrder d.vars o = .ok () := checkOrder_of_perm _ _ hc.nodup (ho ▸ hc.perm)
  obtain ⟨res₁, a₁', e₁', hrun₁', hmeas₁, -⟩ := measure_run .bdd o d hchk
  obtain ⟨res₂, a₂', e₂', hrun₂', hmeas₂, -⟩ := measure_run .robdd o d hchk
  obtain ⟨r₁, a₁, e₁, hrun₁, -, -, -, -, hT₁, hset₁, x₁, hx₁, hval₁, -⟩ :=
    decisionTree_run hd.faithful hc.root hnames hnodup 0
  obtain ⟨r₂, a₂, e₂, hrun₂, -, -, -, hR₂, x₂, hx₂, hval₂⟩ :=
    runBuild_run hd.faithful hc.root hnames hnodup .robdd 0
  rw [show (runBuild d .bdd o 0).run d.engine = _ from hrun₁, Prod.mk.injEq, Prod.mk.injEq]
    at hrun₁'
  rw [hrun₂, Prod.mk.injEq, Prod.mk.injEq] at hrun₂'
  obtain ⟨⟨rfl, rfl⟩, -⟩ := hrun₁'
  obtain ⟨⟨rfl, rfl⟩, -⟩ := hrun₂'
  obtain ⟨ρ₀, hρ₀⟩ := reduction_of_settled hnodup hbelow hset₁ (hR₂ : a₂.Reduced e₂ o) hx₁ hx₂
    fun σ => (hval₁ σ).trans (hval₂ σ).symm
  have hle := hρ₀.reachableCount_le
    (walkOrder_spec_of_settled hset₁ hT₁.toExpandingArena.leaf_children (by rw [hx₁]; rfl))
    ((hR₂ : a₂.Reduced e₂ o).walkOrder_spec (by rw [hx₂]; rfl))
  refine ⟨⟨at₁, rt⟩, ⟨ar, rr⟩, by rw [hrunt], by rw [hrunt]; rfl, by rw [hrunr],
    by rw [hrunr]; rfl, fun c x hc hcr hx ht => hT.unique_parent hsett hc hcr hx ht, ⟨ρ, hρ⟩,
    reachableCount a₁ r₁, reachableCount a₂ r₂, by rw [hmeas₁]; rfl, by rw [hmeas₂]; rfl, hle⟩

set_option maxRecDepth 100000 in
/-- The two builds of the formula `a`, made without limits for the order `a`. -/
theorem reduced_build_reduces_tree_of_a :
    let d := fresh "a" ((render 2).run ((parseAndSimplify "a").run (created {})).2).2 2 "a"
    ({} : Limits).maxNodes = 0 ∧ create "a" {} (some ["a"]) = .ok d ∧
      ∃ t b : Built, ((build .bdd).run d).1 = .ok t.root ∧ ((build .bdd).run d).2.bdd = some t ∧
        ((build .robdd).run d).1 = .ok b.root ∧ ((build .robdd).run d).2.robdd = some b ∧
        (∀ c x, t.arena.graph.Reach t.root c → c ≠ t.root → t.arena.at? c = some x →
          x.isTerminal = false → ∃ p, t.arena.graph.Reach t.root p ∧ t.arena.ParentOf p c ∧
            ∀ q, t.arena.ParentOf q c → q = p) ∧
        (∃ ρ, Reduction t.arena t.root b.arena b.root ρ) ∧
        ∃ nt nr, ((measure .bdd ["a"]).run d).1 = .ok nt ∧
          ((measure .robdd ["a"]).run d).1 = .ok nr ∧ nr ≤ nt := by
  have h₀ : create "a" {} (some ["a"]) =
      .ok (fresh "a" ((render 2).run ((parseAndSimplify "a").run (created {})).2).2 2 "a") := by
    cbv
  exact ⟨rfl, h₀, reduced_build_reduces_tree rfl h₀⟩

end Diagram

end DecisionDiagrams
