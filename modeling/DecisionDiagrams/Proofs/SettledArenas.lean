/-
What the nodes of a finished build compute.

A build leaves each node it reaches settled: a terminal stands at the last level and holds its
constant; an internal node tests the variable that the order puts at its level, and its low and
high children hold its residual with that variable set false and true, each at a level that the
build relates to the parent's. When that relation puts children below their parents, the arena
from the root is an ordered decision graph, each node computes the truth values of its
residual, and the walk by the variables' values reaches, within as many steps as the order has
variables, the terminal of the root's value.

* `Arena.Settled` — a node as a build leaves it.
* `Arena.ordered_of_settled` — settled nodes from a root form an ordered decision graph.
* `Arena.eval_of_settled` — a settled node computes the truth values of its residual.
* `Arena.walk_of_settled` — the walk by names from the root ends at the terminal of the root's
  value.
-/
import DecisionDiagrams.Proofs.Arenas
import DecisionDiagrams.Proofs.BuildEngine

namespace DecisionDiagrams

open Engine

/-- An internal node as a build opens it: it tests the variable that the order puts at its level,
and its residual is an expression of the engine that reads no variable above that level. -/
def DNode.Opened (e : Engine) (order : List String) (n : DNode) : Prop :=
  n.isTerminal = false ∧ n.var = order[n.level]? ∧ n.value.Valid e ∧ n.value.Free e order n.level

theorem DNode.Opened.later {e e' : Engine} (hs : Sound e) (hl : Later e e') {order : List String}
    {n : DNode} (h : n.Opened e order) : n.Opened e' order :=
  ⟨h.1, h.2.1, h.2.2.1.later hl, h.2.2.2.later hs hl h.2.2.1⟩

/-- An opened node tests the variable at its level, which lies within the order. -/
theorem DNode.Opened.var_eq {e : Engine} {order : List String} {n : DNode} (h : n.Opened e order) :
    ∃ v, n.var = some v ∧ order[n.level]? = some v ∧ n.level < order.length := by
  obtain ⟨v, hv⟩ := Option.isSome_iff_exists.1 (by simpa [DNode.isTerminal] using h.1)
  exact ⟨v, hv, h.2.1 ▸ hv, (List.getElem?_eq_some_iff.1 (h.2.1 ▸ hv)).1⟩

namespace Arena

variable (a : Arena) (e : Engine) (order : List String) (below : Nat → Nat → Prop)

/-- Node `c` as the child of `n` on the side where variable `v` is `b`: a node of the arena that
holds the residual of `n` with `v` set to `b`, at a level that `below` relates to the level of
`n` when it is internal. -/
def ChildOf (n : DNode) (v : String) (b : Bool) (c : Nat) : Prop :=
  ∃ m, a.at? c = some m ∧ m.value.Valid e ∧
    (∀ σ, m.value.holds e σ = n.value.holds e (Function.update σ v b)) ∧
    (m.isTerminal = false → below n.level m.level)

/-- A node as a build for `order` leaves it: a terminal at the last level holding its value, or
an internal node testing the variable of its level whose children hold its cofactors. -/
def Settled (id : Nat) : Prop :=
  ∃ n, a.at? id = some n ∧ n.value.Valid e ∧
    (n.isTerminal = true → n.level = order.length ∧ n.value = .const n.terminalValue) ∧
    (n.isTerminal = false → ∃ v lo hi, n.var = some v ∧ order[n.level]? = some v ∧
      n.low = some lo ∧ n.high = some hi ∧ a.ChildOf e below n v false lo ∧
      a.ChildOf e below n v true hi)

/-- Node `p` has `c` as one of its children. -/
def ParentOf (p c : Nat) : Prop :=
  ∃ n, a.at? p = some n ∧ (n.low = some c ∨ n.high = some c)

/-- A later arena of the same build: same base, no fewer nodes, and each node keeps its variable,
residual and level (only children change). -/
structure Keeps (a a' : Arena) : Prop where
  base : a'.base = a.base
  next : a.next ≤ a'.next
  node : ∀ j n, a.at? j = some n →
    ∃ n', a'.at? j = some n' ∧ n'.var = n.var ∧ n'.value = n.value ∧ n'.level = n.level

variable {a e order below}

/-! ### Keeping the nodes -/

theorem Keeps.refl (a : Arena) : a.Keeps a :=
  ⟨rfl, Nat.le_refl _, fun _ n h => ⟨n, h, rfl, rfl, rfl⟩⟩

theorem Keeps.trans {a' a'' : Arena} (h : a.Keeps a') (h' : a'.Keeps a'') : a.Keeps a'' := by
  refine ⟨h'.base.trans h.base, Nat.le_trans h.next h'.next, fun j n hn => ?_⟩
  obtain ⟨n', hn', hv, hr, hl⟩ := h.node j n hn
  obtain ⟨n'', hn'', hv', hr', hl'⟩ := h'.node j n' hn'
  exact ⟨n'', hn'', hv'.trans hv, hr'.trans hr, hl'.trans hl⟩

theorem keeps_alloc (n : DNode) (a : Arena) : a.Keeps (a.alloc n).2 := by
  refine ⟨rfl, by simp, fun j m hm => ⟨m, ?_, rfl, rfl, rfl⟩⟩
  rw [at?_alloc, if_neg fun h => by have := (lt_next_of_at? hm).2; omega]
  exact hm

/-- Changing only the children of a node keeps the nodes. -/
theorem keeps_modifyNode (id : Nat) {f : DNode → DNode}
    (hf : ∀ m, (f m).var = m.var ∧ (f m).value = m.value ∧ (f m).level = m.level) (a : Arena) :
    a.Keeps (a.modifyNode id f) := by
  refine ⟨by simp, by simp, fun j m hm => ?_⟩
  rw [at?_modifyNode]
  split
  · exact ⟨f m, by rw [hm]; rfl, hf m⟩
  · exact ⟨m, hm, rfl, rfl, rfl⟩

theorem Keeps.isTerminal {a' : Arena} (h : a.Keeps a') {j : Nat} {n : DNode} (hn : a.at? j = some n) :
    ∃ n', a'.at? j = some n' ∧ n'.isTerminal = n.isTerminal ∧ n'.value = n.value ∧
      n'.level = n.level := by
  obtain ⟨n', hn', hv, hr, hl⟩ := h.node j n hn
  exact ⟨n', hn', by rw [DNode.isTerminal, DNode.isTerminal, hv], hr, hl⟩

/-- A child stays a child as long as the arena keeps its nodes. -/
theorem ChildOf.keeps {a' : Arena} (h : a.Keeps a') {n : DNode} {v : String} {b : Bool} {c : Nat}
    (hc : a.ChildOf e below n v b c) : a'.ChildOf e below n v b c := by
  obtain ⟨m, hm, hval, hsem, hlev⟩ := hc
  obtain ⟨m', hm', ht, hr, hl⟩ := h.isTerminal hm
  exact ⟨m', hm', hr ▸ hval, fun σ => by rw [hr, hsem], fun hmt => hl ▸ hlev (ht ▸ hmt)⟩

/-- A settled node whose own children are kept stays settled. -/
theorem Settled.keeps {a' : Arena} (h : a.Keeps a') {j : Nat} (hj : a'.at? j = a.at? j)
    (hset : a.Settled e order below j) : a'.Settled e order below j := by
  obtain ⟨n, hn, hval, hterm, hint⟩ := hset
  refine ⟨n, hj.trans hn, hval, hterm, fun ht => ?_⟩
  obtain ⟨v, lo, hi, hv, hov, hlo, hhi, clo, chi⟩ := hint ht
  exact ⟨v, lo, hi, hv, hov, hlo, hhi, clo.keeps h, chi.keeps h⟩

/-- A terminal at the last level is settled. -/
theorem settled_terminal {j i : Nat} {b : Bool} {t : String}
    (h : a.at? j = some { DNode.terminal b t order.length with id := i }) :
    a.Settled e order below j :=
  ⟨_, h, trivial, fun _ => ⟨rfl, rfl⟩, fun ht => Bool.noConfusion ht⟩

/-! ### The graph of an arena, node by node -/

theorem rank_of_at? {id : Nat} {n : DNode} (h : a.at? id = some n) (N : Nat) :
    a.graph.rank N id = if n.isTerminal then N else n.level := by
  rw [Graph.rank, graph_shape, h, Option.map_some]
  cases ht : n.isTerminal
  · rw [shape_internal ht]
    rfl
  · rw [shape_terminal ht]
    rfl

theorem exists_of_shape_test {id L lo hi : Nat} (h : a.graph.shape id = some (.test L lo hi)) :
    ∃ n, a.at? id = some n ∧ n.isTerminal = false ∧ n.level = L ∧ n.low.getD 0 = lo ∧
      n.high.getD 0 = hi := by
  rw [graph_shape] at h
  obtain ⟨n, hn, hs⟩ := Option.map_eq_some_iff.1 h
  cases ht : n.isTerminal
  · rw [shape_internal ht, Shape.test.injEq] at hs
    exact ⟨n, hn, ht, hs.1, hs.2.1, hs.2.2⟩
  · rw [shape_terminal ht] at hs
    cases hs

theorem exists_of_shape_leaf {id : Nat} {b : Bool} (h : a.graph.shape id = some (.leaf b)) :
    ∃ n, a.at? id = some n ∧ n.isTerminal = true ∧ n.terminalValue = b := by
  rw [graph_shape] at h
  obtain ⟨n, hn, hs⟩ := Option.map_eq_some_iff.1 h
  cases ht : n.isTerminal
  · rw [shape_internal ht] at hs
    cases hs
  · rw [shape_terminal ht, Shape.leaf.injEq] at hs
    exact ⟨n, hn, ht, hs⟩

theorem shape_of_terminal {id : Nat} {n : DNode} (h : a.at? id = some n)
    (ht : n.isTerminal = true) : a.graph.shape id = some (.leaf n.terminalValue) := by
  rw [graph_shape, h, Option.map_some, shape_terminal ht]

theorem shape_of_internal {id : Nat} {n : DNode} (h : a.at? id = some n)
    (ht : n.isTerminal = false) :
    a.graph.shape id = some (.test n.level (n.low.getD 0) (n.high.getD 0)) := by
  rw [graph_shape, h, Option.map_some, shape_internal ht]

/-- A settled test reads the variable of its level, and its children are set and are nodes of
the arena. -/
theorem Settled.test {j : Nat} {n : DNode} (h : a.Settled e order below j) (hn : a.at? j = some n)
    (ht : n.isTerminal = false) :
    n.var = order[n.level]? ∧ n.low = some (n.low.getD 0) ∧ n.high = some (n.high.getD 0) ∧
      (∃ m, a.at? (n.low.getD 0) = some m) ∧ ∃ m, a.at? (n.high.getD 0) = some m := by
  obtain ⟨n', hn', -, -, hint⟩ := h
  rw [hn, Option.some.injEq] at hn'
  subst hn'
  obtain ⟨v, lo, hi, hv, hov, hlo, hhi, ⟨ml, hml, -⟩, ⟨mh, hmh, -⟩⟩ := hint ht
  rw [hlo, hhi]
  exact ⟨hv.trans hov.symm, rfl, rfl, ⟨ml, hml⟩, ⟨mh, hmh⟩⟩

/-- The internal children of a settled test stand where the build relates them to its level. -/
theorem Settled.child_below {j : Nat} {x : DNode} (h : a.Settled e order below j)
    (hx : a.at? j = some x) (ht : x.isTerminal = false) {c : Nat} {y : DNode}
    (hc : x.low = some c ∨ x.high = some c) (hy : a.at? c = some y) (hyt : y.isTerminal = false) :
    below x.level y.level := by
  obtain ⟨x', hx', -, -, hint⟩ := h
  rw [hx, Option.some.injEq] at hx'
  subst hx'
  obtain ⟨v, lo, hi, -, -, hlo, hhi, ⟨ml, hml, -, -, hll⟩, ⟨mh, hmh, -, -, hlh⟩⟩ := hint ht
  rcases hc with hc | hc
  · rw [hlo, Option.some.injEq] at hc
    subst hc
    rw [hml, Option.some.injEq] at hy
    subst hy
    exact hll hyt
  · rw [hhi, Option.some.injEq] at hc
    subst hc
    rw [hmh, Option.some.injEq] at hy
    subst hy
    exact hlh hyt

/-- In an arena whose nodes are all settled, the nodes reached from one of its nodes are nodes
of the arena. -/
theorem exists_of_reach (hset : ∀ j m, a.at? j = some m → a.Settled e order below j) {root : Nat}
    {r : DNode} (hr : a.at? root = some r) {id : Nat} (h : a.graph.Reach root id) :
    ∃ m, a.at? id = some m := by
  induction h with
  | root => exact ⟨r, hr⟩
  | low _ hs _ =>
    obtain ⟨n, hn, ht, -, rfl, -⟩ := exists_of_shape_test hs
    exact ((hset _ n hn).test hn ht).2.2.2.1
  | high _ hs _ =>
    obtain ⟨n, hn, ht, -, -, rfl⟩ := exists_of_shape_test hs
    exact ((hset _ n hn).test hn ht).2.2.2.2

/-- A residual holds where it holds with one variable set to its own value. -/
theorem holds_shannon (r : Residual) (σ : String → Bool) (v : String) :
    r.holds e σ = if σ v then r.holds e (Function.update σ v true)
      else r.holds e (Function.update σ v false) := by
  cases hv : σ v
  · rw [if_neg Bool.false_ne_true, ← hv, Function.update_eq_self]
  · rw [if_pos rfl, ← hv, Function.update_eq_self]

/-! ### Settled nodes on a later engine -/

theorem ChildOf.later {e' : Engine} (hs : Sound e) (hl : Later e e') {n : DNode} (hn : n.value.Valid e)
    {v : String} {b : Bool} {c : Nat} (h : a.ChildOf e below n v b c) : a.ChildOf e' below n v b c := by
  obtain ⟨m, hm, hval, hsem, hlev⟩ := h
  refine ⟨m, hm, hval.later hl, fun σ => ?_, hlev⟩
  rw [Residual.holds_later hs hl hval, hsem, Residual.holds_later hs hl hn]

/-- A node that holds a cofactor of a node's residual, both read on earlier engines, is that
node's child on a later engine. -/
theorem childOf_of_holds {e₀ e₁ e' : Engine} (hs₀ : Sound e₀) (hs₁ : Sound e₁) (hl₀ : Later e₀ e')
    (hl₁ : Later e₁ e') {n : DNode} (hn : n.value.Valid e₀) {c : Nat} {m : DNode}
    (hm : a.at? c = some m) {r : Residual} (hmv : m.value = r) (hr : r.Valid e₁) {v : String}
    {b : Bool} (hcof : ∀ σ, r.holds e₁ σ = n.value.holds e₀ (Function.update σ v b))
    (hlev : m.isTerminal = false → below n.level m.level) : a.ChildOf e' below n v b c := by
  refine ⟨m, hm, hmv ▸ hr.later hl₁, fun σ => ?_, hlev⟩
  rw [hmv, Residual.holds_later hs₁ hl₁ hr, hcof, Residual.holds_later hs₀ hl₀ hn]

/-- A settled node stays settled as the engine moves on. -/
theorem Settled.later {e' : Engine} (hs : Sound e) (hl : Later e e') {id : Nat}
    (h : a.Settled e order below id) : a.Settled e' order below id := by
  obtain ⟨n, hn, hval, hterm, hint⟩ := h
  refine ⟨n, hn, hval.later hl, hterm, fun ht => ?_⟩
  obtain ⟨v, lo, hi, hv, hov, hlo, hhi, clo, chi⟩ := hint ht
  exact ⟨v, lo, hi, hv, hov, hlo, hhi, clo.later hs hl hval, chi.later hs hl hval⟩

/-! ### The graph from a root of settled nodes -/

section FromRoot

variable {root : Nat} (hbelow : ∀ L L', below L L' → L < L')
  (hset : ∀ id, a.graph.Reach root id → a.Settled e order below id)
include hbelow hset

/-- Settled nodes from a root form an ordered decision graph over the levels of the order. -/
theorem ordered_of_settled : a.graph.Ordered order.length root := by
  refine ⟨fun id hid => ?_, fun id L lo hi hid hs => ?_⟩
  · obtain ⟨n, hn, -⟩ := hset id hid
    rw [graph_shape, hn]
    exact Option.some_ne_none _
  · obtain ⟨n, hn, ht, rfl, rfl, rfl⟩ := exists_of_shape_test hs
    obtain ⟨n', hn', -, -, hint⟩ := hset id hid
    rw [hn] at hn'
    cases hn'
    obtain ⟨v, lo, hi, -, hov, hlo, hhi, ⟨ml, hml, -, -, hlevl⟩, ⟨mh, hmh, -, -, hlevh⟩⟩ := hint ht
    have hLN : n.level < order.length := (List.getElem?_eq_some_iff.1 hov).1
    -- a child lies at the last level or at a level the build puts below
    have hchild : ∀ {c : Nat} {m : DNode}, a.at? c = some m →
        (m.isTerminal = false → below n.level m.level) →
        n.level < a.graph.rank order.length c := fun {c m} hm hlev => by
      rw [rank_of_at? hm]
      cases hmt : m.isTerminal
      · exact hbelow _ _ (hlev hmt)
      · exact hLN
    rw [hlo, hhi]
    exact ⟨hLN, hchild hml hlevl, hchild hmh hlevh⟩

/-- A settled node computes the truth values of its residual. -/
theorem eval_of_settled (σ : String → Bool) :
    ∀ id n, a.graph.Reach root id → a.at? id = some n →
      a.graph.eval order.length (orderLevels order σ) id = n.value.holds e σ := by
  have hG := ordered_of_settled hbelow hset
  -- induction on the number of levels below the node
  suffices h : ∀ d id n, order.length - a.graph.rank order.length id = d →
      a.graph.Reach root id → a.at? id = some n →
      a.graph.eval order.length (orderLevels order σ) id = n.value.holds e σ from
    fun id n => h _ id n rfl
  intro d
  induction d using Nat.strongRecOn with
  | ind d ih =>
  intro id n hd hid hn
  obtain ⟨n', hn', -, hterm, hint⟩ := hset id hid
  rw [hn] at hn'
  cases hn'
  cases ht : n.isTerminal
  · obtain ⟨v, lo, hi, -, hov, hlo, hhi, ⟨ml, hml, -, hsl, -⟩, ⟨mh, hmh, -, hsh, -⟩⟩ := hint ht
    have hs := shape_of_internal hn ht
    rw [hlo, hhi, Option.getD_some, Option.getD_some] at hs
    obtain ⟨hLN, hrl, hrh⟩ := hG.below id _ lo hi hid hs
    rw [rank_of_at? hn, if_neg (by simp [ht])] at hd
    -- Shannon expansion on the tested variable, the children by induction
    rw [Graph.eval_test hG hid hs, ih _ (by omega) lo ml rfl (hid.low hs) hml,
      ih _ (by omega) hi mh rfl (hid.high hs) hmh, hsl, hsh, holds_shannon n.value σ v,
      orderLevels, hov, Option.getD_some]
  · rw [Graph.eval_leaf (shape_of_terminal hn ht), (hterm ht).2]
    rfl

/-- The walk by names from the root reaches, within as many steps as the order has variables, a
terminal whose value is the root's residual's. -/
theorem walk_of_settled {r : DNode} (hr : a.at? root = some r) (σ : String → Bool) :
    ∃ n, a.at? (a.walk σ order.length root) = some n ∧ n.isTerminal = true ∧
      n.terminalValue = r.value.holds e σ := by
  have hG := ordered_of_settled hbelow hset
  have hwalk : a.walk σ order.length root = a.graph.walk (orderLevels order σ) order.length root := by
    refine walk_eq (fun id n hid hn ht => ?_) σ _ _ .root
    obtain ⟨n', hn', -, -, hint⟩ := hset id hid
    rw [hn] at hn'
    cases hn'
    obtain ⟨v, lo, hi, hv, hov, hlo, hhi, -⟩ := hint ht
    exact ⟨hv.trans hov.symm, by simp [hlo], by simp [hhi]⟩
  -- the graph's walk rests at a leaf after the levels below the root
  obtain ⟨⟨b, hb⟩, hrest⟩ := hG.walk_stable (τ := orderLevels order σ) _ root rfl .root
  rw [← hrest _ (Nat.sub_le _ _), ← hwalk] at hb
  obtain ⟨n, hn, hs⟩ := Option.map_eq_some_iff.1 (show (a.at? _).map DNode.shape = _ from hb)
  have ht : n.isTerminal = true := by
    cases ht : n.isTerminal
    · rw [shape_internal ht] at hs
      cases hs
    · rfl
  rw [shape_terminal ht, Shape.leaf.injEq] at hs
  refine ⟨n, hn, ht, ?_⟩
  rw [← eval_of_settled hbelow hset σ root r .root hr, Graph.eval, ← hwalk, Graph.leafValue, hb,
    hs]

end FromRoot

end Arena

end DecisionDiagrams
