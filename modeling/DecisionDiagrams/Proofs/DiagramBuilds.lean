/-
What the builds of a diagram compute.

A diagram made from a formula text on an engine without a node limit stands on a faithful
engine, and the node of its formula holds the formula's truth values; taking an order keeps
both. A build of either kind then succeeds for the diagram's order. The decision tree leaves
every node settled with its internal children one level down; the reduced build leaves a
reduced arena, every node settled with its internal children below it. So the walk by the
values of the variables from the root ends, within as many steps as the order has variables,
at the terminal of the formula's value. Two equivalent formulas built for one order give
reduced decision graphs of one function over the levels of the order, which are isomorphic.

* `Diagram.Made`, `Diagram.create_made`, `Diagram.Made.build_run` — made diagrams and builds.
* `Arena.ReducedAt`, `Arena.Iso`, `Arena.iso_of_graph` — reduced diagrams and isomorphisms.
* `Diagram.build_walks_to_value`, `Diagram.reduced_builds_isomorphic` — the main statements.
-/
import DecisionDiagrams.Proofs.ReducedDiagrams
import DecisionDiagrams.Proofs.Sessions
import DecisionDiagrams.Proofs.CoherentDiagrams

namespace DecisionDiagrams

namespace Kernel

/-- Counting, recording faults and creating nodes keep the limits of the table. -/
theorem limits_tableInvariant (l : Limits) :
    TableInvariant (fun k => k.limits = l) fun _ _ _ _ => True where
  count _ h _ := h
  record _ h _ := h
  node level lo hi h _ _ _ _ := (node_limits_faults level lo hi _).1.trans h

/-- A declaration of variables keeps the limits of the table, whether it succeeds or not. -/
theorem setVarnum_limits (num : Int) {k : Kernel} (hs : Structured k) :
    ((setVarnum num).run k).2.limits = k.limits :=
  (setVarnum_invariant (limits_tableInvariant k.limits) (fun _ _ _ _ _ => trivial)
    (fun _ h _ => h) (fun _ h _ => h) (fun _ h _ => h) num rfl hs).1

end Kernel

namespace Engine

/-- The table of an engine given with an answer. Rewriting by it keeps the table's own
computation out of the unifier's reach. -/
theorem kernel_pair_snd {α : Type} (a : α) (k : Kernel) (names : Array String)
    (rendered : Std.HashMap Nat String) :
    (a, ({ kernel := k, names := names, rendered := rendered } : Engine)).2.kernel = k :=
  rfl

/-- A declaration of names keeps the limits of the table. -/
theorem declare_limits {e : Engine} (hs : Sound e) (xs : List String) :
    ((declare xs).run e).2.kernel.limits = e.kernel.limits := by
  rw [declare_run]
  split
  · rfl
  · rw [kernel_pair_snd]
    exact Kernel.setVarnum_limits _ hs.ordered.structured

/-- Reading a formula without a fault keeps an engine faithful: it compiles in the table, which
keeps its limits, and remembers no new text. -/
theorem parseAndSimplify_faithful {e : Engine} (hf : Faithful e) {g : Formula}
    (hg : ∀ x ∈ g.names, Token.isName x) {n : Nat}
    (h : ((parseAndSimplify g.linear).run e).1 = .ok n) :
    Faithful ((parseAndSimplify g.linear).run e).2 := by
  obtain ⟨hs', hev, -, -⟩ := parseAndSimplify_linear hf.sound hg h
  obtain ⟨f, e₁, r, k, -, hd, hc, -, -, he⟩ := parseAndSimplify_ok h
  obtain ⟨-, hrend, hc₁, ho₁, -⟩ := declare_none hf.sound hd
  have hlim₁ : e₁.kernel.limits = e.kernel.limits := by
    have := declare_limits hf.sound (variablesOf g.linear)
    rwa [hd] at this
  have hgrow := (compile_grows e₁.levelOf f hc₁ ho₁).2.2
  rw [hc] at hgrow
  refine hf.evolves hs' hev ?_ ?_
  · rw [he]
    exact hrend
  · rw [he]
    exact hgrow.limits.trans hlim₁

end Engine

/-- How a build of a kind places the internal children of a test: one level down in the decision
tree, at any level below in the reduced diagram. -/
def Kind.below : Kind → Nat → Nat → Prop
  | .bdd => (· + 1 = ·)
  | .robdd => (· < ·)

theorem Kind.lt_of_below {k : Kind} {L L' : Nat} (h : k.below L L') : L < L' := by
  cases k with
  | bdd => exact Nat.lt_of_lt_of_le (Nat.lt_succ_self L) (Nat.le_of_eq h)
  | robdd => exact h

/-- What a build of a kind leaves in its arena: a decision tree whose nodes are all settled one
level apart, or a reduced arena. -/
def Kind.Shaped (e : Engine) (order : List String) (a : Arena) : Kind → Prop
  | .bdd => ∀ j n, a.at? j = some n → a.Settled e order (· + 1 = ·) j
  | .robdd => a.Reduced e order

/-- Every node of a shaped arena is settled, with internal children as its kind places them. -/
theorem Kind.Shaped.settled {k : Kind} {e : Engine} {order : List String} {a : Arena}
    (h : k.Shaped e order a) {j : Nat} {n : DNode} (hn : a.at? j = some n) :
    a.Settled e order k.below j := by
  cases k with
  | bdd => exact h j n hn
  | robdd => exact Arena.Reduced.settled h j n hn

/-- A node laid out as its shape says: a terminal without children at the last level, or a test
of the variable that the order puts at its level, with both children set. -/
def DNode.Formed (order : List String) (x : DNode) : Prop :=
  x.var = (if x.isTerminal then none else order[x.level]?) ∧
    (x.isTerminal = true → x.level = order.length ∧ x.low = none ∧ x.high = none) ∧
    (x.isTerminal = false → x.low = some (x.low.getD 0) ∧ x.high = some (x.high.getD 0))

namespace Arena

/-! ### Reduced diagrams and their isomorphisms -/

/-- From `root` the arena is a reduced ordered diagram: no test reached has equal children, no
two tests reached have one variable and the same children, each child of a test stands at a
greater level than the test, and no two terminals reached have one value. -/
structure ReducedAt (a : Arena) (root : Nat) : Prop where
  children_ne : ∀ i x, a.graph.Reach root i → a.at? i = some x → x.isTerminal = false →
    x.low ≠ x.high
  tests_inj : ∀ i j x y, a.graph.Reach root i → a.graph.Reach root j → a.at? i = some x →
    a.at? j = some y → x.isTerminal = false → y.isTerminal = false → x.var = y.var →
    x.low = y.low → x.high = y.high → i = j
  below : ∀ i x c y, a.graph.Reach root i → a.at? i = some x → x.isTerminal = false →
    (x.low = some c ∨ x.high = some c) → a.at? c = some y → x.level < y.level
  leaves_inj : ∀ i j x y, a.graph.Reach root i → a.graph.Reach root j → a.at? i = some x →
    a.at? j = some y → x.isTerminal = true → y.isTerminal = true →
    x.terminalValue = y.terminalValue → i = j

/-- An isomorphism `φ` of the diagram from `r` in `a` onto the diagram from `r'` in `a'`: it maps
the root to the root and the nodes reached one to one onto the nodes reached, and keeps each
node's variable, level, kind and children, and a terminal's value. -/
structure Iso (a : Arena) (r : Nat) (a' : Arena) (r' : Nat) (φ : Nat → Nat) : Prop where
  root : φ r = r'
  reach : ∀ i, a.graph.Reach r i → a'.graph.Reach r' (φ i)
  inj : ∀ i j, a.graph.Reach r i → a.graph.Reach r j → φ i = φ j → i = j
  onto : ∀ j, a'.graph.Reach r' j → ∃ i, a.graph.Reach r i ∧ φ i = j
  node : ∀ i x, a.graph.Reach r i → a.at? i = some x → ∃ y, a'.at? (φ i) = some y ∧
    y.var = x.var ∧ y.level = x.level ∧ y.isTerminal = x.isTerminal ∧
    (x.isTerminal = true → y.terminalValue = x.terminalValue) ∧
    y.low = x.low.map φ ∧ y.high = x.high.map φ

theorem var_eq_none_of_isTerminal {n : DNode} (h : n.isTerminal = true) : n.var = none :=
  Option.isNone_iff_eq_none.1 h

section Reduced

variable {a : Arena} {e : Engine} {order : List String} (hR : a.Reduced e order)
include hR

/-- A reduced arena is a reduced ordered diagram from any root: a terminal child stands at the
last level, below every test. -/
theorem Reduced.reducedAt (root : Nat) : a.ReducedAt root := by
  refine ⟨fun i x _ hx ht => hR.children_ne i x hx ht,
    fun i j x y _ _ hx hy hxt hyt hv hlo hhi => hR.tests_inj i j x y hx hy hxt hyt hv hlo hhi,
    fun i x c y _ hx ht hc hy => ?_, fun i j x y _ _ hx hy hxt hyt hb => hR.leaves_inj i j x y hx hy hxt hyt hb⟩
  cases hyt : y.isTerminal
  · exact (hR.settled i x hx).child_below hx ht hc hy hyt
  · -- a test's level lies within the order, a terminal at its end
    obtain ⟨y', hy', -, hterm, -⟩ := hR.settled c y hy
    rw [hy, Option.some.injEq] at hy'
    subst hy'
    rw [(hterm hyt).1]
    obtain ⟨x', hx', -, -, hint⟩ := hR.settled i x hx
    rw [hx, Option.some.injEq] at hx'
    subst hx'
    obtain ⟨v, -, -, -, hov, -⟩ := hint ht
    exact (List.getElem?_eq_some_iff.1 hov).1

/-- A node of a reduced arena as its graph shows it: a terminal is a leaf of its value, with no
children, at the last level; a test is a test of its level whose children are set, reading the
variable the order puts there. -/
theorem Reduced.node {j : Nat} {x : DNode} (hx : a.at? j = some x) :
    x.var = (if x.isTerminal then none else order[x.level]?) ∧
      (x.isTerminal = true → x.level = order.length ∧ x.low = none ∧ x.high = none) ∧
      (x.isTerminal = false → x.low = some (x.low.getD 0) ∧ x.high = some (x.high.getD 0)) := by
  cases ht : x.isTerminal
  · obtain ⟨hv, hlo, hhi, -⟩ := (hR.settled j x hx).test hx ht
    exact ⟨by rw [if_neg Bool.false_ne_true]; exact hv, fun h => Bool.noConfusion h,
      fun _ => ⟨hlo, hhi⟩⟩
  · obtain ⟨x', hx', -, hterm, -⟩ := hR.settled j x hx
    rw [hx, Option.some.injEq] at hx'
    subst hx'
    exact ⟨by rw [if_pos rfl]; exact var_eq_none_of_isTerminal ht,
      fun _ => ⟨(hterm ht).1, hR.leaf_children j _ hx ht⟩, fun h => Bool.noConfusion h⟩

end Reduced

/-- A level assignment is read by the order as the assignment of names that gives each variable
the value of its level. -/
theorem orderLevels_idxOf {order : List String} (hnodup : order.Nodup) (τ : Nat → Bool) {L : Nat}
    (hL : L < order.length) : orderLevels order (fun v => τ (order.idxOf v)) L = τ L := by
  rw [orderLevels, List.getElem?_eq_getElem hL, Option.getD_some]
  simp [hnodup]

/-- The function of a node of a settled arena over the levels of an order without repetitions:
an assignment of the levels is read as the assignment of names that gives each variable the value
of its level. -/
theorem eval_of_settled_idxOf {a : Arena} {e : Engine} {order : List String}
    {below : Nat → Nat → Prop} (hnodup : order.Nodup) (hbelow : ∀ L L', below L L' → L < L')
    (hset : ∀ j m, a.at? j = some m → a.Settled e order below j) {root : Nat} {r : DNode}
    (hr : a.at? root = some r) (τ : Nat → Bool) :
    a.graph.eval order.length τ root = r.value.holds e (fun v => τ (order.idxOf v)) := by
  have hreach : ∀ i, a.graph.Reach root i → a.Settled e order below i := fun i hi =>
    (exists_of_reach hset hr hi).elim fun m hm => hset i m hm
  rw [Graph.eval_congr (ordered_of_settled hbelow hreach) root .root fun L _ hL =>
    (orderLevels_idxOf hnodup τ hL).symm, eval_of_settled hbelow hreach _ root r .root hr]

/-- Two arenas whose nodes reached are formed for one order are isomorphic from their roots
where their decision graphs are: an isomorphism of the graphs keeps each node's shape, and the
form of a node is read from its shape. -/
theorem iso_of_graph {a a' : Arena} {order : List String} {r r' : Nat} {φ : Nat → Nat}
    (hf : ∀ j x, a.graph.Reach r j → a.at? j = some x → x.Formed order)
    (hf' : ∀ j y, a'.graph.Reach r' j → a'.at? j = some y → y.Formed order) (hroot : φ r = r')
    (hmap : ∀ n, a.graph.Reach r n →
      a'.graph.Reach r' (φ n) ∧ a'.graph.shape (φ n) = (a.graph.shape n).map (Shape.rename φ))
    (hinj : ∀ n m, a.graph.Reach r n → a.graph.Reach r m → φ n = φ m → n = m)
    (honto : ∀ m, a'.graph.Reach r' m → ∃ n, a.graph.Reach r n ∧ φ n = m) :
    Iso a r a' r' φ := by
  refine ⟨hroot, fun i hi => (hmap i hi).1, hinj, honto, fun i n hi hn => ?_⟩
  -- the image's shape is the node's shape renamed
  have hs := (hmap i hi).2
  rw [graph_shape, graph_shape, hn, Option.map_some, Option.map_some] at hs
  obtain ⟨y, hy, hys⟩ := Option.map_eq_some_iff.1 hs
  obtain ⟨hnv, hnt, hni⟩ := hf i n hi hn
  obtain ⟨hyv, hyt, hyi⟩ := hf' _ y (hmap i hi).1 hy
  refine ⟨y, hy, ?_⟩
  cases htn : n.isTerminal <;> cases hty : y.isTerminal
  · -- two tests: one level, so one variable, and the children renamed
    rw [shape_internal htn, shape_internal hty, Shape.rename, Shape.test.injEq] at hys
    obtain ⟨hlev, hlo, hhi⟩ := hys
    obtain ⟨hnlo, hnhi⟩ := hni htn
    obtain ⟨hylo, hyhi⟩ := hyi hty
    refine ⟨?_, hlev, rfl, fun h => Bool.noConfusion h, ?_, ?_⟩
    · rw [hyv, hnv, htn, hty, if_neg Bool.false_ne_true, if_neg Bool.false_ne_true, hlev]
    · rw [hylo, hnlo, hlo, Option.map_some]
    · rw [hyhi, hnhi, hhi, Option.map_some]
  · rw [shape_internal htn, shape_terminal hty, Shape.rename] at hys
    cases hys
  · rw [shape_terminal htn, shape_internal hty, Shape.rename] at hys
    cases hys
  · -- two terminals of one value, without children, at the last level
    rw [shape_terminal htn, shape_terminal hty, Shape.rename, Shape.leaf.injEq] at hys
    obtain ⟨hnl, hnlo, hnhi⟩ := hnt htn
    obtain ⟨hyl, hylo, hyhi⟩ := hyt hty
    refine ⟨?_, hyl.trans hnl.symm, rfl, fun _ => hys, ?_, ?_⟩
    · rw [hyv, hnv, htn, hty, if_pos rfl, if_pos rfl]
    · rw [hylo, hnlo, Option.map_none]
    · rw [hyhi, hnhi, Option.map_none]

/-- Canonicity of reduced arenas: two reduced arenas for one order whose roots hold the same
truth values are isomorphic from their roots. Both are reduced decision graphs of one function
over the levels of the order. -/
theorem Reduced.iso {a a' : Arena} {e e' : Engine} {order : List String} (hnodup : order.Nodup)
    (hR : a.Reduced e order) (hR' : a'.Reduced e' order) {r r' : Nat} {x x' : DNode}
    (hx : a.at? r = some x) (hx' : a'.at? r' = some x')
    (h : ∀ σ, x.value.holds e σ = x'.value.holds e' σ) : ∃ φ, Iso a r a' r' φ := by
  have hG := hR.graph hx
  have hH := hR'.graph hx'
  -- every assignment of the levels is read from an assignment of the names
  have heval : ∀ τ, a.graph.eval order.length τ r = a'.graph.eval order.length τ r' := fun τ => by
    rw [eval_of_settled_idxOf hnodup (fun _ _ h => h) hR.settled hx,
      eval_of_settled_idxOf hnodup (fun _ _ h => h) hR'.settled hx', h]
  obtain ⟨φ, hroot, hmap, hinj, honto⟩ := Graph.iso_of_eval_eq hG hH heval
  exact ⟨φ, iso_of_graph (fun _ _ _ hy => hR.node hy) (fun _ _ _ hy => hR'.node hy) hroot hmap hinj
    honto⟩

end Arena

namespace Diagram

open Engine Arena

/-! ### Made diagrams -/

/-- A diagram made from formula `f` on an engine without a node limit, as its builds need it:
coherent, on a faithful engine, with the formula's node holding the formula's truth values. -/
structure Made (d : Diagram) (f : Formula) : Prop where
  coherent : Coherent d
  faithful : Faithful d.engine
  value : ∀ σ, d.engine.value d.root σ = f.eval σ

/-- Taking an order keeps the engine and the formula's node, and sets the order. -/
theorem setOrder_ok {d d' : Diagram} {o : List String} (h : d.setOrder o = .ok d') :
    d'.engine = d.engine ∧ d'.root = d.root ∧ d'.order = o := by
  obtain ⟨-, rfl⟩ := setOrder_ok_iff.1 h
  split
  · next ho => exact ⟨rfl, rfl, ho.symm⟩
  · exact ⟨rfl, rfl, rfl⟩

/-- Taking the order a diagram has, when the check accepts it, changes nothing. -/
theorem setOrder_self {d : Diagram} (h : checkOrder d.vars d.order = .ok ()) :
    d.setOrder d.order = .ok d :=
  setOrder_ok_iff.2 ⟨h, (if_pos rfl).symm⟩

theorem Made.setOrder {d d' : Diagram} {f : Formula} (hd : Made d f) {o : List String}
    (h : d.setOrder o = .ok d') : Made d' f := by
  obtain ⟨he, hr, -⟩ := setOrder_ok h
  exact ⟨setOrder_coherent hd.coherent h, he ▸ hd.faithful, fun σ => by
    rw [he, hr]
    exact hd.value σ⟩

/-- A diagram made from a text on an engine without a node limit is made from the formula read
from the text: the engine reads the formula's linear text, which keeps it faithful and answers
a node with the formula's truth values, and renders that node, which keeps both. -/
theorem create_made {text : String} {limits : Limits} (hlim : limits.maxNodes = 0)
    {order : Option (List String)} {d : Diagram} (h : create text limits order = .ok d)
    {f : Formula} (hp : Formula.parse text = .ok f) : Made d f := by
  obtain ⟨f', e, e₁, root, e₂, expression, hp', he, hr, hx, hd⟩ := create_eq_ok h
  rw [hp, Except.ok.injEq] at hp'
  subst hp'
  have hnames := Formula.parse_expandArrows_names hp
  have hf₀ := create_faithful hlim he
  have hok : ((parseAndSimplify f.expandArrows.linear).run e).1 = .ok root := by rw [hr]
  have hf₁ := parseAndSimplify_faithful hf₀ hnames hok
  obtain ⟨-, -, hroot, hval⟩ := parseAndSimplify_linear hf₀.sound hnames hok
  rw [hr] at hf₁ hroot hval
  obtain ⟨s, e', hrun, hf₂, hl₂, -⟩ := render_run hf₁ hroot
  rw [hx, Prod.mk.injEq] at hrun
  obtain ⟨-, rfl⟩ := hrun
  have hmade : Made (fresh text e₂ root expression) f :=
    ⟨fresh_coherent hp he hr hx, hf₂, fun σ => by
      rw [fresh, value_evolves hf₁.sound hl₂.evolves hroot σ, hval σ, Formula.eval_expandArrows]⟩
  rcases hd with ⟨-, rfl⟩ | ⟨o, -, ho⟩
  · exact hmade
  · exact hmade.setOrder ho

/-- A diagram made with an order has that order. -/
theorem create_order {text : String} {limits : Limits} {o : List String} {d : Diagram}
    (h : create text limits (some o) = .ok d) : d.order = o := by
  obtain ⟨_, _, _, _, _, _, _, _, _, _, hd⟩ := create_eq_ok h
  rcases hd with ⟨h', -⟩ | ⟨o', ho', hs⟩
  · cases h'
  · rw [Option.some.injEq] at ho'
    subst ho'
    exact (setOrder_ok hs).2.2

/-! ### Builds -/

@[simp] theorem built?_install (k : Kind) (a : Arena) (root : Nat) (d : Diagram) :
    (install k a root d).built? k = some ⟨a, root⟩ := by
  cases k <;> rfl

/-- A build of either kind, on a faithful engine whose names are variables of an order without
repetitions, succeeds from any base: it leaves a later faithful engine and an arena from the
base, shaped as its kind builds it, whose root holds the expression's truth values. -/
theorem runBuild_run {d : Diagram} {order : List String} (hf : Faithful d.engine)
    (hroot : d.root < d.engine.kernel.nodes.size) (hnames : ∀ y ∈ d.engine.names.toList, y ∈ order)
    (hnodup : order.Nodup) (k : Kind) (base : Nat) :
    ∃ root a e, (runBuild d k order base).run d.engine = ((.ok root, a), e) ∧ Faithful e ∧
      Later d.engine e ∧ a.base = base ∧ k.Shaped e order a ∧
      ∃ r, a.at? root = some r ∧ ∀ σ, r.value.holds e σ = d.engine.value d.root σ := by
  cases k with
  | bdd =>
    obtain ⟨root, a, e, hrun, hf', hl, -, hb, -, hset, r, hr, hval, -⟩ :=
      decisionTree_run hf hroot hnames hnodup base
    exact ⟨root, a, e, hrun, hf', hl, hb, hset, r, hr, hval⟩
  | robdd =>
    obtain ⟨root, a, e, hrun, hf', hl, -, hb, hred, hr⟩ :=
      reducedDiagram_run hf hroot hnames hnodup base
    exact ⟨root, a, e, hrun, hf', hl, hb, hred, hr⟩

/-- A build of a made diagram for its order succeeds: it clears the highlight and installs an
arena from the diagram's next id, shaped as its kind builds it, whose root holds the formula's
truth values. -/
theorem Made.build_run {d : Diagram} {f : Formula} (hd : Made d f) (k : Kind) :
    ∃ root a e, (build k).run d =
        (.ok root, install k a root (clearHighlight { d with engine := e })) ∧
      Faithful e ∧ Later d.engine e ∧ a.base = d.next ∧ k.Shaped e d.order a ∧
      ∃ r, a.at? root = some r ∧ ∀ σ, r.value.holds e σ = f.eval σ := by
  have hc := hd.coherent
  obtain ⟨root, a, e, hrun, hf, hl, hb, hshape, r, hr, hval⟩ := runBuild_run hd.faithful hc.root
    (fun y hy => hc.perm.symm.subset (hc.names y hy)) (hc.perm.nodup_iff.2 hc.nodup) k d.next
  exact ⟨root, a, e, build_run_ok hrun, hf, hl, hb, hshape, r, hr,
    fun σ => (hval σ).trans (hd.value σ)⟩

/-! ### What a build computes -/

/-- The builds of a diagram made from a formula text without a node limit, for any order the
diagram takes. A build of either kind succeeds and installs its arena. From its root, the walk by
the values of the variables reaches, within as many steps as the order has variables, a terminal
with the formula's value. Every test reached from the root tests the variable that the order
puts at its level, with its internal children one level down in the decision tree and at a
level below in the reduced diagram; every terminal reached stands at the last level. -/
theorem build_walks_to_value {text : String} {limits : Limits} (hlim : limits.maxNodes = 0)
    {d₀ d : Diagram} (h₀ : create text limits none = .ok d₀) {o : List String}
    (ho : d₀.setOrder o = .ok d) {f : Formula} (hf : Formula.parse text = .ok f) (k : Kind) :
    ∃ b : Built, ((build k).run d).1 = .ok b.root ∧ ((build k).run d).2.built? k = some b ∧
      (∀ σ, ∃ n, b.arena.at? (b.arena.walk σ o.length b.root) = some n ∧ n.isTerminal = true ∧
        n.terminalValue = f.eval σ) ∧
      ∀ i x, b.arena.graph.Reach b.root i → b.arena.at? i = some x →
        (x.isTerminal = true → x.level = o.length) ∧
        (x.isTerminal = false → x.var = o[x.level]? ∧
          ∀ c y, (x.low = some c ∨ x.high = some c) → b.arena.at? c = some y →
            y.isTerminal = false → k.below x.level y.level) := by
  have hd := (create_made hlim h₀ hf).setOrder ho
  obtain ⟨-, -, hord⟩ := setOrder_ok ho
  subst hord
  obtain ⟨root, a, e, hrun, -, -, -, hshape, r, hr, hval⟩ := hd.build_run k
  -- every node of the arena is settled, so every node reached from the root is
  have hset : ∀ i, a.graph.Reach root i → a.Settled e d.order k.below i := fun i hi => by
    obtain ⟨m, hm⟩ := exists_of_reach (fun _ _ => hshape.settled) hr hi
    exact hshape.settled hm
  refine ⟨⟨a, root⟩, by rw [hrun], by rw [hrun, built?_install], fun σ => ?_,
    fun i x hi hx => ⟨fun ht => ?_, fun ht => ⟨((hset i hi).test hx ht).1,
      fun c y hc hy hyt => (hset i hi).child_below hx ht hc hy hyt⟩⟩⟩
  · obtain ⟨n, hn, hnt, hnv⟩ := walk_of_settled (fun _ _ => Kind.lt_of_below) hset hr σ
    exact ⟨n, hn, hnt, hnv.trans (hval σ)⟩
  · obtain ⟨x', hx', -, hterm, -⟩ := hset i hi
    rw [hx, Option.some.injEq] at hx'
    subst hx'
    exact (hterm ht).1

set_option maxRecDepth 100000 in
/-- The decision tree of the formula `a`, made without limits, for its own order. -/
theorem build_walks_to_value_of_a :
    let d := fresh "a" ((render 2).run ((parseAndSimplify "a").run (created {})).2).2 2 "a"
    create "a" {} none = .ok d ∧ d.setOrder ["a"] = .ok d ∧ Formula.parse "a" = .ok (.var "a") ∧
      ∃ b : Built, ((build .bdd).run d).1 = .ok b.root ∧
        ((build .bdd).run d).2.built? .bdd = some b ∧
        (∀ σ, ∃ n, b.arena.at? (b.arena.walk σ ["a"].length b.root) = some n ∧
          n.isTerminal = true ∧ n.terminalValue = (Formula.var "a").eval σ) ∧
        ∀ i x, b.arena.graph.Reach b.root i → b.arena.at? i = some x →
          (x.isTerminal = true → x.level = ["a"].length) ∧
          (x.isTerminal = false → x.var = ["a"][x.level]? ∧
            ∀ c y, (x.low = some c ∨ x.high = some c) → b.arena.at? c = some y →
              y.isTerminal = false → Kind.bdd.below x.level y.level) := by
  -- the closed facts first, outside the diagram's definition
  have hf : Formula.parse "a" = .ok (.var "a") := by cbv
  have hv : variablesOf "a" = ["a"] := by cbv
  have hc : checkOrder ["a"] ["a"] = .ok () := by cbv
  have h₀ : create "a" {} none =
      .ok (fresh "a" ((render 2).run ((parseAndSimplify "a").run (created {})).2).2 2 "a") := by
    cbv
  intro d
  have ho : d.setOrder ["a"] = .ok d := by
    have := setOrder_self (d := d) (by simp only [d, fresh, hv, hc])
    simpa only [d, fresh, hv] using this
  exact ⟨h₀, ho, hf, build_walks_to_value rfl h₀ ho hf .bdd⟩

/-! ### Canonicity of the reduced builds -/

/-- Canonicity of the reduced builds: two texts whose formulas are equivalent, made into diagrams
without a node limit and with one order, have isomorphic reduced diagrams. Both reduced builds
succeed, and from the root of each the diagram is reduced and ordered. -/
theorem reduced_builds_isomorphic {t₁ t₂ : String} {l₁ l₂ : Limits} (hl₁ : l₁.maxNodes = 0)
    (hl₂ : l₂.maxNodes = 0) {o : List String} {d₁ d₂ : Diagram}
    (h₁ : create t₁ l₁ (some o) = .ok d₁) (h₂ : create t₂ l₂ (some o) = .ok d₂)
    {f₁ f₂ : Formula} (hf₁ : Formula.parse t₁ = .ok f₁) (hf₂ : Formula.parse t₂ = .ok f₂)
    (hequiv : ∀ σ, f₁.eval σ = f₂.eval σ) :
    ∃ b₁ b₂ : Built, ((build .robdd).run d₁).1 = .ok b₁.root ∧
      ((build .robdd).run d₁).2.robdd = some b₁ ∧ ((build .robdd).run d₂).1 = .ok b₂.root ∧
      ((build .robdd).run d₂).2.robdd = some b₂ ∧ b₁.arena.ReducedAt b₁.root ∧
      b₂.arena.ReducedAt b₂.root ∧ ∃ φ, Iso b₁.arena b₁.root b₂.arena b₂.root φ := by
  have hd₁ := create_made hl₁ h₁ hf₁
  have hd₂ := create_made hl₂ h₂ hf₂
  obtain ⟨root₁, a₁, e₁, hrun₁, -, -, -, hS₁, r₁, hr₁, hv₁⟩ := hd₁.build_run .robdd
  obtain ⟨root₂, a₂, e₂, hrun₂, -, -, -, hS₂, r₂, hr₂, hv₂⟩ := hd₂.build_run .robdd
  have hR₁ : a₁.Reduced e₁ o := create_order h₁ ▸ hS₁
  have hR₂ : a₂.Reduced e₂ o := create_order h₂ ▸ hS₂
  have hnodup : o.Nodup := create_order h₁ ▸ hd₁.coherent.perm.nodup_iff.2 hd₁.coherent.nodup
  -- the two roots hold the truth values of equivalent formulas
  obtain ⟨φ, hφ⟩ := Reduced.iso hnodup hR₁ hR₂ hr₁ hr₂ fun σ => by rw [hv₁, hv₂, hequiv]
  refine ⟨⟨a₁, root₁⟩, ⟨a₂, root₂⟩, by rw [hrun₁], by rw [hrun₁]; rfl, by rw [hrun₂],
    by rw [hrun₂]; rfl, hR₁.reducedAt root₁, hR₂.reducedAt root₂, φ, hφ⟩

set_option maxRecDepth 100000 in
/-- The formulas `a` and `~~a`, made without limits for the order `a`. -/
theorem reduced_builds_isomorphic_negated :
    let d₁ := fresh "a" ((render 2).run ((parseAndSimplify "a").run (created {})).2).2 2 "a"
    let d₂ := fresh "~~a" ((render 2).run ((parseAndSimplify "~(~(a))").run (created {})).2).2
      2 "a"
    create "a" {} (some ["a"]) = .ok d₁ ∧ create "~~a" {} (some ["a"]) = .ok d₂ ∧
      Formula.parse "a" = .ok (.var "a") ∧ Formula.parse "~~a" = .ok (.not (.not (.var "a"))) ∧
      (∀ σ, (Formula.var "a").eval σ = (Formula.not (.not (.var "a"))).eval σ) ∧
      ∃ b₁ b₂ : Built, ((build .robdd).run d₁).1 = .ok b₁.root ∧
        ((build .robdd).run d₁).2.robdd = some b₁ ∧ ((build .robdd).run d₂).1 = .ok b₂.root ∧
        ((build .robdd).run d₂).2.robdd = some b₂ ∧ b₁.arena.ReducedAt b₁.root ∧
        b₂.arena.ReducedAt b₂.root ∧ ∃ φ, Iso b₁.arena b₁.root b₂.arena b₂.root φ := by
  have hf₁ : Formula.parse "a" = .ok (.var "a") := by cbv
  have hf₂ : Formula.parse "~~a" = .ok (.not (.not (.var "a"))) := by cbv
  have h₁ : create "a" {} (some ["a"]) =
      .ok (fresh "a" ((render 2).run ((parseAndSimplify "a").run (created {})).2).2 2 "a") := by
    cbv
  have h₂ : create "~~a" {} (some ["a"]) = .ok (fresh "~~a" ((render 2).run
      ((parseAndSimplify "~(~(a))").run (created {})).2).2 2 "a") := by
    cbv
  have hequiv : ∀ σ, (Formula.var "a").eval σ = (Formula.not (.not (.var "a"))).eval σ :=
    fun σ => (Bool.not_not (σ "a")).symm
  exact ⟨h₁, h₂, hf₁, hf₂, hequiv, reduced_builds_isomorphic rfl rfl h₁ h₂ hf₁ hf₂ hequiv⟩

end Diagram

end DecisionDiagrams
