/-
Building the two kinds of diagram for an order.

A node at level `L` tests `order[L]`; its children are the residuals of its expression with
that variable set to true (high) and false (low), computed by the simplifier. A constant
residual is a terminal; a residual below the last level that is not constant breaks the
builds' contract.

* `Diagram.decisionTree` — the decision tree: the true and false terminals first, then the root,
  then depth first, each node allocating its high child and then its low child, and expanding
  the low child's subtree before the high one's.
* `Diagram.reducedDiagram` — first, breadth first, one node for each rendered residual text at
  each level; then, from the last level up, each node whose children coincide is replaced by
  its child and nodes with the same variable and children are merged; only the nodes that
  remain are allocated, the terminals first.
* `Diagram.build` — installs a build in a fresh arena above all earlier ids; a failure leaves
  the builds as they were.
* `Diagram.measure` — the size of a build for another order, installing nothing.
* `Diagram.size` — the number of nodes reachable from the root of a build, terminals included.
-/
import DecisionDiagrams.Diagram.Basic

namespace DecisionDiagrams

namespace Diagram

/-- The residual of an expression: a constant for a constant node. -/
def residualOf (x : Nat) : Residual :=
  match Engine.isConstant x with
  | some v => .const v
  | none => .expr x

/-- The high and low residuals of a residual with variable `v` set. -/
def expand (r : Residual) (v : String) : EngineM (Except Failure (Residual × Residual)) := do
  let x := match r with
    | .const b => if b then 1 else 0
    | .expr x => x
  match ← Engine.substitute x v true with
  | .error f => return .error f
  | .ok hi =>
    match ← Engine.substitute x v false with
    | .error f => return .error f
    | .ok lo => return .ok (residualOf hi, residualOf lo)

/-- The root node of a build: the formula's residual, testing the first variable of the order,
or a terminal when the order is empty (which needs a constant residual). -/
def rootNode (d : Diagram) (order : List String) : Except Failure DNode :=
  let r := residualOf d.root
  match order with
  | [] =>
    match r with
    | .const v => .ok (.terminal v d.expression 0)
    | .expr _ => .error (.of (.invariant ("no variable to expand " ++ d.expression)))
  | v :: _ => .ok (.internal v r d.expression 0)

/-- Building in an arena, on the simplifier. -/
abbrev BuildM := StateT Arena EngineM

/-- Runs a simplifier computation during a build. -/
def liftEngine {α : Type} (m : EngineM α) : BuildM α :=
  StateT.lift m

/-- The ids of the two terminals, true first. -/
structure Terminals where
  yes : Nat
  no : Nat

/-- The node for a residual at `level` in the decision tree: a terminal for a constant, else a
new node (which must be above the last level). -/
def treeChild (order : List String) (ts : Terminals) (r : Residual) (level : Nat) :
    BuildM (Except Failure Nat) := do
  match r with
  | .const v => return .ok (if v then ts.yes else ts.no)
  | .expr x =>
    match ← liftEngine (Engine.render x) with
    | .error f => return .error f
    | .ok text =>
      match order[level]? with
      | none => return .error (.of (.invariant ("residual " ++ text ++ " below the last level")))
      | some v => return .ok (← modifyGet (Arena.alloc (.internal v r text level)))

/-- Expands node `id` of the decision tree and then the subtrees of its low and high children;
`fuel` is the number of levels left below it. -/
def expandTree (order : List String) (ts : Terminals) : Nat → Nat → BuildM (Except Failure Unit)
  | 0, _ => return .ok ()
  | fuel + 1, id => do
    let some n := (← get).at? id | return .ok ()
    match ← liftEngine (expand n.value (n.var.getD "")) with
    | .error f => return .error f
    | .ok (hr, lr) =>
      match ← treeChild order ts hr (n.level + 1) with
      | .error f => return .error f
      | .ok high =>
        match ← treeChild order ts lr (n.level + 1) with
        | .error f => return .error f
        | .ok low =>
          modify (Arena.modifyNode id fun m => { m with low := some low, high := some high })
          let isNode (c : Nat) := c ≠ ts.yes ∧ c ≠ ts.no
          if isNode low then
            if let .error f ← expandTree order ts fuel low then return .error f
          if isNode high then
            if let .error f ← expandTree order ts fuel high then return .error f
          return .ok ()

/-- The decision tree for an order, in the arena; answers its root. -/
def decisionTree (d : Diagram) (order : List String) : BuildM (Except Failure Nat) := do
  let n := order.length
  let yes ← modifyGet (Arena.terminal true n)
  let no ← modifyGet (Arena.terminal false n)
  match rootNode d order with
  | .error f => return .error f
  | .ok root =>
    if root.isTerminal then return .ok (if root.terminalValue then yes else no)
    let rid ← modifyGet (Arena.alloc root)
    match ← expandTree order ⟨yes, no⟩ (n + 1) rid with
    | .error f => return .error f
    | .ok () => return .ok rid

/-- The first phase of a reduced build: nodes numbered from 0, terminals 0 (true) and 1
(false), and for each residual text at each level the node found first. -/
structure Layer where
  nodes : Array DNode
  seen : Std.HashMap (String × Nat) Nat
  deriving Inhabited

/-- The node of phase 1 for a residual at `level`, created if its text is new at that level. -/
def layerChild (order : List String) (r : Residual) (level : Nat) :
    StateT Layer EngineM (Except Failure (Nat × Bool)) := do
  match r with
  | .const v => return .ok (if v then 0 else 1, false)
  | .expr x =>
    match ← StateT.lift (Engine.render x) with
    | .error f => return .error f
    | .ok text =>
      match order[level]? with
      | none => return .error (.of (.invariant ("residual " ++ text ++ " below the last level")))
      | some v =>
        match (← get).seen[(text, level)]? with
        | some id => return .ok (id, false)
        | none =>
          let id := (← get).nodes.size
          modify fun l => { nodes := l.nodes.push { DNode.internal v r text level with id := id },
                            seen := l.seen.insert (text, level) id }
          return .ok (id, true)

/-- Expands one node of a level, given the new nodes of the next level found so far; answers
them with the node's new children added, high first. -/
def expandNode (order : List String) (acc : Except Failure (List Nat)) (id : Nat) :
    StateT Layer EngineM (Except Failure (List Nat)) := do
  match acc with
  | .error f => return .error f
  | .ok found =>
    let some n := (← get).nodes[id]? | return .ok found
    match ← StateT.lift (expand n.value (n.var.getD "")) with
    | .error f => return .error f
    | .ok (hr, lr) =>
      match ← layerChild order hr (n.level + 1) with
      | .error f => return .error f
      | .ok (high, newHigh) =>
        match ← layerChild order lr (n.level + 1) with
        | .error f => return .error f
        | .ok (low, newLow) =>
          modify fun l => { l with nodes := l.nodes.modify id fun m =>
            { m with low := some low, high := some high } }
          let found := if newHigh then found ++ [high] else found
          return .ok (if newLow then found ++ [low] else found)

/-- Expands the nodes of one level, in order; answers the new nodes of the next level. -/
def expandLayer (order : List String) (ids : List Nat) :
    StateT Layer EngineM (Except Failure (List Nat)) :=
  ids.foldlM (expandNode order) (.ok [])

/-- Expands level after level, from `ids` on; answers the nodes of each level. -/
def expandLayers (order : List String) :
    Nat → List Nat → StateT Layer EngineM (Except Failure (List (List Nat)))
  | 0, _ => return .ok []
  | fuel + 1, ids => do
    if ids.isEmpty then return .ok []
    match ← expandLayer order ids with
    | .error f => return .error f
    | .ok next =>
      match ← expandLayers order fuel next with
      | .error f => return .error f
      | .ok rest => return .ok (ids :: rest)

/-- The second phase: from the last level up, each node of phase 1 gets its representative in
the arena; `rep` maps phase-1 nodes to arena ids. -/
def reduceLevel (layer : Layer) (ids : List Nat) (rep : Std.HashMap Nat Nat)
    (uniq : Std.HashMap (String × Nat × Nat) Nat) (a : Arena) :
    Std.HashMap Nat Nat × Std.HashMap (String × Nat × Nat) Nat × Arena :=
  ids.foldl (fun (rep, uniq, a) id =>
    match layer.nodes[id]? with
    | none => (rep, uniq, a)
    | some n =>
      let low := rep.getD (n.low.getD 0) 0
      let high := rep.getD (n.high.getD 0) 0
      if low = high then (rep.insert id low, uniq, a)
      else
        let key := (n.var.getD "", low, high)
        match uniq[key]? with
        | some r => (rep.insert id r, uniq, a)
        | none =>
          let (r, a) := a.alloc { n with low := some low, high := some high }
          (rep.insert id r, uniq.insert key r, a)) (rep, uniq, a)

/-- The reduced diagram for an order, in the arena; answers its root. -/
def reducedDiagram (d : Diagram) (order : List String) : BuildM (Except Failure Nat) := do
  let n := order.length
  match rootNode d order with
  | .error f => return .error f
  | .ok root =>
    if root.isTerminal then return .ok (← modifyGet (Arena.terminal root.terminalValue n))
    let start : Layer :=
      { nodes := #[{ DNode.terminal true "True" n with id := 0 },
                   { DNode.terminal false "False" n with id := 1 }, { root with id := 2 }],
        seen := ({} : Std.HashMap (String × Nat) Nat).insert (root.text, 0) 2 }
    let (levels, layer) ← liftEngine ((expandLayers order (n + 1) [2]).run start)
    match levels with
    | .error f => return .error f
    | .ok levels =>
      let yes ← modifyGet (Arena.terminal true n)
      let no ← modifyGet (Arena.terminal false n)
      let rep : Std.HashMap Nat Nat := ({} : Std.HashMap Nat Nat).insert 0 yes |>.insert 1 no
      let a ← get
      let (rep, _, a) := levels.reverse.foldl
        (fun (rep, uniq, a) ids => reduceLevel layer ids rep uniq a) (rep, {}, a)
      set a
      return .ok (rep.getD 2 0)

/-- The build of a kind for an order, in an arena starting at `base`. -/
def runBuild (d : Diagram) (k : Kind) (order : List String) (base : Nat) :
    EngineM (Except Failure Nat × Arena) :=
  let b : BuildM (Except Failure Nat) :=
    match k with
    | .bdd => decisionTree d order
    | .robdd => reducedDiagram d order
  b.run ⟨base, #[]⟩

/-- The ids reachable from `root` in breadth-first order, children low before high. -/
def walkOrder (a : Arena) (root : Nat) : List Nat :=
  let mark (seen : Array Bool) (id : Nat) : Array Bool :=
    if id < a.base then seen else seen.setIfInBounds (id - a.base) true
  let isSeen (seen : Array Bool) (id : Nat) : Bool :=
    if id < a.base then false else seen[id - a.base]?.getD false
  let rec loop : Nat → Array Nat → Array Bool → Array Nat → Array Nat
    | 0, _, _, out => out
    | fuel + 1, frontier, seen, out =>
      if frontier.isEmpty then out
      else
        let (next, seen) := frontier.foldl (fun (acc, seen) id =>
          match a.at? id with
          | none => (acc, seen)
          | some n =>
            [n.low, n.high].foldl (fun (acc, seen) c =>
              match c with
              | some c => if isSeen seen c then (acc, seen) else (acc.push c, mark seen c)
              | none => (acc, seen)) (acc, seen)) (#[], seen)
        loop fuel next seen (out ++ next)
  (loop (a.nodes.size + 1) #[root] (mark (Array.replicate a.nodes.size false) root) #[root]).toList

/-- The number of nodes reachable from a root. -/
def reachableCount (a : Arena) (root : Nat) : Nat :=
  (walkOrder a root).length

/-- Installs a successful build of a kind; the highlight is cleared first. -/
def install (k : Kind) (a : Arena) (root : Nat) (d : Diagram) : Diagram :=
  let d := d.setBuilt k (some ⟨a, root⟩)
  { d with next := a.next }

/-- Clears every highlight mark of the installed builds and forgets the highlight. -/
def clearHighlight (d : Diagram) : Diagram :=
  let unmark (a : Arena) : Arena :=
    { a with nodes := a.nodes.map fun n => { n with highlight := false } }
  let clear (b : Option Built) : Option Built :=
    b.map fun b => { b with arena := unmark b.arena }
  { d with bdd := clear d.bdd, robdd := clear d.robdd, highlighted := none }

/-- Builds a kind for the current order and installs it; answers its root. -/
def build (k : Kind) : DiagramM (Except Failure Nat) := do
  let d ← get
  let (r, a) ← onEngine (runBuild d k d.order d.next)
  match r with
  | .error f => return .error f
  | .ok root =>
    modify fun d => install k a root (clearHighlight d)
    return .ok root

/-- The size of a kind's build for an order, which is checked first; installs nothing. -/
def measure (k : Kind) (order : List String) : DiagramM (Except Failure Nat) := do
  let d ← get
  match checkOrder d.vars order with
  | .error f => return .error f
  | .ok () =>
    let (r, a) ← onEngine (runBuild d k order 0)
    return r.map (reachableCount a)

/-- The size of the installed build of a kind, `0` when there is none. -/
def size (d : Diagram) (k : Kind) : Nat :=
  match d.built? k with
  | some b => reachableCount b.arena b.root
  | none => 0

end Diagram

end DecisionDiagrams
