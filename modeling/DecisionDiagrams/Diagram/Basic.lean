/-
Diagrams of a formula for a variable order.

A diagram keeps the formula, its variables in the order of their first occurrence, the current
order, a simplifier holding the formula's expression, and one arena of nodes for each kind that
was built. Node ids are handed out by arenas whose bases grow from build to build, so the ids
of all builds of one diagram are distinct.

* `DNode` — a node: a terminal (no variable, a constant value, no children) or an internal node
  testing a variable at a level of the order, with the residual expression it stands for and
  that expression's text.
* `Diagram.create` — reads a formula, simplifies its form over `~`, `&` and `|`, renders it,
  and takes the order given, if any, or the order of first occurrence.
* `Diagram.setOrder` — accepts exactly the permutations of the variables; a new order drops the
  arenas and the highlight.
-/
import DecisionDiagrams.Simplify.Render
import DecisionDiagrams.Diagram.Kind
import DecisionDiagrams.Diagram.Assignment

namespace DecisionDiagrams

/-- What a node stands for: a constant, or an expression of the simplifier. -/
inductive Residual
  | const (v : Bool)
  | expr (x : Nat)
  deriving DecidableEq, Repr, Inhabited

/-- A node of a diagram. -/
structure DNode where
  id : Nat
  var : Option String
  value : Residual
  text : String
  level : Nat
  step : Option Nat
  highlight : Bool
  low : Option Nat
  high : Option Nat
  deriving DecidableEq, Repr, Inhabited

namespace DNode

/-- Whether the node is a terminal. -/
def isTerminal (n : DNode) : Bool :=
  n.var.isNone

/-- The value of a terminal (`false` for an internal node). -/
def terminalValue (n : DNode) : Bool :=
  match n.value with
  | .const v => v
  | .expr _ => false

/-- The name of a node in views and DOT text. -/
def identifier (n : DNode) : String :=
  if n.isTerminal then (if n.terminalValue then "terminal_true" else "terminal_false")
  else "node_" ++ toString n.id

/-- A new internal node. -/
def internal (var : String) (value : Residual) (text : String) (level : Nat) : DNode :=
  ⟨0, some var, value, text, level, none, false, none, none⟩

/-- A new terminal node. -/
def terminal (v : Bool) (text : String) (level : Nat) : DNode :=
  ⟨0, none, .const v, text, level, none, false, none, none⟩

end DNode

/-- The nodes of one build, with ids from `base` on. -/
structure Arena where
  base : Nat
  nodes : Array DNode
  deriving Repr, Inhabited

namespace Arena

/-- The node with an id, if it is in the arena. -/
def at? (a : Arena) (id : Nat) : Option DNode :=
  if id < a.base then none else a.nodes[id - a.base]?

/-- The id the next node will get. -/
def next (a : Arena) : Nat :=
  a.base + a.nodes.size

/-- Adds a node, which takes the next id. -/
def alloc (n : DNode) (a : Arena) : Nat × Arena :=
  (a.next, { a with nodes := a.nodes.push { n with id := a.next } })

/-- Changes the node with an id. -/
def modifyNode (id : Nat) (f : DNode → DNode) (a : Arena) : Arena :=
  if id < a.base then a else { a with nodes := a.nodes.modify (id - a.base) f }

/-- Adds a terminal of the given value. -/
def terminal (v : Bool) (level : Nat) (a : Arena) : Nat × Arena :=
  a.alloc (.terminal v (if v then "True" else "False") level)

end Arena

/-- An installed build: its arena and its root. -/
structure Built where
  arena : Arena
  root : Nat
  deriving Repr, Inhabited

/-- A diagram of a formula. -/
structure Diagram where
  formula : String
  vars : List String
  order : List String
  engine : Engine
  root : Nat
  expression : String
  bdd : Option Built
  robdd : Option Built
  next : Nat
  highlighted : Option Assignment

/-- Computations on a diagram. -/
abbrev DiagramM := StateM Diagram

namespace Diagram

/-- The build of a kind, if there is one. -/
def built? (d : Diagram) : Kind → Option Built
  | .bdd => d.bdd
  | .robdd => d.robdd

/-- The diagram with the build of a kind replaced. -/
def setBuilt (d : Diagram) (k : Kind) (b : Option Built) : Diagram :=
  match k with
  | .bdd => { d with bdd := b }
  | .robdd => { d with robdd := b }

/-- The root id of the build of a kind. -/
def root? (d : Diagram) (k : Kind) : Option Nat :=
  (d.built? k).map (·.root)

/-- The node with an id, looked for in the decision tree first. -/
def node? (d : Diagram) (id : Nat) : Option DNode :=
  match d.bdd.bind (·.arena.at? id) with
  | some n => some n
  | none => d.robdd.bind (·.arena.at? id)

/-- Changes the node with an id in whichever arena holds it. -/
def modifyNode (id : Nat) (f : DNode → DNode) (d : Diagram) : Diagram :=
  match d.bdd with
  | some b =>
    if (b.arena.at? id).isSome then
      { d with bdd := some { b with arena := b.arena.modifyNode id f } }
    else match d.robdd with
      | some r => { d with robdd := some { r with arena := r.arena.modifyNode id f } }
      | none => d
  | none =>
    match d.robdd with
    | some r => { d with robdd := some { r with arena := r.arena.modifyNode id f } }
    | none => d

/-- Runs a computation on the simplifier. -/
def onEngine {α : Type} (m : EngineM α) : DiagramM α :=
  modifyGet fun d =>
    let (a, e) := m.run d.engine
    (a, { d with engine := e })

/-- Checks that an order is a permutation of the variables. -/
def checkOrder (vars order : List String) : Except Failure Unit := do
  if order.length ≠ vars.length then
    throw (.of (.order (.wrongCount order order.length vars.length)))
  let _ ← order.foldlM (fun (seen : List String) x =>
    if !vars.contains x then throw (.of (.order (.unknown x)))
    else if seen.contains x then throw (.of (.order (.duplicate x)))
    else pure (x :: seen)) []
  pure ()

/-- Takes a new order: a different one drops the builds and the highlight. -/
def setOrder (o : List String) (d : Diagram) : Except Failure Diagram := do
  checkOrder d.vars o
  if o = d.order then pure d
  else pure { d with order := o, bdd := none, robdd := none, highlighted := none }

/-- The diagram of a formula, with the kernel limits of its simplifier and an order. -/
def create (text : String) (limits : Limits) (order : Option (List String)) :
    Except Failure Diagram := do
  let f ← match Formula.parse text with
    | .ok f => pure f
    | .error e => throw (.of (.notFormula e))
  let e ← Engine.create limits
  let (root, e) := (Engine.parseAndSimplify f.expandArrows.linear).run e
  let root ← root
  let (expression, e) := (Engine.render root).run e
  let expression ← expression
  let vars := DecisionDiagrams.variablesOf text
  let d : Diagram :=
    { formula := text, vars := vars, order := vars, engine := e, root := root,
      expression := expression, bdd := none, robdd := none, next := 0, highlighted := none }
  match order with
  | some o => d.setOrder o
  | none => pure d

/-- The number of assignments of the variables that satisfy the formula. -/
def models : DiagramM Nat := do
  let r := (← get).root
  onEngine (Engine.count r)

/-- The simplifier's table below the formula's node. -/
def writeKernel : DiagramM (String × Option String) := do
  let r := (← get).root
  onEngine (Engine.dump r)

end Diagram

end DecisionDiagrams
