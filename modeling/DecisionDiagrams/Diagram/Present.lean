/-
Presenting an installed build: highlights, step numbers, views, edges and DOT text.

* `Diagram.highlight` — marks the nodes consistent with an assignment: from the root, the
  matching child of a node whose variable is assigned, and both children otherwise.
* `Diagram.assignSteps` — numbers the internal nodes: the root 0, then the children of a node
  when first seen, low before high, expanding the newest first.
* `Diagram.view` — the nodes reachable from the root keyed by identifier, with the order and
  the kind.
* `Diagram.edges` — each internal node's low (dashed) and high (solid) edge, in breadth-first
  order.
* `Diagram.dot` — the DOT text of a build, nodes in increasing order of id.
-/
import Std.Data.HashSet
import DecisionDiagrams.Diagram.Build
import DecisionDiagrams.Json.Basic

namespace DecisionDiagrams

/-- The description of a node in a view: the variable and children only for internal nodes,
the step only when set, and `highlight` only when marked. -/
structure NodeView where
  id : String
  var : Option String
  expr : String
  level : Nat
  step : Option Nat
  highlight : Bool
  low : Option String
  high : Option String
  deriving DecidableEq, Repr, Inhabited

/-- The structural description of a build: its nodes keyed by identifier (sorted, each key
once), the identifier of its root, the order and the kind's name. -/
structure View where
  nodes : List (String × NodeView)
  root : String
  vars : List String
  type : String
  deriving DecidableEq, Repr, Inhabited

/-- An edge of a build: dashed to the low child, solid to the high child. -/
structure Edge where
  tail : String
  head : String
  style : String
  deriving DecidableEq, Repr, Inhabited

namespace NodeView

/-- The JSON object of a node, members in declaration order. -/
def toJson (v : NodeView) : Json :=
  .obj [("id", .str v.id), ("var", Json.ofOption .str v.var), ("expr", .str v.expr),
    ("level", .num v.level), ("step", Json.ofOption (fun s => .num (Int.ofNat s)) v.step),
    ("highlight", if v.highlight then .bool true else .null),
    ("low", Json.ofOption .str v.low), ("high", Json.ofOption .str v.high)]

end NodeView

/-- The JSON object of a view, members in declaration order. -/
def View.toJson (v : View) : Json :=
  .obj [("nodes", .obj (v.nodes.map fun (k, n) => (k, n.toJson))), ("root", .str v.root),
    ("variables", Json.strs v.vars), ("type", .str v.type)]

/-- The JSON object of an edge. -/
def Edge.toJson (e : Edge) : Json :=
  .obj [("tail", .str e.tail), ("head", .str e.head), ("style", .str e.style)]

/-- The JSON of a list of edges: `null` when there is none. -/
def Edge.listJson (es : List Edge) : Json :=
  if es.isEmpty then .null else .arr (es.map Edge.toJson)

/-- Inserts or replaces an entry of a list sorted by key. -/
def insertByKey {α : Type} (k : String) (v : α) : List (String × α) → List (String × α)
  | [] => [(k, v)]
  | (j, w) :: rest =>
    if k < j then (k, v) :: (j, w) :: rest
    else if k = j then (k, v) :: rest
    else (j, w) :: insertByKey k v rest

/-- The children a highlight under `values` goes on to from a node: none from a terminal, the
child its variable's value picks, or both when the variable is not assigned. -/
def DNode.followed (values : Assignment) (n : DNode) : List (Option Nat) :=
  if n.isTerminal then []
  else match values.get? (n.var.getD "") with
    | some v => [if v then n.high else n.low]
    | none => [n.low, n.high]

namespace Arena

/-- The identifier of the node with an id; an id outside the arena names the false terminal. -/
def identifierOf (a : Arena) (id : Option Nat) : String :=
  match id.bind a.at? with
  | some n => n.identifier
  | none => "terminal_false"

/-- The id of a child when it is an internal node of the arena. -/
def internalChild (a : Arena) (c : Option Nat) : Option Nat :=
  match c with
  | some c => match a.at? c with
    | some n => if n.isTerminal then none else some c
    | none => none
  | none => none

/-- The queue with the children not visited yet appended. -/
def enqueue (visited : Std.HashSet Nat) (cs : List (Option Nat)) (queue : Array Nat) :
    Array Nat :=
  cs.foldl (fun q c =>
    match c with
    | some c => if visited.contains c then q else q.push c
    | none => q) queue

/-- Marks, breadth first from the queue position `head`, the nodes consistent with `values`;
`fuel` bounds the number of nodes taken from the queue. -/
def markFrom (values : Assignment) : Nat → Array Nat → Nat → Std.HashSet Nat → Arena → Arena
  | 0, _, _, _, a => a
  | fuel + 1, queue, head, visited, a =>
    match queue[head]? with
    | none => a
    | some id =>
      if visited.contains id then markFrom values fuel queue (head + 1) visited a
      else
        let visited := visited.insert id
        match a.at? id with
        | none => markFrom values fuel queue (head + 1) visited a
        | some n =>
          let a := a.modifyNode id fun m => { m with highlight := true }
          markFrom values fuel (enqueue visited (n.followed values) queue) (head + 1) visited a

/-- Numbers, depth first from the stack, the internal children not numbered yet; `step` is the
next number and `fuel` bounds the number of nodes taken from the stack. -/
def numberFrom : Nat → List Nat → Std.HashSet Nat → Nat → Arena → Arena
  | 0, _, _, _, a => a
  | _ + 1, [], _, _, a => a
  | fuel + 1, id :: stack, visited, step, a =>
    match a.at? id with
    | none => numberFrom fuel stack visited step a
    | some n =>
      let setStep (s : Nat) (m : DNode) : DNode := { m with step := some s }
      let (a, visited, step, pushLow) : Arena × Std.HashSet Nat × Nat × Option Nat :=
        match a.internalChild n.low with
        | some c =>
          if visited.contains c then (a, visited, step, none)
          else (a.modifyNode c (setStep step), visited.insert c, step + 1, some c)
        | none => (a, visited, step, none)
      let (a, visited, step, stack) : Arena × Std.HashSet Nat × Nat × List Nat :=
        match a.internalChild n.high with
        | some c =>
          if visited.contains c then (a, visited, step, stack)
          else (a.modifyNode c (setStep step), visited.insert c, step + 1, c :: stack)
        | none => (a, visited, step, stack)
      let stack := match pushLow with
        | some c => c :: stack
        | none => stack
      numberFrom fuel stack visited step a

end Arena

namespace Diagram

/-- The failure for an operation on a kind that was not built. -/
def notBuilt (what : String) (k : Kind) : Failure :=
  .of (.invariant (what ++ " a " ++ k.name ++ " that was not built"))

/-- Marks the nodes of a kind's build that are consistent with `values`, after clearing the
marks of an earlier highlight, and remembers the assignment. -/
def highlight (k : Kind) (values : Assignment) : DiagramM (Except Failure Unit) := do
  let d ← get
  match d.built? k with
  | none => return .error (notBuilt "highlight on" k)
  | some _ =>
    let d := if d.highlighted.isSome then clearHighlight d else d
    match d.built? k with
    | none => return .error (notBuilt "highlight on" k)
    | some b =>
      let a := b.arena.markFrom values (2 * b.arena.nodes.size + 2) #[b.root] 0 {}
      set { d.setBuilt k (some { b with arena := a }) with highlighted := some values }
      return .ok ()

/-- Numbers the internal nodes of a kind's build for presentation; a terminal root gets no
number. -/
def assignSteps (k : Kind) : DiagramM (Except Failure Unit) := do
  let d ← get
  match d.built? k with
  | none => return .error (notBuilt "steps on" k)
  | some b =>
    match b.arena.at? b.root with
    | none => return .ok ()
    | some r =>
      if r.isTerminal then return .ok ()
      let a := b.arena.modifyNode b.root fun m => { m with step := some 0 }
      let a := a.numberFrom (a.nodes.size + 2) [b.root] {} 1
      set (d.setBuilt k (some { b with arena := a }))
      return .ok ()

/-- The description of a node of an arena. -/
def nodeView (a : Arena) (n : DNode) : NodeView :=
  let internal := !n.isTerminal
  { id := n.identifier, var := if internal then n.var else none, expr := n.text,
    level := n.level, step := n.step, highlight := n.highlight,
    low := if internal then some (a.identifierOf n.low) else none,
    high := if internal then some (a.identifierOf n.high) else none }

/-- The view of a kind's build, after numbering its nodes. -/
def view (k : Kind) : DiagramM (Except Failure View) := do
  match ← assignSteps k with
  | .error f => return .error f
  | .ok () =>
    let d ← get
    match d.built? k with
    | none => return .error (notBuilt "steps on" k)
    | some b =>
      let nodes := (walkOrder b.arena b.root).foldl (fun acc id =>
        match b.arena.at? id with
        | some n => insertByKey n.identifier (nodeView b.arena n) acc
        | none => acc) []
      return .ok { nodes := nodes, root := b.arena.identifierOf (some b.root),
                   vars := d.order, type := k.name }

/-- The edges of a kind's build in breadth-first order. -/
def edges (k : Kind) : DiagramM (Except Failure (List Edge)) := do
  let d ← get
  match d.built? k with
  | none => return .error (notBuilt "edges of" k)
  | some b =>
    return .ok ((walkOrder b.arena b.root).flatMap fun id =>
      match b.arena.at? id with
      | some n =>
        if n.isTerminal then []
        else
          let tail := n.identifier
          [⟨tail, b.arena.identifierOf n.low, "dashed"⟩,
            ⟨tail, b.arena.identifierOf n.high, "solid"⟩]
      | none => [])

/-- The fill colour of a node: gold when highlighted. -/
def fillColor (n : DNode) (normal : String) : String :=
  if n.highlight then "gold" else normal

/-- The DOT lines of one node of an arena. -/
def dotNode (a : Arena) (n : DNode) : String :=
  let name := Text.quote n.identifier
  if n.isTerminal then
    name ++ " [shape=box, label=" ++ Text.quote n.text ++ ", style=filled, fillcolor=" ++
      fillColor n "lightgray" ++ ", height=0.3, width=0.3];\n"
  else
    let step := match n.step with
      | some s => toString s
      | none => "-1"
    name ++ " [label=<\n\t<FONT POINT-SIZE=\"20\">" ++ n.var.getD "" ++
      "</FONT>\n\t<FONT POINT-SIZE=\"10\">[" ++ step ++ "]</FONT>\n>, style=filled, fillcolor=" ++
      fillColor n "lightblue" ++ "];\n" ++
      name ++ " -> " ++ Text.quote (a.identifierOf n.low) ++ " [style=dashed];\n" ++
      name ++ " -> " ++ Text.quote (a.identifierOf n.high) ++ " [style=solid];\n"

/-- The DOT text of a kind's build, after numbering its nodes. -/
def dot (k : Kind) : DiagramM (Except Failure String) := do
  match ← assignSteps k with
  | .error f => return .error f
  | .ok () =>
    let d ← get
    match d.built? k with
    | none => return .error (notBuilt "steps on" k)
    | some b =>
      let ids := (walkOrder b.arena b.root).mergeSort (· ≤ ·)
      let body := ids.foldl (fun acc id =>
        match b.arena.at? id with
        | some n => acc ++ dotNode b.arena n
        | none => acc) ""
      return .ok ("digraph " ++ k.name ++ " \x7b\n" ++ body ++ "\x7d\n")

end Diagram

end DecisionDiagrams
