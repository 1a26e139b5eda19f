/-
The arena of a build, seen as a decision graph.

An arena holds the nodes of one build, with ids from its base on. Seen as a decision graph, a
terminal is a leaf with its value and an internal node a test of its level, with its children.
When each internal node tests the variable that an order puts at its level, walking by the
names of the variables is walking the graph with the assignment that reads each level as its
variable.

* `Arena.at?_alloc`, `Arena.at?_modifyNode` — what allocating and changing a node do to the
  nodes of the arena.
* `Arena.graph` — the arena as a decision graph.
* `Arena.walk` — the walk of an assignment of the names, by the variables and children of the
  nodes.
* `Arena.walk_eq` — on nodes that test the variables of an order, the walk by names is the walk
  of the graph under `orderLevels`.
-/
import DecisionDiagrams.Diagram.Build
import DecisionDiagrams.Proofs.DecisionGraphs

namespace DecisionDiagrams

/-- The assignment of levels that gives each level the value of the variable an order puts
there. -/
def orderLevels (order : List String) (σ : String → Bool) (L : Nat) : Bool :=
  σ (order[L]?.getD "")

/-- A node as a node of a decision graph. -/
def DNode.shape (n : DNode) : Shape :=
  if n.isTerminal then .leaf n.terminalValue else .test n.level (n.low.getD 0) (n.high.getD 0)

namespace Arena

/-- The arena as a decision graph. -/
def graph (a : Arena) : Graph :=
  ⟨fun id => (a.at? id).map DNode.shape⟩

/-- One step of the walk of an assignment of the names: a terminal stays, an internal node
goes to its high child where its variable is true and to its low child elsewhere. -/
def follow (a : Arena) (σ : String → Bool) (id : Nat) : Nat :=
  match a.at? id with
  | some n =>
    if n.isTerminal then id
    else if σ (n.var.getD "") then n.high.getD id else n.low.getD id
  | none => id

/-- The node a walk by names from `id` is at after `k` steps. -/
def walk (a : Arena) (σ : String → Bool) : Nat → Nat → Nat
  | 0, id => id
  | k + 1, id => a.walk σ k (a.follow σ id)

/-! ### Nodes of an arena -/

theorem at?_of_lt_base {a : Arena} {id : Nat} (h : id < a.base) : a.at? id = none := by
  rw [at?, if_pos h]

theorem at?_of_ge_base {a : Arena} {id : Nat} (h : a.base ≤ id) :
    a.at? id = a.nodes[id - a.base]? := by
  rw [at?, if_neg (by omega)]

theorem at?_of_next_le {a : Arena} {id : Nat} (h : a.next ≤ id) : a.at? id = none := by
  rw [at?_of_ge_base (by unfold next at h; omega)]
  exact Array.getElem?_eq_none (by unfold next at h; omega)

theorem lt_next_of_at? {a : Arena} {id : Nat} {n : DNode} (h : a.at? id = some n) :
    a.base ≤ id ∧ id < a.next := by
  by_cases hb : id < a.base
  · rw [at?_of_lt_base hb] at h
    cases h
  by_cases hn : a.next ≤ id
  · rw [at?_of_next_le hn] at h
    cases h
  omega

@[simp] theorem alloc_fst (n : DNode) (a : Arena) : (a.alloc n).1 = a.next := rfl

@[simp] theorem alloc_base (n : DNode) (a : Arena) : (a.alloc n).2.base = a.base := rfl

@[simp] theorem alloc_next (n : DNode) (a : Arena) : (a.alloc n).2.next = a.next + 1 := by
  simp [alloc, next, Nat.add_assoc]

/-- Allocating puts the node, with its id, at the next id, and changes nothing else. -/
theorem at?_alloc (n : DNode) (a : Arena) (id : Nat) :
    (a.alloc n).2.at? id = if id = a.next then some { n with id := a.next } else a.at? id := by
  by_cases hb : id < a.base
  · rw [at?_of_lt_base (by simpa using hb), at?_of_lt_base hb, if_neg (by unfold next; omega)]
  · rw [at?_of_ge_base (by simpa using Nat.le_of_not_lt hb), at?_of_ge_base (Nat.le_of_not_lt hb)]
    simp only [alloc, Array.getElem?_push]
    by_cases hid : id = a.next
    · rw [if_pos (by unfold next at hid; omega), if_pos hid]
    · rw [if_neg (by unfold next at hid; omega), if_neg hid]

@[simp] theorem modifyNode_base (id : Nat) (f : DNode → DNode) (a : Arena) :
    (a.modifyNode id f).base = a.base := by
  unfold modifyNode
  split <;> rfl

@[simp] theorem modifyNode_next (id : Nat) (f : DNode → DNode) (a : Arena) :
    (a.modifyNode id f).next = a.next := by
  unfold modifyNode next
  split
  · rfl
  · simp

/-- Changing a node changes that node only. -/
theorem at?_modifyNode (id : Nat) (f : DNode → DNode) (a : Arena) (j : Nat) :
    (a.modifyNode id f).at? j = if j = id then (a.at? j).map f else a.at? j := by
  by_cases hb : j < a.base
  · rw [at?_of_lt_base (by simpa using hb), at?_of_lt_base hb]
    split <;> rfl
  · rw [at?_of_ge_base (by simpa using Nat.le_of_not_lt hb), at?_of_ge_base (Nat.le_of_not_lt hb)]
    unfold modifyNode
    split
    · rename_i hid
      rw [if_neg (by omega)]
    · simp only [Array.getElem?_modify]
      by_cases hj : j = id
      · rw [if_pos (by omega), if_pos hj]
      · rw [if_neg (by omega), if_neg hj]

/-! ### The graph of an arena -/

theorem graph_shape (a : Arena) (id : Nat) : a.graph.shape id = (a.at? id).map DNode.shape := rfl

theorem shape_internal {n : DNode} (h : n.isTerminal = false) :
    n.shape = .test n.level (n.low.getD 0) (n.high.getD 0) := by
  rw [DNode.shape, if_neg (by simp [h])]

theorem shape_terminal {n : DNode} (h : n.isTerminal = true) : n.shape = .leaf n.terminalValue := by
  rw [DNode.shape, if_pos h]

/-- On nodes whose tests read the variables of an order and whose children are set, a walk by
names follows the walk of the graph under the assignment reading each level as its variable. -/
theorem follow_eq {a : Arena} {order : List String} {σ : String → Bool} {id : Nat}
    (h : ∀ n, a.at? id = some n → n.isTerminal = false →
      n.var = order[n.level]? ∧ n.low.isSome ∧ n.high.isSome) :
    a.follow σ id = a.graph.step (orderLevels order σ) id := by
  unfold follow Graph.step orderLevels
  rw [graph_shape]
  rcases hn : a.at? id with _ | n
  · rfl
  · dsimp only [Option.map_some]
    cases ht : n.isTerminal
    · obtain ⟨hvar, hlo, hhi⟩ := h n hn ht
      rw [shape_internal ht, if_neg (by simp), hvar]
      obtain ⟨lo, hlo'⟩ := Option.isSome_iff_exists.1 hlo
      obtain ⟨hi, hhi'⟩ := Option.isSome_iff_exists.1 hhi
      simp only [hlo', hhi', Option.getD_some]
    · rw [shape_terminal ht, if_pos rfl]

/-- From a root whose reached tests read the variables of an order and have their children set,
the walk by names is the walk of the graph under the levels' variables. -/
theorem walk_eq {a : Arena} {order : List String} {root : Nat}
    (h : ∀ id n, a.graph.Reach root id → a.at? id = some n → n.isTerminal = false →
      n.var = order[n.level]? ∧ n.low.isSome ∧ n.high.isSome) (σ : String → Bool) :
    ∀ k id, a.graph.Reach root id → a.walk σ k id = a.graph.walk (orderLevels order σ) k id
  | 0, _, _ => rfl
  | k + 1, id, hid => by
    rw [walk, Graph.walk, follow_eq (h id · hid), walk_eq h σ k _ (hid.step _)]

end Arena

/-! ### Runs of a build -/

namespace Diagram

/-! The rules below hold for any state kept beside the simplifier's: a build's arena, or the
nodes of the first phase of a reduced build. -/

section Runs

variable {σ : Type}

theorem build_bind {α β : Type} (x : StateT σ EngineM α) (f : α → StateT σ EngineM β) (a : σ)
    (e : Engine) :
    ((x >>= f).run a).run e =
      ((f ((x.run a).run e).1.1).run ((x.run a).run e).1.2).run ((x.run a).run e).2 :=
  rfl

theorem build_pure {α : Type} (v : α) (a : σ) (e : Engine) :
    ((pure v : StateT σ EngineM α).run a).run e = ((v, a), e) :=
  rfl

theorem build_get (a : σ) (e : Engine) : ((get : StateT σ EngineM σ).run a).run e = ((a, a), e) :=
  rfl

theorem build_set (a' a : σ) (e : Engine) :
    ((set a' : StateT σ EngineM PUnit).run a).run e = (((), a'), e) :=
  rfl

theorem build_modify (f : σ → σ) (a : σ) (e : Engine) :
    ((modify f : StateT σ EngineM PUnit).run a).run e = (((), f a), e) :=
  rfl

theorem build_modifyGet {α : Type} (f : σ → α × σ) (a : σ) (e : Engine) :
    ((modifyGet f : StateT σ EngineM α).run a).run e = (f a, e) :=
  rfl

/-- A simplifier step leaves the state beside it as it is. -/
theorem build_lift {α : Type} (m : EngineM α) (a : σ) (e : Engine) :
    ((StateT.lift m : StateT σ EngineM α).run a).run e = (((m.run e).1, a), (m.run e).2) :=
  rfl

end Runs

/-- A simplifier step in a build leaves the arena as it is. -/
theorem build_liftEngine {α : Type} (m : EngineM α) (a : Arena) (e : Engine) :
    ((liftEngine m).run a).run e = (((m.run e).1, a), (m.run e).2) :=
  rfl

end Diagram

end DecisionDiagrams
