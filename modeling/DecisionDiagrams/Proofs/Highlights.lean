/-
Highlights of a diagram.

A highlight under an assignment marks the nodes of one build that lie on a path from its root
consistent with the assignment: a path goes on from a node whose variable is assigned to the
child that the value picks, and from a node whose variable is not assigned to both children.
The marking is a breadth-first search with a queue, a set of visited ids and a bound on the
number of ids it takes from the queue; the bound, twice the number of nodes and two, always
suffices, since each node taken for the first time queues at most two children.

Over a diagram's life the marks follow the last highlight: a successful highlight of a kind
marks exactly the consistent nodes of that kind and nothing else, and remembers the
assignment, until a clear, a successful build or a change of order removes every mark and the
assignment. Every other operation keeps the marks.

* `Arena.Consistent` — the nodes on paths consistent with an assignment.
* `Arena.markFrom_marks` — the search marks exactly those nodes.
* `Diagram.MarkedBy` — the marks of a diagram are those of a highlight, or there are none.
* `Diagram.Action.lastHighlight` — the last highlight after an action, by the rule above.
* `Diagram.highlight_marks_consistent_paths` — the main statement.
-/
import DecisionDiagrams.Proofs.DiagramIdentifiers

namespace DecisionDiagrams

/-! ### Paths consistent with an assignment -/

namespace Arena

/-- The nodes reached from `root` along the paths a highlight under `values` takes: at a node
whose variable is assigned, the path goes to the high child when the value is true and to the
low child when it is false; at a node whose variable is not assigned, to either child. -/
inductive Consistent (a : Arena) (values : Assignment) (root : Nat) : Nat → Prop
  | root : Consistent a values root root
  | high {p c : Nat} {n : DNode} {x : String} : Consistent a values root p → a.at? p = some n →
      n.var = some x → n.high = some c → values.get? x ≠ some false → Consistent a values root c
  | low {p c : Nat} {n : DNode} {x : String} : Consistent a values root p → a.at? p = some n →
      n.var = some x → n.low = some c → values.get? x ≠ some true → Consistent a values root c

end Arena

/-- The children a highlight goes on to are those of the consistent paths. -/
theorem DNode.mem_followed {values : Assignment} {n : DNode} {c : Nat} :
    some c ∈ n.followed values ↔ ∃ x, n.var = some x ∧
      (n.high = some c ∧ values.get? x ≠ some false ∨ n.low = some c ∧ values.get? x ≠ some true) := by
  unfold DNode.followed DNode.isTerminal
  cases hv : n.var with
  | none => simp
  | some x =>
    simp only [Option.isNone_some, Bool.false_eq_true, if_false, Option.getD_some]
    cases hg : values.get? x with
    | none => simp [hg, eq_comm, or_comm]
    | some v => cases v <;> simp [hg, eq_comm]

theorem DNode.length_followed (values : Assignment) (n : DNode) : (n.followed values).length ≤ 2 := by
  unfold DNode.followed
  split
  · simp
  · split <;> simp

theorem DNode.followed_plain (values : Assignment) (n : DNode) :
    n.plain.followed values = n.followed values := rfl

namespace Arena

variable {a b : Arena} {values : Assignment} {root : Nat}

theorem Consistent.follow {p c : Nat} {n : DNode} (hp : a.Consistent values root p)
    (hn : a.at? p = some n) (hc : some c ∈ n.followed values) : a.Consistent values root c := by
  obtain ⟨x, hx, ⟨hh, hv⟩ | ⟨hl, hv⟩⟩ := DNode.mem_followed.1 hc
  · exact .high hp hn hx hh hv
  · exact .low hp hn hx hl hv

/-- Consistent paths read the variables and children of nodes only, so arenas equal up to marks
and numbers have the same ones. -/
theorem Restyled.consistent (h : a.Restyled b) {j : Nat} (hj : a.Consistent values root j) :
    b.Consistent values root j := by
  induction hj with
  | root => exact .root
  | high _ hn hx hh hv ih =>
    obtain ⟨m, hm, hplain⟩ := h.at?_some hn
    have hvar : m.plain.var = _ := congrArg DNode.var hplain
    have hhigh : m.plain.high = _ := congrArg DNode.high hplain
    exact .high ih hm (hvar.trans hx) (hhigh.trans hh) hv
  | low _ hn hx hl hv ih =>
    obtain ⟨m, hm, hplain⟩ := h.at?_some hn
    have hvar : m.plain.var = _ := congrArg DNode.var hplain
    have hlow : m.plain.low = _ := congrArg DNode.low hplain
    exact .low ih hm (hvar.trans hx) (hlow.trans hl) hv

theorem Restyled.consistent_iff (h : a.Restyled b) {j : Nat} :
    a.Consistent values root j ↔ b.Consistent values root j :=
  ⟨h.consistent, h.symm.consistent⟩

/-! ### The queue of the search -/

theorem enqueue_cons_none (visited : Std.HashSet Nat) (cs : List (Option Nat)) (queue : Array Nat) :
    enqueue visited (none :: cs) queue = enqueue visited cs queue := rfl

theorem enqueue_cons_some (visited : Std.HashSet Nat) (c : Nat) (cs : List (Option Nat))
    (queue : Array Nat) : enqueue visited (some c :: cs) queue =
      enqueue visited cs (if visited.contains c then queue else queue.push c) := rfl

/-- The queue grows by the children not visited yet, in order. -/
theorem enqueue_eq (visited : Std.HashSet Nat) (cs : List (Option Nat)) (queue : Array Nat) :
    enqueue visited cs queue =
      queue ++ ((cs.filterMap id).filter fun c => !visited.contains c).toArray := by
  induction cs generalizing queue with
  | nil => simp [enqueue]
  | cons c cs ih =>
    cases c with
    | none => simp [enqueue_cons_none, ih]
    | some c =>
      rw [enqueue_cons_some, ih]
      by_cases hc : visited.contains c <;> simp [hc]

theorem size_enqueue_le (visited : Std.HashSet Nat) (cs : List (Option Nat)) (queue : Array Nat) :
    (enqueue visited cs queue).size ≤ queue.size + cs.length := by
  simp only [enqueue_eq, Array.size_append, List.size_toArray]
  have h₁ := List.length_filter_le (fun c => !visited.contains c) (cs.filterMap id)
  have h₂ := List.length_filterMap_le id cs
  omega

theorem enqueue_getElem?_of_lt (visited : Std.HashSet Nat) (cs : List (Option Nat))
    {queue : Array Nat} {i : Nat} (hi : i < queue.size) :
    (enqueue visited cs queue)[i]? = queue[i]? := by
  rw [enqueue_eq, Array.getElem?_append_left hi]

/-- An entry of the grown queue was there before, or is a child given. -/
theorem mem_enqueue {visited : Std.HashSet Nat} {cs : List (Option Nat)} {queue : Array Nat}
    {i c : Nat} (h : (enqueue visited cs queue)[i]? = some c) :
    queue[i]? = some c ∨ some c ∈ cs := by
  rw [enqueue_eq] at h
  by_cases hi : i < queue.size
  · rw [Array.getElem?_append_left hi] at h
    exact .inl h
  · rw [Array.getElem?_append_right (Nat.le_of_not_lt hi), List.getElem?_toArray] at h
    have hc := List.mem_of_getElem? h
    simp only [List.mem_filter, List.mem_filterMap, id] at hc
    obtain ⟨⟨c', hc', rfl⟩, -⟩ := hc
    exact .inr hc'

/-- A child given is visited, or queued after the old entries. -/
theorem enqueue_covers {visited : Std.HashSet Nat} {cs : List (Option Nat)} {queue : Array Nat}
    {c : Nat} (hc : some c ∈ cs) :
    c ∈ visited ∨ ∃ i, queue.size ≤ i ∧ (enqueue visited cs queue)[i]? = some c := by
  by_cases hv : c ∈ visited
  · exact .inl hv
  · right
    have hmem : c ∈ (cs.filterMap id).filter fun c => !visited.contains c := by
      simp only [List.mem_filter, List.mem_filterMap, id]
      rw [Std.HashSet.mem_iff_contains, Bool.not_eq_true] at hv
      exact ⟨⟨_, hc, rfl⟩, by rw [hv]; rfl⟩
    obtain ⟨i, hi, hget⟩ := List.getElem_of_mem hmem
    refine ⟨queue.size + i, Nat.le_add_right _ _, ?_⟩
    rw [enqueue_eq, Array.getElem?_append_right (Nat.le_add_right _ _), Nat.add_sub_cancel_left,
      List.getElem?_toArray, List.getElem?_eq_getElem hi, hget]

/-! ### The search -/

/-- An id the search has visited, or that waits in the queue from `head` on. -/
def Seen (queue : Array Nat) (head : Nat) (visited : Std.HashSet Nat) (c : Nat) : Prop :=
  c ∈ visited ∨ ∃ i, head ≤ i ∧ queue[i]? = some c

/-- Taking the entry at `head` leaves everything seen: the entry is visited now, and the later
entries stay in place. -/
theorem Seen.advance {queue queue' : Array Nat} {head id c : Nat} {visited visited' : Std.HashSet Nat}
    (h : Seen queue head visited c) (hid : queue[head]? = some id) (hv : ∀ x ∈ visited, x ∈ visited')
    (hid' : id ∈ visited') (hq : ∀ i, i < queue.size → queue'[i]? = queue[i]?) :
    Seen queue' (head + 1) visited' c := by
  rcases h with hc | ⟨i, hi, hget⟩
  · exact .inl (hv c hc)
  · rcases Nat.eq_or_lt_of_le hi with rfl | hlt
    · rw [hid] at hget
      cases hget
      exact .inl hid'
    · have hsize : i < queue.size := by
        rcases Nat.lt_or_ge i queue.size with hs | hs
        · exact hs
        · rw [Array.getElem?_eq_none hs] at hget; cases hget
      exact .inr ⟨i, hlt, (hq i hsize).trans hget⟩

/-- What the search keeps, for the arena `a₀` it started on: the arena is `a₀` up to marks, its
marked nodes are the visited ones, every id queued or visited lies on a consistent path, and
the root and every child a visited node's paths go on to are seen. -/
structure MarkState (a₀ : Arena) (values : Assignment) (root : Nat) (queue : Array Nat)
    (head : Nat) (visited : Std.HashSet Nat) (a : Arena) : Prop where
  restyled : a.Restyled a₀
  marked : ∀ j n, a.at? j = some n → (n.highlight = true ↔ j ∈ visited)
  queued : ∀ i j : Nat, queue[i]? = some j → a₀.Consistent values root j
  consistent : ∀ j ∈ visited, a₀.Consistent values root j
  root_seen : Seen queue head visited root
  closed : ∀ j ∈ visited, ∀ n, a₀.at? j = some n → ∀ c, some c ∈ n.followed values →
    Seen queue head visited c

/-- The nodes of `a₀` the search has not visited, counted by their positions. -/
def unvisited (a₀ : Arena) (visited : Std.HashSet Nat) : Nat :=
  ((Finset.range a₀.nodes.size).filter fun i => a₀.base + i ∉ visited).card

theorem unvisited_empty (a₀ : Arena) : unvisited a₀ ∅ = a₀.nodes.size := by
  unfold unvisited
  rw [Finset.filter_true_of_mem fun i _ => Std.HashSet.not_mem_empty, Finset.card_range]

theorem unvisited_insert_le (a₀ : Arena) (visited : Std.HashSet Nat) (id : Nat) :
    unvisited a₀ (visited.insert id) ≤ unvisited a₀ visited := by
  refine Finset.card_le_card fun i => ?_
  simp only [Finset.mem_filter, Std.HashSet.mem_insert, not_or]
  exact fun ⟨hi, _, hv⟩ => ⟨hi, hv⟩

/-- Visiting a node of `a₀` for the first time leaves one fewer to visit. -/
theorem unvisited_insert_lt {a₀ : Arena} {visited : Std.HashSet Nat} {id : Nat}
    (hid : (a₀.at? id).isSome) (hv : id ∉ visited) :
    unvisited a₀ (visited.insert id) < unvisited a₀ visited := by
  obtain ⟨hb, hn⟩ := isSome_at?_iff.1 hid
  have hsub : ((Finset.range a₀.nodes.size).filter fun i => a₀.base + i ∉ visited.insert id) ⊆
      (Finset.range a₀.nodes.size).filter fun i => a₀.base + i ∉ visited := fun i => by
    simp only [Finset.mem_filter, Std.HashSet.mem_insert, not_or]
    exact fun ⟨hi, _, hv⟩ => ⟨hi, hv⟩
  refine Finset.card_lt_card ((Finset.ssubset_iff_of_subset hsub).2 ⟨id - a₀.base, ?_, ?_⟩)
  · simp only [Finset.mem_filter, Finset.mem_range, Nat.add_sub_cancel' hb]
    exact ⟨by unfold next at hn; omega, hv⟩
  · simp [Nat.add_sub_cancel' hb]

/-- The search at its start, on an arena with no node marked. -/
theorem markState_start (a : Arena) (values : Assignment) (root : Nat)
    (hu : ∀ j n, a.at? j = some n → n.highlight = false) :
    MarkState a values root #[root] 0 ∅ a where
  restyled := .refl a
  marked j n hn := by simp [hu j n hn, Std.HashSet.not_mem_empty]
  queued i j h := by
    rcases i with _ | i
    · cases h; exact .root
    · simp at h
  consistent j hj := absurd hj Std.HashSet.not_mem_empty
  root_seen := .inr ⟨0, Nat.le_refl _, rfl⟩
  closed j hj := absurd hj Std.HashSet.not_mem_empty

variable {a₀ : Arena} {queue : Array Nat} {head id : Nat} {visited : Std.HashSet Nat}

/-- An entry visited before is passed over. -/
theorem MarkState.skip (h : MarkState a₀ values root queue head visited a)
    (hid : queue[head]? = some id) (hv : id ∈ visited) :
    MarkState a₀ values root queue (head + 1) visited a where
  restyled := h.restyled
  marked := h.marked
  queued := h.queued
  consistent := h.consistent
  root_seen := h.root_seen.advance hid (fun _ hx => hx) hv fun _ _ => rfl
  closed j hj n hn c hc := (h.closed j hj n hn c hc).advance hid (fun _ hx => hx) hv fun _ _ => rfl

/-- An entry that is no node is visited and marks nothing. -/
theorem MarkState.missing (h : MarkState a₀ values root queue head visited a)
    (hid : queue[head]? = some id) (hn : a.at? id = none) :
    MarkState a₀ values root queue (head + 1) (visited.insert id) a := by
  have hsub : ∀ x ∈ visited, x ∈ visited.insert id := fun _ hx => Std.HashSet.mem_insert.2 (.inr hx)
  have hin : id ∈ visited.insert id := Std.HashSet.mem_insert.2 (.inl (beq_self_eq_true id))
  refine ⟨h.restyled, fun j n hj => ?_, h.queued, fun j hj => ?_, ?_, fun j hj n hn' c hc => ?_⟩
  · have hne : id ≠ j := by rintro rfl; rw [hn] at hj; cases hj
    rw [h.marked j n hj, Std.HashSet.mem_insert, beq_iff_eq]
    simp [hne]
  · rcases Std.HashSet.mem_insert.1 hj with hj | hj
    · rw [← beq_iff_eq.1 hj]; exact h.queued head id hid
    · exact h.consistent j hj
  · exact h.root_seen.advance hid hsub hin fun _ _ => rfl
  · rcases Std.HashSet.mem_insert.1 hj with hj | hj
    · -- the entry is no node of the arena, so it has no children
      rw [← beq_iff_eq.1 hj] at hn'
      obtain ⟨m, hm, -⟩ := h.restyled.symm.at?_some hn'
      rw [hn] at hm
      cases hm
    · exact (h.closed j hj n hn' c hc).advance hid hsub hin fun _ _ => rfl

/-- An entry that is a node not visited yet is marked, and the children its paths go on to that
are not visited are queued. -/
theorem MarkState.mark {n : DNode} (h : MarkState a₀ values root queue head visited a)
    (hid : queue[head]? = some id) (hv : id ∉ visited) (hn : a.at? id = some n) :
    MarkState a₀ values root (enqueue (visited.insert id) (n.followed values) queue) (head + 1)
      (visited.insert id) (a.modifyNode id fun m => { m with highlight := true }) := by
  have hsub : ∀ x ∈ visited, x ∈ visited.insert id := fun _ hx => Std.HashSet.mem_insert.2 (.inr hx)
  have hin : id ∈ visited.insert id := Std.HashSet.mem_insert.2 (.inl (beq_self_eq_true id))
  have hprefix : ∀ i, i < queue.size →
      (enqueue (visited.insert id) (n.followed values) queue)[i]? = queue[i]? :=
    fun _ hi => enqueue_getElem?_of_lt _ _ hi
  have hcons := h.queued head id hid
  obtain ⟨n₀, hn₀, hplain⟩ := h.restyled.at?_some hn
  have hfollow : n₀.followed values = n.followed values := by
    rw [← DNode.followed_plain, hplain, DNode.followed_plain]
  refine ⟨(restyled_modifyNode _ (f := fun m => { m with highlight := true }) (fun _ => rfl) a).trans
    h.restyled, fun j m hj => ?_,
    fun i j hj => ?_, fun j hj => ?_, h.root_seen.advance hid hsub hin hprefix,
    fun j hj m hm c hc => ?_⟩
  · rw [at?_modifyNode] at hj
    rw [Std.HashSet.mem_insert, beq_iff_eq]
    split at hj
    · next hji =>
      subst hji
      rw [hn] at hj
      cases hj
      simp
    · next hji =>
      rw [h.marked j m hj]
      simp [Ne.symm hji]
  · rcases mem_enqueue hj with hj | hj
    · exact h.queued i j hj
    · exact hcons.follow hn₀ (hfollow ▸ hj)
  · rcases Std.HashSet.mem_insert.1 hj with hj | hj
    · rw [← beq_iff_eq.1 hj]; exact hcons
    · exact h.consistent j hj
  · rcases Std.HashSet.mem_insert.1 hj with hj | hj
    · -- the node just visited: its children are visited or queued now
      rw [← beq_iff_eq.1 hj, hn₀] at hm
      cases hm
      rcases @enqueue_covers (visited.insert id) _ queue c (hfollow ▸ hc) with hc' | ⟨i, hi, hget⟩
      · exact .inl hc'
      · refine .inr ⟨i, Nat.le_trans ?_ hi, hget⟩
        have : head < queue.size := by
          rcases Nat.lt_or_ge head queue.size with hs | hs
          · exact hs
          · rw [Array.getElem?_eq_none hs] at hid; cases hid
        omega
    · exact (h.closed j hj m hm c hc).advance hid hsub hin hprefix

/-- With nothing left in the queue, the marked nodes are exactly the consistent ones: the
visited ids are closed under the children of consistent paths, so by induction on a path
every consistent node is visited. -/
theorem MarkState.done (h : MarkState a₀ values root queue head visited a)
    (hq : queue.size ≤ head) {j : Nat} {n : DNode} (hj : a.at? j = some n) :
    n.highlight = true ↔ a₀.Consistent values root j := by
  have hseen : ∀ {c}, Seen queue head visited c → c ∈ visited := by
    rintro c (hc | ⟨i, hi, hget⟩)
    · exact hc
    · rw [Array.getElem?_eq_none (Nat.le_trans hq hi)] at hget; cases hget
  have hvisits : ∀ c, a₀.Consistent values root c → c ∈ visited := by
    intro c hc
    induction hc with
    | root => exact hseen h.root_seen
    | high _ hp hx hh hv ih =>
      exact hseen (h.closed _ ih _ hp _ (DNode.mem_followed.2 ⟨_, hx, .inl ⟨hh, hv⟩⟩))
    | low _ hp hx hl hv ih =>
      exact hseen (h.closed _ ih _ hp _ (DNode.mem_followed.2 ⟨_, hx, .inr ⟨hl, hv⟩⟩))
  rw [h.marked j n hj]
  exact ⟨h.consistent j, hvisits j⟩

/-- The search marks exactly the consistent nodes when its bound covers the queue and twice the
nodes not visited yet: each step takes one entry, and a node taken for the first time queues at
most two children and leaves one fewer node to visit. -/
theorem markFrom_marks (fuel : Nat) (queue : Array Nat) (head : Nat) (visited : Std.HashSet Nat)
    (a : Arena) (h : MarkState a₀ values root queue head visited a)
    (hfuel : queue.size + 2 * unvisited a₀ visited ≤ fuel + head) {j : Nat} {n : DNode}
    (hj : (markFrom values fuel queue head visited a).at? j = some n) :
    n.highlight = true ↔ a₀.Consistent values root j := by
  fun_induction markFrom values fuel queue head visited a with
  | case1 queue head visited a => exact h.done (by omega) hj
  | case2 fuel queue head visited a hnone =>
    exact h.done (Nat.le_of_not_lt fun hs => by rw [Array.getElem?_eq_getElem hs] at hnone; cases hnone) hj
  | case3 fuel queue head visited a id hid hv ih =>
    exact ih (h.skip hid (Std.HashSet.mem_iff_contains.2 hv)) (by omega) hj
  | case4 fuel queue head visited a id hid hv vis hn ih =>
    have hle : unvisited a₀ vis ≤ unvisited a₀ visited := unvisited_insert_le a₀ visited id
    exact ih (h.missing hid hn) (by omega) hj
  | case5 fuel queue head visited a id hid hv vis n' hn _ ih =>
    have hv' : id ∉ visited := fun hm => hv (Std.HashSet.mem_iff_contains.1 hm)
    have hlt : unvisited a₀ vis < unvisited a₀ visited :=
      unvisited_insert_lt (h.restyled.isSome (by rw [hn]; rfl)) hv'
    have hsize : (enqueue vis (n'.followed values) queue).size ≤
        queue.size + (n'.followed values).length := size_enqueue_le _ _ _
    have hlen := DNode.length_followed values n'
    exact ih (h.mark hid hv' hn) (by omega) hj

/-- A highlight's search from the root of an arena with no node marked marks exactly the nodes
on the paths consistent with the assignment. -/
theorem highlight_marks (a : Arena) (values : Assignment) (root : Nat)
    (hu : ∀ j n, a.at? j = some n → n.highlight = false) {j : Nat} {n : DNode}
    (hj : (a.markFrom values (2 * a.nodes.size + 2) #[root] 0 {}).at? j = some n) :
    n.highlight = true ↔ a.Consistent values root j := by
  refine markFrom_marks _ _ _ _ a (markState_start a values root hu) ?_ hj
  rw [unvisited_empty]
  simp
  omega

/-- Clearing the marks of an arena leaves its nodes unmarked. -/
theorem at?_unmarked (a : Arena) (j : Nat) :
    a.unmarked.at? j = (a.at? j).map fun n => { n with highlight := false } := by
  by_cases hj : j < a.base
  · rw [at?_of_lt_base (a := a.unmarked) hj, at?_of_lt_base hj]
    rfl
  · rw [at?_of_ge_base (a := a.unmarked) (Nat.le_of_not_lt hj), at?_of_ge_base (Nat.le_of_not_lt hj)]
    simp [unmarked]

end Arena

namespace Diagram

open Arena

/-! ### The marks of a diagram -/

/-- The marks of a diagram follow `h`, a highlight of a kind under an assignment, or none: the
diagram remembers the assignment and holds a build of the kind, and a node of a build is marked
exactly when it is of that kind and on a path from its root consistent with the assignment. -/
structure MarkedBy (h : Option (Kind × Assignment)) (d : Diagram) : Prop where
  highlighted : d.highlighted = h.map Prod.snd
  built : ∀ k values, h = some (k, values) → (d.built? k).isSome
  marked : ∀ k b, d.built? k = some b → ∀ j n, b.arena.at? j = some n →
    (n.highlight = true ↔ ∃ values, h = some (k, values) ∧ b.arena.Consistent values b.root j)

/-- Two diagrams with the same order, the same assignment remembered, and the same builds up to
the numbers of their nodes. -/
structure SameMarks (d d' : Diagram) : Prop where
  order : d'.order = d.order
  highlighted : d'.highlighted = d.highlighted
  built : ∀ k, (d'.built? k).isSome = (d.built? k).isSome
  renumbered : ∀ k b', d'.built? k = some b' →
    ∃ b, d.built? k = some b ∧ b'.root = b.root ∧ b'.arena.Renumbered b.arena

variable {d d' d'' : Diagram} {h : Option (Kind × Assignment)}

namespace SameMarks

theorem refl (d : Diagram) : SameMarks d d :=
  ⟨rfl, rfl, fun _ => rfl, fun _ b hb => ⟨b, hb, rfl, .refl _⟩⟩

theorem trans (h₁ : SameMarks d d') (h₂ : SameMarks d' d'') : SameMarks d d'' := by
  refine ⟨h₂.order.trans h₁.order, h₂.highlighted.trans h₁.highlighted,
    fun k => (h₂.built k).trans (h₁.built k), fun k b'' hb'' => ?_⟩
  obtain ⟨b', hb', hr', hn'⟩ := h₂.renumbered k b'' hb''
  obtain ⟨b, hb, hr, hn⟩ := h₁.renumbered k b' hb'
  exact ⟨b, hb, hr'.trans hr, hn'.trans hn⟩

theorem withEngine (d : Diagram) (e : Engine) : SameMarks d { d with engine := e } :=
  ⟨rfl, rfl, fun k => by cases k <;> rfl, fun k b hb => ⟨b, by cases k <;> exact hb, rfl, .refl _⟩⟩

end SameMarks

/-- Marks and consistent paths read nothing that numbering changes. -/
theorem MarkedBy.of_sameMarks (hm : MarkedBy h d) (hs : SameMarks d d') : MarkedBy h d' := by
  refine ⟨hs.highlighted.trans hm.highlighted, fun k values hk => ?_, fun k b' hb' j n' hj => ?_⟩
  · rw [hs.built k]
    exact hm.built k values hk
  · obtain ⟨b, hb, hroot, hnum⟩ := hs.renumbered k b' hb'
    obtain ⟨n, hn, hun⟩ := hnum.at?_some hj
    have hhl : n.unnumbered.highlight = n'.unnumbered.highlight := congrArg DNode.highlight hun
    rw [← show n.highlight = n'.highlight from hhl, hm.marked k b hb j n hn, hroot]
    simp only [(Restyled.of_renumbered hnum).consistent_iff]

/-- No mark and no assignment remembered. -/
theorem markedBy_none (hh : d.highlighted = none)
    (hu : ∀ k b, d.built? k = some b → ∀ j n, b.arena.at? j = some n → n.highlight = false) :
    MarkedBy none d where
  highlighted := hh
  built _ _ hk := by cases hk
  marked k b hb j n hj := by simp [hu k b hb j n hj]

theorem MarkedBy.unmarked (hm : MarkedBy none d) {k : Kind} {b : Built} (hb : d.built? k = some b)
    {j : Nat} {n : DNode} (hj : b.arena.at? j = some n) : n.highlight = false := by
  simpa using hm.marked k b hb j n hj

/-- Clearing the highlight leaves no mark. -/
theorem markedBy_clearHighlight (d : Diagram) : MarkedBy none (clearHighlight d) := by
  refine markedBy_none rfl fun k b hb j n hj => ?_
  rw [built?_clearHighlight] at hb
  obtain ⟨b₀, -, rfl⟩ := Option.map_eq_some_iff.1 hb
  rw [at?_unmarked] at hj
  obtain ⟨n₀, -, rfl⟩ := Option.map_eq_some_iff.1 hj
  rfl

/-! ### The operations -/

theorem build_order (k : Kind) (d : Diagram) : ((build k).run d).2.order = d.order := by
  obtain ⟨r, a, e, -, hst⟩ := build_state k d
  rw [hst]
  cases r with
  | error f => rfl
  | ok root => cases k <;> rfl

/-- A successful build leaves no mark, whatever it finds: it clears the marks and installs an
arena with none; a failed build changes the engine only. -/
theorem build_markedBy (k : Kind) (hm : MarkedBy h d) :
    MarkedBy (if ((build k).run d).1.isOk then none else h) ((build k).run d).2 := by
  obtain ⟨r, a, e, hrun, hst⟩ := build_state k d
  rw [hst]
  cases r with
  | error f => exact hm.of_sameMarks (.withEngine d e)
  | ok root =>
    have hfresh := (runBuild_fresh d k d.order d.next d.engine).1
    rw [hrun] at hfresh
    have hclear := markedBy_clearHighlight { d with engine := e }
    refine markedBy_none (by cases k <;> rfl) fun k' b hb j n hj => ?_
    by_cases hk : k' = k
    · subst hk
      rw [built?_install_self] at hb
      cases hb
      exact hfresh.unmarked j n hj
    · rw [built?_install_of_ne hk] at hb
      exact hclear.unmarked hb hj

theorem measure_sameMarks (k : Kind) (o : List String) (d : Diagram) :
    SameMarks d ((measure k o).run d).2 := by
  obtain ⟨e, hst⟩ := measure_state k o d
  rw [hst]
  exact .withEngine d e

/-- The search measures orders only. -/
theorem searchOrder_sameMarks (k : Kind) (s : String) (mp : Nat) (d : Diagram) :
    SameMarks d ((searchOrder k s mp).run d).2 :=
  searchOrder_preserves (fun o d₂ h₂ => h₂.trans (measure_sameMarks k o d₂)) s mp d (.refl d)

theorem assignSteps_sameMarks (k : Kind) (d : Diagram) : SameMarks d ((assignSteps k).run d).2 := by
  rw [assignSteps_run]
  cases hb : d.built? k with
  | none => exact .refl d
  | some b =>
    dsimp only
    cases b.arena.at? b.root with
    | none => exact .refl d
    | some r =>
      dsimp only
      split
      · exact .refl d
      · refine ⟨by cases k <;> rfl, by cases k <;> rfl, fun k' => ?_, fun k' b' hb' => ?_⟩
        · by_cases hk : k' = k
          · subst hk
            rw [hb, built?_setBuilt]
            rfl
          · rw [built?_setBuilt_of_ne d hk]
        · by_cases hk : k' = k
          · subst hk
            rw [built?_setBuilt] at hb'
            cases hb'
            exact ⟨b, hb, rfl, numbered_renumbered b.arena b.root⟩
          · rw [built?_setBuilt_of_ne d hk] at hb'
            exact ⟨b', hb', rfl, .refl _⟩

/-- A highlight of a kind that is not built fails and changes nothing. -/
theorem highlight_of_not_built {k : Kind} (hb : d.built? k = none) (values : Assignment) :
    (highlight k values).run d = (.error (notBuilt "highlight on" k), d) := by
  unfold highlight
  rw [StateT.run_bind, StateT.run_get, pure_bind]
  dsimp only
  rw [hb]
  rfl

/-- A highlight of a built kind clears the marks of an earlier highlight, marks the kind's
build from its root and remembers the assignment. -/
theorem highlight_of_built {k : Kind} {b : Built} (hb : d.built? k = some b) (values : Assignment) :
    ∃ b₁, (if d.highlighted.isSome then clearHighlight d else d).built? k = some b₁ ∧
      (highlight k values).run d = (.ok (),
        { (if d.highlighted.isSome then clearHighlight d else d).setBuilt k
            (some { b₁ with
              arena := b₁.arena.markFrom values (2 * b₁.arena.nodes.size + 2) #[b₁.root] 0 {} })
          with highlighted := some values }) := by
  have hsome : ((if d.highlighted.isSome then clearHighlight d else d).built? k).isSome := by
    split
    · rw [built?_clearHighlight, hb]; rfl
    · rw [hb]; rfl
  obtain ⟨b₁, hb₁⟩ := Option.isSome_iff_exists.1 hsome
  refine ⟨b₁, hb₁, ?_⟩
  unfold highlight
  rw [StateT.run_bind, StateT.run_get, pure_bind]
  dsimp only
  rw [hb]
  dsimp only
  rw [hb₁]
  rfl

/-- After a highlight that succeeds, the marks follow it. -/
theorem highlight_markedBy (k : Kind) (values : Assignment) (hm : MarkedBy h d) :
    MarkedBy (if ((highlight k values).run d).1.isOk then some (k, values) else h)
      ((highlight k values).run d).2 := by
  cases hb : d.built? k with
  | none =>
    rw [highlight_of_not_built hb]
    exact hm
  | some b =>
    obtain ⟨b₁, hb₁, hrun⟩ := highlight_of_built hb values
    have hok : ((highlight k values).run d).1.isOk = true := by rw [hrun]; rfl
    rw [if_pos hok, hrun]
    -- before marking, no build has a mark: they were cleared, or there was no highlight
    have hclean : ∀ k' b', (if d.highlighted.isSome then clearHighlight d else d).built? k' = some b' →
        ∀ j n, b'.arena.at? j = some n → n.highlight = false := by
      intro k' b' hb' j n hj
      split at hb'
      · exact (markedBy_clearHighlight d).unmarked hb' hj
      · rename_i hh
        have hnone : h = none := by
          have := hm.highlighted
          cases h with
          | none => rfl
          | some _ => simp [this] at hh
        exact (hnone ▸ hm).unmarked hb' hj
    refine ⟨rfl, fun k' v hk => ?_, fun k' b' hb' j n hj => ?_⟩
    · obtain ⟨rfl, -⟩ := Prod.mk.inj (Option.some.inj hk)
      change (((_ : Diagram).setBuilt k _).built? k).isSome
      rw [built?_setBuilt]
      rfl
    · change ((_ : Diagram).setBuilt k _).built? k' = some b' at hb'
      by_cases hk : k' = k
      · subst hk
        rw [built?_setBuilt] at hb'
        cases hb'
        dsimp only at hj ⊢
        rw [highlight_marks b₁.arena values b₁.root (hclean k' b₁ hb₁) hj]
        simp [(markFrom_restyled values (2 * b₁.arena.nodes.size + 2) #[b₁.root] 0 ∅
          b₁.arena).consistent_iff]
      · rw [built?_setBuilt_of_ne _ hk] at hb'
        rw [hclean k' b' hb' j n hj]
        simp [Ne.symm hk]

/-- An automatic order measures orders, takes the order found and builds the kind for it: the
marks go when the order changes or the build succeeds. -/
theorem autoOrder_markedBy (k : Kind) (s : String) (mp : Nat) (hm : MarkedBy h d) :
    MarkedBy (if ((autoOrder k s mp).run d).1.isOk ∨ ((autoOrder k s mp).run d).2.order ≠ d.order
      then none else h) ((autoOrder k s mp).run d).2 := by
  have hsearch := searchOrder_sameMarks k s mp d
  rcases hs : (searchOrder k s mp).run d with ⟨r, d₁⟩
  rw [hs] at hsearch
  have hm₁ := hm.of_sameMarks hsearch
  -- a failure before the build leaves the diagram the search leaves
  have hfail : ∀ f, ((autoOrder k s mp).run d).1 = .error f ∧ ((autoOrder k s mp).run d).2 = d₁ →
      MarkedBy (if ((autoOrder k s mp).run d).1.isOk ∨ ((autoOrder k s mp).run d).2.order ≠ d.order
        then none else h) ((autoOrder k s mp).run d).2 := by
    rintro f ⟨hr, hst⟩
    rw [hr, hst, if_neg (by simpa [Except.isOk, Except.toBool] using hsearch.order)]
    exact hm₁
  cases r with
  | error f =>
    refine hfail f ?_
    unfold autoOrder
    rw [StateT.run_bind, show (searchOrder k s mp).run d = pure (.error f, d₁) from hs, pure_bind]
    exact ⟨rfl, rfl⟩
  | ok r =>
    -- the order found is checked against the diagram the search leaves
    have hsearch_ok : (searchOrder k s mp).run d = pure (.ok r, d₁) := hs
    cases ho : d₁.setOrder r.order with
    | error f =>
      refine hfail f ?_
      unfold autoOrder
      rw [StateT.run_bind, hsearch_ok, pure_bind]
      dsimp only
      rw [StateT.run_bind, StateT.run_get, pure_bind]
      dsimp only
      rw [ho]
      exact ⟨rfl, rfl⟩
    | ok d₂ =>
      have hbuild : ((autoOrder k s mp).run d).2 = ((build k).run d₂).2 ∧
          ((autoOrder k s mp).run d).1.isOk = ((build k).run d₂).1.isOk := by
        unfold autoOrder
        rw [StateT.run_bind, hsearch_ok, pure_bind]
        dsimp only
        rw [StateT.run_bind, StateT.run_get, pure_bind]
        dsimp only
        rw [ho]
        dsimp only
        rw [StateT.run_bind, StateT.run_set, pure_bind, StateT.run_bind]
        rcases (build k).run d₂ with ⟨_ | _, d₃⟩
        · exact ⟨rfl, rfl⟩
        · exact ⟨rfl, rfl⟩
      rw [hbuild.1, hbuild.2, build_order]
      have h₂ := (setOrder_ok_iff.1 ho).2
      by_cases hsame : r.order = d₁.order
      · -- the order found is the current one: only the build counts
        rw [if_pos hsame] at h₂
        subst h₂
        rw [hsearch.order]
        simpa using build_markedBy k hm₁
      · -- another order drops the builds and the highlight before the build
        rw [if_neg hsame] at h₂
        subst h₂
        have hnone : MarkedBy none
            { d₁ with order := r.order, bdd := none, robdd := none, highlighted := none } :=
          markedBy_none rfl fun k b hb => by cases k <;> cases hb
        rw [if_pos (.inr (by rw [← hsearch.order]; exact hsame))]
        simpa using build_markedBy k hnone

/-! ### Runs of actions -/

namespace Action

/-- The last highlight after an action, from `h` before it: a highlight that succeeds becomes
the last one; clearing the highlight, a build that succeeds and a change of order leave none
(an automatic order changes the order and builds); every other action keeps `h`. -/
def lastHighlight (d : Diagram) (h : Option (Kind × Assignment)) :
    Action → Option (Kind × Assignment)
  | .clearHighlight => none
  | .op (.highlight k values) =>
    if ((Diagram.highlight k values).run d).1.isOk then some (k, values) else h
  | .op (.build k) => if ((Diagram.build k).run d).1.isOk then none else h
  | .op (.setOrder o) => if (d.setOrder o).isOk ∧ o ≠ d.order then none else h
  | .op (.autoOrder k s mp) =>
    if ((Diagram.autoOrder k s mp).run d).1.isOk ∨
      ((Diagram.autoOrder k s mp).run d).2.order ≠ d.order then none else h
  | .op _ => h

/-- The last highlight after a run of actions, from `h` before it. -/
def lastHighlightOf : List Action → Diagram → Option (Kind × Assignment) →
    Option (Kind × Assignment)
  | [], _, h => h
  | a :: acts, d, h => lastHighlightOf acts (a.next d) (lastHighlight d h a)

/-- One action: the marks follow the last highlight after it. -/
theorem markedBy_next (a : Action) (hm : MarkedBy h d) : MarkedBy (lastHighlight d h a) (a.next d) := by
  cases a with
  | clearHighlight => exact markedBy_clearHighlight d
  | op o =>
    cases o with
    | setOrder o =>
      show MarkedBy (if (d.setOrder o).isOk ∧ o ≠ d.order then none else h)
        ((d.setOrder o).toOption.getD d)
      cases hs : d.setOrder o with
      | error f =>
        rw [if_neg (by simp [Except.isOk, Except.toBool])]
        exact hm
      | ok d' =>
        rw [(setOrder_ok_iff.1 hs).2]
        by_cases ho : o = d.order
        · rw [if_neg (by simp [ho]), if_pos ho]
          exact hm
        · rw [if_pos ⟨rfl, ho⟩, if_neg ho]
          exact markedBy_none rfl fun k b hb => by cases k <;> cases hb
    | build k => exact build_markedBy k hm
    | measure k o => exact hm.of_sameMarks (measure_sameMarks k o d)
    | autoOrder k s mp => exact autoOrder_markedBy k s mp hm
    | highlight k values => exact highlight_markedBy k values hm
    | assignSteps k => exact hm.of_sameMarks (assignSteps_sameMarks k d)
    | view k =>
      show MarkedBy h ((view k).run d).2
      rw [view_state]
      exact hm.of_sameMarks (assignSteps_sameMarks k d)
    | dot k =>
      show MarkedBy h ((dot k).run d).2
      rw [dot_state]
      exact hm.of_sameMarks (assignSteps_sameMarks k d)
    | edges k =>
      show MarkedBy h ((edges k).run d).2
      rw [edges_state]
      exact hm
    | models =>
      show MarkedBy h (models.run d).2
      unfold models
      rw [StateT.run_bind, StateT.run_get, pure_bind, onEngine_run]
      exact hm.of_sameMarks (.withEngine d _)
    | writeKernel =>
      show MarkedBy h (writeKernel.run d).2
      unfold writeKernel
      rw [StateT.run_bind, StateT.run_get, pure_bind, onEngine_run]
      exact hm.of_sameMarks (.withEngine d _)

/-- A run of actions, by induction on the actions with the last highlight carried along. -/
theorem markedBy_runAll (acts : List Action) (hm : MarkedBy h d) :
    MarkedBy (lastHighlightOf acts d h) (runAll acts d) := by
  induction acts generalizing d h with
  | nil => exact hm
  | cons a acts ih => exact ih (markedBy_next a hm)

end Action

/-- A diagram is made with no build and no highlight. -/
theorem create_markedBy {text : String} {limits : Limits} {order : Option (List String)}
    (hc : create text limits order = .ok d) : MarkedBy none d := by
  obtain ⟨f, e, e₁, root, e₂, expression, -, -, -, -, hd⟩ := create_eq_ok hc
  have hfresh : MarkedBy none (fresh text e₂ root expression) :=
    markedBy_none rfl fun k b hb => by cases k <;> cases hb
  rcases hd with ⟨-, rfl⟩ | ⟨o, -, ho⟩
  · exact hfresh
  · rw [(setOrder_ok_iff.1 ho).2]
    split
    · exact hfresh
    · exact markedBy_none rfl fun k b hb => by cases k <;> cases hb

end Diagram

end DecisionDiagrams
