/-
Builds do not depend on their base.

A build allocates its nodes from a base id on, and reads ids only to find nodes and to compare
them. Run from a base moved up by `δ`, it makes the same calls on the engine, in the same order,
and leaves the same arena with every id moved up by `δ`: the ids of its nodes, of their children
and of its root. So it succeeds or fails alike, and its root reaches as many nodes.

The simulation is stated once for the computations of a build (`Diagram.Shifts`), with a rule for
each thing they do: reading a node, allocating one, linking one, calling the engine. The tree
build follows from the rules by induction on its fuel; the second phase of the reduced build is a
fold over the levels, whose representatives and table are moved as the arena is, since each node
is given its representative after its children.

* `Arena.shift` — an arena with every id moved up.
* `Diagram.runBuild_shift` — a build from a moved base is the moved build.
* `Arena.reachableCount_shift` — moving an arena keeps the number of nodes a root reaches.

A measure builds from base `0` and a build from the diagram's next id, so a measure answers the
size of the build it stands for.

* `Diagram.measure_eq_size_of_build` — measuring is building without installing.
-/
import DecisionDiagrams.Proofs.InstalledBuilds
import DecisionDiagrams.Proofs.BreadthFirstWalks
import DecisionDiagrams.Proofs.ManualOrder

namespace DecisionDiagrams

/-- The node with its id and its children's ids moved up by `δ`. -/
def DNode.shift (δ : Nat) (n : DNode) : DNode :=
  { n with id := n.id + δ, low := n.low.map (· + δ), high := n.high.map (· + δ) }

namespace Arena

/-- The arena with every id moved up by `δ`: its base, and the ids of its nodes and of their
children. -/
def shift (δ : Nat) (a : Arena) : Arena :=
  ⟨a.base + δ, a.nodes.map (DNode.shift δ)⟩

variable (δ : Nat) (a : Arena)

theorem next_shift : (a.shift δ).next = a.next + δ := by
  simp only [shift, next, Array.size_map]
  omega

theorem at?_shift (j : Nat) : (a.shift δ).at? (j + δ) = (a.at? j).map (DNode.shift δ) := by
  unfold at? shift
  by_cases hb : j < a.base
  · rw [if_pos (by simpa using hb), if_pos hb]
    rfl
  · rw [if_neg (by simpa using hb), if_neg hb, Array.getElem?_map,
      show j + δ - (a.base + δ) = j - a.base by omega]

/-- Allocating ignores the id the node carries. -/
theorem alloc_id (n : DNode) (i : Nat) : a.alloc { n with id := i } = a.alloc n :=
  rfl

/-- A moved node lands at the moved next id. -/
theorem alloc_shift (n : DNode) :
    (a.shift δ).alloc (n.shift δ) = ((a.alloc n).1 + δ, (a.alloc n).2.shift δ) := by
  rw [alloc, alloc, next_shift]
  simp only [shift, Array.map_push]
  rfl

/-- A new node with no children is its own moved node, up to its id. -/
theorem alloc_shift_of_childless {n : DNode} (hl : n.low = none) (hh : n.high = none) :
    (a.shift δ).alloc n = ((a.alloc n).1 + δ, (a.alloc n).2.shift δ) := by
  have hn : { n.shift δ with id := n.id } = n := by
    cases n
    simp only [DNode.shift] at hl hh ⊢
    rw [hl, hh]
    rfl
  rw [← alloc_shift, ← alloc_id (a.shift δ) (n.shift δ) n.id, hn]

/-- Changing a node of the moved arena is changing the node of the arena, when the change moves
with the ids. -/
theorem modifyNode_shift (id : Nat) {f f' : DNode → DNode}
    (hf : ∀ m, f' (m.shift δ) = (f m).shift δ) :
    (a.shift δ).modifyNode (id + δ) f' = (a.modifyNode id f).shift δ := by
  unfold modifyNode shift
  by_cases hb : id < a.base
  · rw [if_pos (by simpa using hb), if_pos hb]
  · rw [if_neg (by simpa using hb), if_neg hb, show id + δ - (a.base + δ) = id - a.base by omega]
    congr 1
    apply Array.ext_getElem?
    intro j
    simp only [Array.getElem?_modify, Array.getElem?_map]
    split <;> cases a.nodes[j]? <;> simp [hf]

/-! ### The walk from a moved root -/

/-- The marks are kept by position from the base, so they do not move. -/
theorem walkMark_shift (seen : Array Bool) (id : Nat) :
    (a.shift δ).walkMark seen (id + δ) = a.walkMark seen id := by
  simp only [walkMark, shift, Nat.add_lt_add_iff_right, Nat.add_sub_add_right]

theorem walkSeen_shift (seen : Array Bool) (id : Nat) :
    (a.shift δ).walkSeen seen (id + δ) = a.walkSeen seen id := by
  simp only [walkSeen, shift, Nat.add_lt_add_iff_right, Nat.add_sub_add_right]

theorem visitChild_shift (st : Array Nat × Array Bool) (c : Option Nat) :
    (a.shift δ).visitChild (st.1.map (· + δ), st.2) (c.map (· + δ)) =
      ((a.visitChild st c).1.map (· + δ), (a.visitChild st c).2) := by
  cases c with
  | none => rfl
  | some c =>
    simp only [visitChild, Option.map_some, walkSeen_shift, walkMark_shift]
    split <;> simp

theorem visitParent_shift (st : Array Nat × Array Bool) (id : Nat) :
    (a.shift δ).visitParent (st.1.map (· + δ), st.2) (id + δ) =
      ((a.visitParent st id).1.map (· + δ), (a.visitParent st id).2) := by
  unfold visitParent
  rw [at?_shift]
  cases a.at? id with
  | none => rfl
  | some n =>
    dsimp only [Option.map_some]
    rw [show (n.shift δ).low = n.low.map (· + δ) from rfl,
      show (n.shift δ).high = n.high.map (· + δ) from rfl, visitChild_shift, visitChild_shift]

/-- A round from the moved ids lists the moved ids, and marks alike. -/
theorem walkRound_shift (frontier : Array Nat) (seen : Array Bool) :
    (a.shift δ).walkRound (frontier.map (· + δ)) seen =
      ((a.walkRound frontier seen).1.map (· + δ), (a.walkRound frontier seen).2) :=
  calc (a.shift δ).walkRound (frontier.map (· + δ)) seen
      = frontier.foldl (fun st id => (a.shift δ).visitParent st (id + δ))
          ((#[] : Array Nat).map (· + δ), seen) := by
        rw [walkRound, Array.foldl_map, Array.map_empty]
    _ = _ := @Array.foldl_hom _ _ _ (fun st => (st.1.map (· + δ), st.2)) a.visitParent _ frontier
        (#[], seen) fun st id => visitParent_shift δ a st id

/-- The walk's loop from the moved frontier, by induction on its fuel. -/
theorem walkLoop_shift : ∀ (fuel : Nat) (frontier : Array Nat) (seen : Array Bool)
    (out : Array Nat),
    Diagram.walkOrder.loop (a.shift δ) (a.shift δ).walkMark (a.shift δ).walkSeen fuel
        (frontier.map (· + δ)) seen (out.map (· + δ)) =
      (Diagram.walkOrder.loop a a.walkMark a.walkSeen fuel frontier seen out).map (· + δ)
  | 0, _, _, _ => rfl
  | fuel + 1, frontier, seen, out => by
    have hempty : (frontier.map (· + δ)).isEmpty = frontier.isEmpty := by
      rw [Bool.eq_iff_iff, Array.isEmpty_iff_size_eq_zero, Array.isEmpty_iff_size_eq_zero,
        Array.size_map]
    rw [walkLoop_succ, walkLoop_succ, hempty, walkRound_shift, ← Array.map_append,
      walkLoop_shift fuel]
    split <;> rfl

/-- The walk from the moved root lists the moved ids. -/
theorem walkOrder_shift (root : Nat) :
    Diagram.walkOrder (a.shift δ) (root + δ) = (Diagram.walkOrder a root).map (· + δ) := by
  have hsize : (a.shift δ).nodes.size = a.nodes.size := Array.size_map
  rw [walkOrder_eq, walkOrder_eq, hsize, walkMark_shift,
    show #[root + δ] = #[root].map (· + δ) by rw [Array.map_singleton], walkLoop_shift,
    Array.toList_map]

/-- Moving an arena keeps the number of nodes a root reaches. -/
theorem reachableCount_shift (root : Nat) :
    Diagram.reachableCount (a.shift δ) (root + δ) = Diagram.reachableCount a root := by
  rw [Diagram.reachableCount, Diagram.reachableCount, walkOrder_shift, List.length_map]

end Arena

namespace Diagram

open Arena

variable {α β : Type} {δ : Nat}

/-- The answer and the arena of a run, with every id moved up by `δ`; the answer moves by `f`. -/
def shiftOut (δ : Nat) (f : α → α) (r : (α × Arena) × Engine) : (α × Arena) × Engine :=
  ((f r.1.1, r.1.2.shift δ), r.2)

/-- From the arena moved up by `δ`, whatever the engine, `m'` runs as `m` runs from the arena,
with every id moved up by `δ` and the answer moved by `f`. -/
def ShiftsAt (δ : Nat) (f : α → α) (m m' : BuildM α) (a : Arena) : Prop :=
  ∀ e, (m'.run (a.shift δ)).run e = shiftOut δ f ((m.run a).run e)

/-- `m'` runs as `m` from every arena moved up by `δ`. -/
def Shifts (δ : Nat) (f : α → α) (m m' : BuildM α) : Prop :=
  ∀ a, ShiftsAt δ f m m' a

namespace Shifts

variable {f : α → α} {g : β → β} {m m' : BuildM α}

theorem pure {v v' : α} (h : v' = f v) : Shifts δ f (Pure.pure v) (Pure.pure v') := by
  intro a e
  rw [h]
  rfl

theorem bind {k k' : α → BuildM β} (hm : Shifts δ f m m') (hk : ∀ v, Shifts δ g (k v) (k' (f v))) :
    Shifts δ g (m >>= k) (m' >>= k') := by
  intro a e
  have h := hm a e
  simp only [StateT.run_bind] at h ⊢
  show ((k' ((m'.run (a.shift δ)).run e).1.1).run ((m'.run (a.shift δ)).run e).1.2).run
    ((m'.run (a.shift δ)).run e).2 = _
  rw [h]
  exact hk _ _ _

/-- Reading the arena reads the moved arena. -/
theorem get_bind {k k' : Arena → BuildM β} (hk : ∀ a, ShiftsAt δ g (k a) (k' (a.shift δ)) a) :
    Shifts δ g (MonadState.get >>= k) (MonadState.get >>= k') :=
  fun a e => hk a e

/-- A call on the engine answers alike; the rest may use what every answer satisfies. -/
theorem lift_bind {x : EngineM α} {T : α → Prop} (hT : ∀ e, T (x.run e).1)
    {k k' : α → BuildM β} (hk : ∀ v, T v → Shifts δ g (k v) (k' v)) :
    Shifts δ g (liftEngine x >>= k) (liftEngine x >>= k') :=
  fun a e => hk _ (hT e) a _

theorem alloc {n : DNode} (hl : n.low = none) (hh : n.high = none) :
    Shifts δ (· + δ) (modifyGet (Arena.alloc n)) (modifyGet (Arena.alloc n)) := by
  intro a e
  show (((a.shift δ).alloc n), e) = _
  rw [alloc_shift_of_childless δ a hl hh]
  rfl

theorem terminal (v : Bool) (L : Nat) :
    Shifts δ (· + δ) (modifyGet (Arena.terminal v L)) (modifyGet (Arena.terminal v L)) :=
  alloc rfl rfl

theorem modifyNode (i : Nat) {h h' : DNode → DNode} (hf : ∀ m, h' (m.shift δ) = (h m).shift δ) :
    Shifts δ id (modify (Arena.modifyNode i h)) (modify (Arena.modifyNode (i + δ) h')) := by
  intro a e
  show (((), (a.shift δ).modifyNode (i + δ) h'), e) = _
  rw [modifyNode_shift δ a i hf]
  rfl

theorem set {a₀ a₀' : Arena} (h : a₀' = a₀.shift δ) :
    Shifts δ id (MonadStateOf.set a₀ : BuildM PUnit) (MonadStateOf.set a₀') := by
  intro a e
  rw [h]
  rfl

/-- Setting the arena last, and answering. -/
theorem set_pure {a₀ a₀' : Arena} (h : a₀' = a₀.shift δ) {v v' : α} (hv : v' = f v) :
    Shifts δ f (MonadStateOf.set a₀ >>= fun _ => Pure.pure v)
      (MonadStateOf.set a₀' >>= fun _ => Pure.pure v') :=
  .bind (.set h) fun _ => .pure hv

/-- Branches on conditions that hold together. -/
theorem ite {c c' : Prop} [Decidable c] [Decidable c'] (hc : c ↔ c') {m₁ m₁' m₂ m₂' : BuildM α}
    (h₁ : Shifts δ f m₁ m₁') (h₂ : Shifts δ f m₂ m₂') :
    Shifts δ f (if c then m₁ else m₂) (if c' then m₁' else m₂') := by
  by_cases h : c
  · rw [if_pos h, if_pos (hc.1 h)]
    exact h₁
  · rw [if_neg h, if_neg (fun h' => h (hc.2 h'))]
    exact h₂

end Shifts

/-! ### The tree build -/

/-- The terminals' ids moved up by `δ`. -/
def Terminals.shift (δ : Nat) (ts : Terminals) : Terminals :=
  ⟨ts.yes + δ, ts.no + δ⟩

section Tree

variable {order : List String} {ts : Terminals}

theorem treeChild_shift (r : Residual) (L : Nat) :
    Shifts δ (Except.map (· + δ)) (treeChild order ts r L) (treeChild order (ts.shift δ) r L) := by
  unfold treeChild
  cases r with
  | const v => exact .pure (by cases v <;> rfl)
  | expr x =>
    refine .lift_bind (T := fun _ => True) (fun _ => trivial) fun t _ => ?_
    rcases t with f | text
    · exact .pure rfl
    cases order[L]? with
    | none => exact .pure rfl
    | some v => exact .bind (.alloc rfl rfl) fun j => .pure rfl

/-- Expanding a node of the moved arena expands the node, by induction on the fuel: the node
read is the moved node, the children made are moved, and the children compare with the moved
terminals as they do with the terminals. -/
theorem expandTree_shift : ∀ (fuel i : Nat),
    Shifts δ id (expandTree order ts fuel i) (expandTree order (ts.shift δ) fuel (i + δ))
  | 0, _ => .pure rfl
  | fuel + 1, i => by
    rw [expandTree, expandTree]
    refine .get_bind fun a => ?_
    dsimp only
    rw [at?_shift]
    cases a.at? i with
    | none => exact Shifts.pure rfl a
    | some n =>
      refine Shifts.lift_bind (T := fun _ => True) (fun _ => trivial) (fun t _ => ?_) a
      rcases t with f | ⟨hr, lr⟩
      · exact .pure rfl
      refine .bind (treeChild_shift hr _) fun t => ?_
      rcases t with f | hi
      · exact .pure rfl
      refine .bind (treeChild_shift lr _) fun t => ?_
      rcases t with f | lo
      · exact .pure rfl
      refine .bind (.modifyNode i fun m => rfl) fun _ => ?_
      -- the children are nodes exactly when their moved ids are
      have node : ∀ c, (c ≠ ts.yes ∧ c ≠ ts.no) ↔ (c + δ ≠ ts.yes + δ ∧ c + δ ≠ ts.no + δ) :=
        fun c => by omega
      refine .ite (node lo) (.bind (expandTree_shift fuel lo) fun r => ?_) ?_
      · rcases r with f | u
        · exact .pure rfl
        · exact .ite (node hi) (.bind (expandTree_shift fuel hi) fun r => by
            rcases r with f | u <;> exact .pure rfl) (.pure rfl)
      · exact .ite (node hi) (.bind (expandTree_shift fuel hi) fun r => by
          rcases r with f | u <;> exact .pure rfl) (.pure rfl)

/-- The tree build from the moved arena is the moved tree build. -/
theorem decisionTree_shift (d : Diagram) (order : List String) :
    Shifts δ (Except.map (· + δ)) (decisionTree d order) (decisionTree d order) := by
  unfold decisionTree
  refine .bind (.terminal true _) fun yes => .bind (.terminal false _) fun no => ?_
  split
  · exact .pure rfl
  rename_i root hroot
  obtain ⟨-, hlow, hhigh, -⟩ := rootNode_unlinked hroot
  refine .ite Iff.rfl (.pure (by split <;> rfl)) ?_
  refine .bind (.alloc hlow hhigh) fun rid => .bind (expandTree_shift _ rid) fun r => ?_
  rcases r with f | u <;> exact .pure rfl

end Tree

/-! ### The second phase of the reduced build -/

section Reduce

variable {P : Layer}

/-- A state of the second phase and the same state from an arena moved up by `δ`: the arena
moved, each representative moved, and each entry of the table found under its moved key,
moved. -/
structure ReduceShift (δ : Nat) (s s' : ReduceState) : Prop where
  arena : s'.2.2 = s.2.2.shift δ
  reps : ∀ i : Nat, s'.1[i]? = (s.1[i]?).map (· + δ)
  table : ∀ (v : String) (lo hi : Nat), s'.2.1[(v, lo + δ, hi + δ)]? = (s.2.1[(v, lo, hi)]?).map (· + δ)

/-- A child with a representative has the moved representative. -/
theorem ReduceShift.repChild {s s' : ReduceState} (h : ReduceShift δ s s') {c : Option Nat}
    (hc : c.getD 0 ∈ s.1) : repChild s'.1 c = repChild s.1 c + δ := by
  obtain ⟨r, hr⟩ := Option.isSome_iff_exists.1 (Std.HashMap.mem_iff_isSome_getElem?.1 hc)
  rw [Diagram.repChild, Diagram.repChild, Std.HashMap.getD_eq_getD_getElem?,
    Std.HashMap.getD_eq_getD_getElem?, h.reps, hr]
  rfl

theorem ReduceShift.insert {rep rep' : Std.HashMap Nat Nat}
    {uniq uniq' : Std.HashMap (String × Nat × Nat) Nat} {a a' : Arena}
    (h : ReduceShift δ (rep, uniq, a) (rep', uniq', a')) (id r : Nat) :
    ReduceShift δ (rep.insert id r, uniq, a) (rep'.insert id (r + δ), uniq', a') := by
  refine ⟨h.arena, fun i => ?_, h.table⟩
  simp only [Std.HashMap.getElem?_insert]
  split
  · rfl
  · exact h.reps i

/-- A new node made from moved children is the moved new node, and is recorded under the moved
key. -/
theorem ReduceShift.alloc {rep rep' : Std.HashMap Nat Nat}
    {uniq uniq' : Std.HashMap (String × Nat × Nat) Nat} {a a' : Arena}
    (h : ReduceShift δ (rep, uniq, a) (rep', uniq', a')) (id : Nat) (n : DNode) (v : String)
    (lo hi : Nat) :
    ReduceShift δ (rep.insert id a.next, uniq.insert (v, lo, hi) a.next,
        (a.alloc { n with low := some lo, high := some hi }).2)
      (rep'.insert id a'.next, uniq'.insert (v, lo + δ, hi + δ) a'.next,
        (a'.alloc { n with low := some (lo + δ), high := some (hi + δ) }).2) := by
  have ha : a' = a.shift δ := h.arena
  have hnext : a'.next = a.next + δ := by rw [ha, next_shift]
  -- the moved node, up to the id that allocating overwrites
  have hn : { n with low := some (lo + δ), high := some (hi + δ) } =
      { ({ n with low := some lo, high := some hi } : DNode).shift δ with id := n.id } := by
    cases n
    rfl
  refine ⟨?_, fun i => ?_, fun v' lo' hi' => ?_⟩
  · show (a'.alloc _).2 = _
    rw [hn, alloc_id, ha, alloc_shift]
  · simp only [Std.HashMap.getElem?_insert, hnext]
    split
    · rfl
    · exact h.reps i
  · simp only [Std.HashMap.getElem?_insert, beq_iff_eq, hnext]
    by_cases hk : (v, lo, hi) = (v', lo', hi')
    · simp only [Prod.mk.injEq] at hk
      obtain ⟨rfl, rfl, rfl⟩ := hk
      simp
    · have hk' : (v, lo + δ, hi + δ) ≠ (v', lo' + δ, hi' + δ) := fun h' =>
        hk (by simpa only [Prod.mk.injEq, Nat.add_right_cancel_iff] using h')
      rw [if_neg hk', if_neg hk]
      exact h.table v' lo' hi'

/-- For a node whose children have representatives, the moved state sees the children coincide
exactly when the state does. -/
theorem ReduceShift.repChild_eq_iff {s s' : ReduceState} (hs : ReduceShift δ s s') {n : DNode}
    (hlo : n.low.getD 0 ∈ s.1) (hhi : n.high.getD 0 ∈ s.1) :
    Diagram.repChild s'.1 n.low = Diagram.repChild s'.1 n.high ↔
      Diagram.repChild s.1 n.low = Diagram.repChild s.1 n.high := by
  rw [hs.repChild hlo, hs.repChild hhi]
  exact Nat.add_right_cancel_iff

/-- For a node whose children have representatives, the moved table has under the node's key the
moved entry. -/
theorem ReduceShift.key {s s' : ReduceState} (hs : ReduceShift δ s s') {n : DNode}
    (hlo : n.low.getD 0 ∈ s.1) (hhi : n.high.getD 0 ∈ s.1) :
    s'.2.1[reduceKey n (Diagram.repChild s'.1 n.low) (Diagram.repChild s'.1 n.high)]? =
      (s.2.1[reduceKey n (Diagram.repChild s.1 n.low) (Diagram.repChild s.1 n.high)]?).map
        (· + δ) := by
  rw [reduceKey, reduceKey, hs.repChild hlo, hs.repChild hhi, hs.table]

/-- A step of the second phase on a state and on the moved state, for a node whose children
have representatives, leaves states that are still moved one from the other: both steps read the
same node, see its children coincide alike, and find its key alike. -/
theorem ReduceStep.shift {id : Nat} {s s₁ s' s₁' : ReduceState} (h : ReduceStep P id s s₁)
    (h' : ReduceStep P id s' s₁') (hs : ReduceShift δ s s')
    (hc : ∀ m, P.nodes[id]? = some m → m.low.getD 0 ∈ s.1 ∧ m.high.getD 0 ∈ s.1) :
    ReduceShift δ s₁ s₁' := by
  cases h with
  | missing hn =>
    cases h' with
    | missing _ => exact hs
    | collapse hn' _ => rw [hn] at hn'; cases hn'
    | share hn' _ _ => rw [hn] at hn'; cases hn'
    | fresh hn' _ _ => rw [hn] at hn'; cases hn'
  | collapse hn heq =>
    obtain ⟨hlo, hhi⟩ := hc _ hn
    cases h' with
    | missing hn' => rw [hn] at hn'; cases hn'
    | collapse hn' _ =>
      rw [hn, Option.some.injEq] at hn'
      subst hn'
      rw [hs.repChild hlo]
      exact hs.insert id _
    | share hn' hne' _ =>
      rw [hn, Option.some.injEq] at hn'
      subst hn'
      exact absurd ((hs.repChild_eq_iff hlo hhi).2 heq) hne'
    | fresh hn' hne' _ =>
      rw [hn, Option.some.injEq] at hn'
      subst hn'
      exact absurd ((hs.repChild_eq_iff hlo hhi).2 heq) hne'
  | share hn hne hu =>
    obtain ⟨hlo, hhi⟩ := hc _ hn
    cases h' with
    | missing hn' => rw [hn] at hn'; cases hn'
    | collapse hn' heq' =>
      rw [hn, Option.some.injEq] at hn'
      subst hn'
      exact absurd ((hs.repChild_eq_iff hlo hhi).1 heq') hne
    | share hn' _ hu' =>
      rw [hn, Option.some.injEq] at hn'
      subst hn'
      rw [hs.key hlo hhi, hu, Option.map_some, Option.some.injEq] at hu'
      subst hu'
      exact hs.insert id _
    | fresh hn' _ hu' =>
      rw [hn, Option.some.injEq] at hn'
      subst hn'
      rw [hs.key hlo hhi, hu] at hu'
      cases hu'
  | fresh hn hne hu =>
    obtain ⟨hlo, hhi⟩ := hc _ hn
    cases h' with
    | missing hn' => rw [hn] at hn'; cases hn'
    | collapse hn' heq' =>
      rw [hn, Option.some.injEq] at hn'
      subst hn'
      exact absurd ((hs.repChild_eq_iff hlo hhi).1 heq') hne
    | share hn' _ hu' =>
      rw [hn, Option.some.injEq] at hn'
      subst hn'
      rw [hs.key hlo hhi, hu] at hu'
      cases hu'
    | fresh hn' _ _ =>
      rw [hn, Option.some.injEq] at hn'
      subst hn'
      simp only [reduceKey, hs.repChild hlo, hs.repChild hhi]
      exact hs.alloc id _ _ _ _

/-- A step keeps the nodes that have representatives. -/
theorem ReduceStep.mem_of_mem {id i : Nat} {s s₁ : ReduceState} (h : ReduceStep P id s s₁)
    (hi : i ∈ s.1) : i ∈ s₁.1 := by
  cases h with
  | missing _ => exact hi
  | collapse _ _ => exact Std.HashMap.mem_insert.2 (.inr hi)
  | share _ _ _ => exact Std.HashMap.mem_insert.2 (.inr hi)
  | fresh _ _ _ => exact Std.HashMap.mem_insert.2 (.inr hi)

/-- A step gives its node a representative. -/
theorem ReduceStep.mem_self {id : Nat} {s s₁ : ReduceState} (h : ReduceStep P id s s₁) {m : DNode}
    (hm : P.nodes[id]? = some m) : id ∈ s₁.1 := by
  cases h with
  | missing hn => rw [hn] at hm; cases hm
  | collapse _ _ => exact Std.HashMap.mem_insert_self
  | share _ _ _ => exact Std.HashMap.mem_insert_self
  | fresh _ _ _ => exact Std.HashMap.mem_insert_self

/-- The second phase on a level whose children have representatives, from a state and from the
moved state: the states stay moved, the representatives only grow, and every node of the level
gets one. -/
theorem reduceLevel_shift : ∀ (ids : List Nat) (s s' : ReduceState), ReduceShift δ s s' →
    (∀ i ∈ ids, ∀ m : DNode, P.nodes[i]? = some m → m.low.getD 0 ∈ s.1 ∧ m.high.getD 0 ∈ s.1) →
    ReduceShift δ (reduceLevel P ids s.1 s.2.1 s.2.2) (reduceLevel P ids s'.1 s'.2.1 s'.2.2) ∧
      (∀ i ∈ s.1, i ∈ (reduceLevel P ids s.1 s.2.1 s.2.2).1) ∧
      ∀ i ∈ ids, ∀ m : DNode, P.nodes[i]? = some m → i ∈ (reduceLevel P ids s.1 s.2.1 s.2.2).1
  | [], _, _, hs, _ => ⟨hs, fun _ h => h, fun _ h => by cases h⟩
  | id :: ids, s, s', hs, hc => by
    obtain ⟨s₁, hstep, heq⟩ : ∃ s₁, ReduceStep P id s s₁ ∧
        reduceLevel P (id :: ids) s.1 s.2.1 s.2.2 = reduceLevel P ids s₁.1 s₁.2.1 s₁.2.2 :=
      reduceLevel_cons ids s.1 s.2.1 s.2.2
    obtain ⟨s₁', hstep', heq'⟩ : ∃ s₁', ReduceStep P id s' s₁' ∧
        reduceLevel P (id :: ids) s'.1 s'.2.1 s'.2.2 = reduceLevel P ids s₁'.1 s₁'.2.1 s₁'.2.2 :=
      reduceLevel_cons ids s'.1 s'.2.1 s'.2.2
    have hs₁ := hstep.shift hstep' hs (hc id List.mem_cons_self)
    -- the representatives only grow, so the children of the other nodes keep theirs
    obtain ⟨hs₂, hsub₂, hids₂⟩ := reduceLevel_shift ids s₁ s₁' hs₁ fun i hi m hm =>
      (hc i (List.mem_cons_of_mem id hi) m hm).imp (hstep.mem_of_mem) (hstep.mem_of_mem)
    rw [heq, heq']
    refine ⟨hs₂, fun i hi => hsub₂ i (hstep.mem_of_mem hi), fun i hi m hm => ?_⟩
    rcases List.mem_cons.1 hi with rfl | hi
    · exact hsub₂ _ (hstep.mem_self hm)
    · exact hids₂ i hi m hm

/-- The second phase over the levels, from the last up, from a state and from the moved state,
by induction on the levels: the children of a node of a level are terminals or nodes of the next
level, which got their representatives first. -/
theorem foldr_reduceLevel_shift {order : List String} {F : ReduceState → List Nat → ReduceState}
    (hF : ∀ s ids, F s ids = reduceLevel P ids s.1 s.2.1 s.2.2) (hP : P.Tiered order) :
    ∀ (levels : List (List Nat)) (L : Nat) (s s' : ReduceState), Layer.Complete L levels P →
      ReduceShift δ s s' → 0 ∈ s.1 → 1 ∈ s.1 →
      ReduceShift δ (levels.foldr (fun ids s => F s ids) s)
          (levels.foldr (fun ids s => F s ids) s') ∧
        0 ∈ (levels.foldr (fun ids s => F s ids) s).1 ∧
        1 ∈ (levels.foldr (fun ids s => F s ids) s).1 ∧
        ∀ i ∈ levels.getD 0 [], i ∈ (levels.foldr (fun ids s => F s ids) s).1
  | [], _, _, _, _, hs, h0, h1 => ⟨hs, h0, h1, fun _ h => by simp at h⟩
  | ids :: rest, L, s, s', hc, hs, h0, h1 => by
    obtain ⟨hs₁, h0₁, h1₁, hfirst⟩ :=
      foldr_reduceLevel_shift hF hP rest (L + 1) s s' hc.tail hs h0 h1
    rw [List.foldr_cons, List.foldr_cons, hF, hF]
    obtain ⟨hs₂, hsub₂, hids₂⟩ := reduceLevel_shift ids _ _ hs₁
      (children_represented hP hc h0₁ h1₁ hfirst)
    refine ⟨hs₂, hsub₂ 0 h0₁, hsub₂ 1 h1₁, fun i hi => ?_⟩
    obtain ⟨h2, hlev⟩ := (hc 0 i).1 hi
    obtain ⟨m, hm, -⟩ := Layer.levelAt_eq_some.1 hlev
    exact hids₂ i hi m hm

end Reduce

/-- The reduced build from the moved arena is the moved reduced build: the first phase reads no
arena, and the second is moved with its terminals. -/
theorem reducedDiagram_shift (d : Diagram) (order : List String) :
    Shifts δ (Except.map (· + δ)) (reducedDiagram d order) (reducedDiagram d order) := by
  unfold reducedDiagram
  split
  · exact .pure rfl
  rename_i root hroot
  obtain ⟨hmark, hlow, hhigh, hlev, hord⟩ := rootNode_unlinked hroot
  by_cases hterm : root.isTerminal = true
  · rw [if_pos hterm]
    exact .bind (.terminal _ _) fun r => .pure rfl
  rw [if_neg hterm]
  -- the first phase, whatever the engine, lists the nodes of each level
  refine .lift_bind (T := fun p => ∀ levels, p.1 = .ok levels → p.2.Tiered order ∧
    Layer.Complete 0 levels p.2 ∧ p.2.levelAt 2 = some 0) (fun e levels hl => ?_) fun p hp => ?_
  · obtain ⟨hT, hW⟩ := startLayer_tiered hmark hlow hhigh hlev (hord (by simpa using hterm))
    have h := expandLayers_complete (order.length + 1) 0 [2] _ hT hW (by omega) _ e rfl
    exact ⟨h.1, h.2.2 levels hl, h.2.1.keeps 2 0 (hW.ids_at 2 (List.mem_singleton_self 2)).2⟩
  rcases p with ⟨f | levels, layer⟩
  · exact .pure rfl
  obtain ⟨hT, hC, h2⟩ := hp levels rfl
  dsimp only
  refine .bind (.terminal true _) fun yes => .bind (.terminal false _) fun no => ?_
  refine .get_bind fun a => ?_
  rw [List.foldl_reverse, List.foldl_reverse]
  -- the two runs of the second phase, from the terminals' representatives
  have hstart : ReduceShift δ
      (((∅ : Std.HashMap Nat Nat).insert 0 yes).insert 1 no, ∅, a)
      (((∅ : Std.HashMap Nat Nat).insert 0 (yes + δ)).insert 1 (no + δ), ∅, a.shift δ) := by
    refine ⟨rfl, fun i => ?_, fun v lo hi => by simp⟩
    simp only [Std.HashMap.getElem?_insert, Std.HashMap.getElem?_empty]
    split
    · rfl
    · split
      · rfl
      · rfl
  obtain ⟨hs, -, -, hfirst⟩ := foldr_reduceLevel_shift (fun _ _ => rfl) hT levels 0 _ _ hC hstart
    (by simp) (by simp)
  have h2mem := hfirst 2 ((hC 0 2).2 ⟨Nat.le_refl 2, h2⟩)
  refine Shifts.set_pure hs.arena ?_ a
  obtain ⟨r, hr⟩ := Option.isSome_iff_exists.1 (Std.HashMap.mem_iff_isSome_getElem?.1 h2mem)
  simp only [Std.HashMap.getD_eq_getD_getElem?, hs.reps, hr]
  rfl

/-- A build from a base moved up by `δ` is the build from the base with every id moved up by
`δ`: its answer, its arena and the engine it leaves. -/
theorem runBuild_shift (d : Diagram) (k : Kind) (order : List String) (base δ : Nat) (e : Engine) :
    (runBuild d k order (base + δ)).run e = shiftOut δ (Except.map (· + δ))
      ((runBuild d k order base).run e) := by
  have hbase : (⟨base + δ, #[]⟩ : Arena) = Arena.shift δ ⟨base, #[]⟩ := by simp [Arena.shift]
  cases k
  · show ((decisionTree d order).run ⟨base + δ, #[]⟩).run e =
      shiftOut δ _ (((decisionTree d order).run ⟨base, #[]⟩).run e)
    rw [hbase]
    exact decisionTree_shift d order _ e
  · show ((reducedDiagram d order).run ⟨base + δ, #[]⟩).run e =
      shiftOut δ _ (((reducedDiagram d order).run ⟨base, #[]⟩).run e)
    rw [hbase]
    exact reducedDiagram_shift d order _ e

/-! ### Measures -/

/-- A build reads of the diagram only the node its formula starts from. -/
theorem runBuild_of_rootNode {d d' : Diagram} {order : List String}
    (h : rootNode d' order = rootNode d order) (k : Kind) (base : Nat) :
    runBuild d' k order base = runBuild d k order base := by
  cases k
  · simp only [runBuild, decisionTree, h]
  · simp only [runBuild, reducedDiagram, h]

theorem checkOrder_of_setOrder {d d' : Diagram} {o : List String} (h : d.setOrder o = .ok d') :
    checkOrder d.vars o = .ok () :=
  (setOrder_ok_iff.1 h).1

theorem rootNode_setOrder {d d' : Diagram} {o order : List String} (h : d.setOrder o = .ok d') :
    rootNode d' order = rootNode d order := by
  rcases setOrder_cases h with rfl | rfl <;> rfl

/-- Every failure of the fold of the order check is an order failure. -/
theorem foldlM_orderStep_kind {vars : List String} :
    ∀ (o seen : List String) {f : Failure}, o.foldlM (orderStep vars) seen = .error f →
      f.kind = "OrderError"
  | [], _, _, h => by cases h
  | x :: o, seen, f, h => by
    rw [List.foldlM_cons] at h
    unfold orderStep at h
    split at h
    · cases h
      rfl
    · split at h
      · cases h
        rfl
      · rw [pure_bind] at h
        exact foldlM_orderStep_kind o _ h

/-- The order check fails only with order failures. -/
theorem checkOrder_kind {vars o : List String} {f : Failure} (h : checkOrder vars o = .error f) :
    f.kind = "OrderError" := by
  unfold checkOrder at h
  by_cases hl : o.length = vars.length
  · simp only [hl, ne_eq, not_true_eq_false, if_false] at h
    generalize hf : (List.foldlM _ [] o : Except Failure (List String)) = res at h
    cases res with
    | error g =>
      cases h
      exact foldlM_orderStep_kind o [] hf
    | ok r => cases h
  · simp only [hl, ne_eq, not_false_eq_true, if_true] at h
    cases h
    rfl

theorem Reachable.coherent {d : Diagram} (h : Reachable d) : Coherent d := by
  induction h with
  | create hc => exact create_coherent hc
  | step a _ ih =>
    cases a with
    | op o => exact coherent_stable.next o ih
    | clearHighlight => exact ih.of_sameCore ⟨rfl, rfl, rfl, rfl⟩

/-- Measuring an order is building for it without installing the build. On a diagram a text led
to, a measure fails with an order failure exactly when the order is not a permutation of the
variables. Otherwise it answers what building the kind after taking the order answers, on the
same engine, with the size of the build in place of its root: the build from base `0` that the
measure runs is the installed build with its ids moved down. And it changes nothing of the
diagram but its engine. -/
theorem measure_eq_size_of_build {d : Diagram} (hd : Reachable d) (k : Kind) (o : List String) :
    ((∃ f, ((measure k o).run d).1 = .error f ∧ f.kind = "OrderError") ↔ ¬ o.Perm d.vars) ∧
      (∀ d', d.setOrder o = .ok d' →
        ((measure k o).run d).1 = ((build k).run d').1.map fun _ => ((build k).run d').2.size k) ∧
      ((measure k o).run d).2 = { d with engine := ((measure k o).run d).2.engine } := by
  have hc := hd.coherent
  refine ⟨⟨fun ⟨f, hf, hk⟩ hp => ?_, fun hp => ?_⟩, fun d' hs => ?_, ?_⟩
  · -- a permutation passes the check, and the build then fails only for the node limit
    have ho := checkOrder_of_perm _ _ hc.nodup hp
    rw [(hc.measure_memory k ho hf).kind_eq] at hk
    exact absurd hk (by decide)
  · cases ho : checkOrder d.vars o with
    | error f => exact ⟨f, by rw [measure_run_of_error k o d ho], checkOrder_kind ho⟩
    | ok u => exact absurd (perm_of_checkOrder ho) hp
  · -- the installed build is the measure's build moved past the diagram's ids
    obtain ⟨r, a, e, hrun, hmeas, -⟩ := measure_run k o d (checkOrder_of_setOrder hs)
    obtain ⟨he, -, hord⟩ := setOrder_ok hs
    obtain ⟨r', a', e', hrun', hst⟩ := build_state k d'
    have hshift := runBuild_shift d k o 0 d'.next d.engine
    rw [Nat.zero_add, hrun] at hshift
    rw [hord, he, runBuild_of_rootNode (rootNode_setOrder hs), hshift] at hrun'
    simp only [shiftOut] at hrun'
    obtain ⟨⟨rfl, rfl⟩, rfl⟩ := hrun'
    rw [hmeas, hst]
    cases r with
    | error f => rfl
    | ok root => simp only [Except.map, size, built?_install_self, reachableCount_shift]
  · cases ho : checkOrder d.vars o with
    | error f => rw [measure_run_of_error k o d ho]
    | ok u =>
      obtain ⟨r, a, e, -, -, hst⟩ := measure_run k o d ho
      rw [hst]

set_option maxRecDepth 100000 in
/-- The diagram of the formula `a`, made without limits, measured for its own order. -/
theorem measure_eq_size_of_build_of_a :
    let d := fresh "a" ((Engine.render 2).run
      ((Engine.parseAndSimplify "a").run (Engine.created {})).2).2 2 "a"
    Reachable d ∧
      ((∃ f, ((measure .robdd ["a"]).run d).1 = .error f ∧ f.kind = "OrderError") ↔
        ¬ ["a"].Perm d.vars) ∧
      (∀ d', d.setOrder ["a"] = .ok d' →
        ((measure .robdd ["a"]).run d).1 =
          ((build .robdd).run d').1.map fun _ => ((build .robdd).run d').2.size .robdd) ∧
      ((measure .robdd ["a"]).run d).2 =
        { d with engine := ((measure .robdd ["a"]).run d).2.engine } := by
  have h₀ : create "a" {} none = .ok (fresh "a" ((Engine.render 2).run
      ((Engine.parseAndSimplify "a").run (Engine.created {})).2).2 2 "a") := by
    cbv
  intro d
  have hd : Reachable d := .create h₀
  exact ⟨hd, measure_eq_size_of_build hd .robdd ["a"]⟩

end Diagram

end DecisionDiagrams
