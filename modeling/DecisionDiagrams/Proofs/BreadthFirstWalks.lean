/-
The breadth-first walk of a build.

`Diagram.walkOrder` lists the ids reachable from a root round by round: each round visits the
children of the ids the last round listed, low before high, and lists those it has not marked
yet. On an arena whose children are all nodes of the arena, the walk lists each node that the root
reaches by child links once, and nothing else, so `Diagram.reachableCount`, the size that builds
report, counts the nodes reached. On the arena of a build these are the nodes its decision graph
reaches.

* `Arena.WalkState` — the invariant between rounds: the marks are the ids listed, which are
  distinct nodes reached; the last round's ids are listed, and so are the children of every
  earlier id.
* `Arena.walkOrder_spec` — the walk lists exactly the nodes reached, each once.
* `Arena.parentOf_iff_reach_of_settled` — on an arena of settled nodes whose terminals have no
  children, such as a build leaves, reaching by child links is reaching in its decision graph.
-/
import DecisionDiagrams.Proofs.DiagramBuilds
import DecisionDiagrams.Proofs.FreshArenas

namespace DecisionDiagrams

namespace Arena

open Relation

/-! ### One round of the walk -/

/-- Marks an id, at its position in the arena. -/
def walkMark (a : Arena) (seen : Array Bool) (id : Nat) : Array Bool :=
  if id < a.base then seen else seen.setIfInBounds (id - a.base) true

/-- Whether an id is marked. -/
def walkSeen (a : Arena) (seen : Array Bool) (id : Nat) : Bool :=
  if id < a.base then false else seen[id - a.base]?.getD false

/-- Visits a child: an id not marked yet is listed and marked. -/
def visitChild (a : Arena) (st : Array Nat × Array Bool) : Option Nat → Array Nat × Array Bool
  | some c => if a.walkSeen st.2 c then st else (st.1.push c, a.walkMark st.2 c)
  | none => st

/-- Visits the children of an id, low before high. -/
def visitParent (a : Arena) (st : Array Nat × Array Bool) (id : Nat) : Array Nat × Array Bool :=
  match a.at? id with
  | none => st
  | some n => a.visitChild (a.visitChild st n.low) n.high

/-- One round of the walk from the ids the last round listed: the ids it lists, and the marks. -/
def walkRound (a : Arena) (frontier : Array Nat) (seen : Array Bool) : Array Nat × Array Bool :=
  frontier.foldl a.visitParent (#[], seen)

theorem walkOrder_eq (a : Arena) (root : Nat) : Diagram.walkOrder a root =
    (Diagram.walkOrder.loop a a.walkMark a.walkSeen (a.nodes.size + 1) #[root]
      (a.walkMark (Array.replicate a.nodes.size false) root) #[root]).toList := rfl

theorem walkLoop_zero (a : Arena) (frontier : Array Nat) (seen : Array Bool) (out : Array Nat) :
    Diagram.walkOrder.loop a a.walkMark a.walkSeen 0 frontier seen out = out := rfl

theorem walkLoop_succ (a : Arena) (fuel : Nat) (frontier : Array Nat) (seen : Array Bool)
    (out : Array Nat) :
    Diagram.walkOrder.loop a a.walkMark a.walkSeen (fuel + 1) frontier seen out =
      if frontier.isEmpty then out
      else Diagram.walkOrder.loop a a.walkMark a.walkSeen fuel (a.walkRound frontier seen).1
        (a.walkRound frontier seen).2 (out ++ (a.walkRound frontier seen).1) := rfl

variable {a : Arena}

/-! ### Marks -/

theorem walkMark_size (seen : Array Bool) (id : Nat) : (a.walkMark seen id).size = seen.size := by
  unfold walkMark
  split <;> simp

/-- Marking keeps the marks. -/
theorem walkSeen_walkMark_of_seen {seen : Array Bool} {j : Nat} (h : a.walkSeen seen j = true)
    (c : Nat) : a.walkSeen (a.walkMark seen c) j = true := by
  unfold walkSeen walkMark at *
  split at h
  · cases h
  rw [if_neg (by assumption)]
  split
  · exact h
  · rw [Array.getElem?_setIfInBounds]
    split
    · split <;> simp_all
    · exact h

/-- With one mark for each node, marking a node of the arena marks it and no other node. -/
theorem walkSeen_walkMark {seen : Array Bool} (hs : seen.size = a.nodes.size) {c j : Nat}
    (hc : (a.at? c).isSome) (hj : (a.at? j).isSome) :
    a.walkSeen (a.walkMark seen c) j = true ↔ j = c ∨ a.walkSeen seen j = true := by
  rw [isSome_at?_iff] at hc hj
  unfold next at hc hj
  have hjb : ¬j < a.base := by omega
  have hcb : ¬c < a.base := by omega
  simp only [walkSeen, walkMark, hjb, hcb, if_false, Array.getElem?_setIfInBounds]
  by_cases hjc : j = c
  · subst hjc
    simp [if_pos (show j - a.base < seen.size by omega)]
  · rw [if_neg (by omega)]
    simp [hjc]

/-- Visiting a child keeps the marks. -/
theorem walkSeen_visitChild_of_seen {st : Array Nat × Array Bool} {j : Nat}
    (h : a.walkSeen st.2 j = true) (c : Option Nat) : a.walkSeen (a.visitChild st c).2 j = true := by
  unfold visitChild
  split
  · split
    · exact h
    · exact walkSeen_walkMark_of_seen h _
  · exact h

theorem walkSeen_visitParent_of_seen {st : Array Nat × Array Bool} {j : Nat}
    (h : a.walkSeen st.2 j = true) (p : Nat) : a.walkSeen (a.visitParent st p).2 j = true := by
  unfold visitParent
  split
  · exact h
  · exact walkSeen_visitChild_of_seen (walkSeen_visitChild_of_seen h _) _

/-- Nothing is marked at the start. -/
theorem walkSeen_replicate (n j : Nat) : a.walkSeen (Array.replicate n false) j = false := by
  unfold walkSeen
  split
  · rfl
  · rw [Array.getElem?_replicate]
    split <;> rfl

theorem walkSeen_foldl_of_seen {j : Nat} :
    ∀ (ps : List Nat) (st : Array Nat × Array Bool), a.walkSeen st.2 j = true →
      a.walkSeen (ps.foldl a.visitParent st).2 j = true
  | [], _, h => h
  | p :: ps, _, h => walkSeen_foldl_of_seen ps _ (walkSeen_visitParent_of_seen h p)

/-! ### The invariant of a round -/

variable (a) (root : Nat)

/-- The state of a round after some visits, with `out` the ids listed before the round: the marks
are the ids listed, none listed twice, and the round lists nodes that the root reaches. -/
structure Visiting (out : Array Nat) (st : Array Nat × Array Bool) : Prop where
  size : st.2.size = a.nodes.size
  seen_iff : ∀ j, (a.at? j).isSome → (a.walkSeen st.2 j = true ↔ j ∈ out ∨ j ∈ st.1)
  nodup : (out.toList ++ st.1.toList).Nodup
  reached : ∀ j ∈ st.1, ReflTransGen a.ParentOf root j
  inside : ∀ j ∈ st.1, (a.at? j).isSome

variable {a root}

/-- Visiting a child that is a node reached keeps the invariant and marks the child. -/
theorem Visiting.visitChild {out : Array Nat} {st : Array Nat × Array Bool}
    (h : a.Visiting root out st) {c : Nat} (hc : (a.at? c).isSome)
    (hr : ReflTransGen a.ParentOf root c) :
    a.Visiting root out (a.visitChild st (some c)) ∧ a.walkSeen (a.visitChild st (some c)).2 c := by
  rw [Arena.visitChild]
  by_cases hs : a.walkSeen st.2 c = true
  · rw [if_pos hs]
    exact ⟨h, hs⟩
  rw [if_neg hs]
  -- a new child: it is listed and marked, and was neither listed before nor in this round
  have hnew : c ∉ out ∧ c ∉ st.1 := by
    have := (h.seen_iff c hc).not.1 hs
    exact not_or.1 this
  refine ⟨⟨?_, fun j hj => ?_, ?_, fun j hj => ?_, fun j hj => ?_⟩, ?_⟩
  · rw [walkMark_size, h.size]
  · rw [walkSeen_walkMark h.size hc hj, h.seen_iff j hj, Array.mem_push]
    tauto
  · rw [Array.toList_push, ← List.append_assoc]
    refine List.nodup_append.2 ⟨h.nodup, List.nodup_singleton c, ?_⟩
    intro x hx y hy
    rw [List.mem_singleton] at hy
    subst hy
    rcases List.mem_append.1 hx with hx | hx
    · exact fun hxy => hnew.1 (hxy ▸ Array.mem_toList_iff.1 hx)
    · exact fun hxy => hnew.2 (hxy ▸ Array.mem_toList_iff.1 hx)
  · rcases Array.mem_push.1 hj with hj | rfl
    · exact h.reached j hj
    · exact hr
  · rcases Array.mem_push.1 hj with hj | rfl
    · exact h.inside j hj
    · exact hc
  · exact (walkSeen_walkMark h.size hc hc).2 (.inl rfl)

/-- Visiting a node reached keeps the invariant and marks its children. -/
theorem Visiting.visitParent (hclosed : ∀ p c, a.ParentOf p c → (a.at? c).isSome)
    {out : Array Nat} {st : Array Nat × Array Bool} (h : a.Visiting root out st) {p : Nat}
    (hp : ReflTransGen a.ParentOf root p) :
    a.Visiting root out (a.visitParent st p) ∧
      ∀ c, a.ParentOf p c → a.walkSeen (a.visitParent st p).2 c = true := by
  unfold Arena.visitParent
  split
  · next hn =>
    refine ⟨h, fun c ⟨n, hn', _⟩ => ?_⟩
    rw [hn] at hn'
    cases hn'
  · next n hn =>
    -- each child of the node is a node reached; visiting one keeps the other's mark
    have hchild : ∀ c, (n.low = some c ∨ n.high = some c) →
        (a.at? c).isSome ∧ ReflTransGen a.ParentOf root c :=
      fun c hc => ⟨hclosed p c ⟨n, hn, hc⟩, hp.tail ⟨n, hn, hc⟩⟩
    have hlow : a.Visiting root out (a.visitChild st n.low) ∧
        ∀ c, n.low = some c → a.walkSeen (a.visitChild st n.low).2 c = true := by
      cases hlo : n.low with
      | none => exact ⟨h, fun c hc => by cases hc⟩
      | some c =>
        obtain ⟨hc, hr⟩ := hchild c (.inl hlo)
        refine ⟨(h.visitChild hc hr).1, fun c' hc' => ?_⟩
        cases hc'
        exact (h.visitChild hc hr).2
    have hhigh : a.Visiting root out (a.visitChild (a.visitChild st n.low) n.high) ∧
        ∀ c, n.high = some c → a.walkSeen (a.visitChild (a.visitChild st n.low) n.high).2 c = true := by
      cases hhi : n.high with
      | none => exact ⟨hlow.1, fun c hc => by cases hc⟩
      | some c =>
        obtain ⟨hc, hr⟩ := hchild c (.inr hhi)
        refine ⟨(hlow.1.visitChild hc hr).1, fun c' hc' => ?_⟩
        cases hc'
        exact (hlow.1.visitChild hc hr).2
    refine ⟨hhigh.1, fun c ⟨n', hn', hc⟩ => ?_⟩
    rw [hn, Option.some.injEq] at hn'
    subst hn'
    rcases hc with hc | hc
    · exact walkSeen_visitChild_of_seen (hlow.2 c hc) _
    · exact hhigh.2 c hc

/-- Visiting nodes reached, one after the other, keeps the invariant and marks all their
children. -/
theorem Visiting.foldl (hclosed : ∀ p c, a.ParentOf p c → (a.at? c).isSome) {out : Array Nat} :
    ∀ (ps : List Nat) (st : Array Nat × Array Bool), a.Visiting root out st →
      (∀ p ∈ ps, ReflTransGen a.ParentOf root p) →
      a.Visiting root out (ps.foldl a.visitParent st) ∧
        ∀ p ∈ ps, ∀ c, a.ParentOf p c → a.walkSeen (ps.foldl a.visitParent st).2 c = true
  | [], _, h, _ => ⟨h, fun _ hp => by cases hp⟩
  | p :: ps, st, h, hps => by
    have hp := h.visitParent hclosed (hps p List.mem_cons_self)
    have ih := Visiting.foldl hclosed ps _ hp.1 fun q hq => hps q (List.mem_cons_of_mem p hq)
    refine ⟨ih.1, fun q hq c hc => ?_⟩
    rcases List.mem_cons.1 hq with rfl | hq
    · exact walkSeen_foldl_of_seen ps _ (hp.2 c hc)
    · exact ih.2 q hq c hc

/-! ### The invariant between rounds -/

variable (a root)

/-- The state between rounds, with `frontier` the ids the last round listed: the marks are the
ids listed, which are distinct nodes that the root reaches, the root among them; the last round's
ids are listed, and so are the children of every id listed before. -/
structure WalkState (frontier : Array Nat) (seen : Array Bool) (out : Array Nat) : Prop where
  size : seen.size = a.nodes.size
  seen_iff : ∀ j, (a.at? j).isSome → (a.walkSeen seen j = true ↔ j ∈ out)
  nodup : out.toList.Nodup
  reached : ∀ j ∈ out, ReflTransGen a.ParentOf root j
  inside : ∀ j ∈ out, (a.at? j).isSome
  root_mem : root ∈ out
  frontier_sub : ∀ j ∈ frontier, j ∈ out
  closed : ∀ j ∈ out, j ∉ frontier → ∀ c, a.ParentOf j c → c ∈ out

variable {a root}

/-- The walk starts from the root alone, listed and marked. -/
theorem walkState_start (hroot : (a.at? root).isSome) :
    a.WalkState root #[root] (a.walkMark (Array.replicate a.nodes.size false) root) #[root] := by
  have hs : (Array.replicate a.nodes.size false).size = a.nodes.size := Array.size_replicate
  refine ⟨by rw [walkMark_size, hs], fun j hj => ?_, List.nodup_singleton root,
    fun j hj => ?_, fun j hj => ?_, Array.mem_singleton.2 rfl, fun j hj => hj,
    fun j hj hf => absurd hj hf⟩
  · rw [walkSeen_walkMark hs hroot hj, Array.mem_singleton, walkSeen_replicate]
    simp
  · rw [Array.mem_singleton.1 hj]
  · rw [Array.mem_singleton.1 hj]
    exact hroot

/-- A round keeps the invariant: the ids it lists join the list, and become the last round's. -/
theorem WalkState.round (hclosed : ∀ p c, a.ParentOf p c → (a.at? c).isSome) {frontier : Array Nat}
    {seen : Array Bool} {out : Array Nat} (h : a.WalkState root frontier seen out) :
    a.WalkState root (a.walkRound frontier seen).1 (a.walkRound frontier seen).2
      (out ++ (a.walkRound frontier seen).1) := by
  have hstart : a.Visiting root out (#[], seen) :=
    ⟨h.size, fun j hj => by simp [h.seen_iff j hj], by simpa using h.nodup,
      fun j hj => absurd hj (Array.not_mem_empty j), fun j hj => absurd hj (Array.not_mem_empty j)⟩
  have hfold := Visiting.foldl hclosed frontier.toList _ hstart fun p hp =>
    h.reached p (h.frontier_sub p (Array.mem_toList_iff.1 hp))
  rw [Array.foldl_toList] at hfold
  obtain ⟨hv, hchildren⟩ := hfold
  unfold walkRound
  refine ⟨hv.size, fun j hj => ?_, ?_, fun j hj => ?_, fun j hj => ?_,
    Array.mem_append_left _ h.root_mem, fun j hj => Array.mem_append_right _ hj,
    fun j hj hf c hc => ?_⟩
  · rw [hv.seen_iff j hj, Array.mem_append]
  · rw [Array.toList_append]
    exact hv.nodup
  · rcases Array.mem_append.1 hj with hj | hj
    · exact h.reached j hj
    · exact hv.reached j hj
  · rcases Array.mem_append.1 hj with hj | hj
    · exact h.inside j hj
    · exact hv.inside j hj
  · -- an id listed before this round: a child of the last round was just marked
    have hj' : j ∈ out := (Array.mem_append.1 hj).resolve_right hf
    by_cases hjf : j ∈ frontier
    · have := (hv.seen_iff c (hclosed j c hc)).1
        (hchildren j (Array.mem_toList_iff.2 hjf) c hc)
      exact Array.mem_append.2 this
    · exact Array.mem_append_left _ (h.closed j hj' hjf c hc)

/-- The ids listed are distinct nodes of the arena, so there are no more of them than nodes. -/
theorem WalkState.size_le {frontier : Array Nat} {seen : Array Bool} {out : Array Nat}
    (h : a.WalkState root frontier seen out) : out.size ≤ a.nodes.size := by
  have hsub : out.toList.toFinset ⊆ Finset.Ico a.base a.next := by
    intro j hj
    rw [List.mem_toFinset, Array.mem_toList_iff] at hj
    rw [Finset.mem_Ico]
    exact isSome_at?_iff.1 (h.inside j hj)
  have hcard := Finset.card_le_card hsub
  rw [List.toFinset_card_of_nodup h.nodup, Array.length_toList, Nat.card_Ico] at hcard
  unfold next at hcard
  omega

/-- When a round lists nothing new, the list is every node reached, each once. -/
theorem WalkState.done {seen : Array Bool} {out : Array Nat} (h : a.WalkState root #[] seen out) :
    out.toList.Nodup ∧ ∀ j, j ∈ out.toList ↔ ReflTransGen a.ParentOf root j := by
  refine ⟨h.nodup, fun j => ⟨fun hj => h.reached j (Array.mem_toList_iff.1 hj), fun hj => ?_⟩⟩
  rw [Array.mem_toList_iff]
  -- by induction on the path: the list holds the root and the children of all it holds
  induction hj with
  | refl => exact h.root_mem
  | tail _ hpc ih => exact h.closed _ ih (Array.not_mem_empty _) _ hpc

/-- The rounds of the walk: with fuel for one round more than the nodes not listed yet, it ends
listing every node reached, each once. -/
theorem walkLoop_spec (hclosed : ∀ p c, a.ParentOf p c → (a.at? c).isSome) :
    ∀ (fuel : Nat) (frontier : Array Nat) (seen : Array Bool) (out : Array Nat),
      a.WalkState root frontier seen out → (frontier = #[] ∨ a.nodes.size + 1 ≤ out.size + fuel) →
      (Diagram.walkOrder.loop a a.walkMark a.walkSeen fuel frontier seen out).toList.Nodup ∧
        ∀ j, j ∈ (Diagram.walkOrder.loop a a.walkMark a.walkSeen fuel frontier seen out).toList ↔
          ReflTransGen a.ParentOf root j
  | 0, frontier, seen, out, h, hfuel => by
    rw [walkLoop_zero]
    -- without fuel the last round listed nothing, as the list cannot be longer than the arena
    have hf : frontier = #[] := hfuel.resolve_right fun hle => by
      have := h.size_le
      omega
    subst hf
    exact h.done
  | fuel + 1, frontier, seen, out, h, hfuel => by
    rw [walkLoop_succ]
    split
    · next he =>
      have hf : frontier = #[] := Array.isEmpty_iff.1 he
      subst hf
      exact h.done
    · next he =>
      have hne : frontier ≠ #[] := fun hf => he (Array.isEmpty_iff.2 hf)
      refine walkLoop_spec hclosed fuel _ _ _ (h.round hclosed) ?_
      -- a round that lists something spends one unit of fuel for at least one new id
      by_cases hnext : (a.walkRound frontier seen).1 = #[]
      · exact .inl hnext
      · right
        have hpos : 0 < (a.walkRound frontier seen).1.size :=
          Array.size_pos_iff.2 hnext
        have := hfuel.resolve_left hne
        rw [Array.size_append]
        omega

/-- The walk of an arena whose children are nodes of the arena, from one of its nodes, lists the
nodes that the root reaches by child links, each once. -/
theorem walkOrder_spec (hclosed : ∀ p c, a.ParentOf p c → (a.at? c).isSome)
    (hroot : (a.at? root).isSome) :
    (Diagram.walkOrder a root).Nodup ∧
      ∀ j, j ∈ Diagram.walkOrder a root ↔ ReflTransGen a.ParentOf root j := by
  rw [walkOrder_eq]
  exact walkLoop_spec hclosed _ _ _ _ (walkState_start hroot) (.inr (by simp))

/-! ### The walk of a settled arena -/

section Settled

variable {e : Engine} {order : List String} {below : Nat → Nat → Prop}
  (hset : ∀ j m, a.at? j = some m → a.Settled e order below j)
  (hleaf : ∀ j m, a.at? j = some m → m.isTerminal = true → m.low = none ∧ m.high = none)
include hset hleaf

/-- The children of the nodes of a settled arena whose terminals have no children are nodes of
the arena. -/
theorem closed_of_settled : ∀ p c, a.ParentOf p c → (a.at? c).isSome := by
  rintro p c ⟨n, hn, hc⟩
  cases ht : n.isTerminal
  · obtain ⟨-, hlo, hhi, ⟨ml, hml⟩, ⟨mh, hmh⟩⟩ := (hset p n hn).test hn ht
    rcases hc with hc | hc
    · rw [hlo, Option.some.injEq] at hc
      rw [← hc, hml]
      rfl
    · rw [hhi, Option.some.injEq] at hc
      rw [← hc, hmh]
      rfl
  · obtain ⟨hlo, hhi⟩ := hleaf p n hn ht
    rcases hc with hc | hc
    · rw [hlo] at hc
      cases hc
    · rw [hhi] at hc
      cases hc

/-- In such an arena a child of a node is a child of its test in the decision graph, and
conversely. -/
theorem parentOf_iff_of_settled {p c : Nat} :
    a.ParentOf p c ↔ ∃ L lo hi, a.graph.shape p = some (.test L lo hi) ∧ (c = lo ∨ c = hi) := by
  constructor
  · rintro ⟨n, hn, hc⟩
    cases ht : n.isTerminal
    · obtain ⟨-, hlo, hhi, -⟩ := (hset p n hn).test hn ht
      refine ⟨n.level, n.low.getD 0, n.high.getD 0, shape_of_internal hn ht, ?_⟩
      rcases hc with hc | hc
      · rw [hlo, Option.some.injEq] at hc
        exact .inl hc.symm
      · rw [hhi, Option.some.injEq] at hc
        exact .inr hc.symm
    · obtain ⟨hlo, hhi⟩ := hleaf p n hn ht
      rcases hc with hc | hc
      · rw [hlo] at hc
        cases hc
      · rw [hhi] at hc
        cases hc
  · rintro ⟨L, lo, hi, hs, hc⟩
    obtain ⟨n, hn, ht, -, hlo, hhi⟩ := exists_of_shape_test hs
    obtain ⟨-, hlo', hhi', -⟩ := (hset p n hn).test hn ht
    refine ⟨n, hn, ?_⟩
    rcases hc with rfl | rfl
    · exact .inl (hlo ▸ hlo')
    · exact .inr (hhi ▸ hhi')

/-- Reaching by child links is reaching in the decision graph. -/
theorem parentOf_iff_reach_of_settled {root j : Nat} :
    ReflTransGen a.ParentOf root j ↔ a.graph.Reach root j := by
  constructor
  · intro h
    induction h with
    | refl => exact .root
    | tail _ hpc ih =>
      obtain ⟨L, lo, hi, hs, rfl | rfl⟩ := (parentOf_iff_of_settled hset hleaf).1 hpc
      · exact ih.low hs
      · exact ih.high hs
  · intro h
    induction h with
    | root => exact .refl
    | low _ hs ih =>
      exact ih.tail ((parentOf_iff_of_settled hset hleaf).2 ⟨_, _, _, hs, .inl rfl⟩)
    | high _ hs ih =>
      exact ih.tail ((parentOf_iff_of_settled hset hleaf).2 ⟨_, _, _, hs, .inr rfl⟩)

/-- The walk of a settled arena whose terminals have no children, from one of its nodes, lists
the nodes its decision graph reaches, each once. -/
theorem walkOrder_spec_of_settled {root : Nat} (hroot : (a.at? root).isSome) :
    (Diagram.walkOrder a root).Nodup ∧
      ∀ j, j ∈ Diagram.walkOrder a root ↔ a.graph.Reach root j := by
  obtain ⟨hnodup, hmem⟩ := Arena.walkOrder_spec (closed_of_settled hset hleaf) hroot
  exact ⟨hnodup, fun j => (hmem j).trans (parentOf_iff_reach_of_settled hset hleaf)⟩

end Settled

/-- The walk of a reduced arena from one of its nodes lists the nodes its decision graph reaches,
each once. -/
theorem Reduced.walkOrder_spec {e : Engine} {order : List String} (hR : a.Reduced e order)
    {root : Nat} (hroot : (a.at? root).isSome) :
    (Diagram.walkOrder a root).Nodup ∧
      ∀ j, j ∈ Diagram.walkOrder a root ↔ a.graph.Reach root j :=
  walkOrder_spec_of_settled hR.settled hR.leaf_children hroot

end Arena

end DecisionDiagrams
