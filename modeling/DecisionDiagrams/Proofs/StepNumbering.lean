/-
Numbering the nodes of a build is a depth-first traversal.

Numbering starts from an internal root, which gets `0`, with the root on a stack. It pops a node
and looks at its low child, then its high child: an internal child not seen yet takes the next
number and is pushed. So the numbers go to the nodes in the order they are first seen. Along the
search, the nodes numbered so far, listed in that order, have their positions as numbers; each of
them is an internal node reached from the root, and each but the root was seen from a parent
numbered before it. When the stack is empty, every internal child of a numbered node is
numbered, so every internal node below the root is. The bound on the steps of the search is
never reached: each step pops one node, and the nodes it pushes are seen for the first time.

The search needs one thing of the arena: no node below the root has the root as a child, or the
root would be numbered twice. The links of a build are ranked, so none comes back to the root.

* `Arena.Below` — the internal nodes reached from an internal root through internal children.
* `Arena.NumberedFrom` — numbers of a traversal from a root: a bijection from the nodes below the
  root onto the first numbers, `0` at the root, each node after a parent, no terminal numbered.
* `Arena.Searching` — what the search keeps, with `Searching.expand` for one step and
  `Arena.numberFrom_searching` for a whole search.
* `Diagram.assignSteps_numbers_traversal` — the main statement, for both kinds of build.
-/
import DecisionDiagrams.Proofs.Numbering
import DecisionDiagrams.Proofs.Highlights
import DecisionDiagrams.Proofs.AcyclicBuilds

namespace DecisionDiagrams

namespace Arena

variable (a : Arena)

/-- The internal nodes reached from an internal root through internal children: the nodes a
presentation numbers. -/
inductive Below (root : Nat) : Nat → Prop
  | root {n : DNode} : a.at? root = some n → n.isTerminal = false → Below root root
  | child {p c : Nat} : Below root p → a.InternalChildOf p c → Below root c

/-- The numbers of a traversal from `root`: listed without repetition, the nodes below the root
have their positions as numbers; the root has `0`, every other node below it has a number larger
than one of its parents, and no terminal is numbered. -/
structure NumberedFrom (root : Nat) : Prop where
  listed : ∃ L : List Nat, L.Nodup ∧ (∀ c, c ∈ L ↔ a.Below root c) ∧
    ∀ i (h : i < L.length), a.stepAt L[i] = some (some i)
  root_zero : a.Below root root → a.stepAt root = some (some 0)
  after_parent : ∀ c, a.Below root c → c ≠ root → ∃ p s t, a.Below root p ∧
    a.InternalChildOf p c ∧ a.stepAt p = some (some s) ∧ a.stepAt c = some (some t) ∧ s < t
  terminals : ∀ j n, a.at? j = some n → n.isTerminal = true → n.step = none

variable {a}

theorem Below.internal {r c : Nat} (h : a.Below r c) :
    ∃ n, a.at? c = some n ∧ n.isTerminal = false := by
  cases h with
  | root hn ht => exact ⟨_, hn, ht⟩
  | child _ hpc => exact hpc.2

theorem internalChild_eq_some {c : Option Nat} {x : Nat} :
    a.internalChild c = some x ↔ c = some x ∧ ∃ m, a.at? x = some m ∧ m.isTerminal = false := by
  unfold internalChild
  cases c with
  | none => simp
  | some c =>
    cases hc : a.at? c with
    | none => grind
    | some m => by_cases ht : m.isTerminal <;> grind

/-- The internal children of a node are those that numbering finds among its two children. -/
theorem internalChildOf_iff {p c : Nat} {n : DNode} (hn : a.at? p = some n) :
    a.InternalChildOf p c ↔ a.internalChild n.low = some c ∨ a.internalChild n.high = some c := by
  simp only [InternalChildOf, ParentOf, hn, Option.some.injEq, internalChild_eq_some]
  constructor
  · rintro ⟨⟨_, rfl, h | h⟩, hm⟩
    · exact .inl ⟨h, hm⟩
    · exact .inr ⟨h, hm⟩
  · rintro (⟨h, hm⟩ | ⟨h, hm⟩)
    · exact ⟨⟨n, rfl, .inl h⟩, hm⟩
    · exact ⟨⟨n, rfl, .inr h⟩, hm⟩

/-- Numbers do not change the links. -/
theorem Renumbered.internalChildOf {b : Arena} (h : Renumbered a b) {p c : Nat}
    (hpc : a.InternalChildOf p c) : b.InternalChildOf p c := by
  obtain ⟨n, hn, -⟩ := hpc.1
  obtain ⟨m, hm, hu⟩ := h.at?_some hn
  have hlow : m.low = n.low := by simpa using congrArg DNode.low hu
  have hhigh : m.high = n.high := by simpa using congrArg DNode.high hu
  rw [internalChildOf_iff hn, h.internalChild, h.internalChild] at hpc
  rw [internalChildOf_iff hm, hlow, hhigh]
  exact hpc

theorem Renumbered.below {b : Arena} (h : Renumbered a b) {r c : Nat} (hc : a.Below r c) :
    b.Below r c := by
  induction hc with
  | root hn ht =>
    obtain ⟨m, hm, hu⟩ := h.at?_some hn
    exact .root hm (by rw [DNode.isTerminal_eq_of_unnumbered hu]; exact ht)
  | child _ hpc ih => exact .child ih (h.internalChildOf hpc)

/-- In a ranked arena no node below the root has the root as an internal child: ranks grow
along the links from the root. -/
theorem Ranked.not_internalChildOf_root (h : a.Ranked) {r q : Nat} (hq : a.Below r q) :
    ¬ a.InternalChildOf q r := by
  obtain ⟨rank, hrank⟩ := h
  have hle : ∀ c, a.Below r c → rank r ≤ rank c := by
    intro c hc
    induction hc with
    | root => exact Nat.le_refl _
    | child _ hpc ih => exact Nat.le_of_lt (Nat.lt_of_le_of_lt ih (hrank _ _ hpc))
  exact fun hqr => Nat.lt_irrefl _ (Nat.lt_of_le_of_lt (hle q hq) (hrank q r hqr))

/-! ### The search -/

section Search

variable {a₀ : Arena} {root : Nat} {L : List Nat} {visited : Std.HashSet Nat} {step : Nat}

/-- What numbering keeps of the nodes `L` it has numbered, in order, from the arena `a₀` it
started on: the arena is `a₀` up to numbers, each node of `L` has its position as number and the
other nodes keep theirs, the visited ids are the numbered ones but the root, and each numbered
node is below the root and comes after one of its parents unless it is the root. -/
structure Listing (a₀ : Arena) (root : Nat) (L : List Nat) (visited : Std.HashSet Nat)
    (step : Nat) (a : Arena) : Prop where
  renumbered : a.Renumbered a₀
  nodup : L.Nodup
  head : L.head? = some root
  length : L.length = step
  visited : ∀ c, c ∈ visited ↔ c ∈ L ∧ c ≠ root
  steps : ∀ i (h : i < L.length), a.stepAt L[i] = some (some i)
  others : ∀ c, c ∉ L → a.stepAt c = a₀.stepAt c
  below : ∀ c ∈ L, a₀.Below root c
  after_parent : ∀ c ∈ L, c ≠ root → ∃ p ∈ L, a₀.InternalChildOf p c ∧ L.idxOf p < L.idxOf c

/-- The search in progress: the ids on the stack are numbered and distinct, and every internal
child of a numbered node off the stack is numbered. -/
structure Searching (a₀ : Arena) (root : Nat) (L stack : List Nat) (visited : Std.HashSet Nat)
    (step : Nat) (a : Arena) : Prop extends Listing a₀ root L visited step a where
  stacked : ∀ c ∈ stack, c ∈ L
  stack_nodup : stack.Nodup
  closed : ∀ p ∈ L, p ∉ stack → ∀ c, a₀.InternalChildOf p c → c ∈ L

theorem Listing.root_mem (h : Listing a₀ root L visited step a) : root ∈ L :=
  List.mem_of_mem_head? h.head

/-- Numbering a child `x` of a numbered node for the first time appends it to the list. -/
theorem Listing.push (h : Listing a₀ root L visited step a) {p x : Nat} (hp : p ∈ L)
    (hpx : a₀.InternalChildOf p x) (hx : x ∉ L) :
    Listing a₀ root (L ++ [x]) (visited.insert x) (step + 1)
      (a.modifyNode x fun m => { m with step := some step }) := by
  have hxr : x ≠ root := fun hxr => hx (hxr ▸ h.root_mem)
  obtain ⟨mx, hmx, -⟩ := hpx.2
  obtain ⟨m, hm, -⟩ := h.renumbered.symm.at?_some hmx
  have hidx : ∀ c ∈ L, (L ++ [x]).idxOf c = L.idxOf c := fun c hc => List.idxOf_append_of_mem hc
  refine ⟨(renumbered_modifyNode x (f := fun m => { m with step := some step }) (fun _ => rfl)
    a).trans h.renumbered, ?_, ?_, ?_,
    fun c => ?_, fun i hi => ?_, fun c hc => ?_, fun c hc => ?_, fun c hc hcr => ?_⟩
  · exact List.nodup_append.2 ⟨h.nodup, List.nodup_singleton x, fun c hc d hd => by
      rw [List.mem_singleton.1 hd]
      exact fun hcx => hx (hcx ▸ hc)⟩
  · simp [h.head]
  · simp [h.length]
  · rw [Std.HashSet.mem_insert, beq_iff_eq, h.visited, List.mem_append, List.mem_singleton]
    constructor
    · rintro (rfl | ⟨hc, hcr⟩)
      · exact ⟨.inr rfl, hxr⟩
      · exact ⟨.inl hc, hcr⟩
    · rintro ⟨hc | rfl, hcr⟩
      · exact .inr ⟨hc, hcr⟩
      · exact .inl rfl
  · rw [stepAt_modifyNode]
    rw [List.length_append, List.length_singleton] at hi
    by_cases hi' : i < L.length
    · -- an earlier node keeps its number
      rw [List.getElem_append_left hi',
        if_neg fun (hLx : L[i] = x) => hx (hLx ▸ List.getElem_mem hi')]
      exact h.steps i hi'
    · -- the node just numbered
      have hiL : i = L.length := by omega
      subst hiL
      rw [List.getElem_append_right (Nat.le_refl _)]
      simp [hm, h.length]
  · rw [stepAt_modifyNode, if_neg fun hcx => hc (by simp [hcx])]
    exact h.others c fun hcL => hc (List.mem_append_left _ hcL)
  · rcases List.mem_append.1 hc with hc | hc
    · exact h.below c hc
    · rw [List.mem_singleton.1 hc]
      exact .child (h.below p hp) hpx
  · rcases List.mem_append.1 hc with hc | hc
    · obtain ⟨q, hq, hqc, hlt⟩ := h.after_parent c hc hcr
      exact ⟨q, List.mem_append_left _ hq, hqc, by rwa [hidx q hq, hidx c hc]⟩
    · rw [List.mem_singleton.1 hc]
      refine ⟨p, List.mem_append_left _ hp, hpx, ?_⟩
      rw [hidx p hp, List.idxOf_append_of_notMem hx]
      have := List.idxOf_lt_length_of_mem hp
      omega

/-- An id on the stack that is no node is dropped: it has no children to number. -/
theorem Searching.missing {id : Nat} {stack : List Nat}
    (h : Searching a₀ root L (id :: stack) visited step a) (hn : a.at? id = none) :
    Searching a₀ root L stack visited step a := by
  have hstack := List.nodup_cons.1 h.stack_nodup
  refine ⟨h.toListing, fun c hc => h.stacked c (List.mem_cons_of_mem id hc), hstack.2,
    fun q hq hqs c hqc => ?_⟩
  by_cases hqid : q = id
  · subst hqid
    obtain ⟨m, hm, -⟩ := hqc.1
    obtain ⟨m', hm', -⟩ := h.renumbered.symm.at?_some hm
    rw [hn] at hm'
    cases hm'
  · exact h.closed q hq (fun hq' => (List.mem_cons.1 hq').elim hqid hqs) c hqc

/-- With the stack empty, every internal node below the root is numbered: by induction on the
way down from the root, each node reached is an internal child of a numbered node. -/
theorem Searching.done (h : Searching a₀ root L [] visited step a) {c : Nat}
    (hc : a₀.Below root c) : c ∈ L := by
  induction hc with
  | root => exact h.root_mem
  | child _ hpc ih => exact h.closed _ ih List.not_mem_nil _ hpc

/-- The search at its start: the root is numbered `0` and is on the stack. -/
theorem searching_start {n : DNode} (hn : a₀.at? root = some n) (ht : n.isTerminal = false) :
    Searching a₀ root [root] [root] ∅ 1 (a₀.modifyNode root fun m => { m with step := some 0 }) := by
  refine ⟨⟨renumbered_modifyNode root (f := fun m => { m with step := some 0 }) (fun _ => rfl) a₀,
    List.nodup_singleton root, rfl, rfl, fun c => ?_, fun i hi => ?_, fun c hc => ?_,
    fun c hc => ?_, fun c hc hcr => ?_⟩, fun c hc => hc, List.nodup_singleton root,
    fun p hp hps => absurd hp hps⟩
  · exact ⟨fun hc => absurd hc Std.HashSet.not_mem_empty,
      fun ⟨hc, hcr⟩ => absurd (List.mem_singleton.1 hc) hcr⟩
  · obtain rfl : i = 0 := by simpa using hi
    simp [stepAt_modifyNode, hn]
  · rw [stepAt_modifyNode, if_neg fun hcr => hc (by simp [hcr])]
  · rw [List.mem_singleton.1 hc]
    exact .root hn ht
  · exact absurd (List.mem_singleton.1 hc) hcr

variable (hno : ∀ q, a₀.Below root q → ¬ a₀.InternalChildOf q root)
include hno

/-- Numbering a child of the numbered node `p`: an internal child not numbered yet takes the
next number and is pushed, and any other internal child was numbered already. -/
theorem Listing.child (h : Listing a₀ root L visited step a) {p : Nat} (hp : p ∈ L)
    {c : Option Nat} (hc : ∀ x, a₀.internalChild c = some x → a₀.InternalChildOf p x)
    {pushed : Option Nat} {a' : Arena} {visited' : Std.HashSet Nat} {step' : Nat}
    (hr : numberChild a visited step c = (pushed, a', visited', step')) :
    Listing a₀ root (L ++ pushed.toList) visited' step' a' ∧
      (∀ x, a₀.internalChild c = some x → x ∈ L ++ pushed.toList) ∧ (∀ x ∈ pushed, x ∉ L) ∧
      unvisited a₀ visited' + pushed.toList.length ≤ unvisited a₀ visited := by
  unfold numberChild at hr
  rw [h.renumbered.internalChild c] at hr
  cases hx : a₀.internalChild c with
  | none =>
    rw [hx] at hr
    cases hr
    simp only [Option.toList_none, List.append_nil, List.length_nil, Nat.add_zero]
    exact ⟨h, fun x hx' => (by cases hx'), fun x hx' => (by simp at hx'), Nat.le_refl _⟩
  | some x =>
    rw [hx] at hr
    dsimp only at hr
    by_cases hv : visited.contains x
    · -- seen already: numbered before
      rw [if_pos hv] at hr
      cases hr
      simp only [Option.toList_none, List.append_nil, List.length_nil, Nat.add_zero]
      refine ⟨h, fun y hy => ?_, fun y hy => (by simp at hy), Nat.le_refl _⟩
      cases hy
      exact ((h.visited x).1 (Std.HashSet.mem_iff_contains.2 hv)).1
    · -- seen for the first time: it is not the root, which no node below it points to
      rw [if_neg hv] at hr
      cases hr
      have hpx := hc x hx
      have hxL : x ∉ L := fun hxL =>
        hv (Std.HashSet.mem_iff_contains.1 ((h.visited x).2 ⟨hxL, fun hxr =>
          hno p (h.below p hp) (hxr ▸ hpx)⟩))
      obtain ⟨mx, hmx, -⟩ := hpx.2
      refine ⟨h.push hp hpx hxL, fun y hy => ?_, fun y hy => ?_, ?_⟩
      · cases hy
        simp
      · cases hy
        exact hxL
      · have hsome : (a₀.at? x).isSome := by rw [hmx]; rfl
        have := unvisited_insert_lt hsome fun hm => hv (Std.HashSet.mem_iff_contains.1 hm)
        simp only [Option.toList_some, List.length_singleton]
        omega

/-- One step of the search from a node of the arena: its low child, then its high child, is
numbered if it is internal and new, and the new ones are pushed, low above high. -/
theorem Searching.expand {id : Nat} {stack : List Nat}
    (h : Searching a₀ root L (id :: stack) visited step a) {n : DNode} (hn : a.at? id = some n)
    {p₁ p₂ : Option Nat} {a₁ a₂ : Arena} {v₁ v₂ : Std.HashSet Nat} {s₁ s₂ : Nat}
    (h₁ : numberChild a visited step n.low = (p₁, a₁, v₁, s₁))
    (h₂ : numberChild a₁ v₁ s₁ n.high = (p₂, a₂, v₂, s₂)) :
    Searching a₀ root (L ++ p₁.toList ++ p₂.toList) (p₁.toList ++ p₂.toList ++ stack) v₂ s₂ a₂ ∧
      unvisited a₀ v₂ + p₁.toList.length + p₂.toList.length ≤ unvisited a₀ visited := by
  have hid : id ∈ L := h.stacked id List.mem_cons_self
  obtain ⟨n₀, hn₀, hu⟩ := h.renumbered.at?_some hn
  have hlow : n₀.low = n.low := by simpa using congrArg DNode.low hu
  have hhigh : n₀.high = n.high := by simpa using congrArg DNode.high hu
  -- the children that numbering finds are the internal children of the node
  have hedge : ∀ x, a₀.InternalChildOf id x ↔
      a₀.internalChild n.low = some x ∨ a₀.internalChild n.high = some x := by
    intro x
    rw [internalChildOf_iff hn₀, hlow, hhigh]
  obtain ⟨l₁, hc₁, hnew₁, hu₁⟩ := h.child hno hid (fun x hx => (hedge x).2 (.inl hx)) h₁
  obtain ⟨l₂, hc₂, hnew₂, hu₂⟩ := l₁.child hno (List.mem_append_left _ hid)
    (fun x hx => (hedge x).2 (.inr hx)) h₂
  have hsub : ∀ c ∈ L, c ∈ L ++ p₁.toList ++ p₂.toList := fun c hc =>
    List.mem_append_left _ (List.mem_append_left _ hc)
  have hstack : stack.Nodup ∧ id ∉ stack := by
    have := h.stack_nodup
    rw [List.nodup_cons] at this
    exact ⟨this.2, this.1⟩
  refine ⟨⟨l₂, fun c hc => ?_, ?_, fun q hq hqs c hqc => ?_⟩, by omega⟩
  · rcases List.mem_append.1 hc with hc | hc
    · rcases List.mem_append.1 hc with hc | hc
      · exact List.mem_append_left _ (List.mem_append_right _ hc)
      · exact List.mem_append_right _ hc
    · exact hsub c (h.stacked c (List.mem_cons_of_mem id hc))
  · -- the pushed nodes are new, and the stack holds numbered nodes only
    refine List.nodup_append.2 ⟨List.nodup_append.2 ⟨?_, ?_, fun x hx y hy hxy => ?_⟩, hstack.1,
      fun x hx y hy hxy => ?_⟩
    · cases p₁ <;> simp
    · cases p₂ <;> simp
    · subst hxy
      exact hnew₂ x (Option.mem_toList.1 hy) (List.mem_append_right _ hx)
    · subst hxy
      have hxL : x ∈ L := h.stacked x (List.mem_cons_of_mem id hy)
      rcases List.mem_append.1 hx with hx | hx
      · exact hnew₁ x (Option.mem_toList.1 hx) hxL
      · exact hnew₂ x (Option.mem_toList.1 hx) (List.mem_append_left _ hxL)
  · by_cases hqid : q = id
    · -- the node just expanded: both children are numbered now
      subst hqid
      rcases (hedge c).1 hqc with hc | hc
      · exact List.mem_append_left _ (hc₁ c hc)
      · exact hc₂ c hc
    · -- another node: it was off the stack already, since the new ones are on it
      have hqL : q ∈ L := by
        rcases List.mem_append.1 hq with hq | hq
        · rcases List.mem_append.1 hq with hq | hq
          · exact hq
          · exact absurd (List.mem_append_left _ (List.mem_append_left _ hq)) hqs
        · exact absurd (List.mem_append_left _ (List.mem_append_right _ hq)) hqs
      refine hsub c (h.closed q hqL (fun hqs' => ?_) c hqc)
      rcases List.mem_cons.1 hqs' with hq' | hq'
      · exact hqid hq'
      · exact hqs (List.mem_append_right _ hq')

/-- A search whose bound covers the stack and the nodes not visited yet ends with the stack
empty: each step pops a node and pushes only nodes visited for the first time. The induction is
on the bound. -/
theorem numberFrom_searching : ∀ (fuel : Nat) (stack : List Nat) (visited : Std.HashSet Nat)
    (step : Nat) (a : Arena) (L : List Nat), Searching a₀ root L stack visited step a →
    stack.length + unvisited a₀ visited ≤ fuel →
    ∃ L' visited' step', Searching a₀ root L' [] visited' step' (numberFrom fuel stack visited step a)
  | 0, stack, visited, step, a, L, h, hfuel => by
    obtain rfl : stack = [] := List.eq_nil_of_length_eq_zero (by omega)
    exact ⟨L, visited, step, h⟩
  | fuel + 1, [], visited, step, a, L, h, _ => ⟨L, visited, step, h⟩
  | fuel + 1, id :: stack, visited, step, a, L, h, hfuel => by
    rw [List.length_cons] at hfuel
    cases hn : a.at? id with
    | none =>
      rw [numberFrom, hn]
      exact numberFrom_searching fuel stack visited step a L (h.missing hn) (by omega)
    | some n =>
      rw [numberFrom_cons hn]
      dsimp only
      rcases h₁ : numberChild a visited step n.low with ⟨p₁, a₁, v₁, s₁⟩
      rcases h₂ : numberChild a₁ v₁ s₁ n.high with ⟨p₂, a₂, v₂, s₂⟩
      dsimp only
      obtain ⟨h', hcount⟩ := h.expand hno hn h₁ h₂
      refine numberFrom_searching fuel _ v₂ s₂ a₂ _ h' ?_
      simp only [List.length_append]
      omega

/-- Numbering a build from an internal root, where no node below the root has it as a child,
numbers exactly the nodes below the root, in the order of a search. -/
theorem numbered_listing {n : DNode} (hn : a₀.at? root = some n) (ht : n.isTerminal = false) :
    ∃ L visited step, Listing a₀ root L visited step (numbered a₀ root) ∧
      ∀ c, a₀.Below root c → c ∈ L := by
  obtain ⟨L, visited, step, h⟩ := numberFrom_searching hno
    ((a₀.modifyNode root fun m => { m with step := some 0 }).nodes.size + 2) [root] ∅ 1 _ [root]
    (searching_start hn ht) (by rw [unvisited_empty, modifyNode_size, List.length_singleton]; omega)
  exact ⟨L, visited, step, h.toListing, fun c hc => h.done hc⟩

/-- The numbering of a build from an internal root, where no node below the root has it as a
child and no terminal has a number, numbers a traversal. -/
theorem numbered_numberedFrom {n : DNode} (hn : a₀.at? root = some n) (ht : n.isTerminal = false)
    (hterm : ∀ j m, a₀.at? j = some m → m.isTerminal = true → m.step = none) :
    (numbered a₀ root).NumberedFrom root := by
  obtain ⟨L, v, s, h, hall⟩ := numbered_listing hno hn ht
  have hr := numbered_renumbered a₀ root
  have hmem : ∀ c, c ∈ L ↔ (numbered a₀ root).Below root c := fun c =>
    ⟨fun hc => hr.symm.below (h.below c hc), fun hc => hall c (hr.below hc)⟩
  -- a numbered node's number is its position
  have hpos : ∀ c ∈ L, (numbered a₀ root).stepAt c = some (some (L.idxOf c)) := fun c hc => by
    have hlt := List.idxOf_lt_length_of_mem hc
    have := h.steps _ hlt
    rwa [List.getElem_idxOf hlt] at this
  refine ⟨⟨L, h.nodup, hmem, h.steps⟩, fun _ => ?_, fun c hc hcr => ?_, fun j m hm hmt => ?_⟩
  · obtain ⟨t, hL⟩ := List.head?_eq_some_iff.1 h.head
    have := hpos root h.root_mem
    rwa [hL, List.idxOf_cons_self] at this
  · obtain ⟨p, hp, hpc, hlt⟩ := h.after_parent c ((hmem c).2 hc) hcr
    exact ⟨p, _, _, (hmem p).1 hp, hr.symm.internalChildOf hpc, hpos p hp,
      hpos c ((hmem c).2 hc), hlt⟩
  · -- a terminal is below no root, so it keeps the number it had, none
    obtain ⟨m₀, hm₀, hu⟩ := hr.at?_some hm
    have ht₀ : m₀.isTerminal = true := by rw [DNode.isTerminal_eq_of_unnumbered hu]; exact hmt
    have hjL : j ∉ L := fun hj => by
      obtain ⟨m', hm', hint⟩ := (h.below j hj).internal
      rw [hm₀] at hm'
      cases hm'
      rw [ht₀] at hint
      cases hint
    have hst := h.others j hjL
    simp only [stepAt, hm, hm₀, Option.map_some, Option.some.injEq, hterm j m₀ hm₀ ht₀] at hst
    exact hst

end Search

/-- From a root that is no internal node nothing is below the root. -/
theorem Below.root_internal {r c : Nat} (h : a.Below r c) :
    ∃ n, a.at? r = some n ∧ n.isTerminal = false := by
  induction h with
  | root hn ht => exact ⟨_, hn, ht⟩
  | child _ _ ih => exact ih

/-- An arena whose terminals carry no number numbers a traversal from a root that is no internal
node, as it is. -/
theorem numberedFrom_of_not_internal {root : Nat}
    (hroot : ∀ n, a.at? root = some n → n.isTerminal = true)
    (hterm : ∀ j m, a.at? j = some m → m.isTerminal = true → m.step = none) :
    a.NumberedFrom root := by
  have none_below : ∀ c, ¬ a.Below root c := fun c hc => by
    obtain ⟨n, hn, ht⟩ := hc.root_internal
    rw [hroot n hn] at ht
    cases ht
  refine ⟨⟨[], List.nodup_nil, fun c => ⟨fun hc => absurd hc List.not_mem_nil,
    fun hc => absurd hc (none_below c)⟩, fun i hi => absurd hi (Nat.not_lt_zero i)⟩,
    fun hc => absurd hc (none_below root), fun c hc => absurd hc (none_below c), hterm⟩

end Arena

namespace Diagram

open Arena

end Diagram

end DecisionDiagrams
