/-
Numbering the nodes of a build for presentation.

A view or a DOT text of a build numbers its internal nodes first: the root gets `0` and the
internal nodes below it the next numbers, depth first. Numbering reads the children of the
nodes only, and overwrites the number of every node it reaches with a number that depends on
those children. So numbering twice is numbering once, and whatever reads the children only,
such as the walk of a build and its edges, is blind to the numbers.

* `Arena.Renumbered` — two arenas equal up to the numbers of their nodes;
* `Arena.numberFrom_sameWrites` — numbering arenas equal up to numbers writes the same
  numbers, and leaves the others as they were;
* `Arena.numbered_numbered` — so numbering a numbered build changes nothing;
* `Diagram.assignSteps_twice`, `Diagram.edges_assignSteps` — numbering a kind of a diagram
  twice is numbering it once, and changes none of its edges.
-/
import DecisionDiagrams.Diagram.Present
import DecisionDiagrams.Proofs.Arenas

namespace DecisionDiagrams

/-- A node with its presentation number forgotten. -/
def DNode.unnumbered (n : DNode) : DNode := { n with step := none }

namespace DNode

@[simp] theorem unnumbered_var (n : DNode) : n.unnumbered.var = n.var := rfl
@[simp] theorem unnumbered_low (n : DNode) : n.unnumbered.low = n.low := rfl
@[simp] theorem unnumbered_high (n : DNode) : n.unnumbered.high = n.high := rfl


theorem isTerminal_eq_of_unnumbered {n m : DNode} (h : n.unnumbered = m.unnumbered) :
    n.isTerminal = m.isTerminal := by
  simpa [DNode.isTerminal] using congrArg (fun n => n.var.isNone) h

end DNode

theorem DNode.eq_of_unnumbered {n m : DNode} (h : n.unnumbered = m.unnumbered) (hs : n.step = m.step) :
    n = m := by
  cases n; cases m
  simp only [DNode.unnumbered, DNode.mk.injEq] at h hs ⊢
  tauto

namespace Arena

/-- The presentation number of the node with an id, if the arena has the node. -/
def stepAt (a : Arena) (id : Nat) : Option (Option Nat) := (a.at? id).map (·.step)

/-- Two arenas that differ at most in the presentation numbers of their nodes. -/
structure Renumbered (a b : Arena) : Prop where
  base_eq : a.base = b.base
  size_eq : a.nodes.size = b.nodes.size
  at?_eq : ∀ id, (a.at? id).map DNode.unnumbered = (b.at? id).map DNode.unnumbered

namespace Renumbered

theorem refl (a : Arena) : Renumbered a a := ⟨rfl, rfl, fun _ => rfl⟩

theorem symm {a b : Arena} (h : Renumbered a b) : Renumbered b a :=
  ⟨h.base_eq.symm, h.size_eq.symm, fun id => (h.at?_eq id).symm⟩

theorem trans {a b c : Arena} (h₁ : Renumbered a b) (h₂ : Renumbered b c) : Renumbered a c :=
  ⟨h₁.base_eq.trans h₂.base_eq, h₁.size_eq.trans h₂.size_eq,
    fun id => (h₁.at?_eq id).trans (h₂.at?_eq id)⟩

end Renumbered

@[simp] theorem modifyNode_size (id : Nat) (f : DNode → DNode) (a : Arena) :
    (a.modifyNode id f).nodes.size = a.nodes.size := by
  unfold modifyNode
  split
  · rfl
  · simp

theorem renumbered_modifyNode (id : Nat) {f : DNode → DNode} (hf : ∀ m, (f m).unnumbered = m.unnumbered)
    (a : Arena) : Renumbered (a.modifyNode id f) a := by
  refine ⟨modifyNode_base id f a, modifyNode_size id f a, fun j => ?_⟩
  rw [at?_modifyNode]
  split
  · cases a.at? j <;> simp [hf]
  · rfl

theorem Renumbered.at?_some {a b : Arena} (h : Renumbered a b) {id : Nat} {n : DNode}
    (ha : a.at? id = some n) : ∃ m, b.at? id = some m ∧ m.unnumbered = n.unnumbered := by
  have := h.at?_eq id
  rw [ha] at this
  cases hb : b.at? id with
  | none => rw [hb] at this; cases this
  | some m => rw [hb] at this; exact ⟨m, rfl, (Option.some.inj this).symm⟩

theorem Renumbered.internalChild {a b : Arena} (h : Renumbered a b) (c : Option Nat) :
    a.internalChild c = b.internalChild c := by
  cases c with
  | none => rfl
  | some c =>
    have := h.at?_eq c
    simp only [Arena.internalChild]
    rcases ha : a.at? c with _ | n <;> rcases hb : b.at? c with _ | m
    · rfl
    · simp [ha, hb] at this
    · simp [ha, hb] at this
    · -- the same node up to its number: internal alike
      have hv : n.var = m.var := by
        simpa [ha, hb, DNode.unnumbered] using congrArg (Option.map DNode.var) this
      simp [DNode.isTerminal, hv]

/-- Numbering changes numbers only. -/
theorem numberFrom_renumbered (fuel : Nat) (stack : List Nat) (visited : Std.HashSet Nat)
    (step : Nat) (a : Arena) : Renumbered (numberFrom fuel stack visited step a) a := by
  fun_induction numberFrom fuel stack visited step a with
  | case1 => exact .refl _
  | case2 => exact .refl _
  | case3 _ _ _ _ _ _ _ ih => exact ih
  | case4 fuel id stack visited step a n hn setStep a₁ visited₁ step₁ pushLow h₁ a₂ visited₂ step₂
      stack₂ h₂ stack' ih =>
    have hs : ∀ s m, (setStep s m).unnumbered = m.unnumbered := fun _ _ => rfl
    -- the low child, then the high child, is numbered when it is internal and not seen yet
    have r₁ : Renumbered a₁ a := by
      split at h₁
      · split at h₁
        · cases h₁; exact .refl _
        · cases h₁; exact renumbered_modifyNode _ (hs _) _
      · cases h₁; exact .refl _
    have r₂ : Renumbered a₂ a₁ := by
      split at h₂
      · split at h₂
        · cases h₂; exact .refl _
        · cases h₂; exact renumbered_modifyNode _ (hs _) _
      · cases h₂; exact .refl _
    exact ih.trans (r₂.trans r₁)

theorem Renumbered.at?_map {β : Type} {a b : Arena} (h : Renumbered a b) {f : DNode → β}
    (hf : ∀ n, f n.unnumbered = f n) (id : Nat) : (a.at? id).map f = (b.at? id).map f := by
  have := congrArg (Option.map f) (h.at?_eq id)
  simpa [Option.map_map, Function.comp_def, hf] using this

/-- The walk of a build reads the children of its nodes only. -/
theorem Renumbered.walkOrder_loop {a b : Arena} (h : Renumbered a b)
    (mark : Array Bool → Nat → Array Bool) (isSeen : Array Bool → Nat → Bool) :
    ∀ fuel frontier seen out, Diagram.walkOrder.loop a mark isSeen fuel frontier seen out =
      Diagram.walkOrder.loop b mark isSeen fuel frontier seen out := by
  intro fuel
  induction fuel with
  | zero => intro _ _ _; rfl
  | succ fuel ih =>
    intro frontier seen out
    rw [Diagram.walkOrder.loop, Diagram.walkOrder.loop]
    congr 1
    split
    next next₁ seen₁ h₁ =>
      split
      next next₂ seen₂ h₂ =>
        -- one round of the walk finds the same children in both arenas
        obtain ⟨⟩ : (next₁, seen₁) = (next₂, seen₂) := by
          rw [← h₁, ← h₂]
          congr 1
          funext x id
          obtain ⟨acc, seen⟩ := x
          have hl := h.at?_map (f := fun n => (n.low, n.high)) (fun _ => rfl) id
          rcases ha : a.at? id with _ | n <;> rcases hb : b.at? id with _ | n' <;>
            simp only [ha, hb, Option.map_none, Option.map_some, reduceCtorEq,
              Option.some.injEq, Prod.mk.injEq] at hl ⊢
          rw [hl.1, hl.2]
        exact ih _ _ _

theorem Renumbered.walkOrder {a b : Arena} (h : Renumbered a b) (root : Nat) :
    Diagram.walkOrder a root = Diagram.walkOrder b root := by
  unfold Diagram.walkOrder
  dsimp only
  rw [h.walkOrder_loop, h.base_eq, h.size_eq]

/-- Numbering one child of a node: an internal child not seen yet takes the next number, and
is pushed. -/
def numberChild (a : Arena) (visited : Std.HashSet Nat) (step : Nat) (c : Option Nat) :
    Option Nat × Arena × Std.HashSet Nat × Nat :=
  match a.internalChild c with
  | some c =>
    if visited.contains c then (none, a, visited, step)
    else (some c, a.modifyNode c (fun m => { m with step := some step }), visited.insert c, step + 1)
  | none => (none, a, visited, step)

/-- Numbering from a node numbers its low child, then its high child, and goes on from the
children pushed, low above high. -/
theorem numberFrom_cons {fuel id : Nat} {stack : List Nat} {visited : Std.HashSet Nat} {step : Nat}
    {a : Arena} {n : DNode} (hn : a.at? id = some n) :
    numberFrom (fuel + 1) (id :: stack) visited step a =
      let l := numberChild a visited step n.low
      let r := numberChild l.2.1 l.2.2.1 l.2.2.2 n.high
      numberFrom fuel (l.1.toList ++ r.1.toList ++ stack) r.2.2.1 r.2.2.2 r.2.1 := by
  rw [numberFrom, hn]
  -- the low child: nothing to number, seen already, or numbered now
  cases hl : a.internalChild n.low with
  | none =>
    simp only [numberChild, hl]
    cases hh : a.internalChild n.high with
    | none => simp
    | some c => by_cases hv : visited.contains c <;> simp [hv]
  | some c =>
    by_cases hv : visited.contains c
    · simp only [numberChild, hl, hv, if_true]
      cases hh : a.internalChild n.high with
      | none => simp
      | some c' => by_cases hv' : visited.contains c' <;> simp [hv']
    · simp only [numberChild, hl, hv, Bool.false_eq_true, if_false]
      cases hh : (a.modifyNode c fun m => { m with step := some step }).internalChild n.high with
      | none => simp
      | some c' => by_cases hv' : (visited.insert c).contains c' <;> simp [hv']

/-- Arenas `a'` and `b'`, made from `a` and `b`, have the same number at every node where either
of them changed one. -/
def SameWrites (a b a' b' : Arena) : Prop :=
  ∀ id, a'.stepAt id = b'.stepAt id ∨ (a'.stepAt id = a.stepAt id ∧ b'.stepAt id = b.stepAt id)

namespace SameWrites

theorem refl (a b : Arena) : SameWrites a b a b := fun _ => .inr ⟨rfl, rfl⟩

theorem trans {a b a₁ b₁ a₂ b₂ : Arena} (h₁ : SameWrites a b a₁ b₁) (h₂ : SameWrites a₁ b₁ a₂ b₂) :
    SameWrites a b a₂ b₂ := by
  intro id
  rcases h₂ id with h | ⟨ha, hb⟩
  · exact .inl h
  · rw [ha, hb]
    exact h₁ id

end SameWrites

theorem stepAt_modifyNode (c : Nat) (f : DNode → DNode) (a : Arena) (j : Nat) :
    (a.modifyNode c f).stepAt j = if j = c then (a.at? j).map (fun m => (f m).step) else a.stepAt j := by
  unfold stepAt
  rw [at?_modifyNode]
  split
  · simp [Option.map_map, Function.comp_def]
  · rfl

/-- Writing one number at one node in both arenas. -/
theorem Renumbered.sameWrites_modifyNode {a b : Arena} (h : Renumbered a b) (c s : Nat) :
    SameWrites a b (a.modifyNode c fun m => { m with step := some s })
      (b.modifyNode c fun m => { m with step := some s }) := by
  intro j
  rw [stepAt_modifyNode, stepAt_modifyNode]
  split
  · next hj =>
    subst hj
    have := h.at?_map (f := fun _ => ()) (fun _ => rfl) j
    left
    cases ha : a.at? j <;> cases hb : b.at? j <;> simp_all
  · exact .inr ⟨rfl, rfl⟩

theorem numberChild_renumbered (a : Arena) (visited : Std.HashSet Nat) (step : Nat) (c : Option Nat) :
    Renumbered (numberChild a visited step c).2.1 a := by
  unfold numberChild
  split
  · split
    · exact .refl _
    · exact renumbered_modifyNode _ (f := fun m => { m with step := some step }) (fun _ => rfl) a
  · exact .refl _

/-- Numbering a child in arenas equal up to numbers pushes the same child and writes the same
number. -/
theorem Renumbered.numberChild {a b : Arena} (h : Renumbered a b) (visited : Std.HashSet Nat)
    (step : Nat) (c : Option Nat) :
    (numberChild a visited step c).1 = (numberChild b visited step c).1 ∧
      (numberChild a visited step c).2.2 = (numberChild b visited step c).2.2 ∧
      SameWrites a b (numberChild a visited step c).2.1 (numberChild b visited step c).2.1 := by
  unfold Arena.numberChild
  rw [h.internalChild c]
  split
  · split
    · exact ⟨rfl, rfl, .refl a b⟩
    · exact ⟨rfl, rfl, h.sameWrites_modifyNode _ _⟩
  · exact ⟨rfl, rfl, .refl a b⟩

/-- Numbering arenas equal up to numbers writes the same numbers. -/
theorem numberFrom_sameWrites (fuel : Nat) :
    ∀ (stack : List Nat) (visited : Std.HashSet Nat) (step : Nat) {a b : Arena}, Renumbered a b →
      SameWrites a b (numberFrom fuel stack visited step a) (numberFrom fuel stack visited step b) := by
  induction fuel with
  | zero => intro _ _ _ a b _; exact .refl a b
  | succ fuel ih =>
    intro stack visited step a b h
    cases stack with
    | nil => exact .refl a b
    | cons id stack =>
      cases ha : a.at? id with
      | none =>
        have hb : b.at? id = none := by simpa [ha] using (h.at?_eq id).symm
        rw [numberFrom, numberFrom, ha, hb]
        exact ih stack visited step h
      | some n =>
        obtain ⟨m, hb, hm⟩ := h.at?_some ha
        have hlow : m.low = n.low := by simpa using congrArg DNode.low hm
        have hhigh : m.high = n.high := by simpa using congrArg DNode.high hm
        rw [numberFrom_cons ha, numberFrom_cons hb, hlow, hhigh]
        dsimp only
        -- the low child, the high child, then the rest of the stack
        have hl := h.numberChild visited step n.low
        have ra := numberChild_renumbered a visited step n.low
        have rb := numberChild_renumbered b visited step n.low
        revert hl ra rb
        rcases numberChild a visited step n.low with ⟨p, a₁, v, s⟩
        rcases numberChild b visited step n.low with ⟨p', b₁, v', s'⟩
        rintro ⟨rfl, ⟨⟩, hw₁⟩ ra rb
        dsimp only
        have h₁ : Renumbered a₁ b₁ := ra.trans (h.trans rb.symm)
        have hh := h₁.numberChild v s n.high
        have ra' := numberChild_renumbered a₁ v s n.high
        have rb' := numberChild_renumbered b₁ v s n.high
        revert hh ra' rb'
        rcases numberChild a₁ v s n.high with ⟨q, a₂, w, t⟩
        rcases numberChild b₁ v s n.high with ⟨q', b₂, w', t'⟩
        rintro ⟨rfl, ⟨⟩, hw₂⟩ ra' rb'
        exact hw₁.trans (hw₂.trans (ih _ _ _ (ra'.trans (h₁.trans rb'.symm))))

/-- Arenas equal up to numbers that have the same numbers are equal. -/
theorem Renumbered.eq {a b : Arena} (h : Renumbered a b) (hs : ∀ id, a.stepAt id = b.stepAt id) :
    a = b := by
  obtain ⟨base, nodes⟩ := a
  obtain ⟨base', nodes'⟩ := b
  obtain rfl : base = base' := h.base_eq
  refine congrArg (Arena.mk base) (Array.ext h.size_eq fun i hi hi' => ?_)
  have hu := h.at?_eq (base + i)
  have hst := hs (base + i)
  have hge : ¬ base + i < base := by omega
  simp only [stepAt, Arena.at?, hge, if_false, Nat.add_sub_cancel_left,
    Array.getElem?_eq_getElem hi, Array.getElem?_eq_getElem hi', Option.map_some,
    Option.some.injEq] at hu hst
  exact DNode.eq_of_unnumbered hu hst

/-- The numbering of a build: its root gets `0`, and the internal nodes below it the next
numbers, depth first. -/
def numbered (a : Arena) (root : Nat) : Arena :=
  let a := a.modifyNode root fun m => { m with step := some 0 }
  a.numberFrom (a.nodes.size + 2) [root] {} 1

theorem numbered_renumbered (a : Arena) (root : Nat) : Renumbered (numbered a root) a :=
  (numberFrom_renumbered _ _ _ _ _).trans
    (renumbered_modifyNode _ (f := fun m => { m with step := some 0 }) (fun _ => rfl) a)

/-- Numbering a numbered build again changes nothing: numbering writes the same numbers on
arenas equal up to numbers, and the root's number is `0` either way. -/
theorem numbered_numbered (a : Arena) (root : Nat) :
    numbered (numbered a root) root = numbered a root := by
  let c := a.modifyNode root fun m => { m with step := some 0 }
  let x := (numbered a root).modifyNode root fun m => { m with step := some 0 }
  have hnc : Renumbered (numbered a root) c := numberFrom_renumbered _ _ _ _ c
  have hxc : Renumbered x c :=
    (renumbered_modifyNode root (f := fun m => { m with step := some 0 }) (fun _ => rfl) _).trans hnc
  have hw := numberFrom_sameWrites (c.nodes.size + 2) [root] {} 1 hxc
  show x.numberFrom (x.nodes.size + 2) [root] {} 1 = c.numberFrom (c.nodes.size + 2) [root] {} 1
  rw [hxc.size_eq]
  refine ((numberFrom_renumbered _ _ _ _ x).trans (hxc.trans (numberFrom_renumbered _ _ _ _ c).symm)).eq
    fun id => ?_
  rcases hw id with h | ⟨hx, hc⟩
  · exact h
  · -- a number that neither run wrote: the one both started from
    rw [hx, hc]
    show ((numbered a root).modifyNode root _).stepAt id = (a.modifyNode root _).stepAt id
    rw [stepAt_modifyNode, stepAt_modifyNode]
    split
    · exact (numbered_renumbered a root).at?_map (fun _ => rfl) id
    · next hne =>
      calc (numbered a root).stepAt id = c.stepAt id := hc
        _ = a.stepAt id := by rw [stepAt_modifyNode, if_neg hne]

theorem Renumbered.identifierOf {a b : Arena} (h : Renumbered a b) (c : Option Nat) :
    a.identifierOf c = b.identifierOf c := by
  cases c with
  | none => rfl
  | some c =>
    have hi := h.at?_map (f := DNode.identifier) (fun _ => rfl) c
    simp only [Arena.identifierOf, Option.bind_some]
    rcases ha : a.at? c with _ | n <;> rcases hb : b.at? c with _ | m <;>
      simp only [ha, hb, Option.map_none, Option.map_some, reduceCtorEq, Option.some.injEq] at hi ⊢
    exact hi

end Arena

namespace Diagram

@[simp] theorem built?_setBuilt (d : Diagram) (k : Kind) (b : Option Built) :
    (d.setBuilt k b).built? k = b := by
  cases k <;> rfl

theorem built?_setBuilt_of_ne (d : Diagram) {k k' : Kind} (h : k' ≠ k) (b : Option Built) :
    (d.setBuilt k b).built? k' = d.built? k' := by
  cases k <;> cases k' <;> first | rfl | exact absurd rfl h

@[simp] theorem setBuilt_setBuilt (d : Diagram) (k : Kind) (b b' : Option Built) :
    (d.setBuilt k b).setBuilt k b' = d.setBuilt k b' := by
  cases k <;> rfl

theorem setBuilt_built? (d : Diagram) (k : Kind) : d.setBuilt k (d.built? k) = d := by
  cases k <;> rfl

/-- Numbering a kind's build: the root gets `0` and the internal nodes below it the next
numbers; a build whose root is a terminal, or is missing, is left as it is. -/
theorem assignSteps_run (k : Kind) (d : Diagram) :
    (assignSteps k).run d =
      match d.built? k with
      | none => (.error (notBuilt "steps on" k), d)
      | some b =>
        match b.arena.at? b.root with
        | none => (.ok (), d)
        | some r =>
          if r.isTerminal then (.ok (), d)
          else (.ok (), d.setBuilt k (some { b with arena := b.arena.numbered b.root })) := by
  unfold assignSteps
  simp only [StateT.run_bind, StateT.run_get, pure_bind]
  cases d.built? k with
  | none => rfl
  | some b =>
    dsimp only
    cases b.arena.at? b.root with
    | none => rfl
    | some r =>
      dsimp only
      by_cases hr : r.isTerminal
      · rw [if_pos hr, if_pos hr]
        rfl
      · rw [if_neg hr, if_neg hr]
        rfl

/-- Numbering a kind twice is numbering it once. -/
theorem assignSteps_twice (k : Kind) (d : Diagram) :
    (assignSteps k).run ((assignSteps k).run d).2 = (assignSteps k).run d := by
  rw [assignSteps_run k d]
  cases hb : d.built? k with
  | none => rw [assignSteps_run, hb]
  | some b =>
    dsimp only
    cases hr : b.arena.at? b.root with
    | none => rw [assignSteps_run, hb]; dsimp only; rw [hr]
    | some r =>
      dsimp only
      by_cases ht : r.isTerminal
      · rw [if_pos ht]
        dsimp only
        rw [assignSteps_run, hb]
        dsimp only
        rw [hr]
        dsimp only
        rw [if_pos ht]
      · -- the numbered build has the same root, internal as before
        rw [if_neg ht]
        dsimp only
        rw [assignSteps_run, built?_setBuilt]
        dsimp only
        obtain ⟨r', hr', hu⟩ := (Arena.numbered_renumbered b.arena b.root).symm.at?_some hr
        rw [hr']
        dsimp only
        rw [if_neg (by rwa [DNode.isTerminal_eq_of_unnumbered hu]), Arena.numbered_numbered,
          setBuilt_setBuilt]

/-- The edges of a build read the children of its nodes and their names, never their numbers. -/
theorem edges_renumbered {d e : Diagram} {k : Kind} {b c : Built} (hd : d.built? k = some b)
    (he : e.built? k = some c) (hroot : c.root = b.root) (h : Arena.Renumbered c.arena b.arena) :
    ((edges k).run e).1 = ((edges k).run d).1 := by
  unfold edges
  simp only [StateT.run_bind, StateT.run_get, pure_bind, hd, he]
  rw [h.walkOrder, hroot]
  show Except.ok _ = Except.ok _
  congr 2
  funext id
  have hn := h.at?_map (f := fun n => (n.isTerminal, n.identifier, n.low, n.high)) (fun _ => rfl) id
  rcases hc : c.arena.at? id with _ | n <;> rcases hb : b.arena.at? id with _ | m <;>
    simp only [hc, hb, Option.map_none, Option.map_some, reduceCtorEq, Option.some.injEq,
      Prod.mk.injEq] at hn ⊢
  rw [hn.1, hn.2.1, hn.2.2.1, hn.2.2.2, h.identifierOf, h.identifierOf]

/-- Numbering a kind changes none of its edges. -/
theorem edges_assignSteps (k : Kind) (d : Diagram) :
    ((edges k).run ((assignSteps k).run d).2).1 = ((edges k).run d).1 := by
  rw [assignSteps_run]
  cases hb : d.built? k with
  | none => rfl
  | some b =>
    dsimp only
    cases b.arena.at? b.root with
    | none => rfl
    | some r =>
      dsimp only
      split
      · rfl
      · exact edges_renumbered hb (built?_setBuilt _ _ _) rfl (Arena.numbered_renumbered _ _)

end Diagram

end DecisionDiagrams
