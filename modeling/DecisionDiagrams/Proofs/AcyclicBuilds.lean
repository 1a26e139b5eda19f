/-
Builds leave arenas without numbers and without cycles.

A build allocates nodes that carry no presentation number and then only links them to children,
so no node of the arena it leaves is numbered. The links never close a cycle. The tree build
links a node to the two terminals or to nodes it allocates after it, so an internal child has a
larger id than its parent. The second phase of the reduced build allocates a node only once the
representatives of its children are allocated, so every child has a smaller id than its parent.
Either way the ids rank the links to internal children, and no chain of such links comes back to
where it started. This holds whatever the engine answers.

* `Arena.Unnumbered` — no node carries a presentation number.
* `Arena.InternalChildOf`, `Arena.Ranked` — the links to internal children, and an arena whose
  links to internal children go up along a ranking of the ids.
* `Arena.Forward`, `Arena.Backward` — the arenas the tree build and the reduced build grow.
* `Diagram.runBuild_ranked` — either build leaves an unnumbered, ranked arena.
-/
import DecisionDiagrams.Proofs.FreshArenas

namespace DecisionDiagrams

namespace Arena

variable (a : Arena)

/-- No node of the arena carries a presentation number. -/
def Unnumbered : Prop :=
  ∀ j n, a.at? j = some n → n.step = none

/-- Node `c` is an internal node and a child of node `p`. -/
def InternalChildOf (p c : Nat) : Prop :=
  a.ParentOf p c ∧ ∃ m, a.at? c = some m ∧ m.isTerminal = false

/-- The links to internal children go up along a ranking of the ids, so no chain of them comes
back to where it started. -/
def Ranked : Prop :=
  ∃ rank : Nat → Nat, ∀ p c, a.InternalChildOf p c → rank p < rank c

/-- Node `j` is a terminal of the arena. -/
def TerminalAt (j : Nat) : Prop :=
  ∃ m, a.at? j = some m ∧ m.isTerminal = true

/-- An arena as the tree build grows it: no node numbered, and every internal child allocated
after its parent. -/
structure Forward : Prop where
  unnumbered : a.Unnumbered
  lt : ∀ p c, a.InternalChildOf p c → p < c

/-- An arena as the reduced build grows it: no node numbered, and every child allocated before
its parent. -/
structure Backward : Prop where
  unnumbered : a.Unnumbered
  lt : ∀ p c, a.ParentOf p c → c < p

variable {a}

theorem Forward.ranked (h : a.Forward) : a.Ranked :=
  ⟨id, h.lt⟩

/-- A child allocated before its parent is ranked by the distance of its id to the next one. -/
theorem Backward.ranked (h : a.Backward) : a.Ranked := by
  refine ⟨fun j => a.next - j, fun p c hpc => ?_⟩
  obtain ⟨n, hn, -⟩ := hpc.1
  have hp := (lt_next_of_at? hn).2
  have hc := h.lt p c hpc.1
  dsimp only
  omega

theorem TerminalAt.keeps {a' : Arena} {j : Nat} (h : a.TerminalAt j) (hk : a.Keeps a') :
    a'.TerminalAt j := by
  obtain ⟨m, hm, ht⟩ := h
  obtain ⟨m', hm', ht', -⟩ := hk.isTerminal hm
  exact ⟨m', hm', ht'.trans ht⟩

theorem TerminalAt.isTerminal {j : Nat} (h : a.TerminalAt j) {m : DNode} (hm : a.at? j = some m) :
    m.isTerminal = true := by
  obtain ⟨m', hm', ht⟩ := h
  rw [hm] at hm'
  cases hm'
  exact ht

/-! ### Allocating and linking -/

theorem unnumbered_empty (base : Nat) : (⟨base, #[]⟩ : Arena).Unnumbered :=
  fun j n h => by simp [at?] at h

theorem Unnumbered.alloc (h : a.Unnumbered) {n : DNode} (hn : n.step = none) :
    (a.alloc n).2.Unnumbered := by
  intro j m hm
  rw [at?_alloc] at hm
  split at hm
  · cases hm
    exact hn
  · exact h j m hm

theorem Unnumbered.link (h : a.Unnumbered) (id lo hi : Nat) :
    (a.modifyNode id fun m => { m with low := some lo, high := some hi }).Unnumbered := by
  intro j m hm
  rw [at?_modifyNode] at hm
  split at hm
  · obtain ⟨m', hm', rfl⟩ := Option.map_eq_some_iff.1 hm
    exact h j m' hm'
  · exact h j m hm

theorem forward_empty (base : Nat) : (⟨base, #[]⟩ : Arena).Forward :=
  ⟨unnumbered_empty base, fun p c hpc => by
    obtain ⟨n, hn, -⟩ := hpc.1
    simp [at?] at hn⟩

theorem backward_empty (base : Nat) : (⟨base, #[]⟩ : Arena).Backward :=
  ⟨unnumbered_empty base, fun p c hpc => by
    obtain ⟨n, hn, -⟩ := hpc
    simp [at?] at hn⟩

/-- A new node without children is nobody's parent: an internal child in the larger arena was
one before, or is the new node. -/
theorem internalChildOf_alloc {n : DNode} (hl : n.low = none) (hh : n.high = none) {p c : Nat}
    (h : (a.alloc n).2.InternalChildOf p c) :
    a.InternalChildOf p c ∨ (p < a.next ∧ c = a.next) := by
  obtain ⟨⟨m, hm, hpc⟩, mc, hmc, hint⟩ := h
  rw [at?_alloc] at hm hmc
  split at hm
  · cases hm
    simp [hl, hh] at hpc
  · split at hmc
    · exact .inr ⟨(lt_next_of_at? hm).2, by assumption⟩
    · exact .inl ⟨⟨m, hm, hpc⟩, mc, hmc, hint⟩

theorem Forward.alloc (h : a.Forward) {n : DNode} (hs : n.step = none) (hl : n.low = none)
    (hh : n.high = none) : (a.alloc n).2.Forward := by
  refine ⟨h.unnumbered.alloc hs, fun p c hpc => ?_⟩
  rcases internalChildOf_alloc hl hh hpc with hpc | ⟨hp, rfl⟩
  · exact h.lt p c hpc
  · exact hp

theorem Forward.terminal (h : a.Forward) (v : Bool) (L : Nat) : (a.terminal v L).2.Forward :=
  h.alloc rfl rfl rfl

/-- Linking a node to children that are terminals or allocated after it keeps the tree arena
forward. -/
theorem Forward.link (h : a.Forward) {id lo hi : Nat}
    (hc : ∀ c m, (c = lo ∨ c = hi) → a.at? c = some m → m.isTerminal = false → id < c) :
    (a.modifyNode id fun m => { m with low := some lo, high := some hi }).Forward := by
  refine ⟨h.unnumbered.link id lo hi, fun p c ⟨⟨m, hm, hpc⟩, mc, hmc, hint⟩ => ?_⟩
  -- a link changes children only, so a node is internal before it as after it
  obtain ⟨mc', hmc', hint'⟩ : ∃ mc', a.at? c = some mc' ∧ mc'.isTerminal = false := by
    rw [at?_modifyNode] at hmc
    split at hmc
    · obtain ⟨mc', hmc', rfl⟩ := Option.map_eq_some_iff.1 hmc
      exact ⟨mc', hmc', hint⟩
    · exact ⟨mc, hmc, hint⟩
  rw [at?_modifyNode] at hm
  split at hm
  · next hp =>
    obtain ⟨m', -, rfl⟩ := Option.map_eq_some_iff.1 hm
    subst hp
    rcases hpc with hpc | hpc <;> cases hpc
    · exact hc lo mc' (.inl rfl) hmc' hint'
    · exact hc hi mc' (.inr rfl) hmc' hint'
  · exact h.lt p c ⟨⟨m, hm, hpc⟩, mc', hmc', hint'⟩

/-- A new node whose children are nodes allocated already keeps the reduced arena backward. -/
theorem Backward.alloc (h : a.Backward) {n : DNode} (hs : n.step = none)
    (hc : ∀ c, n.low = some c ∨ n.high = some c → c < a.next) : (a.alloc n).2.Backward := by
  refine ⟨h.unnumbered.alloc hs, fun p c ⟨m, hm, hpc⟩ => ?_⟩
  rw [at?_alloc] at hm
  split at hm
  · next hp =>
    cases hm
    rw [hp]
    exact hc c hpc
  · exact h.lt p c ⟨m, hm, hpc⟩

theorem Backward.terminal (h : a.Backward) (v : Bool) (L : Nat) : (a.terminal v L).2.Backward :=
  h.alloc rfl fun c hc => by simp [DNode.terminal] at hc

end Arena

namespace Diagram

open Arena

/-- The root node of a build carries no number. -/
theorem rootNode_step {d : Diagram} {order : List String} {root : DNode}
    (h : rootNode d order = .ok root) : root.step = none := by
  rcases rootNode_eq_ok.1 h with ⟨-, v, -, rfl⟩ | ⟨v, rest, -, rfl⟩ <;> rfl

/-! ### The tree build -/

section Tree

variable {order : List String} {ts : Terminals}

/-- The node of the tree build for a residual is one of the two terminals, or a new node. -/
theorem treeChild_forward {a : Arena} (ha : a.Forward) (r : Residual) (L : Nat) :
    Guarded (· = a) (treeChild order ts r L) fun res a' => a'.Forward ∧ a.Keeps a' ∧
      ∀ c, res = .ok c → c = ts.yes ∨ c = ts.no ∨ a.next ≤ c := by
  refine (treeChild_cases a r L).mono fun res a' h => ?_
  rcases h with ⟨rfl, hc⟩ | ⟨v, text, -, rfl, rfl⟩
  · refine ⟨ha, .refl a', fun c hres => ?_⟩
    obtain ⟨b, -, rfl⟩ := hc c hres
    cases b
    · exact .inr (.inl rfl)
    · exact .inl rfl
  · exact ⟨ha.alloc rfl rfl rfl, keeps_alloc _ a, fun c hc => by
      cases hc
      exact .inr (.inr (Nat.le_refl _))⟩

/-- Expanding a node of the tree build, and then the nodes made below it, keeps the arena
forward. The induction is on the fuel; the node is linked to the terminals or to nodes made
after it, since it was in the arena before its children were made. -/
theorem expandTree_forward : ∀ (fuel id : Nat) (a : Arena), a.Forward → a.TerminalAt ts.yes →
    a.TerminalAt ts.no →
    Guarded (· = a) (expandTree order ts fuel id) fun _ a' => a'.Forward ∧ a.Keeps a'
  | 0, _, a, ha, _, _ => .pure fun _ h => by rw [h]; exact ⟨ha, .refl a⟩
  | fuel + 1, id, a, ha, hy, hn => by
    -- the expansions below keep every arena that keeps `a`
    have below : ∀ c, Guarded (fun a' => a'.Forward ∧ a.Keeps a') (expandTree order ts fuel c)
        fun _ a' => a'.Forward ∧ a.Keeps a' := fun c =>
      .of_state fun a₁ h₁ => (expandTree_forward fuel c a₁ h₁.1 (hy.keeps h₁.2)
        (hn.keeps h₁.2)).mono fun _ _ h => ⟨h.1, h₁.2.trans h.2⟩
    rw [expandTree]
    refine .bind .get fun s => ?_
    split
    case h_2 => exact .pure fun a' h => by rw [h.1]; exact ⟨ha, .refl a⟩
    rename_i n hid
    refine .of_state fun a₀ h₀ => ?_
    obtain ⟨rfl, rfl⟩ := h₀
    have hlt : id < s.next := (lt_next_of_at? hid).2
    refine .bind (.lift (T := fun _ => True) fun _ => trivial) fun t => ?_
    rcases t with f | ⟨hr, lr⟩
    · exact .pure fun a' h => by rw [h.1]; exact ⟨ha, .refl s⟩
    -- the node of the high cofactor, then the node of the low one
    refine .bind (.of_state fun a₁ h₁ => (treeChild_forward ha hr _).pre
      fun s hs => hs.trans h₁.1) fun t => ?_
    rcases t with f | hi
    · exact .pure fun a' h => ⟨h.1, h.2.1⟩
    refine .bind (Q := fun res a' => a'.Forward ∧ s.Keeps a' ∧
      (hi = ts.yes ∨ hi = ts.no ∨ s.next ≤ hi) ∧ ∀ c, res = .ok c → c = ts.yes ∨ c = ts.no ∨ s.next ≤ c)
      (.of_state fun a₂ h₂ => (treeChild_forward h₂.1 lr _).mono fun _ a₃ h₃ =>
        ⟨h₃.1, h₂.2.1.trans h₃.2.1, h₂.2.2 hi rfl, fun c hc =>
          (h₃.2.2 c hc).imp_right (Or.imp_right (Nat.le_trans h₂.2.1.next))⟩)
      fun t => ?_
    rcases t with f | lo
    · exact .pure fun a' h => ⟨h.1, h.2.1⟩
    -- link the node, then expand the children that are not terminals
    refine .bind (.modify (R := fun _ a' => a'.Forward ∧ s.Keeps a') fun a₃ h₃ =>
      ⟨h₃.1.link fun c m hc hm hint => ?_, h₃.2.1.trans (keeps_modifyNode id
        (f := fun m => { m with low := some lo, high := some hi }) (fun _ => ⟨rfl, rfl, rfl⟩) a₃)⟩)
      fun _ => ?_
    · -- an internal child is no terminal, so it was made after the node
      have made : c = ts.yes ∨ c = ts.no ∨ s.next ≤ c := by
        rcases hc with rfl | rfl
        · exact h₃.2.2.2 c rfl
        · exact h₃.2.2.1
      rcases made with rfl | rfl | hle
      · cases ((hy.keeps h₃.2.1).isTerminal hm).symm.trans hint
      · cases ((hn.keeps h₃.2.1).isTerminal hm).symm.trans hint
      · omega
    dsimp only
    split
    · refine .bind (below lo) fun r => ?_
      split
      · exact .pure fun _ h => h
      · split
        · exact .bind (below hi) fun _ => by split <;> exact .pure fun _ h => h
        · exact .pure fun _ h => h
    · split
      · exact .bind (below hi) fun _ => by split <;> exact .pure fun _ h => h
      · exact .pure fun _ h => h

/-- A tree build leaves a forward arena. -/
theorem decisionTree_forward (d : Diagram) (order : List String) (base : Nat) :
    Guarded (· = ⟨base, #[]⟩) (decisionTree d order) fun _ a => a.Forward := by
  have h₂ : (treeTerminals order base).Forward :=
    ((forward_empty base).terminal true _).terminal false _
  have hy : (treeTerminals order base).TerminalAt base :=
    ⟨{ DNode.terminal true "True" order.length with id := base },
      by simp [treeTerminals, at?_terminals], rfl⟩
  have hn : (treeTerminals order base).TerminalAt (base + 1) :=
    ⟨{ DNode.terminal false "False" order.length with id := base + 1 },
      by simp [treeTerminals, at?_terminals], rfl⟩
  refine decisionTree_guarded (fun _ _ => h₂) (fun _ _ _ => h₂) fun root hroot _ => ?_
  -- the root is expanded in the arena of the terminals and the root
  obtain ⟨-, hlow, hhigh, -⟩ := rootNode_unlinked hroot
  have hk := keeps_alloc root (treeTerminals order base)
  exact (expandTree_forward _ _ _ (h₂.alloc (rootNode_step hroot) hlow hhigh) (hy.keeps hk)
    (hn.keeps hk)).mono fun _ _ h => h.1

end Tree

/-! ### The reduced build -/

/-- No node of the first phase carries a presentation number. -/
def Layer.Unnumbered (l : Layer) : Prop :=
  ∀ (i : Nat) (m : DNode), l.nodes[i]? = some m → m.step = none

section Layers

variable {order : List String}

/-- The first phase numbers no node. -/
theorem expandLayers_unnumbered (fuel : Nat) (ids : List Nat) :
    Guarded Layer.Unnumbered (expandLayers order fuel ids) fun _ l => l.Unnumbered :=
  expandLayers_obeys ⟨fun _ _ _ _ _ => rfl, fun _ _ _ _ h => h⟩ fuel ids

theorem startLayer_unnumbered {root : DNode} (h : root.step = none) :
    (startLayer order root).Unnumbered := by
  intro i m hm
  rcases i with _ | _ | _ | i <;> simp [startLayer] at hm
  · rw [← hm]; rfl
  · rw [← hm]; rfl
  · rw [← hm]; exact h

end Layers

section Reduce

variable {P : Layer}

/-- The state of the second phase as it grows: the arena is backward, and the representatives
and the entries of the table are nodes allocated already, of which there is one at least. -/
structure Descending (s : ReduceState) : Prop where
  backward : s.2.2.Backward
  reps : ∀ (i r : Nat), s.1[i]? = some r → r < s.2.2.next
  table : ∀ (key : String × Nat × Nat) (r : Nat), s.2.1[key]? = some r → r < s.2.2.next
  pos : 0 < s.2.2.next

theorem Descending.repChild {s : ReduceState} (h : Descending s) (c : Option Nat) :
    repChild s.1 c < s.2.2.next := by
  rw [Diagram.repChild, Std.HashMap.getD_eq_getD_getElem?]
  cases hr : s.1[c.getD 0]? with
  | none => exact h.pos
  | some r => exact h.reps _ r hr

theorem Descending.insert {rep : Std.HashMap Nat Nat} {uniq : Std.HashMap (String × Nat × Nat) Nat}
    {a : Arena} (h : Descending (rep, uniq, a)) (id : Nat) {r : Nat} (hr : r < a.next) :
    Descending (rep.insert id r, uniq, a) := by
  refine ⟨h.backward, fun i r' h' => ?_, h.table, h.pos⟩
  rw [Std.HashMap.getElem?_insert] at h'
  split at h'
  · cases h'
    exact hr
  · exact h.reps i r' h'

theorem Descending.alloc {rep : Std.HashMap Nat Nat} {uniq : Std.HashMap (String × Nat × Nat) Nat}
    {a : Arena} (h : Descending (rep, uniq, a)) {n : DNode} (hs : n.step = none)
    (hc : ∀ c, n.low = some c ∨ n.high = some c → c < a.next) (id : Nat)
    (key : String × Nat × Nat) :
    Descending (rep.insert id a.next, uniq.insert key a.next, (a.alloc n).2) := by
  refine ⟨h.backward.alloc hs hc, fun i r h' => ?_, fun key' r h' => ?_, by simp⟩
  all_goals
    rw [Std.HashMap.getElem?_insert] at h'
    simp only [alloc_next]
    split at h'
  · cases h'
    omega
  · have hr : r < a.next := h.reps i r h'
    omega
  · cases h'
    omega
  · have hr : r < a.next := h.table key' r h'
    omega

/-- A step of the second phase keeps its state descending: a new node is linked to the
representatives of its children, which were allocated before it. -/
theorem ReduceStep.descending {id : Nat} {s s' : ReduceState} (h : ReduceStep P id s s')
    (hP : P.Unnumbered) (hs : Descending s) : Descending s' := by
  cases h with
  | missing _ => exact hs
  | collapse _ _ => exact hs.insert id (hs.repChild _)
  | share _ _ hu => exact hs.insert id (hs.table _ _ hu)
  | fresh hn _ _ =>
    refine hs.alloc ?_ (fun c hc => ?_) id _
    · exact (hP id _ hn :)
    rcases hc with hc | hc <;> cases hc
    · exact hs.repChild _
    · exact hs.repChild _

end Reduce

/-- A reduced build leaves a backward arena. -/
theorem reducedDiagram_backward (d : Diagram) (order : List String) (base : Nat) :
    Guarded (· = ⟨base, #[]⟩) (reducedDiagram d order) fun _ a => a.Backward := by
  -- the first phase, whatever the engine, numbers none of its nodes
  refine reducedDiagram_guarded (fun p => p.2.Unnumbered) (fun _ _ => backward_empty base)
    (fun _ _ _ => (backward_empty base).terminal _ _)
    (fun root hroot _ e => expandLayers_unnumbered _ [2] _ e
      (startLayer_unnumbered (rootNode_step hroot)))
    (fun _ _ _ => backward_empty base) fun levels layer hlayer s hs => ?_
  subst hs
  have hstart : Descending (((∅ : Std.HashMap Nat Nat).insert 0 base).insert 1 (base + 1), ∅,
      treeTerminals order base) := by
    refine ⟨((backward_empty base).terminal true _).terminal false _,
      fun i r h => show r < base + 2 from ?_, fun key r h => by simp at h,
      show 0 < base + 2 by omega⟩
    simp only [Std.HashMap.getElem?_insert, Std.HashMap.getElem?_empty] at h
    split at h
    · cases h
      omega
    · split at h
      · cases h
        omega
      · cases h
  exact (foldl_reduceLevel_keeps _ _ (fun _ _ _ _ _ _ h hs => h.descending hlayer hs)
    hstart).backward

/-- Either build leaves, whatever the engine, an arena with no node numbered whose links to
internal children are ranked. -/
theorem runBuild_ranked (d : Diagram) (k : Kind) (order : List String) (base : Nat) (e : Engine) :
    ((runBuild d k order base).run e).1.2.Unnumbered ∧ ((runBuild d k order base).run e).1.2.Ranked := by
  cases k
  · have h := decisionTree_forward d order base _ e rfl
    exact ⟨h.unnumbered, h.ranked⟩
  · have h := reducedDiagram_backward d order base _ e rfl
    exact ⟨h.unnumbered, h.ranked⟩

end Diagram

end DecisionDiagrams
