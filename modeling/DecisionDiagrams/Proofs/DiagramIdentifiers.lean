/-
Identifiers of the nodes of a diagram.

A diagram hands out node ids from a counter: a build allocates its nodes in an arena from the
counter on and moves the counter past them, and no other operation touches ids; highlighting,
clearing and numbering change the marks and numbers of nodes only. So the arenas of the two
builds a diagram holds are disjoint intervals of ids below the counter, every id an arena held
stays below the counter, and a new build takes ids from the counter on, above all of them. The
node a diagram finds for an id is the node with that id, and the children of a node are nodes
of its own arena. A failed build changes the engine only.

* `Arena.Restyled` — arenas equal up to the marks and numbers of their nodes.
* `Diagram.Numbered` — the invariant.
* `Diagram.Action`, `Diagram.Reachable` — the operations on a diagram with clearing its
  highlight, and the diagrams a formula text leads to under them.
* `Diagram.identifiers_fresh` — the main statement.
-/
import DecisionDiagrams.Proofs.FreshArenas
import DecisionDiagrams.Proofs.CoherentDiagrams

namespace DecisionDiagrams

/-- A node with its mark and its presentation number forgotten. -/
def DNode.plain (n : DNode) : DNode := { n with step := none, highlight := false }

namespace Arena

theorem base_le_next (a : Arena) : a.base ≤ a.next :=
  Nat.le_add_right _ _

/-- Two arenas that differ at most in the marks and numbers of their nodes. -/
structure Restyled (a b : Arena) : Prop where
  base_eq : a.base = b.base
  size_eq : a.nodes.size = b.nodes.size
  at?_eq : ∀ id, (a.at? id).map DNode.plain = (b.at? id).map DNode.plain

namespace Restyled

variable {a b c : Arena}

theorem refl (a : Arena) : Restyled a a := ⟨rfl, rfl, fun _ => rfl⟩

theorem symm (h : Restyled a b) : Restyled b a :=
  ⟨h.base_eq.symm, h.size_eq.symm, fun id => (h.at?_eq id).symm⟩

theorem trans (h₁ : Restyled a b) (h₂ : Restyled b c) : Restyled a c :=
  ⟨h₁.base_eq.trans h₂.base_eq, h₁.size_eq.trans h₂.size_eq,
    fun id => (h₁.at?_eq id).trans (h₂.at?_eq id)⟩

theorem of_renumbered (h : Renumbered a b) : Restyled a b := by
  refine ⟨h.base_eq, h.size_eq, fun id => ?_⟩
  have := congrArg (Option.map DNode.plain) (h.at?_eq id)
  rwa [Option.map_map, Option.map_map,
    show DNode.plain ∘ DNode.unnumbered = DNode.plain from rfl] at this

theorem next_eq (h : Restyled a b) : a.next = b.next := by
  unfold next
  rw [h.base_eq, h.size_eq]

theorem at?_some (h : Restyled a b) {id : Nat} {n : DNode} (ha : a.at? id = some n) :
    ∃ m, b.at? id = some m ∧ m.plain = n.plain := by
  have := h.at?_eq id
  rw [ha] at this
  cases hb : b.at? id with
  | none => rw [hb] at this; cases this
  | some m => rw [hb] at this; exact ⟨m, rfl, (Option.some.inj this).symm⟩

theorem isSome (h : Restyled a b) {id : Nat} (ha : (a.at? id).isSome) : (b.at? id).isSome := by
  obtain ⟨n, hn⟩ := Option.isSome_iff_exists.1 ha
  obtain ⟨m, hm, -⟩ := h.at?_some hn
  rw [hm]
  rfl

/-- Marks and numbers do not change what an arena links. -/
theorem linked (h : Restyled a b) (ha : a.Linked) : b.Linked := by
  refine ⟨fun j n hn => ?_, fun p c ⟨n, hn, hc⟩ => ?_⟩
  · obtain ⟨m, hm, hmn⟩ := h.symm.at?_some hn
    have hid : m.plain.id = n.plain.id := congrArg DNode.id hmn
    rw [← ha.ids j m hm]
    exact hid.symm
  · obtain ⟨m, hm, hmn⟩ := h.symm.at?_some hn
    have hlow : m.plain.low = n.plain.low := congrArg DNode.low hmn
    have hhigh : m.plain.high = n.plain.high := congrArg DNode.high hmn
    have hpc : m.low = some c ∨ m.high = some c := by
      simp only [DNode.plain] at hlow hhigh
      rw [hlow, hhigh]
      exact hc
    exact h.isSome (ha.closed p c ⟨m, hm, hpc⟩)

end Restyled

theorem restyled_modifyNode (id : Nat) {f : DNode → DNode} (hf : ∀ m, (f m).plain = m.plain)
    (a : Arena) : Restyled (a.modifyNode id f) a := by
  refine ⟨modifyNode_base id f a, modifyNode_size id f a, fun j => ?_⟩
  rw [at?_modifyNode]
  split
  · cases a.at? j <;> simp [hf]
  · rfl

/-- Marking changes marks only. -/
theorem markFrom_restyled (values : Assignment) (fuel : Nat) (queue : Array Nat) (head : Nat)
    (visited : Std.HashSet Nat) (a : Arena) :
    Restyled (markFrom values fuel queue head visited a) a := by
  fun_induction markFrom values fuel queue head visited a with
  | case1 => exact .refl _
  | case2 => exact .refl _
  | case3 => assumption
  | case4 => assumption
  | case5 =>
    exact (‹Restyled _ _›).trans
      (restyled_modifyNode _ (f := fun m => { m with highlight := true }) (fun _ => rfl) _)

/-- The arena with its marks cleared, as clearing a diagram's highlight leaves it. -/
def unmarked (a : Arena) : Arena :=
  { a with nodes := a.nodes.map fun n => { n with highlight := false } }

/-- Clearing the marks of an arena changes marks only. -/
theorem restyled_unmarked (a : Arena) : Restyled a.unmarked a := by
  refine ⟨rfl, by simp [unmarked], fun j => ?_⟩
  simp only [at?, unmarked]
  by_cases hj : j < a.base
  · simp [hj]
  · simp only [hj, if_false, Array.getElem?_map, Option.map_map]
    rfl

end Arena

namespace Diagram

open Arena

/-! ### The invariant -/

/-- The arenas of a diagram as its operations keep them: the arena of each build is linked, holds
its root and lies below the counter, and the arenas of the two builds do not overlap. -/
structure Numbered (d : Diagram) : Prop where
  linked : ∀ k b, d.built? k = some b → b.arena.Linked
  root : ∀ k b, d.built? k = some b → (b.arena.at? b.root).isSome
  below : ∀ k b, d.built? k = some b → b.arena.next ≤ d.next
  disjoint : ∀ b c, d.bdd = some b → d.robdd = some c →
    b.arena.next ≤ c.arena.base ∨ c.arena.next ≤ b.arena.base

/-- The build of a kind after a step: none, or the one before up to marks and numbers. -/
def Kept (d d' : Diagram) (k : Kind) : Prop :=
  d'.built? k = none ∨ ∃ b b', d.built? k = some b ∧ d'.built? k = some b' ∧
    b'.root = b.root ∧ b.arena.Restyled b'.arena

variable {d₀ d d' d'' : Diagram} {k : Kind}

theorem kept_of_eq (h : d'.built? k = d.built? k) : Kept d d' k := by
  cases hb : d.built? k with
  | none => exact .inl (h.trans hb)
  | some b => exact .inr ⟨b, b, hb, h.trans hb, rfl, .refl _⟩

theorem Kept.trans (h₁ : Kept d d' k) (h₂ : Kept d' d'' k) : Kept d d'' k := by
  rcases h₂ with h₂ | ⟨b', b'', hb', hb'', hr', hs'⟩
  · exact .inl h₂
  · rcases h₁ with h₁ | ⟨b, b₁, hb, hb₁, hr, hs⟩
    · rw [h₁] at hb'; cases hb'
    · rw [hb₁] at hb'
      cases hb'
      exact .inr ⟨b, b'', hb, hb'', hr'.trans hr, hs.trans hs'⟩

theorem Kept.some (h : Kept d d' k) {b' : Built} (hb' : d'.built? k = some b') :
    ∃ b, d.built? k = some b ∧ b'.root = b.root ∧ b.arena.Restyled b'.arena := by
  rcases h with h | ⟨b, b'', hb, hb'', hr, hs⟩
  · rw [h] at hb'; cases hb'
  · rw [hb'] at hb''
    cases hb''
    exact ⟨b, hb, hr, hs⟩

theorem built?_clearHighlight (d : Diagram) (k : Kind) :
    (clearHighlight d).built? k = (d.built? k).map fun b => { b with arena := b.arena.unmarked } := by
  cases k <;> rfl

/-- Clearing the highlight keeps each build up to its marks. -/
theorem kept_clearHighlight (d : Diagram) (k : Kind) : Kept d (clearHighlight d) k := by
  rw [Kept, built?_clearHighlight]
  cases d.built? k with
  | none => exact .inl rfl
  | some b => exact .inr ⟨b, _, rfl, rfl, rfl, (restyled_unmarked _).symm⟩

/-- A step that keeps every build up to marks and numbers, and does not take the counter back,
keeps a diagram numbered. -/
theorem Numbered.of_kept (h : d.Numbered) (hk : ∀ k, Kept d d' k) (hn : d.next ≤ d'.next) :
    d'.Numbered := by
  refine ⟨fun k b' hb' => ?_, fun k b' hb' => ?_, fun k b' hb' => ?_, fun b' c' hb' hc' => ?_⟩
  · obtain ⟨b, hb, -, hs⟩ := (hk k).some hb'
    exact hs.linked (h.linked k b hb)
  · obtain ⟨b, hb, hr, hs⟩ := (hk k).some hb'
    rw [hr]
    exact hs.isSome (h.root k b hb)
  · obtain ⟨b, hb, -, hs⟩ := (hk k).some hb'
    rw [← hs.next_eq]
    exact Nat.le_trans (h.below k b hb) hn
  · obtain ⟨b, hb, -, hs⟩ := (hk .bdd).some (k := .bdd) hb'
    obtain ⟨c, hc, -, hsc⟩ := (hk .robdd).some (k := .robdd) hc'
    rw [← hs.next_eq, ← hsc.next_eq, ← hs.base_eq, ← hsc.base_eq]
    exact h.disjoint b c hb hc

/-- A step that installs a linked build of one kind from the counter on, keeps the other build
up to marks and numbers and moves the counter past the new build keeps a diagram numbered: the
other build lies below the old counter, so below the new build. -/
theorem Numbered.of_new (h : d.Numbered) {b : Built} (hb : d'.built? k = some b)
    (hl : b.arena.Linked) (hr : (b.arena.at? b.root).isSome) (hbase : d.next ≤ b.arena.base)
    (hnext : b.arena.next ≤ d'.next) (hother : ∀ k', k' ≠ k → Kept d d' k') : d'.Numbered := by
  -- every other build lies below the old counter
  have old : ∀ k', k' ≠ k → ∀ c', d'.built? k' = some c' → c'.arena.next ≤ d.next := by
    intro k' hk' c' hc'
    obtain ⟨c, hc, -, hs⟩ := (hother k' hk').some hc'
    rw [← hs.next_eq]
    exact h.below k' c hc
  have hn : d.next ≤ d'.next := Nat.le_trans hbase (Nat.le_trans (base_le_next b.arena) hnext)
  refine ⟨fun k' b' hb' => ?_, fun k' b' hb' => ?_, fun k' b' hb' => ?_, fun b' c' hb' hc' => ?_⟩
  · by_cases hk : k' = k
    · subst hk; rw [hb] at hb'; cases hb'; exact hl
    · obtain ⟨c, hc, -, hs⟩ := (hother k' hk).some hb'
      exact hs.linked (h.linked k' c hc)
  · by_cases hk : k' = k
    · subst hk; rw [hb] at hb'; cases hb'; exact hr
    · obtain ⟨c, hc, hrc, hs⟩ := (hother k' hk).some hb'
      rw [hrc]
      exact hs.isSome (h.root k' c hc)
  · by_cases hk : k' = k
    · subst hk; rw [hb] at hb'; cases hb'; exact hnext
    · exact Nat.le_trans (old k' hk b' hb') hn
  · cases k
    · -- a new decision tree above the kept reduced build
      rw [show d'.bdd = d'.built? .bdd from rfl, hb] at hb'
      cases hb'
      exact .inr (Nat.le_trans (old .robdd (by decide) c' hc') hbase)
    · rw [show d'.robdd = d'.built? .robdd from rfl, hb] at hc'
      cases hc'
      exact .inl (Nat.le_trans (old .bdd (by decide) b' hb') hbase)

/-- A diagram without builds is numbered. -/
theorem Numbered.of_empty (h : ∀ k, d.built? k = none) : d.Numbered where
  linked k b hb := by rw [h k] at hb; cases hb
  root k b hb := by rw [h k] at hb; cases hb
  below k b hb := by rw [h k] at hb; cases hb
  disjoint b c hb _ := by rw [show d.bdd = d.built? .bdd from rfl, h] at hb; cases hb

/-! ### Builds since a diagram -/

/-- The build of a kind in `d` is the one `d₀` holds up to marks and numbers, or was made from
`d₀`'s counter on. -/
def Since (d₀ d : Diagram) (k : Kind) : Prop :=
  Kept d₀ d k ∨ ∃ b, d.built? k = some b ∧ d₀.next ≤ b.arena.base

theorem Since.kept (h : Since d₀ d k) (hk : Kept d d' k) : Since d₀ d' k := by
  rcases h with h | ⟨b, hb, hbase⟩
  · exact .inl (h.trans hk)
  · rcases hk with hn | ⟨b₁, b', hb₁, hb', -, hs⟩
    · exact .inl (.inl hn)
    · rw [hb] at hb₁
      cases hb₁
      exact .inr ⟨b', hb', hs.base_eq ▸ hbase⟩

/-- `d` is numbered, its counter has not gone back from `d₀`'s, and each of its builds is one of
`d₀` or new since `d₀`. -/
structure Descends (d₀ d : Diagram) : Prop where
  numbered : d.Numbered
  next_le : d₀.next ≤ d.next
  since : ∀ k, Since d₀ d k

theorem Descends.refl (h : d.Numbered) : Descends d d :=
  ⟨h, Nat.le_refl _, fun _ => .inl (kept_of_eq rfl)⟩

theorem Descends.of_kept (h : Descends d₀ d) (hk : ∀ k, Kept d d' k) (hn : d.next ≤ d'.next) :
    Descends d₀ d' :=
  ⟨h.numbered.of_kept hk hn, Nat.le_trans h.next_le hn, fun k => (h.since k).kept (hk k)⟩

/-- Changing the engine alone keeps the invariant. -/
theorem Descends.withEngine (h : Descends d₀ d) (e : Engine) :
    Descends d₀ { d with engine := e } :=
  h.of_kept (fun k => kept_of_eq (by cases k <;> rfl)) (Nat.le_refl _)

theorem built?_withHighlighted (d : Diagram) (v : Option Assignment) (k : Kind) :
    { d with highlighted := v }.built? k = d.built? k := by
  cases k <;> rfl

/-- Replacing a build by itself up to marks and numbers keeps every build. -/
theorem kept_setBuilt {b : Built} (hb : d.built? k = some b) {a : Arena} (hs : b.arena.Restyled a)
    (k' : Kind) : Kept d (d.setBuilt k (some { b with arena := a })) k' := by
  by_cases hk : k' = k
  · subst hk
    exact .inr ⟨b, _, hb, built?_setBuilt d k' _, rfl, hs⟩
  · exact kept_of_eq (built?_setBuilt_of_ne d hk _)

theorem built?_install_self (k : Kind) (a : Arena) (root : Nat) (d : Diagram) :
    (install k a root d).built? k = some ⟨a, root⟩ := by
  cases k <;> rfl

theorem built?_install_of_ne {k k' : Kind} (h : k' ≠ k) (a : Arena) (root : Nat) (d : Diagram) :
    (install k a root d).built? k' = d.built? k' := by
  cases k <;> cases k' <;> first | rfl | exact absurd rfl h

/-- A build installs a fresh arena from the counter on, and moves the counter past it. -/
theorem build_descends (k : Kind) : Preserves (Descends d₀) (build k) := by
  intro d h
  obtain ⟨r, a, e, hrun, hst⟩ := build_state k d
  rw [hst]
  cases r with
  | error f => exact h.withEngine e
  | ok root =>
    have F := runBuild_fresh d k d.order d.next d.engine
    rw [hrun] at F
    obtain ⟨hfresh, hbase, hroot⟩ := F
    have hnew := built?_install_self k a root (clearHighlight { d with engine := e })
    -- the other build is only cleared of its marks
    have hother : ∀ k', k' ≠ k →
        Kept d (install k a root (clearHighlight { d with engine := e })) k' := fun k' hk' =>
      ((show Kept d { d with engine := e } k' from kept_of_eq (by cases k' <;> rfl)).trans
        (kept_clearHighlight _ k')).trans (kept_of_eq (built?_install_of_ne hk' a root _))
    have hd : d.next ≤ a.base := Nat.le_of_eq hbase.symm
    refine ⟨h.numbered.of_new hnew hfresh.toLinked (hroot root rfl) hd (Nat.le_refl _) hother,
      Nat.le_trans h.next_le (Nat.le_trans hd (base_le_next a)), fun k' => ?_⟩
    by_cases hk : k' = k
    · subst hk
      exact .inr ⟨_, hnew, Nat.le_trans h.next_le hd⟩
    · exact (h.since k').kept (hother k' hk)

/-- A measure builds in an arena of its own, and changes the engine only. -/
theorem measure_descends (k : Kind) (o : List String) :
    Preserves (Descends d₀) (measure k o) := by
  intro d h
  obtain ⟨e, hst⟩ := measure_state k o d
  rw [hst]
  exact h.withEngine e

/-- An order is taken as it is, or drops both builds and the highlight. -/
theorem setOrder_cases {o : List String} (h : d.setOrder o = .ok d') :
    d' = d ∨ d' = { d with order := o, bdd := none, robdd := none, highlighted := none } := by
  obtain ⟨-, rfl⟩ := setOrder_ok_iff.1 h
  split
  · exact .inl rfl
  · exact .inr rfl

theorem Descends.setOrder (h : Descends d₀ d) {o : List String}
    (hs : d.setOrder o = .ok d') : Descends d₀ d' := by
  rcases setOrder_cases hs with rfl | rfl
  · exact h
  · exact h.of_kept (fun k => .inl (by cases k <;> rfl)) (Nat.le_refl _)

/-- The search measures orders only, so the sifter keeps the invariant. -/
theorem searchOrder_descends (k : Kind) (s : String) (mp : Nat) :
    Preserves (Descends d₀) (searchOrder k s mp) :=
  searchOrder_preserves (measure_descends k) s mp

theorem autoOrder_descends (k : Kind) (s : String) (mp : Nat) :
    Preserves (Descends d₀) (autoOrder k s mp) :=
  autoOrder_preserves (searchOrder_descends k s mp) (fun h hd => h.setOrder hd) (build_descends k)

/-- Highlighting marks nodes of one build, after clearing the marks of both. -/
theorem highlight_descends (k : Kind) (values : Assignment) :
    Preserves (Descends d₀) (highlight k values) := by
  refine highlight_preserves (fun d h _ => h.of_kept (kept_clearHighlight d) (Nat.le_refl _))
    fun d b h hb => h.of_kept (fun k' => ?_) (Nat.le_of_eq (next_setBuilt ..).symm)
  rw [Kept, built?_withHighlighted, ← Kept]
  exact kept_setBuilt hb (markFrom_restyled ..).symm k'

/-- Numbering the nodes of a build changes their numbers only. -/
theorem assignSteps_descends (k : Kind) : Preserves (Descends d₀) (assignSteps k) := by
  intro d h
  rw [assignSteps_run]
  cases hb : d.built? k with
  | none => exact h
  | some b =>
    dsimp only
    cases b.arena.at? b.root with
    | none => exact h
    | some r =>
      dsimp only
      split
      · exact h
      · exact h.of_kept (kept_setBuilt hb (Restyled.of_renumbered
          (numbered_renumbered b.arena b.root)).symm) (Nat.le_of_eq (next_setBuilt ..).symm)

/-- Each operation keeps a diagram numbered, and never takes its counter back. -/
theorem Op.descends (op : Op) (h : Descends d₀ d) : Descends d₀ (op.next d) := by
  refine Op.next_of_preserves (fun h hs => h.setOrder hs) build_descends measure_descends
    autoOrder_descends highlight_descends assignSteps_descends (fun d h => ?_) (fun d h => ?_) op h
  · unfold Diagram.models
    rw [StateT.run_bind, StateT.run_get, pure_bind, onEngine_run]
    exact h.withEngine _
  · unfold Diagram.writeKernel
    rw [StateT.run_bind, StateT.run_get, pure_bind, onEngine_run]
    exact h.withEngine _

/-! ### Runs of operations -/

/-- What can be done to a diagram once it is made: an operation, or clearing its highlight. -/
inductive Action
  | op (o : Op)
  | clearHighlight

/-- The diagram an action leaves. -/
def Action.next : Action → Diagram → Diagram
  | .op o, d => o.next d
  | .clearHighlight, d => d.clearHighlight

/-- The diagram a list of actions leaves, taken in turn. -/
def Action.runAll (acts : List Action) (d : Diagram) : Diagram :=
  acts.foldl (fun d a => a.next d) d

/-- The diagrams a formula text leads to: the one made from it, with any limits and any order
given, and then what any actions make of it. -/
inductive Reachable : Diagram → Prop
  | create {text : String} {limits : Limits} {order : Option (List String)} {d : Diagram} :
      create text limits order = .ok d → Reachable d
  | step {d : Diagram} (a : Action) : Reachable d → Reachable (a.next d)

theorem Action.descends (a : Action) (h : Descends d₀ d) : Descends d₀ (a.next d) := by
  cases a with
  | op o => exact o.descends h
  | clearHighlight => exact h.of_kept (kept_clearHighlight d) (Nat.le_refl _)

/-- Along a run of actions every build is one of the start or new since it, by induction on the
actions with the start fixed. -/
theorem Action.runAll_descends (acts : List Action) (h : Descends d₀ d) :
    Descends d₀ (Action.runAll acts d) := by
  induction acts generalizing d with
  | nil => exact h
  | cons a acts ih => exact ih (a.descends h)

/-- A diagram is made without builds. -/
theorem create_numbered {text : String} {limits : Limits} {order : Option (List String)}
    (h : create text limits order = .ok d) : d.Numbered := by
  obtain ⟨f, e, e₁, root, e₂, expression, -, -, -, -, hd⟩ := create_eq_ok h
  have hf : ∀ k, (fresh text e₂ root expression).built? k = none := fun k => by cases k <;> rfl
  rcases hd with ⟨-, rfl⟩ | ⟨o, -, ho⟩
  · exact .of_empty hf
  · exact ((Descends.refl (.of_empty hf)).setOrder ho).numbered

theorem Reachable.numbered (h : Reachable d) : d.Numbered := by
  induction h with
  | create hc => exact create_numbered hc
  | step a _ ih => exact (a.descends (.refl ih)).numbered

/-! ### Finding nodes by id -/

/-- The node a diagram finds for an id is a node of one of its builds. -/
theorem node?_some {i : Nat} {n : DNode} (h : d.node? i = some n) :
    ∃ k b, d.built? k = some b ∧ b.arena.at? i = some n := by
  unfold node? at h
  cases hb : d.bdd with
  | none =>
    rw [hb] at h
    obtain ⟨c, hc, hn⟩ := Option.bind_eq_some_iff.1 h
    exact ⟨.robdd, c, hc, hn⟩
  | some b =>
    rw [hb] at h
    cases hn : b.arena.at? i with
    | none =>
      simp only [Option.bind_some, hn] at h
      obtain ⟨c, hc, hn'⟩ := Option.bind_eq_some_iff.1 h
      exact ⟨.robdd, c, hc, hn'⟩
    | some m =>
      simp only [Option.bind_some, hn, Option.some.injEq] at h
      exact ⟨.bdd, b, hb, h ▸ hn⟩

/-- An id outside an arena's interval is not found in it. -/
theorem at?_eq_none_of_not_mem {a : Arena} {i : Nat} (h : ¬(a.base ≤ i ∧ i < a.next)) :
    a.at? i = none :=
  Option.not_isSome_iff_eq_none.1 (mt Arena.isSome_at?_iff.1 h)

/-- In a numbered diagram the node found for an id of a build is that build's node: the other
build's interval misses the id. -/
theorem Numbered.node?_eq (h : d.Numbered) {b : Built} (hb : d.built? k = some b) {i : Nat}
    {n : DNode} (hn : b.arena.at? i = some n) : d.node? i = some n := by
  have hi := Arena.isSome_at?_iff.1 (Option.isSome_of_eq_some hn)
  cases k
  · change d.bdd = some b at hb
    simp [node?, hb, hn]
  · change d.robdd = some b at hb
    have hc : d.bdd.bind (·.arena.at? i) = none := by
      cases hc : d.bdd with
      | none => rfl
      | some c =>
        refine at?_eq_none_of_not_mem fun hci => ?_
        rcases h.disjoint c b hc hb with hd | hd <;> omega
    simp [node?, hc, hb, hn]

/-- A node found by id in a numbered diagram carries that id. -/
theorem Numbered.id_of_node? (h : d.Numbered) {i : Nat} {n : DNode} (hn : d.node? i = some n) :
    n.id = i := by
  obtain ⟨k, b, hb, hi⟩ := node?_some hn
  exact (h.linked k b hb).ids i n hi

/-- The identifiers of a diagram are fresh and consistent. Along any operations from a made
diagram, the builds it holds are linked arenas whose id intervals are disjoint and lie below the
counter; the node found for an id is the node of the build that holds it, and carries that id;
a build of a later diagram is one of the builds held now, up to marks and numbers, or takes its
ids from the counter on, above every id held now; and a failed build changes the engine
only. -/
theorem identifiers_fresh (hd : Reachable d) :
    d.Numbered ∧
    (∀ i n, d.node? i = some n ↔ ∃ k b, d.built? k = some b ∧ b.arena.at? i = some n) ∧
    (∀ i n, d.node? i = some n → n.id = i) ∧
    (∀ acts k b', (Action.runAll acts d).built? k = some b' →
      (∃ b, d.built? k = some b ∧ b'.root = b.root ∧ b.arena.Restyled b'.arena) ∨
        d.next ≤ b'.arena.base) ∧
    ∀ k f d', (build k).run d = (.error f, d') → d' = { d with engine := d'.engine } := by
  have hn := hd.numbered
  refine ⟨hn, fun i n => ⟨node?_some, fun ⟨k, b, hb, hi⟩ => hn.node?_eq hb hi⟩,
    fun i n => hn.id_of_node?, fun acts k b' hb' => ?_, fun k f d' hf => ?_⟩
  · -- the builds of a later diagram, by the run lemma from this one
    rcases (Action.runAll_descends acts (.refl hn)).since k with hk | ⟨b, hb, hbase⟩
    · exact .inl (hk.some hb')
    · rw [hb] at hb'
      cases hb'
      exact .inr hbase
  · obtain ⟨r, a, e, -, hst⟩ := build_state k d
    rw [hst] at hf
    cases r with
    | error f' =>
      cases hf
      rfl
    | ok root => cases hf

set_option maxRecDepth 100000 in
/-- The diagram of the formula `a`, made without limits. -/
theorem identifiers_fresh_of_a :
    let d := fresh "a" ((Engine.render 2).run
      ((Engine.parseAndSimplify "a").run (Engine.created {})).2).2 2 "a"
    Reachable d ∧ d.Numbered ∧
    (∀ i n, d.node? i = some n ↔ ∃ k b, d.built? k = some b ∧ b.arena.at? i = some n) ∧
    (∀ i n, d.node? i = some n → n.id = i) ∧
    (∀ acts k b', (Action.runAll acts d).built? k = some b' →
      (∃ b, d.built? k = some b ∧ b'.root = b.root ∧ b.arena.Restyled b'.arena) ∨
        d.next ≤ b'.arena.base) ∧
    ∀ k f d', (build k).run d = (.error f, d') → d' = { d with engine := d'.engine } := by
  have h₀ : create "a" {} none = .ok (fresh "a" ((Engine.render 2).run
      ((Engine.parseAndSimplify "a").run (Engine.created {})).2).2 2 "a") := by
    cbv
  intro d
  exact ⟨.create h₀, identifiers_fresh (.create h₀)⟩

end Diagram

end DecisionDiagrams
