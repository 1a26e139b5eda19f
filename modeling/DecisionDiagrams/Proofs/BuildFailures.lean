/-
Builds fail only for the node limit.

Both builds expand a node by substituting the variable of its level into its residual, and make
a node one level down for each cofactor that is not a constant. A residual made so at level `L`
reads no variable that the order puts above `L`; when every name of the engine is a variable of
the order, a residual at the last level therefore reads no name at all, and a sound engine has
only the two constants for that. So the contract that a residual below the last level is
constant holds, and the only failures of a build are those of its calls on the engine: failures
of the node limit. This holds for every node limit, and whatever the engine computed before.

* `Diagram.StepLeaves` — what a step of a build leaves: a sound, later engine with its names, a
  state that keeps an invariant, and an answer, unless the step failed for the node limit.
* `Diagram.OpenArena`, `Diagram.OpenLayer` — the invariant of the two builds: the nodes other
  than the terminals are opened.
* `Diagram.expandTree_leaves`, `Diagram.expandLayers_leaves` — the expansions of the two builds.
* `Diagram.runBuild_leaves` — a build for an order without repetitions that holds every name of
  a sound engine fails only for the node limit.
-/
import DecisionDiagrams.Proofs.NodeLimit
import DecisionDiagrams.Proofs.DecisionTrees

namespace DecisionDiagrams

namespace Diagram

open Engine Arena

section Steps

variable {σ α β : Type} (P : σ → Engine → Prop)

/-- What a build step leaves from the sound engine `e`: a sound engine, later than `e` and with
its names, a state beside it with `P`, and an answer with `Q`, unless the step failed for the
node limit. -/
structure StepLeaves (Q : α → Prop) (e : Engine) (res : (Except Failure α × σ) × Engine) : Prop where
  sound : Sound res.2
  later : Later e res.2
  names : res.2.names = e.names
  inv : P res.1.2 res.2
  answer : ∀ v, res.1.1 = .ok v → Q v
  memory : ∀ f, res.1.1 = .error f → f.OfMemory

variable {P} {Q Q' : α → Prop} {R : β → Prop} {e e₁ : Engine} {s s₁ : σ}

/-- A step that answers at once leaves the engine and the state as they are. -/
theorem StepLeaves.ok (hs : Sound e) (hp : P s e) {v : α} (hq : Q v) :
    StepLeaves P Q e ((.ok v, s), e) :=
  ⟨hs, .refl e, rfl, hp, fun _ h => (by cases h; exact hq), fun _ h => (by cases h)⟩

/-- A failure of a step ends the build with that failure, whatever is asked of an answer. -/
theorem StepLeaves.fail {g : Failure} (h : StepLeaves P Q e ((.error g, s₁), e₁)) :
    StepLeaves P R e ((.error g, s₁), e₁) :=
  ⟨h.sound, h.later, h.names, h.inv, fun _ hv => (by cases hv),
    fun f hf => h.memory f (by cases hf; rfl)⟩

/-- A step that answered, followed by what the build does next from where it stopped. -/
theorem StepLeaves.trans {r : Except Failure α} {res : (Except Failure β × σ) × Engine}
    (h₁ : StepLeaves P Q e ((r, s₁), e₁)) (h₂ : StepLeaves P R e₁ res) : StepLeaves P R e res :=
  ⟨h₂.sound, h₁.later.trans h₂.later, h₂.names.trans h₁.names, h₂.inv, h₂.answer, h₂.memory⟩

/-- A call on the engine inside a build: the state beside the engine stays, and keeps `P` when
`P` survives later engines. -/
theorem StepLeaves.lift {Q₀ : α → Engine → Prop} {r : Except Failure α × Engine}
    (h : Engine.Leaves e Q₀ r) (hp : P s e) (hP : P s e → P s r.2) :
    StepLeaves P (fun v => Q₀ v r.2) e ((r.1, s), r.2) :=
  ⟨h.sound, h.later, h.names, hP hp, h.answer, h.memory⟩

/-- A step that fails at once for the node limit leaves the engine and the state as they are. -/
theorem StepLeaves.error (hs : Sound e) (hp : P s e) {g : Failure} (hg : g.OfMemory) :
    StepLeaves P Q e ((.error g, s), e) :=
  ⟨hs, .refl e, rfl, hp, fun _ h => (by cases h), fun _ h => (by cases h; exact hg)⟩

/-- What a step leaves, asking less of its state and its answer. -/
theorem StepLeaves.mono {P' : σ → Engine → Prop} {res : (Except Failure α × σ) × Engine}
    (h : StepLeaves P Q e res) (hP : P res.1.2 res.2 → P' res.1.2 res.2) (hQ : ∀ v, Q v → Q' v) :
    StepLeaves P' Q' e res :=
  ⟨h.sound, h.later, h.names, hP h.inv, fun v hv => hQ v (h.answer v hv), h.memory⟩

/-- A computation run inside another, on a state of its own that is then dropped. -/
theorem StepLeaves.withState {τ : Type} {P' : τ → Engine → Prop} {r : Except Failure α} {t : τ}
    (h : StepLeaves P Q e ((r, s₁), e₁)) (hp : P' t e₁) : StepLeaves P' Q e ((r, t), e₁) :=
  ⟨h.sound, h.later, h.names, hp, h.answer, h.memory⟩

end Steps

variable (order : List String) (ts : Terminals)

/-- The arena of a tree build, as far as its failures go: every node but the two terminals is
opened. -/
def OpenArena (a : Arena) (e : Engine) : Prop :=
  ∀ j n, a.at? j = some n → j ≠ ts.yes → j ≠ ts.no → n.Opened e order

/-- The nodes of the first phase of a reduced build, as far as its failures go: at least the two
terminals, and every node past them opened. -/
structure OpenLayer (l : Layer) (e : Engine) : Prop where
  size : 2 ≤ l.nodes.size
  opened : ∀ i n, 2 ≤ i → l.nodes[i]? = some n → n.Opened e order

variable {order ts}

/-! ### The invariants -/

section Invariants

variable {e : Engine}

theorem OpenArena.later {a : Arena} (hX : OpenArena order ts a e) {e' : Engine} (hs : Sound e)
    (hl : Later e e') : OpenArena order ts a e' :=
  fun j n hn hy hno => (hX j n hn hy hno).later hs hl

/-- A new opened node keeps the arena open. -/
theorem OpenArena.alloc {a : Arena} (hX : OpenArena order ts a e) {n : DNode}
    (hop : n.Opened e order) : OpenArena order ts (a.alloc n).2 e := by
  intro j m hm hy hno
  rw [at?_alloc] at hm
  split at hm
  · cases hm
    exact hop
  · exact hX j m hm hy hno

/-- Linking a node to its children keeps the arena open. -/
theorem OpenArena.link {a : Arena} (hX : OpenArena order ts a e) (id lo hi : Nat) :
    OpenArena order ts (a.modifyNode id fun m => { m with low := some lo, high := some hi }) e := by
  intro j m hm hy hno
  rw [at?_modifyNode] at hm
  split at hm
  · obtain ⟨m', hm', rfl⟩ := Option.map_eq_some_iff.1 hm
    exact hX j m' hm' hy hno
  · exact hX j m hm hy hno

theorem OpenLayer.later {l : Layer} (hX : OpenLayer order l e) {e' : Engine} (hs : Sound e)
    (hl : Later e e') : OpenLayer order l e' :=
  ⟨hX.size, fun i n hi hn => (hX.opened i n hi hn).later hs hl⟩

/-- A new opened node keeps the first phase open. -/
theorem OpenLayer.push {l : Layer} (hX : OpenLayer order l e) {n : DNode}
    (hop : n.Opened e order) (seen : Std.HashMap (String × Nat) Nat) :
    OpenLayer order { nodes := l.nodes.push { n with id := l.nodes.size }, seen := seen } e := by
  refine ⟨by simpa using Nat.le_succ_of_le hX.size, fun i m hi hm => ?_⟩
  rw [Array.getElem?_push] at hm
  split at hm
  · cases hm
    exact hop
  · exact hX.opened i m hi hm

/-- Linking a node to its children keeps the first phase open. -/
theorem OpenLayer.link {l : Layer} (hX : OpenLayer order l e) (id lo hi : Nat) :
    OpenLayer order { l with nodes := l.nodes.modify id fun m =>
      { m with low := some lo, high := some hi } } e := by
  refine ⟨by simpa using hX.size, fun i m hi' hm => ?_⟩
  rw [Array.getElem?_modify] at hm
  split at hm
  · obtain ⟨m', hm', rfl⟩ := Option.map_eq_some_iff.1 hm
    exact hX.opened i m' hi' hm'
  · exact hX.opened i m hi' hm

end Invariants

/-! ### The tree build -/

section Tree

variable {a : Arena} {e : Engine}

/-- The node made for a residual fails only for the node limit, when the residual's text is
rendered, and keeps the arena open. -/
theorem treeChild_leaves (hX : OpenArena order ts a e) (hs : Sound e)
    (hnames : ∀ y ∈ e.names.toList, y ∈ order) {r : Residual} (hr : r.Valid e) {L : Nat}
    (hfree : r.Free e order L) :
    StepLeaves (OpenArena order ts) (fun _ => True) e (((treeChild order ts r L).run a).run e) := by
  cases r with
  | const b => exact .ok hs hX (by trivial)
  | expr x =>
    have hR := render_leaves hs hr.2
    rw [treeChild, build_bind, build_liftEngine]
    rcases hrun : (render x).run e with ⟨g | text, e₁⟩
    · rw [hrun] at hR
      exact (StepLeaves.lift hR hX fun h => h.later hs hR.later).fail
    rw [hrun] at hR
    have S₁ := StepLeaves.lift hR hX fun h => h.later hs hR.later
    have hLN := hfree.lt_length hs hnames hr
    have hv : order[L]? = some order[L] := List.getElem?_eq_getElem hLN
    have hop : (DNode.internal order[L] (.expr x) text L).Opened e₁ order :=
      ⟨rfl, hv.symm, hr.later hR.later, hfree.later hs hR.later hr⟩
    simp only [hv, build_bind, build_modifyGet, build_pure]
    exact S₁.trans (.ok hR.sound (S₁.inv.alloc hop) (by trivial))

/-- Expanding a node of a tree build, and then every node made below it, fails only for the node
limit and keeps the arena open. The induction is on the fuel; each step expands the node's
residual, makes a node for each cofactor, links them and expands the low child and then the high
one, and a failure of any of these ends it. -/
theorem expandTree_leaves (hnodup : order.Nodup) :
    ∀ fuel id (a : Arena) (e : Engine), OpenArena order ts a e → Sound e →
      (∀ y ∈ e.names.toList, y ∈ order) → id ≠ ts.yes → id ≠ ts.no →
      StepLeaves (OpenArena order ts) (fun _ => True) e
        (((expandTree order ts fuel id).run a).run e) := by
  intro fuel
  induction fuel with
  | zero => exact fun _ a e hX hs _ _ _ => .ok hs hX (by trivial)
  | succ fuel ih =>
    intro id a e hX hs hnames hy hno
    rw [expandTree, build_bind, build_get]
    cases hn : a.at? id with
    | none => exact .ok hs hX (by trivial)
    | some n =>
    have hop := hX id n hn hy hno
    obtain ⟨v, hv, hov, -⟩ := hop.var_eq
    -- the two cofactors
    have hE := expand_leaves hs hop.2.2.1 v
    simp only [hv, Option.getD_some, build_bind, build_liftEngine]
    rcases h₁ : (expand n.value v).run e with ⟨g | ⟨hr, lr⟩, e₁⟩
    · rw [h₁] at hE
      exact (StepLeaves.lift hE hX fun h => h.later hs hE.later).fail
    rw [h₁] at hE
    obtain ⟨hrv, lrv, hsem⟩ := hE.answer _ rfl
    have S₁ := StepLeaves.lift hE hX fun h => h.later hs hE.later
    have hnames₁ : ∀ y ∈ e₁.names.toList, y ∈ order := hE.names ▸ hnames
    dsimp only
    -- the node of the high cofactor
    have C₁ := treeChild_leaves S₁.inv hE.sound hnames₁ hrv
      (hop.2.2.2.cofactor hnodup hov fun σ => (hsem σ).1) (L := n.level + 1)
    rw [build_bind]
    rcases h₂ : ((treeChild order ts hr (n.level + 1)).run a).run e₁ with ⟨⟨g | hi, a₂⟩, e₂⟩
    · rw [h₂] at C₁
      exact S₁.trans C₁.fail
    rw [h₂] at C₁
    -- the node of the low cofactor
    have C₂ := treeChild_leaves C₁.inv C₁.sound (C₁.names ▸ hnames₁) (lrv.later C₁.later)
      ((hop.2.2.2.cofactor hnodup hov fun σ => (hsem σ).2).later hE.sound C₁.later lrv)
      (L := n.level + 1)
    dsimp only
    rw [build_bind]
    rcases h₃ : ((treeChild order ts lr (n.level + 1)).run a₂).run e₂ with ⟨⟨g | lo, a₃⟩, e₃⟩
    · rw [h₃] at C₂
      exact S₁.trans (C₁.trans C₂.fail)
    rw [h₃] at C₂
    have hnames₃ : ∀ y ∈ e₃.names.toList, y ∈ order := C₂.names ▸ C₁.names ▸ hnames₁
    -- link the node, then expand the low child and the high one when they are not terminals
    have hX₄ := C₂.inv.link id lo hi
    have S₃ : StepLeaves (OpenArena order ts) (fun _ => True) e
        ((.ok (), a₃.modifyNode id fun m => { m with low := some lo, high := some hi }), e₃) :=
      S₁.trans (C₁.trans (C₂.trans (.ok C₂.sound hX₄ (by trivial))))
    dsimp only
    rw [build_bind, build_modify]
    dsimp only
    by_cases hlo : lo ≠ ts.yes ∧ lo ≠ ts.no
    · rw [if_pos hlo, build_bind]
      have T₁ := ih lo _ e₃ hX₄ C₂.sound hnames₃ hlo.1 hlo.2
      rcases h₄ : ((expandTree order ts fuel lo).run
          (a₃.modifyNode id fun m => { m with low := some lo, high := some hi })).run e₃ with
        ⟨⟨g | u, a₅⟩, e₅⟩
      · rw [h₄] at T₁
        exact S₃.trans T₁.fail
      rw [h₄] at T₁
      have S₅ := S₃.trans T₁
      dsimp only
      by_cases hhi : hi ≠ ts.yes ∧ hi ≠ ts.no
      · rw [if_pos hhi, build_bind]
        have T₂ := ih hi a₅ e₅ T₁.inv T₁.sound (T₁.names ▸ hnames₃) hhi.1 hhi.2
        rcases h₆ : ((expandTree order ts fuel hi).run a₅).run e₅ with ⟨⟨g | u', a₆⟩, e₆⟩
        · rw [h₆] at T₂
          exact S₅.trans T₂.fail
        rw [h₆] at T₂
        exact S₅.trans (T₂.trans (.ok T₂.sound T₂.inv (by trivial)))
      · rw [if_neg hhi]
        exact S₅.trans (.ok T₁.sound T₁.inv (by trivial))
    · rw [if_neg hlo]
      by_cases hhi : hi ≠ ts.yes ∧ hi ≠ ts.no
      · rw [if_pos hhi, build_bind]
        have T₂ := ih hi _ e₃ hX₄ C₂.sound hnames₃ hhi.1 hhi.2
        rcases h₆ : ((expandTree order ts fuel hi).run
            (a₃.modifyNode id fun m => { m with low := some lo, high := some hi })).run e₃ with
          ⟨⟨g | u', a₆⟩, e₆⟩
        · rw [h₆] at T₂
          exact S₃.trans T₂.fail
        rw [h₆] at T₂
        exact S₃.trans (T₂.trans (.ok T₂.sound T₂.inv (by trivial)))
      · rw [if_neg hhi]
        exact S₃

/-- The arena of a tree build when the root is made: the two terminals and the root, which is
opened. -/
theorem openArena_root (order : List String) (base : Nat) {e : Engine} {n : DNode}
    (hop : n.Opened e order) :
    OpenArena order ⟨base, base + 1⟩ ((Arena.terminal false order.length
      (Arena.terminal true order.length ⟨base, #[]⟩).2).2.alloc n).2 e := by
  intro j m hm hy hno
  rw [at?_alloc] at hm
  split at hm
  · cases hm
    exact hop
  · rw [at?_terminals, if_neg hno, if_neg hy] at hm
    cases hm

/-- A tree build fails only for the node limit, when every name of the engine is a variable of
the order. -/
theorem decisionTree_leaves {d : Diagram} (hs : Sound d.engine)
    (hroot : d.root < d.engine.kernel.nodes.size) (hnames : ∀ y ∈ d.engine.names.toList, y ∈ order)
    (hnodup : order.Nodup) (base : Nat) :
    StepLeaves (fun _ _ => True) (fun _ => True) d.engine
      (((decisionTree d order).run ⟨base, #[]⟩).run d.engine) := by
  have hres := Diagram.valid_residualOf (e := d.engine) hroot
  cases order with
  | nil =>
    -- without variables the expression is a constant, and the root is its terminal
    obtain ⟨b, hb⟩ := Residual.Free.const_of_length hs hnames hres
      fun _ j hj _ => absurd hj (Nat.not_lt_zero j)
    rw [decisionTree, build_bind, build_modifyGet, build_bind, build_modifyGet]
    simp only [rootNode, hb]
    exact .ok hs trivial trivial
  | cons v rest =>
    -- the root is a new opened node, expanded with a level of fuel to spare
    have hop : (DNode.internal v (residualOf d.root) d.expression 0).Opened d.engine (v :: rest) :=
      ⟨rfl, rfl, hres, fun _ j hj _ => absurd hj (Nat.not_lt_zero j)⟩
    have hnext : (Arena.terminal false (v :: rest).length
        (Arena.terminal true (v :: rest).length ⟨base, #[]⟩).2).2.next = base + 2 := by
      simp [Arena.terminal, Arena.next, Arena.alloc]
    have T := expandTree_leaves hnodup ((v :: rest).length + 1) (base + 2) _ d.engine
      (openArena_root (v :: rest) base hop) hs hnames (show base + 2 ≠ base by omega)
      (show base + 2 ≠ base + 1 by omega)
    rw [decisionTree, build_bind, build_modifyGet, build_bind, build_modifyGet]
    simp only [rootNode]
    rw [if_neg (show ¬ (DNode.internal v (residualOf d.root) d.expression 0).isTerminal = true
      from Bool.false_ne_true), build_bind, build_modifyGet, build_bind, alloc_fst, hnext]
    dsimp only
    rw [show (Arena.terminal true (v :: rest).length ⟨base, #[]⟩).1 = base from rfl,
      show (Arena.terminal false (v :: rest).length
        (Arena.terminal true (v :: rest).length ⟨base, #[]⟩).2).1 = base + 1 from rfl]
    generalize ((expandTree (v :: rest) ⟨base, base + 1⟩ ((v :: rest).length + 1) (base + 2)).run
      _).run d.engine = res at T ⊢
    rcases res with ⟨⟨g | u, a⟩, e'⟩
    · exact (T.mono (fun _ => trivial) fun _ h => h).fail
    · exact (T.trans (.ok T.sound T.inv (by trivial))).mono (fun _ => trivial) fun _ _ => trivial

end Tree

/-! ### The reduced build -/

section Layers

variable {l : Layer} {e : Engine}

/-- The node of the first phase for a residual fails only for the node limit, when the
residual's text is rendered, keeps the first phase open, and is new only past the terminals. -/
theorem layerChild_leaves (hX : OpenLayer order l e) (hs : Sound e)
    (hnames : ∀ y ∈ e.names.toList, y ∈ order) {r : Residual} (hr : r.Valid e) {L : Nat}
    (hfree : r.Free e order L) :
    StepLeaves (OpenLayer order) (fun p => p.2 = true → 2 ≤ p.1) e
      (((layerChild order r L).run l).run e) := by
  cases r with
  | const b => exact .ok hs hX (by intro h; cases h)
  | expr x =>
    have hR := render_leaves hs hr.2
    rw [layerChild, build_bind, build_lift]
    rcases hrun : (render x).run e with ⟨g | text, e₁⟩
    · rw [hrun] at hR
      exact (StepLeaves.lift hR hX fun h => h.later hs hR.later).fail
    rw [hrun] at hR
    have S₁ := StepLeaves.lift hR hX fun h => h.later hs hR.later
    have hLN := hfree.lt_length hs hnames hr
    have hv : order[L]? = some order[L] := List.getElem?_eq_getElem hLN
    have hop : (DNode.internal order[L] (.expr x) text L).Opened e₁ order :=
      ⟨rfl, hv.symm, hr.later hR.later, hfree.later hs hR.later hr⟩
    rcases hseen : l.seen[(text, L)]? with _ | i
    · simp only [hv, build_bind, build_get, hseen, build_modify]
      exact S₁.trans (.ok hR.sound (S₁.inv.push hop _) fun _ => S₁.inv.size)
    · simp only [hv, build_bind, build_get, hseen]
      exact S₁.trans (.ok hR.sound S₁.inv (by intro h; cases h))

/-- The nodes a node's expansion adds to those found lie past the terminals. -/
theorem two_le_of_found {found : List Nat} {hi lo : Nat} {newHi newLo : Bool}
    (h : ∀ j ∈ found, 2 ≤ j) (hh : newHi = true → 2 ≤ hi) (hl : newLo = true → 2 ≤ lo) :
    ∀ j ∈ (if newLo then (if newHi then found ++ [hi] else found) ++ [lo] else
      if newHi then found ++ [hi] else found), 2 ≤ j := by
  intro j hj
  cases newHi <;> cases newLo <;> simp at hj <;> grind

/-- Expanding a node of the first phase fails only for the node limit, or with the failure that
ended an earlier node, and keeps the first phase open; the nodes it finds lie past the
terminals. -/
theorem expandNode_leaves (hnodup : order.Nodup) (hX : OpenLayer order l e) (hs : Sound e)
    (hnames : ∀ y ∈ e.names.toList, y ∈ order) {acc : Except Failure (List Nat)}
    (hacc : ∀ f, acc = .error f → f.OfMemory)
    (hfound : ∀ found, acc = .ok found → ∀ j ∈ found, 2 ≤ j) {id : Nat} (hid : 2 ≤ id) :
    StepLeaves (OpenLayer order) (fun found => ∀ j ∈ found, 2 ≤ j) e
      (((expandNode order acc id).run l).run e) := by
  cases acc with
  | error f => exact .error hs hX (hacc f rfl)
  | ok found =>
  rw [expandNode, build_bind, build_get]
  cases hn : l.nodes[id]? with
  | none => exact .ok hs hX (hfound found rfl)
  | some n =>
  have hop := hX.opened id n hid hn
  obtain ⟨v, hv, hov, -⟩ := hop.var_eq
  -- the two cofactors
  have hE := expand_leaves hs hop.2.2.1 v
  simp only [hv, Option.getD_some, build_bind, build_lift]
  rcases h₁ : (expand n.value v).run e with ⟨g | ⟨hr, lr⟩, e₁⟩
  · rw [h₁] at hE
    exact (StepLeaves.lift hE hX fun h => h.later hs hE.later).fail
  rw [h₁] at hE
  obtain ⟨hrv, lrv, hsem⟩ := hE.answer _ rfl
  have S₁ := StepLeaves.lift hE hX fun h => h.later hs hE.later
  have hnames₁ : ∀ y ∈ e₁.names.toList, y ∈ order := hE.names ▸ hnames
  dsimp only
  -- the node of the high cofactor
  have C₁ := layerChild_leaves S₁.inv hE.sound hnames₁ hrv
    (hop.2.2.2.cofactor hnodup hov fun σ => (hsem σ).1) (L := n.level + 1)
  rw [build_bind]
  rcases h₂ : ((layerChild order hr (n.level + 1)).run l).run e₁ with
    ⟨⟨g | ⟨hi, newHi⟩, l₂⟩, e₂⟩
  · rw [h₂] at C₁
    exact S₁.trans C₁.fail
  rw [h₂] at C₁
  -- the node of the low cofactor
  have C₂ := layerChild_leaves C₁.inv C₁.sound (C₁.names ▸ hnames₁) (lrv.later C₁.later)
    ((hop.2.2.2.cofactor hnodup hov fun σ => (hsem σ).2).later hE.sound C₁.later lrv)
    (L := n.level + 1)
  dsimp only
  rw [build_bind]
  rcases h₃ : ((layerChild order lr (n.level + 1)).run l₂).run e₂ with
    ⟨⟨g | ⟨lo, newLo⟩, l₃⟩, e₃⟩
  · rw [h₃] at C₂
    exact S₁.trans (C₁.trans C₂.fail)
  rw [h₃] at C₂
  -- link the node to both
  dsimp only
  rw [build_bind, build_modify]
  exact S₁.trans (C₁.trans (C₂.trans (.ok C₂.sound (C₂.inv.link id lo hi)
    (two_le_of_found (hfound found rfl) (C₁.answer _ rfl) (C₂.answer _ rfl)))))

/-- Expanding the nodes of a level one after another fails only for the node limit. The
induction is on the nodes left; a failure is carried to the end as it is. -/
theorem foldlM_expandNode_leaves (hnodup : order.Nodup) :
    ∀ (ids : List Nat) (acc : Except Failure (List Nat)) (l : Layer) (e : Engine),
      OpenLayer order l e → Sound e → (∀ y ∈ e.names.toList, y ∈ order) → (∀ i ∈ ids, 2 ≤ i) →
      (∀ f, acc = .error f → f.OfMemory) → (∀ found, acc = .ok found → ∀ j ∈ found, 2 ≤ j) →
      StepLeaves (OpenLayer order) (fun found => ∀ j ∈ found, 2 ≤ j) e
        (((ids.foldlM (expandNode order) acc).run l).run e)
  | [], acc, l, e, hX, hs, _, _, hacc, hfound => by
    cases acc with
    | error f => exact .error hs hX (hacc f rfl)
    | ok found => exact .ok hs hX (hfound found rfl)
  | i :: ids, acc, l, e, hX, hs, hnames, hids, hacc, hfound => by
    rw [List.foldlM_cons, build_bind]
    have N := expandNode_leaves hnodup hX hs hnames hacc hfound (hids i List.mem_cons_self)
    generalize ((expandNode order acc i).run l).run e = res at N ⊢
    rcases res with ⟨⟨acc', l'⟩, e'⟩
    exact N.trans (foldlM_expandNode_leaves hnodup ids acc' l' e' N.inv N.sound
      (N.names ▸ hnames) (fun j hj => hids j (List.mem_cons_of_mem i hj)) N.memory N.answer)

/-- The first phase of a reduced build fails only for the node limit and keeps its nodes open.
The induction is on the fuel, one level a step. -/
theorem expandLayers_leaves (hnodup : order.Nodup) :
    ∀ fuel (ids : List Nat) (l : Layer) (e : Engine), OpenLayer order l e → Sound e →
      (∀ y ∈ e.names.toList, y ∈ order) → (∀ i ∈ ids, 2 ≤ i) →
      StepLeaves (OpenLayer order) (fun _ => True) e
        (((expandLayers order fuel ids).run l).run e) := by
  intro fuel
  induction fuel with
  | zero => exact fun _ l e hX hs _ _ => .ok hs hX trivial
  | succ fuel ih =>
    intro ids l e hX hs hnames hids
    rw [expandLayers]
    by_cases hemp : ids.isEmpty
    · rw [if_pos hemp]
      exact .ok hs hX trivial
    rw [if_neg hemp, build_bind, expandLayer]
    -- the nodes of this level, then the levels below
    have F := foldlM_expandNode_leaves hnodup ids (.ok []) l e hX hs hnames hids
      (fun _ h => (by cases h)) fun _ h => by cases h; simp
    generalize ((ids.foldlM (expandNode order) (.ok [])).run l).run e = res at F ⊢
    rcases res with ⟨⟨g | next, l₁⟩, e₁⟩
    · exact F.fail
    dsimp only
    rw [build_bind]
    have T := ih next l₁ e₁ F.inv F.sound (F.names ▸ hnames) (F.answer _ rfl)
    generalize ((expandLayers order fuel next).run l₁).run e₁ = res at T ⊢
    rcases res with ⟨⟨g | rest, l₂⟩, e₂⟩
    · exact F.trans T.fail
    · exact F.trans (T.trans (.ok T.sound T.inv trivial))

end Layers

/-- The first phase starts from the two terminals and the root, which is opened. -/
theorem openLayer_start {e : Engine} {n : DNode} (hop : n.Opened e order) (len : Nat)
    (seen : Std.HashMap (String × Nat) Nat) :
    OpenLayer order { nodes := #[{ DNode.terminal true "True" len with id := 0 },
      { DNode.terminal false "False" len with id := 1 }, { n with id := 2 }], seen := seen } e := by
  refine ⟨by simp, fun i m hi hm => ?_⟩
  have hi3 : i < 3 := (Array.getElem?_eq_some_iff.1 hm).1
  obtain rfl : i = 2 := by omega
  cases hm
  exact hop

/-- A reduced build fails only for the node limit, when every name of the engine is a variable of
the order: its first phase does, and its second computes on the arena alone. -/
theorem reducedDiagram_leaves {d : Diagram} (hs : Sound d.engine)
    (hroot : d.root < d.engine.kernel.nodes.size) (hnames : ∀ y ∈ d.engine.names.toList, y ∈ order)
    (hnodup : order.Nodup) (base : Nat) :
    StepLeaves (fun _ _ => True) (fun _ => True) d.engine
      (((reducedDiagram d order).run ⟨base, #[]⟩).run d.engine) := by
  have hres := Diagram.valid_residualOf (e := d.engine) hroot
  cases order with
  | nil =>
    -- without variables the expression is a constant, and the root is its terminal
    obtain ⟨b, hb⟩ := Residual.Free.const_of_length hs hnames hres
      fun _ j hj _ => absurd hj (Nat.not_lt_zero j)
    rw [reducedDiagram]
    simp only [rootNode, hb]
    exact .ok hs trivial trivial
  | cons v rest =>
    have hop : (DNode.internal v (residualOf d.root) d.expression 0).Opened d.engine (v :: rest) :=
      ⟨rfl, rfl, hres, fun _ j hj _ => absurd hj (Nat.not_lt_zero j)⟩
    rw [reducedDiagram]
    simp only [rootNode]
    rw [if_neg (show ¬ (DNode.internal v (residualOf d.root) d.expression 0).isTerminal = true
      from Bool.false_ne_true), build_bind, build_liftEngine]
    have L := expandLayers_leaves hnodup ((v :: rest).length + 1) [2] _ d.engine
      (openLayer_start hop (v :: rest).length (({} : Std.HashMap (String × Nat) Nat).insert
        ((DNode.internal v (residualOf d.root) d.expression 0).text, 0) 2)) hs hnames (by simp)
    generalize ((expandLayers (v :: rest) ((v :: rest).length + 1) [2]).run _).run d.engine = res
      at L ⊢
    rcases res with ⟨⟨g | levels, layer⟩, e₁⟩
    · exact (L.withState trivial).fail
    -- the second phase computes on the arena alone, and answers
    · exact ⟨L.sound, L.later, L.names, trivial, fun _ _ => trivial, fun _ h => (by cases h)⟩

/-- A build of either kind fails only for the node limit, on a sound engine whose names are
variables of an order without repetitions, from any base and for any node limit. -/
theorem runBuild_leaves {d : Diagram} (hs : Sound d.engine)
    (hroot : d.root < d.engine.kernel.nodes.size) (hnames : ∀ y ∈ d.engine.names.toList, y ∈ order)
    (hnodup : order.Nodup) (k : Kind) (base : Nat) :
    StepLeaves (fun _ _ => True) (fun _ => True) d.engine ((runBuild d k order base).run d.engine) := by
  cases k with
  | bdd => exact decisionTree_leaves hs hroot hnames hnodup base
  | robdd => exact reducedDiagram_leaves hs hroot hnames hnodup base

end Diagram

end DecisionDiagrams
