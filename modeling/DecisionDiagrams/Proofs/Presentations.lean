/-
Presentations of a cached diagram do not interfere, unless one builds a kind.

A view, a DOT text or the edges of a kind of a cached diagram build the kind first when it was
not built; the diagram stays cached with what the presentation made of it. A presentation of a
built kind only numbers that kind's nodes, and numbering twice is numbering once
(`Diagram.assignSteps_twice`); what the other kind shows does not see that kind's build at all
(`Diagram.Blind`). So a presentation answers after another as it answers alone, when the other
is of another formula or of a kind already built (`Service.presentations_independent`).

A build, on the other hand, clears the highlight of every kind of the diagram and forgets the
assignment. Showing a kind that was not built after a request that highlighted the other one
therefore makes the highlight disappear from the other kind's view
(`Service.view_of_unbuilt_kind_clears_highlight`).

* `Diagram.Blind` — a computation that does not see the build of a kind: whatever that build,
  it answers alike and does the same to the rest of the diagram;
* `Service.presentBody` — what presenting does to a cached diagram;
* `Service.Presentation` — the three presentations, as calls of the service.
-/
import DecisionDiagrams.Proofs.Numbering
import DecisionDiagrams.Proofs.ServiceCache

namespace DecisionDiagrams

namespace Diagram

theorem map_run {β γ : Type} (f : β → γ) (x : DiagramM β) (d : Diagram) :
    (f <$> x).run d = (f (x.run d).1, (x.run d).2) := rfl

@[simp] theorem order_setBuilt (d : Diagram) (k : Kind) (b : Option Built) :
    (d.setBuilt k b).order = d.order := by cases k <;> rfl
@[simp] theorem next_setBuilt (d : Diagram) (k : Kind) (b : Option Built) :
    (d.setBuilt k b).next = d.next := by cases k <;> rfl
@[simp] theorem engine_setBuilt (d : Diagram) (k : Kind) (b : Option Built) :
    (d.setBuilt k b).engine = d.engine := by cases k <;> rfl

theorem setBuilt_comm (d : Diagram) {k k' : Kind} (h : k' ≠ k) (b b' : Option Built) :
    (d.setBuilt k b).setBuilt k' b' = (d.setBuilt k' b').setBuilt k b := by
  cases k <;> cases k' <;> first | rfl | exact absurd rfl h

theorem root?_setBuilt_of_ne (d : Diagram) {k k' : Kind} (h : k' ≠ k) (b : Option Built) :
    (d.setBuilt k b).root? k' = d.root? k' := by
  simp only [root?, built?_setBuilt_of_ne d h]

/-- A build reads the formula's expression and its text only, never the builds already made. -/
theorem runBuild_setBuilt (d : Diagram) (k k' : Kind) (b : Option Built) (order : List String)
    (base : Nat) : runBuild (d.setBuilt k b) k' order base = runBuild d k' order base := by
  cases k <;> rfl

theorem clearHighlight_setBuilt (d : Diagram) (k : Kind) (b : Option Built) :
    ∃ b', clearHighlight (d.setBuilt k b) = (clearHighlight d).setBuilt k b' := by
  cases k <;> exact ⟨_, rfl⟩

theorem install_setBuilt (d : Diagram) {k k' : Kind} (h : k' ≠ k) (a : Arena) (root : Nat)
    (b : Option Built) : install k' a root (d.setBuilt k b) = (install k' a root d).setBuilt k b := by
  cases k <;> cases k' <;> first | rfl | exact absurd rfl h

/-- A computation on a diagram that does not see the build of kind `k`: run with any build of
`k` in place, it answers as it does on the diagram itself, and leaves what it leaves there with
some build of `k`. -/
def Blind {β : Type} (k : Kind) (x : DiagramM β) : Prop :=
  ∀ d b, ∃ b', x.run (d.setBuilt k b) = ((x.run d).1, (x.run d).2.setBuilt k b')

namespace Blind

variable {β γ : Type} {k : Kind}

theorem pure (v : β) : Blind k (Pure.pure v : DiagramM β) := fun _ b => ⟨b, rfl⟩

theorem bind {x : DiagramM β} {f : β → DiagramM γ} (hx : Blind k x) (hf : ∀ v, Blind k (f v)) :
    Blind k (x >>= f) := by
  intro d b
  obtain ⟨b₁, h₁⟩ := hx d b
  obtain ⟨b₂, h₂⟩ := hf (x.run d).1 (x.run d).2 b₁
  refine ⟨b₂, ?_⟩
  rw [StateT.run_bind, h₁]
  exact h₂

/-- What follows a read of the diagram is blind when it is the same for every build of `k`. -/
theorem get_bind {f : Diagram → DiagramM β} (hf : ∀ d b, f (d.setBuilt k b) = f d)
    (hf' : ∀ d, Blind k (f d)) : Blind k (MonadState.get >>= f) := by
  intro d b
  obtain ⟨b', h⟩ := hf' d d b
  exact ⟨b', by rw [StateT.run_bind, StateT.run_get, pure_bind, hf]; exact h⟩

theorem modify {f : Diagram → Diagram} (hf : ∀ d b, ∃ b', f (d.setBuilt k b) = (f d).setBuilt k b') :
    Blind k (modify f : DiagramM PUnit) := by
  intro d b
  obtain ⟨b', h⟩ := hf d b
  exact ⟨b', by simp only [StateT.run_modify]; rw [h]; rfl⟩

theorem map {x : DiagramM β} (hx : Blind k x) (f : β → γ) : Blind k (f <$> x) := by
  intro d b
  obtain ⟨b', h⟩ := hx d b
  exact ⟨b', by simp only [StateT.run_map, h]; rfl⟩

theorem onEngine {α : Type} (m : EngineM α) : Blind k (Diagram.onEngine m) := by
  intro d b
  refine ⟨b, ?_⟩
  show (_, _) = (_, _)
  cases k <;> rfl

end Blind

section Other

variable {k k' : Kind} (h : k' ≠ k)
include h

/-- Numbering a kind writes that kind's build only. -/
theorem assignSteps_blind : Blind k (assignSteps k') := by
  intro d b
  refine ⟨b, ?_⟩
  rw [assignSteps_run, assignSteps_run, built?_setBuilt_of_ne d h]
  cases d.built? k' with
  | none => rfl
  | some c =>
    dsimp only
    cases c.arena.at? c.root with
    | none => rfl
    | some r =>
      dsimp only
      split
      · rfl
      · rw [setBuilt_comm d h]

theorem view_blind : Blind k (view k') := by
  unfold view
  refine Blind.bind (assignSteps_blind h) fun r => ?_
  split
  · exact Blind.pure _
  · refine Blind.get_bind (fun d b => ?_) fun d => ?_
    · simp only [built?_setBuilt_of_ne d h, order_setBuilt]
    · split <;> exact Blind.pure _

theorem dot_blind : Blind k (dot k') := by
  unfold dot
  refine Blind.bind (assignSteps_blind h) fun r => ?_
  split
  · exact Blind.pure _
  · refine Blind.get_bind (fun d b => ?_) fun d => ?_
    · simp only [built?_setBuilt_of_ne d h]
    · split <;> exact Blind.pure _

theorem edges_blind : Blind k (edges k') := by
  unfold edges
  refine Blind.get_bind (fun d b => ?_) fun d => ?_
  · simp only [built?_setBuilt_of_ne d h]
  · split <;> exact Blind.pure _

/-- Building a kind clears the highlight of every build, but installs its own build only. -/
theorem build_blind : Blind k (build k') := by
  unfold build
  refine Blind.get_bind (fun d b => ?_) fun d => ?_
  · simp only [runBuild_setBuilt, order_setBuilt, next_setBuilt]
  · refine Blind.bind (Blind.onEngine _) fun p => ?_
    obtain ⟨r, a⟩ := p
    dsimp only
    split
    · exact Blind.pure _
    · refine Blind.bind (Blind.modify fun e b => ?_) fun _ => Blind.pure _
      obtain ⟨b', hb'⟩ := clearHighlight_setBuilt e k b
      exact ⟨b', by rw [hb', install_setBuilt _ h]⟩

end Other

theorem view_state (k : Kind) (d : Diagram) : ((view k).run d).2 = ((assignSteps k).run d).2 := by
  unfold view
  rw [StateT.run_bind]
  rcases (assignSteps k).run d with ⟨r, d'⟩
  cases r with
  | error f => rfl
  | ok u =>
    change ((get >>= fun d => _ : DiagramM _).run d').2 = d'
    rw [StateT.run_bind, StateT.run_get, pure_bind]
    split <;> rfl

theorem dot_state (k : Kind) (d : Diagram) : ((dot k).run d).2 = ((assignSteps k).run d).2 := by
  unfold dot
  rw [StateT.run_bind]
  rcases (assignSteps k).run d with ⟨r, d'⟩
  cases r with
  | error f => rfl
  | ok u =>
    change ((get >>= fun d => _ : DiagramM _).run d').2 = d'
    rw [StateT.run_bind, StateT.run_get, pure_bind]
    split <;> rfl

theorem edges_state (k : Kind) (d : Diagram) : ((edges k).run d).2 = d := by
  unfold edges
  rw [StateT.run_bind, StateT.run_get, pure_bind]
  split <;> rfl

/-- A view begins by numbering its kind, so a view after a numbering answers as a view alone. -/
theorem view_assignSteps (k : Kind) (d : Diagram) :
    (view k).run ((assignSteps k).run d).2 = (view k).run d := by
  unfold view
  rw [StateT.run_bind, StateT.run_bind, assignSteps_twice]

theorem dot_assignSteps (k : Kind) (d : Diagram) :
    (dot k).run ((assignSteps k).run d).2 = (dot k).run d := by
  unfold dot
  rw [StateT.run_bind, StateT.run_bind, assignSteps_twice]

theorem assignSteps_state (k : Kind) (d : Diagram) :
    ∃ b, ((assignSteps k).run d).2 = d.setBuilt k b := by
  rw [assignSteps_run]
  cases hb : d.built? k with
  | none => exact ⟨d.built? k, (setBuilt_built? d k).symm⟩
  | some c =>
    dsimp only
    cases c.arena.at? c.root with
    | none => exact ⟨d.built? k, (setBuilt_built? d k).symm⟩
    | some r =>
      dsimp only
      split
      · exact ⟨d.built? k, (setBuilt_built? d k).symm⟩
      · exact ⟨_, rfl⟩

theorem built?_isSome_assignSteps (k : Kind) (d : Diagram) :
    (((assignSteps k).run d).2.built? k).isSome = (d.built? k).isSome := by
  rw [assignSteps_run]
  cases hb : d.built? k with
  | none => rw [hb]
  | some c =>
    dsimp only
    cases c.arena.at? c.root with
    | none => rw [hb]
    | some r =>
      dsimp only
      split
      · rw [hb]
      · rw [built?_setBuilt]; rfl

end Diagram

namespace Service

open Diagram

/-- What presenting does to a cached diagram: it builds the kind when it is missing, then
presents. -/
def presentBody {α : Type} (k : Kind) (act : DiagramM (Except Failure α)) :
    DiagramM (Except Failure α) := do
  if ((← get).root? k).isNone then
    if let .error f ← buildKind k then return .error f
  act

/-- Presenting answers from the cached diagram of the formula and writes back what it made of
it. -/
theorem present_run {α : Type} (text : String) (k : Kind) (act : DiagramM (Except Failure α))
    (s : Service) :
    (present text k act).run s =
      if (stripSpaces text).isEmpty then (.error (.of .missingFormula), s)
      else match s.cache.lookup (stripSpaces text) with
        | none => (.error (.of (.notFound (stripSpaces text))), s)
        | some d =>
          (((presentBody k act).run d).1,
            { s with cache := s.cache.replace (stripSpaces text) ((presentBody k act).run d).2 }) := by
  by_cases hf : (stripSpaces text).isEmpty = true
  · simp only [present, hf, if_true]
    rfl
  · simp only [present, hf, Bool.false_eq_true, if_false, StateT.run_bind, StateT.run_get, pure_bind]
    cases s.cache.lookup (stripSpaces text) with
    | none => rfl
    | some d => rfl

theorem presentBody_of_built {α : Type} {k : Kind} {d : Diagram} (act : DiagramM (Except Failure α))
    (h : (d.root? k).isSome) : (presentBody k act).run d = act.run d := by
  simp only [presentBody, StateT.run_bind, StateT.run_get, pure_bind, Option.isNone_iff_eq_none,
    Option.isSome_iff_ne_none.1 h, if_false]

theorem buildKind_blind {k k' : Kind} (h : k' ≠ k) : Blind k (buildKind k') :=
  Blind.bind (build_blind h) fun _ => Blind.pure _

theorem presentBody_blind {α : Type} {k k' : Kind} (h : k' ≠ k) {act : DiagramM (Except Failure α)}
    (hact : Blind k act) : Blind k (presentBody k' act) := by
  unfold presentBody
  refine Blind.get_bind (fun d b => ?_) fun d => ?_
  · simp only [root?_setBuilt_of_ne d h]
  · split
    · refine Blind.bind (buildKind_blind h) fun r => ?_
      split
      · exact Blind.pure _
      · exact hact
    · exact hact

/-- What a presentation of a cached diagram shows: a view, a DOT text or a list of edges. -/
inductive Shown
  | view (v : View)
  | dot (text : String)
  | edges (es : List Edge)
  deriving DecidableEq

/-- The three presentations of a kind of a cached diagram. -/
inductive Presentation
  | view
  | dot
  | edges
  deriving DecidableEq

namespace Presentation

/-- The presentation on the diagram. -/
def act : Presentation → Kind → DiagramM (Except Failure Shown)
  | .view, k => (·.map Shown.view) <$> Diagram.view k
  | .dot, k => (·.map Shown.dot) <$> Diagram.dot k
  | .edges, k => (·.map Shown.edges) <$> Diagram.edges k

/-- The presentation as a call of the service. -/
def call : Presentation → String → Kind → ServiceM (Except Failure Shown)
  | .view, t, k => (·.map Shown.view) <$> Service.view t k
  | .dot, t, k => (·.map Shown.dot) <$> Service.dot t k
  | .edges, t, k => (·.map Shown.edges) <$> Service.edges t k

theorem act_blind {k k' : Kind} (h : k' ≠ k) : ∀ p : Presentation, Blind k (p.act k')
  | .view => Blind.map (view_blind h) _
  | .dot => Blind.map (dot_blind h) _
  | .edges => Blind.map (edges_blind h) _

/-- A presentation changes the build of its own kind only. -/
theorem act_state (k : Kind) (d : Diagram) : ∀ p : Presentation, ∃ b, ((p.act k).run d).2 = d.setBuilt k b
  | .view => by simpa only [act, map_run, view_state] using assignSteps_state k d
  | .dot => by simpa only [act, map_run, dot_state] using assignSteps_state k d
  | .edges => ⟨d.built? k, by rw [act, map_run, edges_state, setBuilt_built?]⟩

theorem built?_act (k : Kind) (d : Diagram) :
    ∀ p : Presentation, ((((p.act k).run d).2).built? k).isSome = (d.built? k).isSome
  | .view => by rw [act, map_run, view_state, built?_isSome_assignSteps]
  | .dot => by rw [act, map_run, dot_state, built?_isSome_assignSteps]
  | .edges => by rw [act, map_run, edges_state]

/-- Presentations of one kind do not interfere: the view and the DOT text begin by numbering
the kind, which a second time changes nothing, and the edges read no numbers. -/
theorem act_act (k : Kind) (d : Diagram) (p₁ p₂ : Presentation) :
    ((p₂.act k).run ((p₁.act k).run d).2).1 = ((p₂.act k).run d).1 := by
  have after : ((p₂.act k).run ((assignSteps k).run d).2).1 = ((p₂.act k).run d).1 := by
    cases p₂ with
    | view => rw [act, map_run, map_run, view_assignSteps]
    | dot => rw [act, map_run, map_run, dot_assignSteps]
    | edges => rw [act, map_run, map_run, edges_assignSteps]
  cases p₁ with
  | view => rw [act, map_run, view_state, after]
  | dot => rw [act, map_run, dot_state, after]
  | edges => rw [act, map_run, edges_state]

end Presentation

/-- Presenting a built kind of a diagram changes no later presentation of it, of that kind or
the other: of the same kind by `act_act`, of the other because a presentation writes its own
kind's build only, which the other kind's presentation does not see. -/
theorem presentBody_presentBody (p₁ p₂ : Presentation) (k₁ k₂ : Kind) {d : Diagram}
    (hb : (d.built? k₂).isSome) :
    ((presentBody k₁ (p₂.act k₁)).run ((presentBody k₂ (p₁.act k₂)).run d).2).1 =
      ((presentBody k₁ (p₂.act k₁)).run d).1 := by
  have hr : (d.root? k₂).isSome := by simpa [root?] using hb
  rw [presentBody_of_built _ hr]
  by_cases hk : k₁ = k₂
  · subst hk
    have hr' : ((((p₁.act k₁).run d).2).root? k₁).isSome := by
      simpa [root?] using (Presentation.built?_act k₁ d p₁).trans hb
    rw [presentBody_of_built _ hr', presentBody_of_built _ hr]
    exact Presentation.act_act k₁ d p₁ p₂
  · obtain ⟨b, hst⟩ := Presentation.act_state k₂ d p₁
    obtain ⟨b', h⟩ := presentBody_blind hk (Presentation.act_blind hk p₂) d b
    rw [hst, h]

/-- Mapping the answer of a presentation maps the answer of presenting it. -/
theorem presentBody_map {α β : Type} (k : Kind) (act : DiagramM (Except Failure α)) (g : α → β)
    (d : Diagram) :
    (presentBody k ((·.map g) <$> act)).run d =
      (((presentBody k act).run d).1.map g, ((presentBody k act).run d).2) := by
  simp only [presentBody, StateT.run_bind, StateT.run_get, pure_bind]
  split
  · rw [StateT.run_bind, StateT.run_bind]
    rcases (buildKind k).run d with ⟨r, d'⟩
    cases r with
    | error f => rfl
    | ok u => exact map_run _ _ _
  · exact map_run _ _ _

theorem Presentation.call_run (p : Presentation) (t : String) (k : Kind) (s : Service) :
    (p.call t k).run s = (present t k (p.act k)).run s := by
  cases p <;>
  · simp only [call, act, Service.view, Service.dot, Service.edges, StateT.run_map, present_run]
    split
    · rfl
    · split
      · rfl
      · rw [presentBody_map]
        rfl

/-- Presentations of cached diagrams do not interfere, unless the first builds its kind: for
every service, a presentation of a formula answers after another presentation as it answers
alone, whenever the other is of another formula, or of the same formula with its kind already
built. -/
theorem presentations_independent (s : Service) (t₁ t₂ : String) (k₁ k₂ : Kind)
    (p₁ p₂ : Presentation)
    (hb : stripSpaces t₂ = stripSpaces t₁ →
      ∀ d, s.cache.lookup (stripSpaces t₁) = some d → (d.built? k₂).isSome) :
    ((p₂.call t₂ k₁).run ((p₁.call t₁ k₂).run s).2).1 = ((p₂.call t₂ k₁).run s).1 := by
  rw [Presentation.call_run, Presentation.call_run, Presentation.call_run, present_run t₁]
  split
  · rfl
  · cases hl : s.cache.lookup (stripSpaces t₁) with
    | none => rfl
    | some d =>
      -- the first presentation wrote back the diagram of its formula only
      have hmem : stripSpaces t₁ ∈ s.cache.keys := List.mem_map.2 ⟨_, Fifo.mem_of_lookup_eq_some hl, rfl⟩
      dsimp only
      rw [present_run, present_run]
      split
      · rfl
      · by_cases heq : stripSpaces t₂ = stripSpaces t₁
        · dsimp only
          rw [heq, Fifo.lookup_replace_self hmem, hl]
          exact presentBody_presentBody p₁ p₂ k₁ k₂ (hb heq d hl)
        · dsimp only
          rw [Fifo.lookup_replace_of_ne _ heq]
          cases s.cache.lookup (stripSpaces t₂) <;> rfl

set_option maxRecDepth 100000 in
/-- After a request for the decision tree of `a` that highlights `a = 1`, showing the built
decision tree before the reduced diagram changes nothing the reduced diagram shows. -/
theorem presentations_independent_after_request :
    let s := ((Call.generate ⟨"a", .bdd, "", "", "a:1"⟩).run (create 10 {} 0)).2
    (stripSpaces "a" = stripSpaces "a" →
        ∀ d, s.cache.lookup (stripSpaces "a") = some d → (d.built? .bdd).isSome) ∧
      ((Presentation.view.call "a" .robdd).run ((Presentation.view.call "a" .bdd).run s).2).1 =
        ((Presentation.view.call "a" .robdd).run s).1 := by
  intro s
  have hb : stripSpaces "a" = stripSpaces "a" →
      ∀ d, s.cache.lookup (stripSpaces "a") = some d → (d.built? .bdd).isSome := by
    intro _ d hd
    have h : (s.cache.lookup (stripSpaces "a")).map (fun d => (d.built? .bdd).isSome) = some true := by
      simp only [s]
      cbv
    rw [hd] at h
    exact Option.some.inj h
  exact ⟨hb, presentations_independent s "a" "a" .robdd .bdd .view .view hb⟩

set_option maxRecDepth 100000 in
/-- Showing a kind that was not built builds it, and a build clears the highlight of every
kind: after a request for the decision tree of `a` that highlights `a = 1`, the view of the
reduced diagram makes the view of the decision tree lose its highlight. -/
theorem view_of_unbuilt_kind_clears_highlight :
    let s := ((Call.generate ⟨"a", .bdd, "", "", "a:1"⟩).run (create 10 {} 0)).2
    s.Reachable ∧
      ((Presentation.view.call "a" .bdd).run ((Presentation.view.call "a" .robdd).run s).2).1 ≠
        ((Presentation.view.call "a" .bdd).run s).1 := by
  intro s
  refine ⟨.step _ (.create 10 {} 0), ?_⟩
  simp only [s]
  cbv
  simp

end Service

end DecisionDiagrams
