/-
What every installed build keeps.

A property of a build's arena and root that every build has when it succeeds, whatever the engine
answers, and that marks and numbers do not change, holds of every build a diagram holds once it
is made and operated on: a build installs what it built, and every other operation keeps each
build up to marks and numbers, or drops it.

* `Diagram.BuildInvariant` — such a property.
* `Diagram.BuildInvariant.reachable` — every build of a reachable diagram has it.
* `Diagram.Reachable.whole` — every build of a reachable diagram is a whole arena.
-/
import DecisionDiagrams.Proofs.WholeArenas

namespace DecisionDiagrams

namespace Diagram

open Arena

/-- A property of a build's arena and root that every build has when it succeeds, whatever the
engine answers, and that marks and numbers do not change. -/
structure BuildInvariant (P : Arena → Nat → Prop) : Prop where
  build : ∀ (d : Diagram) (k : Kind) (order : List String) (base : Nat) (e : Engine) {root : Nat},
    ((runBuild d k order base).run e).1.1 = .ok root →
      P ((runBuild d k order base).run e).1.2 root
  restyled : ∀ {a a' : Arena} {root : Nat}, a.Restyled a' → P a root → P a' root

/-- Every build the diagram holds has the property. -/
def HasBuilds (P : Arena → Nat → Prop) (d : Diagram) : Prop :=
  ∀ k b, d.built? k = some b → P b.arena b.root

namespace BuildInvariant

variable {P : Arena → Nat → Prop} (hP : BuildInvariant P) {d d' : Diagram}
include hP

theorem of_kept (h : HasBuilds P d) (hk : ∀ k, Kept d d' k) : HasBuilds P d' := by
  intro k b' hb'
  obtain ⟨b, hb, hr, hs⟩ := (hk k).some hb'
  rw [hr]
  exact hP.restyled hs (h k b hb)

theorem withEngine (h : HasBuilds P d) (e : Engine) : HasBuilds P { d with engine := e } :=
  hP.of_kept h fun k => kept_of_eq (by cases k <;> rfl)

theorem setOrder (h : HasBuilds P d) {o : List String} (hs : d.setOrder o = .ok d') :
    HasBuilds P d' := by
  rcases setOrder_cases hs with rfl | rfl
  · exact h
  · exact hP.of_kept h fun k => .inl (by cases k <;> rfl)

/-- A build installs what it built, and keeps the other build up to its marks. -/
theorem preserves_build (k : Kind) : Preserves (HasBuilds P) (Diagram.build k) := by
  intro d h
  obtain ⟨r, a, e, hrun, hst⟩ := build_state k d
  rw [hst]
  cases r with
  | error f => exact hP.withEngine h e
  | ok root =>
    have hnew := hP.build d k d.order d.next d.engine
      (show ((runBuild d k d.order d.next).run d.engine).1.1 = .ok root by rw [hrun])
    rw [hrun] at hnew
    intro k' b' hb'
    by_cases hk : k' = k
    · subst hk
      rw [built?_install_self] at hb'
      cases hb'
      exact hnew
    · have hkept : Kept d (install k a root (clearHighlight { d with engine := e })) k' :=
        ((show Kept d { d with engine := e } k' from kept_of_eq (by cases k' <;> rfl)).trans
          (kept_clearHighlight _ k')).trans (kept_of_eq (built?_install_of_ne hk a root _))
      obtain ⟨b, hb, hr, hs⟩ := hkept.some hb'
      rw [hr]
      exact hP.restyled hs (h k' b hb)

theorem preserves_measure (k : Kind) (o : List String) : Preserves (HasBuilds P) (measure k o) := by
  intro d h
  obtain ⟨e, hst⟩ := measure_state k o d
  rw [hst]
  exact hP.withEngine h e

/-- The search measures orders only, so the sifter keeps the property. -/
theorem preserves_searchOrder (k : Kind) (s : String) (mp : Nat) :
    Preserves (HasBuilds P) (searchOrder k s mp) :=
  searchOrder_preserves (hP.preserves_measure k) s mp

theorem preserves_autoOrder (k : Kind) (s : String) (mp : Nat) :
    Preserves (HasBuilds P) (autoOrder k s mp) :=
  autoOrder_preserves (hP.preserves_searchOrder k s mp) (fun h hd => hP.setOrder h hd)
    (hP.preserves_build k)

/-- Highlighting marks nodes of one build, after clearing the marks of both. -/
theorem preserves_highlight (k : Kind) (values : Assignment) :
    Preserves (HasBuilds P) (highlight k values) := by
  refine highlight_preserves (fun d h _ => hP.of_kept h (kept_clearHighlight d))
    fun d b h hb => hP.of_kept h fun k' => ?_
  rw [Kept, built?_withHighlighted, ← Kept]
  exact kept_setBuilt hb (markFrom_restyled ..).symm k'

theorem preserves_assignSteps (k : Kind) : Preserves (HasBuilds P) (assignSteps k) := by
  intro d h
  rw [assignSteps_run]
  cases hb : d.built? k with
  | none => exact h
  | some b =>
    dsimp only
    cases b.arena.at? b.root with
    | none => exact h
    | some r =>
      dsimp only
      split
      · exact h
      · exact hP.of_kept h (kept_setBuilt hb (Restyled.of_renumbered
          (numbered_renumbered b.arena b.root)).symm)

theorem next (op : Op) (h : HasBuilds P d) : HasBuilds P (op.next d) := by
  refine Op.next_of_preserves (fun h hs => hP.setOrder h hs) hP.preserves_build
    hP.preserves_measure hP.preserves_autoOrder hP.preserves_highlight hP.preserves_assignSteps
    (fun d h => ?_) (fun d h => ?_) op h
  · unfold Diagram.models
    rw [StateT.run_bind, StateT.run_get, pure_bind, onEngine_run]
    exact hP.withEngine h _
  · unfold Diagram.writeKernel
    rw [StateT.run_bind, StateT.run_get, pure_bind, onEngine_run]
    exact hP.withEngine h _

theorem action (a : Action) (h : HasBuilds P d) : HasBuilds P (a.next d) := by
  cases a with
  | op o => exact hP.next o h
  | clearHighlight => exact hP.of_kept h (kept_clearHighlight d)

/-- A diagram is made without builds, or with an order given, which keeps none. -/
theorem create {text : String} {limits : Limits} {order : Option (List String)}
    (h : Diagram.create text limits order = .ok d) : HasBuilds P d := by
  obtain ⟨f, e, e₁, root, e₂, expression, -, -, -, -, hd⟩ := create_eq_ok h
  have hf : HasBuilds P (fresh text e₂ root expression) := fun k b hb => by cases k <;> cases hb
  rcases hd with ⟨-, rfl⟩ | ⟨o, -, ho⟩
  · exact hf
  · exact hP.setOrder hf ho

/-- Every build of a diagram reached by operations has the property, by induction on the
operations. -/
theorem reachable (hd : Reachable d) : HasBuilds P d := by
  induction hd with
  | create hc => exact hP.create hc
  | step a _ ih => exact hP.action a ih

end BuildInvariant

theorem whole_buildInvariant : BuildInvariant fun a _ => a.Whole where
  build d k order base e _ h := runBuild_whole d k order base e h
  restyled h ha := h.whole ha

/-- Every build of a reachable diagram is a whole arena. -/
theorem Reachable.whole {d : Diagram} (hd : Reachable d) {k : Kind} {b : Built}
    (hb : d.built? k = some b) : b.arena.Whole :=
  whole_buildInvariant.reachable hd k b hb

end Diagram

end DecisionDiagrams
