/-
Counting the models of engines and diagrams.

`satcount` on a node of an ordered table counts the assignments of the levels below `varnum`
under which the node's walk reaches true. An engine names its levels, one name per level, so
`Engine.count` counts the assignments of the engine's names that satisfy an expression. A
diagram keeps, through every operation, the node of its formula with the formula's truth values,
on an engine that declares every variable of the formula's text and no other name; so `models`
counts the assignments of the diagram's variables that satisfy its formula.

* `countAssignments` — the number of assignments of a list of names that satisfy a predicate.
* `Engine.count_run` — counting on a sound engine.
* `Diagram.Stable.runAll` — a property that every operation keeps survives every run of actions.
* `Diagram.Denotes` — the formula's node holds the formula's truth values.
* `Diagram.models_run` — `models` after any operations counts the models of the formula.
-/
import DecisionDiagrams.Proofs.ModelCounting
import DecisionDiagrams.Proofs.DiagramIdentifiers
import DecisionDiagrams.Proofs.Grammar

namespace DecisionDiagrams

/-- The number of assignments of the names `xs` under which `p` holds, the names outside `xs`
being false. -/
def countAssignments (xs : List String) (p : (String → Bool) → Bool) : Nat :=
  (Finset.univ.filter fun ρ : {y // y ∈ xs} → Bool =>
    p fun y => if h : y ∈ xs then ρ ⟨y, h⟩ else false).card

/-- The count depends on the names only as a set. -/
theorem countAssignments_congr {xs ys : List String} (h : ∀ y, y ∈ xs ↔ y ∈ ys)
    (p : (String → Bool) → Bool) : countAssignments xs p = countAssignments ys p := by
  apply Finset.card_equiv ((Equiv.subtypeEquivRight h).arrowCongr (Equiv.refl Bool))
  intro ρ
  simp only [Finset.mem_filter, Finset.mem_univ, true_and]
  -- an assignment and its transport read every name alike
  have hsame : (fun y => if hy : y ∈ ys then
      ((Equiv.subtypeEquivRight h).arrowCongr (Equiv.refl Bool) ρ) ⟨y, hy⟩ else false) =
      fun y => if hy : y ∈ xs then ρ ⟨y, hy⟩ else false := by
    funext y
    by_cases hy : y ∈ xs
    · rw [dif_pos ((h y).1 hy), dif_pos hy]
      rfl
    · rw [dif_neg (fun h' => hy ((h y).2 h')), dif_neg hy]
  rw [hsame]

namespace Engine

open Kernel

/-- Level `l` of a sound engine is its `l`-th name. -/
def levelNames {e : Engine} (hs : Sound e) : Fin e.kernel.varnum ≃ {y // y ∈ e.names.toList} :=
  (finCongr (by simp [hs.size])).trans (List.Nodup.getEquiv _ hs.nodup)

/-- The count of a node of a sound engine is the number of assignments of the engine's names that
satisfy it: an assignment of the levels gives each name the value of its level. -/
theorem models_eq_countAssignments {e : Engine} (hs : Sound e) {x : Nat}
    (hx : x < e.kernel.nodes.size) :
    e.kernel.models x = countAssignments e.names.toList (e.value x) := by
  apply Finset.card_equiv ((levelNames hs).arrowCongr (Equiv.refl Bool))
  intro τ
  simp only [Finset.mem_filter, Finset.mem_univ, true_and, value, beq_iff_eq]
  -- below `varnum` the two assignments give each level the same value
  have hagree : ∀ l, l < e.kernel.varnum → extend τ l = e.levels (fun y =>
      if hy : y ∈ e.names.toList then ((levelNames hs).arrowCongr (Equiv.refl Bool) τ) ⟨y, hy⟩
      else false) l := by
    intro l hl
    have hl' : l < e.names.size := hs.size ▸ hl
    have hmem : e.names[l] ∈ e.names.toList := Array.getElem_mem_toList hl'
    have hsymm : (levelNames hs).symm ⟨e.names[l], hmem⟩ = ⟨l, hl⟩ := by
      rw [Equiv.symm_apply_eq]
      apply Subtype.ext
      show e.names[l] = e.names.toList.get ⟨l, _⟩
      simp
    simp [extend, levels, hl, hl', hmem, Equiv.arrowCongr_apply, hsymm]
  rw [walk_congr_of_ordered hs.ordered hagree x hx]

/-- Counting on a sound engine answers the number of assignments of its names that satisfy the
expression, and keeps the engine. -/
theorem count_run {e : Engine} (hs : Sound e) {x : Nat} (hx : x < e.kernel.nodes.size) :
    (count x).run e = (countAssignments e.names.toList (e.value x), e) := by
  have hrun := satcount_run hs.ordered x
  rw [if_pos ⟨by omega, by omega⟩, Int.toNat_natCast] at hrun
  rw [count, onKernel_run, hrun, models_eq_countAssignments hs hx]

/-- A text read as a formula declares each of its variables. -/
theorem declared_parseAndSimplify {e : Engine} (hs : Sound e) {text : String} {n : Nat}
    (h : ((parseAndSimplify text).run e).1 = .ok n) :
    ∀ y ∈ variablesOf text, y ∈ ((parseAndSimplify text).run e).2.names.toList := by
  intro y hy
  obtain ⟨f, e₁, r, k, -, hd, -, -, -, he⟩ := parseAndSimplify_ok h
  obtain ⟨hnames, -⟩ := declare_none hs hd
  rw [he]
  change y ∈ e₁.names.toList
  rw [hnames]
  exact ((declaredNames_spec _ hs.nodup).2.2 y).2 (.inr hy)

end Engine

namespace Diagram

open Engine

/-! ### What every action keeps -/

namespace Stable

variable {P : Diagram → Prop} (hP : Stable P)
include hP

/-- Every action keeps the property, and so does every run of actions. -/
theorem runAll (acts : List Action) {d : Diagram} (h : P d) : P (Action.runAll acts d) := by
  induction acts generalizing d with
  | nil => exact h
  | cons a acts ih =>
    apply ih
    cases a with
    | op o => exact hP.next o h
    | clearHighlight =>
      exact hP.sameCore h ⟨by simp [Action.next, clearHighlight],
        by simp [Action.next, clearHighlight], by simp [Action.next, clearHighlight],
        by simp [Action.next, clearHighlight]⟩

end Stable

/-! ### The formula's node -/

/-- A coherent diagram whose formula's node holds the truth values of formula `f`, on an engine
that declares every variable of the diagram. -/
structure Denotes (f : Formula) (d : Diagram) : Prop where
  coherent : Coherent d
  value : ∀ σ, d.engine.value d.root σ = f.eval σ
  declared : ∀ y ∈ d.vars, y ∈ d.engine.names.toList

/-- The operations keep the formula's node and its truth values: an engine they move to extends
the one before, and has the same names. -/
theorem denotes_stable (f : Formula) : Stable (Denotes f) where
  coherent h := h.coherent
  sameCore h hc := ⟨h.coherent.of_sameCore hc, by rw [hc.engine, hc.root]; exact h.value,
    by rw [hc.vars, hc.engine]; exact h.declared⟩
  withEngine h hs hl hn := ⟨h.coherent.withEngine hs hl hn,
    fun σ => (value_evolves h.coherent.sound hl.evolves h.coherent.root σ).trans (h.value σ),
    by rw [hn]; exact h.declared⟩
  setOrder h ho := by
    have hc := setOrder_coherent h.coherent ho
    rcases setOrder_cases ho with rfl | rfl
    · exact h
    · exact ⟨hc, h.value, h.declared⟩

/-- A diagram made from a text holds the formula read from it: its engine reads the formula's
linear text, which names the variables of the text, and rendering the node keeps it. This holds
for every node limit. -/
theorem create_denotes {text : String} {limits : Limits} {order : Option (List String)}
    {d : Diagram} (h : create text limits order = .ok d) {f : Formula}
    (hp : Formula.parse text = .ok f) : Denotes f d := by
  obtain ⟨f', e, e₁, root, e₂, expression, hp', he, hr, hx, hd⟩ := create_eq_ok h
  rw [hp, Except.ok.injEq] at hp'
  subst hp'
  have hs := create_sound he
  have hnames := Formula.parse_expandArrows_names hp
  have hok : ((parseAndSimplify f.expandArrows.linear).run e).1 = .ok root := by rw [hr]
  obtain ⟨hs₁, -, hroot, hval⟩ := parseAndSimplify_linear hs hnames hok
  have hdecl := declared_parseAndSimplify hs hok
  rw [hr] at hs₁ hroot hval hdecl
  have R := render_leaves hs₁ hroot
  rw [hx] at R
  have hfresh : Denotes f (fresh text e₂ root expression) := by
    refine ⟨fresh_coherent hp he hr hx, fun σ => ?_, fun y hy => ?_⟩
    · rw [fresh, value_evolves hs₁ R.later.evolves hroot σ, hval σ, Formula.eval_expandArrows]
    · -- a variable of the text is a name of the formula, so of its linear text
      have hy' : y ∈ f.expandArrows.names := (Formula.names_expandArrows f y).2
        (Formula.mem_names_of_identifiers hp y (mem_firstOccurrences.1 hy))
      have hlin : y ∈ variablesOf f.expandArrows.linear := by
        rw [variablesOf, Formula.identifiers_linear _ hnames]
        exact mem_firstOccurrences.2 hy'
      exact R.names ▸ hdecl y hlin
  rcases hd with ⟨-, rfl⟩ | ⟨o, -, ho⟩
  · exact hfresh
  · exact (denotes_stable f).setOrder hfresh ho

/-- After any actions on a diagram made from a text, `models` counts the assignments of the
diagram's variables that satisfy the formula of the text, and keeps the diagram. -/
theorem models_run {text : String} {limits : Limits} {order : Option (List String)}
    {d : Diagram} (h : create text limits order = .ok d) {f : Formula}
    (hp : Formula.parse text = .ok f) (acts : List Action) :
    models.run (Action.runAll acts d) =
      (countAssignments (Action.runAll acts d).vars f.eval, Action.runAll acts d) := by
  have hD := (denotes_stable f).runAll acts (create_denotes h hp)
  generalize Action.runAll acts d = d' at hD ⊢
  have hc := hD.coherent
  unfold models
  rw [StateT.run_bind, StateT.run_get, pure_bind, onEngine_run, count_run hc.sound hc.root]
  -- the engine names exactly the variables, and its node is the formula
  have hvalue : d'.engine.value d'.root = f.eval := funext hD.value
  rw [hvalue, countAssignments_congr fun y => ⟨hc.names y, hD.declared y⟩]

end Diagram

namespace Kernel

/-- Model counting is exact on every table a run reaches in which no declaration of variables runs
out of nodes. `satcount` on a node of the table answers the number of assignments of the levels
below `varnum` whose walk from the node reaches true and keeps the table; a bad reference
answers `0` and records its faults. Every edge of such a table goes down at least one level, so
no weight is lost to a negative shift. On every sound engine, counting a node answers the number
of assignments of the engine's names that satisfy it. After any actions on a diagram made from a
text, `models` answers the number of assignments of the diagram's variables that satisfy the
formula of the text. -/
theorem satcount_counts_models (k : Kernel) :
    (CleanlyReachable k → ∀ n : Int, (satcount n).run k =
      if 0 ≤ n ∧ n < k.nodes.size then (k.models n.toNat, k)
      else (0, (k.record (.illegalReference n)).record (.wrongOperand .satcount n))) ∧
    (CleanlyReachable k → ∀ i, 2 ≤ i → i < k.nodes.size →
      k.level i < k.level (k.lowOf i) ∧ k.level i < k.level (k.highOf i)) ∧
    (∀ e : Engine, e.Sound → ∀ x, x < e.kernel.nodes.size →
      (Engine.count x).run e = (countAssignments e.names.toList (e.value x), e)) ∧
    (∀ (text : String) (limits : Limits) (order : Option (List String)) (d : Diagram)
      (f : Formula), Diagram.create text limits order = .ok d → Formula.parse text = .ok f →
      ∀ acts : List Diagram.Action, (Diagram.models.run (Diagram.Action.runAll acts d)).1 =
        countAssignments (Diagram.Action.runAll acts d).vars f.eval) := by
  refine ⟨fun hk n => satcount_run (cleanlyReachable_ordered hk).2 n, fun hk i h2 hi => ?_,
    fun e hs x hx => Engine.count_run hs hx, fun text limits order d f hd hp acts => ?_⟩
  · have ho := (cleanlyReachable_ordered hk).2
    exact ⟨ho.levels.lowOf ho.structured h2 hi, ho.levels.highOf ho.structured h2 hi⟩
  · rw [Diagram.models_run hd hp acts]

set_option maxRecDepth 100000 in
/-- With two variables declared, the positive literal of the first holds under two of the four
assignments of the levels. -/
theorem satcount_counts_models_literal :
    CleanlyReachable (perform (.setVarnum 2) ((setVarnum 0).run (blank ⟨0, 3, 0⟩).resetCaches).2) ∧
      (satcount 2).run
          (perform (.setVarnum 2) ((setVarnum 0).run (blank ⟨0, 3, 0⟩).resetCaches).2) =
        ((perform (.setVarnum 2) ((setVarnum 0).run (blank ⟨0, 3, 0⟩).resetCaches).2).models 2,
          perform (.setVarnum 2) ((setVarnum 0).run (blank ⟨0, 3, 0⟩).resetCaches).2) := by
  have hk : CleanlyReachable
      (perform (.setVarnum 2) ((setVarnum 0).run (blank ⟨0, 3, 0⟩).resetCaches).2) :=
    .step _ (.create (show create 0 ⟨0, 3, 0⟩ =
      .ok ((setVarnum 0).run (blank ⟨0, 3, 0⟩).resetCaches).2 from rfl))
      (fun n hn ⟨_, hrun⟩ => hrun (by cases hn; cbv))
  have hn : 2 < (perform (.setVarnum 2)
      ((setVarnum 0).run (blank ⟨0, 3, 0⟩).resetCaches).2).nodes.size := by cbv
  refine ⟨hk, ?_⟩
  rw [(satcount_counts_models _).1 hk 2, if_pos ⟨by omega, by omega⟩]
  rfl

set_option maxRecDepth 100000 in
/-- On the table whose declaration of one variable ran out of nodes, the true terminal lies at
level `1` while no variable is declared: one assignment of the levels below `varnum` reaches
true, and `satcount` counts two. -/
theorem satcount_overcounts_after_failed_declaration :
    Reachable (perform (.setVarnum 1) terminalsOnly) ∧
      (perform (.setVarnum 1) terminalsOnly).varnum = 0 ∧
      (perform (.setVarnum 1) terminalsOnly).models 1 = 1 ∧
      ((satcount 1).run (perform (.setVarnum 1) terminalsOnly)).1 = 2 := by
  obtain ⟨hr, -, hvarnum⟩ := terminals_above_varnum_after_failed_declaration
  have hcount : ((satcount 1).run (perform (.setVarnum 1) terminalsOnly)).1 = 2 := by
    cbv
  exact ⟨hr, hvarnum, by rw [models_true, hvarnum]; rfl, hcount⟩

end Kernel

end DecisionDiagrams
