/-
Builds of a diagram fail only for the node limit.

A diagram made from a formula text keeps its engine sound, the node of its formula in the table,
and the names of the engine among the variables of the text; its order lists those variables,
each once. The engine declares the variables of the linear text of the formula it reads, which
are those of the text itself, and an order is taken only when the order check accepts it, which
it does only for a permutation of the variables. Every operation keeps this (`Coherent`), so a
build for the diagram's order, or for any order the check accepts, runs on an engine whose names
are variables of the order: its residuals below the last level are constants, and it can only
fail for the node limit. This holds for every node limit, and after any operations.

* `Diagram.Coherent` — the invariant, and `Diagram.SameCore` for the operations that change
  neither the engine nor the order.
* `Diagram.perm_of_checkOrder` — the order check accepts permutations only.
* `Diagram.Stable` — what the operations do to a diagram, and so what each of them keeps;
  `Diagram.coherent_stable` — the invariant is such a property.
* `Diagram.create_coherent` — making a diagram gives the invariant.
* `Diagram.Reached` — the diagrams a text leads to.
* `Diagram.builds_fail_only_for_node_limit` — the main statement.
-/
import DecisionDiagrams.Proofs.BuildFailures
import DecisionDiagrams.Proofs.Presentations

namespace DecisionDiagrams

namespace Diagram

open Engine

/-! ### The invariant -/

/-- A diagram as its operations keep it: a sound engine that holds the node of the formula and
names only variables of the formula, and an order that is a permutation of the variables, which
are distinct. -/
structure Coherent (d : Diagram) : Prop where
  sound : Sound d.engine
  root : d.root < d.engine.kernel.nodes.size
  names : ∀ y ∈ d.engine.names.toList, y ∈ d.vars
  nodup : d.vars.Nodup
  perm : d.order.Perm d.vars

/-- Two diagrams with the same variables, order, engine and formula node. -/
structure SameCore (d d' : Diagram) : Prop where
  vars : d'.vars = d.vars
  order : d'.order = d.order
  engine : d'.engine = d.engine
  root : d'.root = d.root

@[simp] theorem vars_setBuilt (d : Diagram) (k : Kind) (b : Option Built) :
    (d.setBuilt k b).vars = d.vars := by cases k <;> rfl

@[simp] theorem root_setBuilt (d : Diagram) (k : Kind) (b : Option Built) :
    (d.setBuilt k b).root = d.root := by cases k <;> rfl

theorem sameCore_setBuilt (d : Diagram) (k : Kind) (b : Option Built) :
    SameCore d (d.setBuilt k b) :=
  ⟨by simp, by simp, by simp, by simp⟩

theorem sameCore_install (k : Kind) (a : Arena) (root : Nat) (d : Diagram) :
    SameCore d (install k a root (clearHighlight d)) :=
  ⟨by simp [install, clearHighlight], by simp [install, clearHighlight],
    by simp [install, clearHighlight], by simp [install, clearHighlight]⟩

theorem Coherent.of_sameCore {d d' : Diagram} (h : Coherent d) (hc : SameCore d d') :
    Coherent d' := by
  obtain ⟨hv, ho, he, hr⟩ := hc
  exact ⟨he ▸ h.sound, he ▸ hr ▸ h.root, he ▸ hv ▸ h.names, hv ▸ h.nodup, hv ▸ ho ▸ h.perm⟩

/-- A later sound engine with the same names keeps a diagram coherent. -/
theorem Coherent.withEngine {d : Diagram} (h : Coherent d) {e : Engine} (hs : Sound e)
    (hl : Later d.engine e) (hn : e.names = d.engine.names) : Coherent { d with engine := e } :=
  ⟨hs, Nat.lt_of_lt_of_le h.root hl.evolves.ext.size_le, hn ▸ h.names, h.nodup, h.perm⟩

/-- One step of the fold of the order check: a name must be a variable and must not have been
seen. -/
def orderStep (vars seen : List String) (x : String) : Except Failure (List String) :=
  if !vars.contains x then throw (.of (.order (.unknown x)))
  else if seen.contains x then throw (.of (.order (.duplicate x)))
  else pure (x :: seen)

/-- The fold of the order check succeeds only on distinct variables, none of them seen
before. -/
theorem foldlM_orderStep {vars : List String} :
    ∀ (o seen : List String) {r : List String}, o.foldlM (orderStep vars) seen = .ok r →
      o.Nodup ∧ (∀ x ∈ o, x ∈ vars) ∧ ∀ x ∈ o, x ∉ seen
  | [], _, _, _ => ⟨List.nodup_nil, by simp, by simp⟩
  | x :: o, seen, r, h => by
    rw [List.foldlM_cons] at h
    by_cases hv : vars.contains x
    · by_cases hs : seen.contains x
      · -- a name seen before is refused
        rw [orderStep, if_neg (by simpa using hv), if_pos hs] at h
        cases h
      · rw [orderStep, if_neg (by simpa using hv), if_neg hs, pure_bind] at h
        obtain ⟨hnd, hsub, hnew⟩ := foldlM_orderStep o (x :: seen) h
        have hx : x ∉ o := fun hx => hnew x hx List.mem_cons_self
        refine ⟨List.nodup_cons.2 ⟨hx, hnd⟩, fun y hy => ?_, fun y hy hys => ?_⟩
        · rcases List.mem_cons.1 hy with rfl | hy
          · simpa using hv
          · exact hsub y hy
        · rcases List.mem_cons.1 hy with rfl | hy
          · exact hs (by simpa using hys)
          · exact hnew y hy (List.mem_cons_of_mem x hys)
    · -- a name that is not a variable is refused
      rw [orderStep, if_pos (by simpa using hv)] at h
      cases h

/-- The order check accepts permutations of the variables only: its fold refuses a name that is
not a variable or that it has seen, and the lengths agree. -/
theorem perm_of_checkOrder {vars o : List String} (h : checkOrder vars o = .ok ()) :
    o.Perm vars := by
  unfold checkOrder at h
  by_cases hl : o.length = vars.length
  · simp only [hl, ne_eq, not_true_eq_false, if_false] at h
    generalize hf : (List.foldlM _ [] o : Except Failure (List String)) = res at h
    cases res with
    | error f => cases h
    | ok r =>
      obtain ⟨hnd, hsub, -⟩ := foldlM_orderStep o [] hf
      exact (List.subperm_of_subset hnd hsub).perm_of_length_le (Nat.le_of_eq hl.symm)
  · simp [hl, throw, throwThe, MonadExceptOf.throw, bind, Except.bind] at h

/-- A build for a permutation of the variables of a coherent diagram fails only for the node
limit. -/
theorem Coherent.runBuild {d : Diagram} (h : Coherent d) {o : List String} (hp : o.Perm d.vars)
    (k : Kind) (base : Nat) :
    StepLeaves (fun _ _ => True) (fun _ => True) d.engine ((runBuild d k o base).run d.engine) :=
  runBuild_leaves h.sound h.root (fun y hy => hp.symm.subset (h.names y hy))
    (hp.nodup_iff.2 h.nodup) k base

/-! ### Runs of the operations -/

theorem onEngine_run {α : Type} (m : EngineM α) (d : Diagram) :
    (onEngine m).run d = ((m.run d.engine).1, { d with engine := (m.run d.engine).2 }) :=
  rfl

/-- What a build leaves: the engine it ran on, and, when it succeeds, its arena installed after
the highlight is cleared. -/
theorem build_state (k : Kind) (d : Diagram) :
    ∃ r a e, (runBuild d k d.order d.next).run d.engine = ((r, a), e) ∧
      (build k).run d = match r with
        | .error f => (.error f, { d with engine := e })
        | .ok root => (.ok root, install k a root (clearHighlight { d with engine := e })) := by
  rcases hrun : (runBuild d k d.order d.next).run d.engine with ⟨⟨r, a⟩, e⟩
  refine ⟨r, a, e, rfl, ?_⟩
  unfold build
  rw [StateT.run_bind, StateT.run_get, pure_bind, StateT.run_bind, onEngine_run, hrun]
  cases r <;> rfl

theorem build_run_ok {k : Kind} {d : Diagram} {root : Nat} {a : Arena} {e : Engine}
    (h : (runBuild d k d.order d.next).run d.engine = ((.ok root, a), e)) :
    (build k).run d = (.ok root, install k a root (clearHighlight { d with engine := e })) := by
  obtain ⟨r, a', e', hrun, hst⟩ := build_state k d
  rw [h, Prod.mk.injEq, Prod.mk.injEq] at hrun
  obtain ⟨⟨rfl, rfl⟩, rfl⟩ := hrun
  exact hst

/-- A build runs on the engine, and installs what it built when it succeeds. -/
theorem build_run (k : Kind) (d : Diagram) :
    ∃ r a e, (runBuild d k d.order d.next).run d.engine = ((r, a), e) ∧
      ((build k).run d).1 = r ∧ SameCore { d with engine := e } ((build k).run d).2 := by
  obtain ⟨r, a, e, hrun, hst⟩ := build_state k d
  refine ⟨r, a, e, hrun, ?_⟩
  rw [hst]
  cases r with
  | error f => exact ⟨rfl, ⟨rfl, rfl, rfl, rfl⟩⟩
  | ok root => exact ⟨rfl, sameCore_install k a root { d with engine := e }⟩

/-- A measure of an order that the check accepts runs a build on the engine from base `0`, and
keeps the rest of the diagram. -/
theorem measure_run (k : Kind) (o : List String) (d : Diagram) (ho : checkOrder d.vars o = .ok ()) :
    ∃ r a e, (runBuild d k o 0).run d.engine = ((r, a), e) ∧
      ((measure k o).run d).1 = r.map (reachableCount a) ∧
      ((measure k o).run d).2 = { d with engine := e } := by
  rcases hrun : (runBuild d k o 0).run d.engine with ⟨⟨r, a⟩, e⟩
  refine ⟨r, a, e, rfl, ?_⟩
  unfold measure
  rw [StateT.run_bind, StateT.run_get, pure_bind]
  simp only [ho]
  rw [StateT.run_bind, onEngine_run, hrun]
  exact ⟨rfl, rfl⟩

/-- A measure of an order that the check refuses answers its failure and changes nothing. -/
theorem measure_run_of_error (k : Kind) (o : List String) (d : Diagram) {f : Failure}
    (ho : checkOrder d.vars o = .error f) : (measure k o).run d = (.error f, d) := by
  unfold measure
  rw [StateT.run_bind, StateT.run_get, pure_bind]
  simp only [ho]
  rfl

/-- A measure changes the engine only. -/
theorem measure_state (k : Kind) (o : List String) (d : Diagram) :
    ∃ e, ((measure k o).run d).2 = { d with engine := e } := by
  cases ho : checkOrder d.vars o with
  | error f => exact ⟨d.engine, by rw [measure_run_of_error k o d ho]⟩
  | ok u =>
    obtain ⟨r, a, e, -, -, hst⟩ := measure_run k o d ho
    exact ⟨e, hst⟩

/-! ### What every operation keeps -/

theorem setOrder_coherent {d d' : Diagram} {o : List String} (h : Coherent d)
    (hs : d.setOrder o = .ok d') : Coherent d' := by
  obtain ⟨hc, rfl⟩ := setOrder_ok_iff.1 hs
  split
  · exact h
  · exact ⟨h.sound, h.root, h.names, h.nodup, perm_of_checkOrder hc⟩

/-- An operation on a diagram, with its arguments. -/
inductive Op
  | setOrder (o : List String)
  | build (k : Kind)
  | measure (k : Kind) (o : List String)
  | autoOrder (k : Kind) (strategy : String) (maxPasses : Nat)
  | highlight (k : Kind) (values : Assignment)
  | assignSteps (k : Kind)
  | view (k : Kind)
  | dot (k : Kind)
  | edges (k : Kind)
  | models
  | writeKernel

/-- The diagram an operation leaves; its answer is dropped, and an order that is refused leaves
the diagram as it is. -/
def Op.next : Op → Diagram → Diagram
  | .setOrder o, d => (d.setOrder o).toOption.getD d
  | .build k, d => ((Diagram.build k).run d).2
  | .measure k o, d => ((Diagram.measure k o).run d).2
  | .autoOrder k s mp, d => ((Diagram.autoOrder k s mp).run d).2
  | .highlight k values, d => ((Diagram.highlight k values).run d).2
  | .assignSteps k, d => ((Diagram.assignSteps k).run d).2
  | .view k, d => ((Diagram.view k).run d).2
  | .dot k, d => ((Diagram.dot k).run d).2
  | .edges k, d => ((Diagram.edges k).run d).2
  | .models, d => (Diagram.models.run d).2
  | .writeKernel, d => (Diagram.writeKernel.run d).2

/-- What taking an order, the operations that change the diagram and the two that only run the
engine keep, every operation keeps: a view or a drawing changes the diagram as numbering does,
and the edges change nothing. -/
theorem Op.next_of_preserves {P : Diagram → Prop}
    (ho : ∀ {d d' : Diagram} {o : List String}, P d → d.setOrder o = .ok d' → P d')
    (hb : ∀ k, Preserves P (Diagram.build k)) (hm : ∀ k o, Preserves P (Diagram.measure k o))
    (ha : ∀ k s mp, Preserves P (Diagram.autoOrder k s mp))
    (hh : ∀ k values, Preserves P (Diagram.highlight k values))
    (hs : ∀ k, Preserves P (Diagram.assignSteps k)) (hmod : Preserves P Diagram.models)
    (hw : Preserves P Diagram.writeKernel) (op : Op) {d : Diagram} (h : P d) : P (op.next d) := by
  cases op with
  | setOrder o =>
    show P ((d.setOrder o).toOption.getD d)
    cases hd : d.setOrder o with
    | error f => exact h
    | ok d' => exact ho h hd
  | build k => exact hb k d h
  | measure k o => exact hm k o d h
  | autoOrder k s mp => exact ha k s mp d h
  | highlight k values => exact hh k values d h
  | assignSteps k => exact hs k d h
  | view k =>
    show P ((Diagram.view k).run d).2
    rw [view_state]
    exact hs k d h
  | dot k =>
    show P ((Diagram.dot k).run d).2
    rw [dot_state]
    exact hs k d h
  | edges k =>
    show P ((Diagram.edges k).run d).2
    rw [edges_state]
    exact h
  | models => exact hmod d h
  | writeKernel => exact hw d h

/-- A property of diagrams that every operation keeps: it holds of coherent diagrams only, and it
survives the three things operations do to a diagram. They change what neither its variables,
order, engine nor formula's node depend on; move it to a later sound engine with the same names;
or give it an order the check accepts. -/
structure Stable (P : Diagram → Prop) : Prop where
  coherent : ∀ {d}, P d → Coherent d
  sameCore : ∀ {d d'}, P d → SameCore d d' → P d'
  withEngine : ∀ {d} {e : Engine}, P d → Sound e → Later d.engine e →
    e.names = d.engine.names → P { d with engine := e }
  setOrder : ∀ {d d'} {o : List String}, P d → d.setOrder o = .ok d' → P d'

theorem coherent_stable : Stable Coherent where
  coherent h := h
  sameCore h hc := h.of_sameCore hc
  withEngine h hs hl hn := h.withEngine hs hl hn
  setOrder h ho := setOrder_coherent h ho

namespace Stable

variable {P : Diagram → Prop} (hP : Stable P)
include hP

theorem preserves_build (k : Kind) : Preserves P (build k) := by
  intro d h
  obtain ⟨r, a, e, hrun, -, hcore⟩ := build_run k d
  have hc := hP.coherent h
  have L := hc.runBuild hc.perm k d.next
  rw [hrun] at L
  exact hP.sameCore (hP.withEngine h L.sound L.later L.names) hcore

theorem preserves_measure (k : Kind) (o : List String) : Preserves P (measure k o) := by
  intro d h
  cases ho : checkOrder d.vars o with
  | error f =>
    rw [measure_run_of_error k o d ho]
    exact h
  | ok u =>
    obtain ⟨r, a, e, hrun, -, hst⟩ := measure_run k o d ho
    have L := (hP.coherent h).runBuild (perm_of_checkOrder ho) k 0
    rw [hrun] at L
    rw [hst]
    exact hP.withEngine h L.sound L.later L.names

/-- The search measures orders only, so the sifter keeps the property. -/
theorem preserves_searchOrder (k : Kind) (s : String) (mp : Nat) :
    Preserves P (searchOrder k s mp) :=
  searchOrder_preserves (hP.preserves_measure k) s mp

theorem preserves_autoOrder (k : Kind) (s : String) (mp : Nat) :
    Preserves P (autoOrder k s mp) :=
  autoOrder_preserves (hP.preserves_searchOrder k s mp) hP.setOrder (hP.preserves_build k)

/-- Clearing the marks of an earlier highlight and marking a build change only the builds. -/
theorem preserves_highlight (k : Kind) (values : Assignment) : Preserves P (highlight k values) :=
  highlight_preserves
    (fun _ h _ => hP.sameCore h ⟨by simp [clearHighlight], by simp [clearHighlight],
      by simp [clearHighlight], by simp [clearHighlight]⟩)
    fun _ _ h _ => hP.sameCore h ⟨by simp, by simp, by simp, by simp⟩

theorem preserves_assignSteps (k : Kind) : Preserves P (assignSteps k) := by
  intro d h
  obtain ⟨b, hb⟩ := assignSteps_state k d
  rw [hb]
  exact hP.sameCore h (sameCore_setBuilt d k b)

/-- Every operation keeps the property; counting models and writing the table leave a coherent
diagram as it is. -/
theorem next (op : Op) {d : Diagram} (h : P d) : P (op.next d) := by
  refine Op.next_of_preserves hP.setOrder hP.preserves_build hP.preserves_measure
    hP.preserves_autoOrder hP.preserves_highlight hP.preserves_assignSteps (fun d h => ?_)
    (fun d h => ?_) op h
  · unfold models
    rw [StateT.run_bind, StateT.run_get, pure_bind, onEngine_run,
      count_run_of_lt (hP.coherent h).root]
    exact h
  · unfold writeKernel
    rw [StateT.run_bind, StateT.run_get, pure_bind, onEngine_run,
      dump_run_of_lt (hP.coherent h).sound.faults (hP.coherent h).root]
    exact h

end Stable

/-! ### Making a diagram -/

/-- Reading a formula declares the variables of its text and no other name. -/
theorem names_parseAndSimplify {e : Engine} (hs : Sound e) {text : String} {n : Nat}
    (h : ((parseAndSimplify text).run e).1 = .ok n) {y : String}
    (hy : y ∈ ((parseAndSimplify text).run e).2.names.toList) :
    y ∈ e.names.toList ∨ y ∈ variablesOf text := by
  obtain ⟨f, e₁, r, k, -, hd, -, -, -, he⟩ := parseAndSimplify_ok h
  obtain ⟨hnames, -⟩ := declare_none hs hd
  rw [he] at hy
  change y ∈ e₁.names.toList at hy
  rw [hnames] at hy
  exact ((declaredNames_spec _ hs.nodup).2.2 y).1 hy

theorem nodup_firstOccurrencesFrom {acc : List String} (hacc : acc.Nodup) (xs : List String) :
    (firstOccurrencesFrom acc xs).Nodup := by
  induction xs generalizing acc with
  | nil => exact hacc
  | cons x xs ih =>
    rw [firstOccurrencesFrom, List.foldl_cons]
    apply ih
    split
    · exact hacc
    · rename_i hx
      exact hacc.append (List.nodup_singleton x)
        (List.disjoint_singleton.2 fun hm => hx (by simpa using hm))

theorem nodup_firstOccurrences (xs : List String) : (firstOccurrences xs).Nodup :=
  nodup_firstOccurrencesFrom List.nodup_nil xs

/-- The variables of the linear text of a formula read from a text are variables of the text:
the linear text names the formula's names, which are identifiers of the text. -/
theorem variablesOf_linear {text : String} {f : Formula} (hp : Formula.parse text = .ok f)
    {y : String} (hy : y ∈ variablesOf f.expandArrows.linear) : y ∈ variablesOf text := by
  have hnames := Formula.parse_names hp
  rw [variablesOf, Formula.identifiers_linear _ (Formula.parse_expandArrows_names hp),
    mem_firstOccurrences, Formula.names_expandArrows] at hy
  exact mem_firstOccurrences.2 (hnames y hy).2

/-- The diagram of a text before an order is given is coherent: its engine read the linear text
of the formula, declaring variables of the text only, and rendered the formula's node. -/
theorem fresh_coherent {text : String} {limits : Limits} {f : Formula} {e e₁ e₂ : Engine}
    {root : Nat} {expression : String} (hp : Formula.parse text = .ok f)
    (he : Engine.create limits = .ok e)
    (hr : (parseAndSimplify f.expandArrows.linear).run e = (.ok root, e₁))
    (hx : (render root).run e₁ = (.ok expression, e₂)) :
    Coherent (fresh text e₂ root expression) := by
  have hs := create_sound he
  have hnames := Formula.parse_expandArrows_names hp
  have hok : ((parseAndSimplify f.expandArrows.linear).run e).1 = .ok root := by rw [hr]
  obtain ⟨hs₁, -, hroot, -⟩ := parseAndSimplify_linear hs hnames hok
  rw [hr] at hs₁ hroot
  have R := render_leaves hs₁ hroot
  rw [hx] at R
  refine ⟨R.sound, Nat.lt_of_lt_of_le hroot R.later.evolves.ext.size_le, fun y hy => ?_,
    nodup_firstOccurrences _, List.Perm.refl _⟩
  -- the created engine names nothing
  have hy₁ : y ∈ ((parseAndSimplify f.expandArrows.linear).run e).2.names.toList := by
    rw [hr]
    exact R.names ▸ hy
  rcases names_parseAndSimplify hs hok hy₁ with h₀ | h₁
  · rw [Engine.create_names he] at h₀
    simp at h₀
  · exact variablesOf_linear hp h₁

theorem create_coherent {text : String} {limits : Limits} {order : Option (List String)}
    {d : Diagram} (h : create text limits order = .ok d) : Coherent d := by
  obtain ⟨f, e, e₁, root, e₂, expression, hp, he, hr, hx, hd⟩ := create_eq_ok h
  have hc := fresh_coherent hp he hr hx
  rcases hd with ⟨-, rfl⟩ | ⟨o, -, ho⟩
  · exact hc
  · exact setOrder_coherent hc ho

/-! ### The diagrams a text leads to -/

/-- The diagrams a formula text leads to: the one made from it, with any limits of the engine
and any order given, and then what any operations make of it. -/
inductive Reached : Diagram → Prop
  | create {text : String} {limits : Limits} {order : Option (List String)} {d : Diagram} :
      create text limits order = .ok d → Reached d
  | step {d : Diagram} (op : Op) : Reached d → Reached (op.next d)

/-- Every diagram a text leads to is coherent. -/
theorem Reached.coherent {d : Diagram} (h : Reached d) : Coherent d := by
  induction h with
  | create hc => exact create_coherent hc
  | step op _ ih => exact coherent_stable.next op ih

/-! ### Builds fail only for the node limit -/

theorem Coherent.build_memory {d : Diagram} (h : Coherent d) (k : Kind) {f : Failure}
    (hf : ((build k).run d).1 = .error f) : f.OfMemory := by
  obtain ⟨r, a, e, hrun, hr, -⟩ := build_run k d
  have L := h.runBuild h.perm k d.next
  rw [hrun] at L
  exact L.memory f (hr ▸ hf)

theorem Coherent.measure_memory {d : Diagram} (h : Coherent d) (k : Kind) {o : List String}
    (ho : checkOrder d.vars o = .ok ()) {f : Failure} (hf : ((measure k o).run d).1 = .error f) :
    f.OfMemory := by
  obtain ⟨r, a, e, hrun, hr, -⟩ := measure_run k o d ho
  have L := h.runBuild (perm_of_checkOrder ho) k 0
  rw [hrun] at L
  rw [hr] at hf
  cases r with
  | error g =>
    cases hf
    exact L.memory f rfl
  | ok v => cases hf

/-- The builds of a diagram that a formula text led to fail only for the node limit: a build of
either kind for the diagram's order, and a measure for any order that the check accepts, fail
only with faults of the table that are all for the node limit, never for the contract that a
residual below the last level is constant. This holds for any limits of the engine and any
order given when the diagram was made, and after any operations. -/
theorem builds_fail_only_for_node_limit {d : Diagram} (hd : Reached d) (k : Kind)
    {o : List String} (ho : checkOrder d.vars o = .ok ()) :
    (∀ f, ((build k).run d).1 = .error f → f.OfMemory) ∧
      ∀ f, ((measure k o).run d).1 = .error f → f.OfMemory :=
  ⟨fun _ hf => hd.coherent.build_memory k hf, fun _ hf => hd.coherent.measure_memory k ho hf⟩

set_option maxRecDepth 100000 in
/-- The diagram of `a`, made without limits and with no order given, and its own order. -/
theorem builds_of_a_fail_only_for_node_limit :
    let d := fresh "a" ((render 2).run ((parseAndSimplify "a").run (created {})).2).2 2 "a"
    checkOrder d.vars ["a"] = .ok () ∧
      (∀ f, ((build .robdd).run d).1 = .error f → f.OfMemory) ∧
      ∀ f, ((measure .robdd ["a"]).run d).1 = .error f → f.OfMemory := by
  intro d
  have hd : create "a" {} none = .ok d := by
    simp only [d]
    cbv
  have ho : checkOrder d.vars ["a"] = .ok () := by
    simp only [d]
    cbv
  exact ⟨ho, builds_fail_only_for_node_limit (.create hd) .robdd ho⟩

end Diagram

end DecisionDiagrams
