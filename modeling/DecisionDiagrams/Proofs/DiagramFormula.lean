/-
A diagram keeps the formula it was made from.

Nothing a diagram does after it is made writes its formula: taking an order, building a kind,
measuring and searching for an order, highlighting an assignment and presenting a kind all
change the diagram's other parts only. Each operation is shown to keep the property
`(·.formula = x)` of the diagram in the sense of `Preserves`, from the lemmas of the
operations it calls.

* `Diagram.create_eq_ok` — what a diagram made from a text is: the diagram of the text with the
  engine that read it and, when an order is given, that order taken;
* `Diagram.create_formula` — so its formula is the text;
* `Diagram.searchOrder_preserves`, `Diagram.autoOrder_preserves` — what measures keep the search
  keeps, and what the search, taking an order and a build keep, choosing an order keeps;
* `Diagram.autoOrder_formula`, `Diagram.highlight_formula`, `Diagram.view_formula`, … — the
  operations keep the formula.
-/
import DecisionDiagrams.Diagram.Auto
import DecisionDiagrams.Diagram.Present
import DecisionDiagrams.Proofs.StateEffects

namespace DecisionDiagrams

namespace Diagram

@[simp] theorem formula_setBuilt (d : Diagram) (k : Kind) (b : Option Built) :
    (d.setBuilt k b).formula = d.formula := by
  cases k <;> rfl

@[simp] theorem formula_install (k : Kind) (a : Arena) (root : Nat) (d : Diagram) :
    (install k a root d).formula = d.formula := by
  simp [install]

@[simp] theorem formula_clearHighlight (d : Diagram) : d.clearHighlight.formula = d.formula :=
  rfl

/-- Taking an order succeeds exactly when the check accepts it; the order the diagram has leaves
it as it is, and another one drops both builds and the highlight. -/
theorem setOrder_ok_iff {o : List String} {d d' : Diagram} :
    d.setOrder o = .ok d' ↔ checkOrder d.vars o = .ok () ∧ d' = if o = d.order then d
      else { d with order := o, bdd := none, robdd := none, highlighted := none } := by
  unfold setOrder
  cases hc : checkOrder d.vars o with
  | error f => simp [bind, Except.bind]
  | ok u => split <;> simp [bind, Except.bind, pure, Except.pure, eq_comm]

theorem setOrder_formula {o : List String} {d d' : Diagram} (h : d.setOrder o = .ok d') :
    d'.formula = d.formula := by
  obtain ⟨-, rfl⟩ := setOrder_ok_iff.1 h
  split <;> rfl

/-- The diagram of a text before an order is given: the variables of the text in the order of
their first occurrence, nothing built and nothing highlighted. -/
def fresh (text : String) (e : Engine) (root : Nat) (expression : String) : Diagram :=
  { formula := text, vars := variablesOf text, order := variablesOf text, engine := e,
    root := root, expression := expression, bdd := none, robdd := none, next := 0,
    highlighted := none }

/-- A diagram is made by reading the text, compiling it in a new engine and rendering the
simplified expression; the order given, if any, is then taken as by `setOrder`. -/
theorem create_eq_ok {text : String} {limits : Limits} {order : Option (List String)}
    {d : Diagram} (h : create text limits order = .ok d) :
    ∃ f e e₁ root e₂ expression, Formula.parse text = .ok f ∧ Engine.create limits = .ok e ∧
      (Engine.parseAndSimplify f.expandArrows.linear).run e = (.ok root, e₁) ∧
      (Engine.render root).run e₁ = (.ok expression, e₂) ∧
      (order = none ∧ d = fresh text e₂ root expression ∨
        ∃ o, order = some o ∧ (fresh text e₂ root expression).setOrder o = .ok d) := by
  unfold create at h
  cases hp : Formula.parse text with
  | error err => simp [hp, bind, Except.bind, throw, throwThe, MonadExceptOf.throw] at h
  | ok f =>
    cases he : Engine.create limits with
    | error err => simp [hp, he, bind, Except.bind, pure, Except.pure] at h
    | ok e =>
      rcases hr : (Engine.parseAndSimplify f.expandArrows.linear).run e with ⟨root, e₁⟩
      cases root with
      | error err => simp [hp, he, hr, bind, Except.bind, pure, Except.pure] at h
      | ok root =>
        rcases hx : (Engine.render root).run e₁ with ⟨expression, e₂⟩
        cases expression with
        | error err => simp [hp, he, hr, hx, bind, Except.bind, pure, Except.pure] at h
        | ok expression =>
          refine ⟨f, e, e₁, root, e₂, expression, rfl, rfl, hr, hx, ?_⟩
          simp only [hp, he, hr, hx, bind, Except.bind, pure, Except.pure] at h
          cases order with
          | none => exact .inl ⟨rfl, (Except.ok.inj h).symm⟩
          | some o => exact .inr ⟨o, rfl, h⟩

theorem create_formula {text : String} {limits : Limits} {order : Option (List String)}
    {d : Diagram} (h : create text limits order = .ok d) : d.formula = text := by
  obtain ⟨_, _, _, _, _, _, -, -, -, -, hd⟩ := create_eq_ok h
  rcases hd with ⟨-, rfl⟩ | ⟨o, -, ho⟩
  · rfl
  · exact setOrder_formula ho

/-- The search runs measures only: what every measure keeps, the search keeps. -/
theorem searchOrder_preserves {P : Diagram → Prop} {k : Kind} (hm : ∀ o, Preserves P (measure k o))
    (s : String) (mp : Nat) : Preserves P (searchOrder k s mp) := by
  unfold searchOrder
  refine Preserves.bind Preserves.get fun d => ?_
  split
  · exact Preserves.pure _
  · exact Preserves.pure _
  · refine Preserves.bind (Order.sift_preserves (fun o => ?_) _ _) fun r => ?_
    · exact Preserves.bind (hm o) fun _ => Preserves.pure _
    · split
      · exact Preserves.pure _
      · exact Preserves.pure _

/-- Choosing an order searches, takes the order found and builds the kind for it: what these
keep, it keeps. -/
theorem autoOrder_preserves {P : Diagram → Prop} {k : Kind} {s : String} {mp : Nat}
    (hs : Preserves P (searchOrder k s mp))
    (ho : ∀ {d d' : Diagram} {o : List String}, P d → d.setOrder o = .ok d' → P d')
    (hb : Preserves P (build k)) : Preserves P (autoOrder k s mp) := by
  unfold autoOrder
  refine Preserves.bind hs fun r => ?_
  split
  · exact Preserves.pure _
  · refine Preserves.get_bind fun d₀ h₀ => ?_
    split
    next => exact h₀
    -- the order found is taken, and the kind is built in it
    next d hd =>
      refine (Preserves.bind (P := P) (Preserves.set (ho h₀ hd))
        fun _ => Preserves.bind hb fun b => ?_) d₀ h₀
      split
      · exact Preserves.pure _
      · exact Preserves.bind Preserves.get fun _ => Preserves.pure _

/-- A highlight of a built kind may first clear the marks of an earlier one, and then marks the
kind's build from its root: what both steps keep, it keeps. -/
theorem highlight_preserves {P : Diagram → Prop} {k : Kind} {values : Assignment}
    (hc : ∀ d, P d → d.highlighted.isSome → P (clearHighlight d))
    (hm : ∀ d b, P d → d.built? k = some b →
      P { d.setBuilt k (some { b with
        arena := b.arena.markFrom values (2 * b.arena.nodes.size + 2) #[b.root] 0 {} })
        with highlighted := some values }) :
    Preserves P (highlight k values) := by
  unfold highlight
  refine Preserves.get_bind fun d h => ?_
  split
  next => exact h
  next =>
    have h₁ : P (if d.highlighted.isSome then clearHighlight d else d) := by
      split
      · next hs => exact hc d h hs
      · exact h
    dsimp only
    split
    next => exact h
    next b hb => exact Preserves.set_pure (hm _ b h₁ hb) _ d h

section Operations

variable (x : String)

theorem onEngine_formula {α : Type} (m : EngineM α) : Preserves (·.formula = x) (onEngine m) :=
  fun _ h => h

theorem build_formula (k : Kind) : Preserves (·.formula = x) (build k) := by
  unfold build
  refine Preserves.bind Preserves.get fun d => Preserves.bind (onEngine_formula x _) fun p => ?_
  obtain ⟨r, a⟩ := p
  dsimp only
  split
  · exact Preserves.pure _
  · exact Preserves.bind (Preserves.modify fun _ h => by simpa using h) fun _ => Preserves.pure _

theorem measure_formula (k : Kind) (o : List String) : Preserves (·.formula = x) (measure k o) := by
  unfold measure
  refine Preserves.bind Preserves.get fun d => ?_
  split
  · exact Preserves.pure _
  · exact Preserves.bind (onEngine_formula x _) fun _ => Preserves.pure _

/-- The search measures orders only, and measuring keeps the formula, so the sifter does. -/
theorem searchOrder_formula (k : Kind) (s : String) (mp : Nat) :
    Preserves (·.formula = x) (searchOrder k s mp) :=
  searchOrder_preserves (measure_formula x k) s mp

theorem autoOrder_formula (k : Kind) (s : String) (mp : Nat) :
    Preserves (·.formula = x) (autoOrder k s mp) :=
  autoOrder_preserves (searchOrder_formula x k s mp) (fun h hd => (setOrder_formula hd).trans h)
    (build_formula x k)

theorem highlight_formula (k : Kind) (values : Assignment) :
    Preserves (·.formula = x) (highlight k values) :=
  highlight_preserves (fun _ h _ => h) fun d _ h _ => by simpa using h

theorem assignSteps_formula (k : Kind) : Preserves (·.formula = x) (assignSteps k) := by
  unfold assignSteps
  refine Preserves.get_bind fun d h => ?_
  split
  next => exact h
  next b hb =>
    split
    next => exact h
    next r hr =>
      split
      next => exact h
      next =>
        refine Preserves.set_pure (P := (·.formula = x)) ?_ _ d h
        simpa using h

theorem view_formula (k : Kind) : Preserves (·.formula = x) (view k) := by
  unfold view
  refine Preserves.bind (assignSteps_formula x k) fun r => ?_
  split
  · exact Preserves.pure _
  · exact Preserves.bind Preserves.get fun d => by split <;> exact Preserves.pure _

theorem dot_formula (k : Kind) : Preserves (·.formula = x) (dot k) := by
  unfold dot
  refine Preserves.bind (assignSteps_formula x k) fun r => ?_
  split
  · exact Preserves.pure _
  · exact Preserves.bind Preserves.get fun d => by split <;> exact Preserves.pure _

theorem edges_formula (k : Kind) : Preserves (·.formula = x) (edges k) := by
  unfold edges
  exact Preserves.bind Preserves.get fun d => by split <;> exact Preserves.pure _

end Operations

end Diagram

end DecisionDiagrams
