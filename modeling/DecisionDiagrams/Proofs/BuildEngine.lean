/-
The simplifier during a build.

A build asks the simplifier for the two cofactors of each node's residual and for the texts of
new residuals. On a faithful engine these calls succeed and keep the engine faithful and later
than it was, so residuals keep their truth values, and texts already written stay remembered.
Two expressions remembered with one text are one expression.

* `Residual.holds` — the truth value of a residual.
* `Residual.Free` — a residual reads none of the variables above a level; the cofactors keep
  this one level further (`Residual.Free.cofactor`), and at the last level a residual is a
  constant (`Residual.Free.const_of_length`), so an expression stands above it.
* `Engine.substitute_run` — without a node limit a substitution succeeds and answers the
  cofactor.
* `Diagram.expand_run` — expanding a residual on a variable answers the residuals with the
  variable set true and set false.
* `Faithful.eq_of_rendered` — an engine remembers each text for one expression only.
-/
import DecisionDiagrams.Diagram.Build
import DecisionDiagrams.Proofs.Sessions

namespace DecisionDiagrams

open Engine Kernel

namespace Residual

/-- The truth value of a residual when each name `x` has the value `σ x`. -/
def holds (e : Engine) (σ : String → Bool) : Residual → Bool
  | .const b => b
  | .expr x => e.value x σ

/-- A residual of an engine: a constant, or an expression of the table that is not constant. -/
def Valid (e : Engine) : Residual → Prop
  | .const _ => True
  | .expr x => 2 ≤ x ∧ x < e.kernel.nodes.size

/-- The node of the table a residual stands for. -/
def node : Residual → Nat
  | .const b => if b then 1 else 0
  | .expr x => x

theorem Valid.later {e e' : Engine} (h : Later e e') : ∀ {r : Residual}, r.Valid e → r.Valid e'
  | .const _, _ => trivial
  | .expr _, ⟨h2, hx⟩ => ⟨h2, Nat.lt_of_lt_of_le hx h.evolves.ext.size_le⟩

/-- A residual keeps its truth values as the engine moves on. -/
theorem holds_later {e e' : Engine} (hs : Sound e) (h : Later e e') :
    ∀ {r : Residual}, r.Valid e → ∀ σ, r.holds e' σ = r.holds e σ
  | .const _, _, _ => rfl
  | .expr _, ⟨_, hx⟩, σ => value_evolves hs h.evolves hx σ

theorem node_lt {e : Engine} (hs : Sound e) : ∀ {r : Residual}, r.Valid e →
    r.node < e.kernel.nodes.size
  | .const b, _ => by
    have := hs.ordered.structured.two_le
    cases b <;> simp [node] <;> omega
  | .expr _, ⟨_, hx⟩ => hx

/-- A residual holds where its node is true. -/
theorem holds_eq_value {e : Engine} : ∀ {r : Residual} (σ : String → Bool),
    r.holds e σ = e.value r.node σ
  | .const b, σ => by
    cases b <;> simp [holds, node, value, walk_terminal]
  | .expr _, _ => rfl

/-- A residual reads none of the variables that `order` puts above level `L`. -/
def Free (e : Engine) (order : List String) (L : Nat) (r : Residual) : Prop :=
  ∀ σ, ∀ j < L, ∀ b, r.holds e (Function.update σ (order[j]?.getD "") b) = r.holds e σ

theorem free_const (e : Engine) (order : List String) (L : Nat) (b : Bool) :
    (Residual.const b).Free e order L :=
  fun _ _ _ _ => rfl

theorem Free.mono {e : Engine} {order : List String} {L L' : Nat} {r : Residual}
    (h : r.Free e order L) (hL : L' ≤ L) : r.Free e order L' :=
  fun σ j hj b => h σ j (Nat.lt_of_lt_of_le hj hL) b

theorem Free.later {e e' : Engine} (hs : Sound e) (hl : Later e e') {order : List String}
    {L : Nat} {r : Residual} (hr : r.Valid e) (h : r.Free e order L) : r.Free e' order L := by
  intro σ j hj b
  rw [holds_later hs hl hr, holds_later hs hl hr, h σ j hj b]

/-- The cofactor of a residual on the variable at its level reads no variable above the next
level: the variable itself is set, and the earlier ones are other variables, which the residual
does not read. -/
theorem Free.cofactor {e e' : Engine} {order : List String} (hnodup : order.Nodup) {L : Nat}
    {v : String} (hv : order[L]? = some v) {r c : Residual} (hr : r.Free e order L) {b : Bool}
    (hc : ∀ σ, c.holds e' σ = r.holds e (Function.update σ v b)) : c.Free e' order (L + 1) := by
  intro σ j hj b'
  obtain ⟨hL, rfl⟩ := List.getElem?_eq_some_iff.1 hv
  rw [hc, hc]
  rcases Nat.lt_succ_iff_lt_or_eq.1 hj with hjL | rfl
  · have hne : order[j]?.getD "" ≠ order[L] := by
      rw [List.getElem?_eq_getElem (by omega), Option.getD_some]
      exact fun h => absurd ((List.Nodup.getElem_inj_iff hnodup).1 h) (by omega)
    rw [Function.update_comm hne, hr _ j hjL]
  · rw [List.getElem?_eq_getElem hL, Option.getD_some, Function.update_idem]

end Residual

/-- A function of assignments that no change of one of the names `vs` alters reads only the
other names. -/
theorem eq_of_forall_update {vs : List String} {f : (String → Bool) → Bool}
    (h : ∀ w ∈ vs, ∀ σ b, f (Function.update σ w b) = f σ) :
    ∀ σ σ', (∀ y, y ∉ vs → σ y = σ' y) → f σ = f σ' := by
  induction vs with
  | nil =>
    intro σ σ' hσ
    rw [funext fun y => hσ y List.not_mem_nil]
  | cons w vs ih =>
    intro σ σ' hσ
    rw [← h w List.mem_cons_self σ (σ' w)]
    refine ih (fun w' hw' => h w' (List.mem_cons_of_mem w hw')) _ σ' fun y hy => ?_
    by_cases hyw : y = w
    · rw [hyw, Function.update_self]
    · rw [Function.update_of_ne hyw]
      exact hσ y fun hmem => (List.mem_cons.1 hmem).elim hyw hy

namespace Engine

/-- An expression reads only the declared names. -/
theorem value_congr {e : Engine} (hs : Sound e) {x : Nat} (hx : x < e.kernel.nodes.size)
    {σ σ' : String → Bool} (h : ∀ y ∈ e.names.toList, σ y = σ' y) : e.value x σ = e.value x σ' := by
  unfold value
  rw [Kernel.walk_congr_of_ordered hs.ordered (τ := e.levels σ') (fun l hl => ?_) x hx]
  have hl' : l < e.names.size := hs.size ▸ hl
  rw [levels, levels, Array.getElem?_eq_getElem hl', Option.getD_some]
  exact h _ (Array.getElem_mem_toList hl')

end Engine

/-- At the last level a residual is a constant: where every declared name is a variable of the
order and the residual reads none of them, its expression has one value everywhere, and a
sound engine has only the two terminals for that. -/
theorem Residual.Free.const_of_length {e : Engine} (hs : Engine.Sound e) {order : List String}
    (hnames : ∀ y ∈ e.names.toList, y ∈ order) {r : Residual} (hr : r.Valid e)
    (h : r.Free e order order.length) : ∃ b, r = .const b := by
  cases r with
  | const b => exact ⟨b, rfl⟩
  | expr x =>
  exfalso
  obtain ⟨h2, hx⟩ := hr
  -- no variable of the order changes the value
  have hupd : ∀ w ∈ order, ∀ σ b, e.value x (Function.update σ w b) = e.value x σ := by
    intro w hw σ b
    obtain ⟨j, hj, rfl⟩ := List.getElem_of_mem hw
    have := h σ j hj b
    rwa [List.getElem?_eq_getElem hj, Option.getD_some] at this
  -- so the value is the one where every name is false
  have hconst : ∀ σ, e.value x σ = e.value x fun _ => false := by
    intro σ
    rw [eq_of_forall_update hupd σ (fun y => if y ∈ order then false else σ y) fun y hy => by
      rw [if_neg hy]]
    exact Engine.value_congr hs hx fun y hy => by rw [if_pos (hnames y hy)]
  cases hb : e.value x fun _ => false
  · have := hs.eq_zero_of_value hx fun σ => (hconst σ).trans hb
    omega
  · have := hs.eq_one_of_value hx fun σ => (hconst σ).trans hb
    omega

/-- So an expression, which reads a variable, stands above the last level. -/
theorem Residual.Free.lt_length {e : Engine} (hs : Engine.Sound e) {order : List String}
    (hnames : ∀ y ∈ e.names.toList, y ∈ order) {x L : Nat} (hr : (Residual.expr x).Valid e)
    (h : (Residual.expr x).Free e order L) : L < order.length := by
  by_contra hge
  obtain ⟨b, hb⟩ := (h.mono (by omega)).const_of_length hs hnames hr
  cases hb

theorem Diagram.holds_residualOf {e : Engine} (x : Nat) (σ : String → Bool) :
    (Diagram.residualOf x).holds e σ = e.value x σ := by
  unfold Diagram.residualOf isConstant
  split_ifs with h1 h0
  · subst h1
    simp [Residual.holds, value, walk_terminal]
  · subst h0
    simp [Residual.holds, value, walk_terminal]
  · rfl

theorem Diagram.valid_residualOf {e : Engine} {x : Nat} (hx : x < e.kernel.nodes.size) :
    (Diagram.residualOf x).Valid e := by
  unfold Diagram.residualOf isConstant
  split_ifs with h1 h0
  · trivial
  · trivial
  · exact ⟨by omega, hx⟩

namespace Engine

/-- Without a node limit a substitution in an expression of a faithful engine succeeds, keeps
the engine faithful and later, and answers the cofactor. -/
theorem substitute_run {e : Engine} (hf : Faithful e) {x : Nat} (hx : x < e.kernel.nodes.size)
    (name : String) (val : Bool) :
    ∃ y e', (substitute x name val).run e = (.ok y, e') ∧ Faithful e' ∧ Later e e' ∧
      e'.names = e.names ∧ y < e'.kernel.nodes.size ∧
      ∀ σ, e'.value y σ = e.value x (Function.update σ name val) := by
  have hok : ∃ y, ((substitute x name val).run e).1 = .ok y := by
    rcases hl : e.level? name with _ | lvl
    · rw [substitute_run_none hl]
      exact ⟨x, rfl⟩
    · have hk := Kernel.restrict_unlimited hf.sound.ordered.structured hf.sound.cache
        hf.sound.faults hf.unlimited hx (hf.sound.level_lt hl) hf.sound.bounded val
      rw [substitute_run_some hl]
      dsimp only
      rw [takeFaults_of_nil hk]
      exact ⟨_, rfl⟩
  obtain ⟨y, hy⟩ := hok
  obtain ⟨hs', hev, hnames⟩ := substitute_sound hf.sound x name val
  obtain ⟨hr, hl⟩ := substitute_keeps hf.sound x name val
  obtain ⟨hylt, hval⟩ := substitute_value hf.sound hx hy
  exact ⟨y, _, by rw [← hy]; rfl, hf.evolves hs' hev hr hl,
    ⟨hev, fun z t hz => by rw [hr]; exact hz⟩, hnames, hylt, hval⟩

/-- A faithful engine remembers each text for one expression: both read back as the formula of
the text, and canonicity makes them one node. -/
theorem Faithful.eq_of_rendered {e : Engine} (hf : Faithful e) {x y : Nat} {s : String}
    (hx : e.rendered[x]? = some s) (hy : e.rendered[y]? = some s) : x = y := by
  obtain ⟨hxlt, g, hg, hgx⟩ := hf.sound.rendered x s hx
  obtain ⟨hylt, g', hg', hgy⟩ := hf.sound.rendered y s hy
  rw [hg, Except.ok.injEq] at hg'
  subst hg'
  exact hf.sound.eq_of_value_eq hxlt hylt fun σ => (hgx σ).symm.trans (hgy σ)

/-- Rendering a residual expression of a faithful engine succeeds, and the engine remembers its
text. -/
theorem render_residual {e : Engine} (hf : Faithful e) {x : Nat} (hx : (Residual.expr x).Valid e) :
    ∃ s e', (render x).run e = (.ok s, e') ∧ Faithful e' ∧ Later e e' ∧ e'.names = e.names ∧
      e'.rendered[x]? = some s := by
  obtain ⟨s, e', hrun, hf', hlater, hnames, -, -, hrend⟩ := render_run hf hx.2
  exact ⟨s, e', hrun, hf', hlater, hnames, (hrend hx.1).2.2⟩

end Engine

/-- Expanding substitutes each value for the variable in the residual's node. -/
theorem Diagram.expand_eq (r : Residual) (v : String) : Diagram.expand r v = (do
    match ← substitute r.node v true with
    | .error f => return .error f
    | .ok hi =>
      match ← substitute r.node v false with
      | .error f => return .error f
      | .ok lo => return .ok (Diagram.residualOf hi, Diagram.residualOf lo)) := by
  cases r <;> rfl

/-- Expanding a residual of a faithful engine on a variable succeeds, keeps the engine faithful
and later, and answers the residuals with the variable set true (high) and false (low). -/
theorem Diagram.expand_run {e : Engine} (hf : Faithful e) {r : Residual} (hr : r.Valid e)
    (v : String) :
    ∃ hi lo e', (Diagram.expand r v).run e = (.ok (hi, lo), e') ∧ Faithful e' ∧ Later e e' ∧
      e'.names = e.names ∧ hi.Valid e' ∧ lo.Valid e' ∧
      ∀ σ, hi.holds e' σ = r.holds e (Function.update σ v true) ∧
        lo.holds e' σ = r.holds e (Function.update σ v false) := by
  have hx := Residual.node_lt hf.sound hr
  obtain ⟨hi, e₁, h₁, hf₁, hl₁, hn₁, hilt, hival⟩ := substitute_run hf hx v true
  obtain ⟨lo, e₂, h₂, hf₂, hl₂, hn₂, lolt, loval⟩ :=
    substitute_run hf₁ (Nat.lt_of_lt_of_le hx hl₁.evolves.ext.size_le) v false
  refine ⟨_, _, e₂, by rw [Diagram.expand_eq, run_bind, h₁, run_bind, h₂]; rfl, hf₂,
    hl₁.trans hl₂, hn₂.trans hn₁,
    Diagram.valid_residualOf (Nat.lt_of_lt_of_le hilt hl₂.evolves.ext.size_le),
    Diagram.valid_residualOf lolt, fun σ => ⟨?_, ?_⟩⟩
  · rw [Diagram.holds_residualOf, value_evolves hf₁.sound hl₂.evolves hilt, hival,
      Residual.holds_eq_value]
  · rw [Diagram.holds_residualOf, loval, value_evolves hf.sound hl₁.evolves hx,
      Residual.holds_eq_value]

end DecisionDiagrams
