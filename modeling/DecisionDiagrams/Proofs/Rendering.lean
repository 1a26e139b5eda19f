/-
Rendering an expression, and reading its text back.

A sound engine is canonical: two expressions with the same truth values are one node. Without a
node limit every operation on nodes of the table succeeds, so reading a formula whose names can
be declared answers an expression with its truth values, and rendering an expression that is
not constant writes the shorter of its two normal forms, both exact over its support. Reading
the text back therefore answers the expression itself.

* `Engine.Sound.eq_of_value_eq` — canonicity: expressions with the same truth values are equal.
* `Engine.parseAndSimplify_run` — without a node limit a formula whose names can be declared is
  answered with an expression that has its truth values.
* `Engine.render_fresh` — the text of an expression not rendered before reads back as a formula
  with its truth values and names only its support.
-/
import DecisionDiagrams.Proofs.Covers
import DecisionDiagrams.Proofs.Unlimited

namespace DecisionDiagrams

namespace Engine

open Kernel

section Canonical

variable {e : Engine} (hs : Sound e)
include hs

/-- Canonicity for expressions: two expressions of a sound engine that have the same truth
values under every assignment of the names are the same node. -/
theorem Sound.eq_of_value_eq {a b : Nat} (ha : a < e.kernel.nodes.size)
    (hb : b < e.kernel.nodes.size) (h : ∀ σ, e.value a σ = e.value b σ) : a = b := by
  refine eq_of_walk_eq hs.ordered.structured hs.ordered.levels ha hb fun τ => ?_
  -- the names' assignment that gives each declared level its value under `τ`
  have hlev : ∀ l, l < e.kernel.varnum → e.levels (fun y => τ (e.levelOf y)) l = τ l := by
    intro l hl
    have hl' : l < e.names.size := hs.size ▸ hl
    have hget : e.names[l]? = some e.names[l] := Array.getElem?_eq_getElem hl'
    rw [levels, hget, Option.getD_some, levelOf_eq_of_getElem? hs hget]
  have hv := h fun y => τ (e.levelOf y)
  rw [value, value, walk_congr_of_ordered hs.ordered hlev a ha,
    walk_congr_of_ordered hs.ordered hlev b hb] at hv
  have hwa : e.kernel.walk τ a < 2 := walk_lt_two _ _ a
  have hwb : e.kernel.walk τ b < 2 := walk_lt_two _ _ b
  rcases (by omega : e.kernel.walk τ a = 0 ∨ e.kernel.walk τ a = 1) with h0 | h1 <;>
    rcases (by omega : e.kernel.walk τ b = 0 ∨ e.kernel.walk τ b = 1) with h0' | h1' <;>
    simp_all

theorem Sound.eq_zero_of_value {n : Nat} (hn : n < e.kernel.nodes.size)
    (h : ∀ σ, e.value n σ = false) : n = 0 :=
  hs.eq_of_value_eq hn (Nat.lt_of_lt_of_le (by decide) hs.ordered.structured.two_le) fun σ => by
    rw [h σ, value, walk_terminal _ _ (by decide)]
    rfl

theorem Sound.eq_one_of_value {n : Nat} (hn : n < e.kernel.nodes.size)
    (h : ∀ σ, e.value n σ = true) : n = 1 :=
  hs.eq_of_value_eq hn (Nat.lt_of_lt_of_le (by decide) hs.ordered.structured.two_le) fun σ => by
    rw [h σ, value, walk_terminal _ _ (by decide)]
    rfl

end Canonical

/-! ### Reading a formula without a node limit -/

theorem isIdentifier_of_mem_identifierBytes (bs : List UInt8) :
    ∀ w ∈ identifierBytes bs, Token.isIdentifier w := by
  fun_induction identifierBytes bs with
  | case1 => simp
  | case2 b rest hb ih =>
    intro w hw
    rcases List.mem_cons.1 hw with rfl | hw
    · simp only [Token.isIdentifier, hb, Bool.true_and, List.all_eq_true]
      exact fun c hc => List.mem_takeWhile_imp hc
    · exact ih w hw
  | case3 b rest hb ih => exact ih

/-- Every identifier of a text is a name. -/
theorem isName_of_mem_identifiers {text y : String} (h : y ∈ identifiers text) :
    Token.isName y := by
  obtain ⟨w, hw, rfl⟩ := List.mem_map.1 h
  exact Token.isName_asciiText (isIdentifier_of_mem_identifierBytes _ w hw)

/-- Declaring names already declared leaves the names as they are. -/
theorem declaredNames_of_mem {ns : Array String} :
    ∀ {xs : List String}, (∀ x ∈ xs, x ∈ ns.toList) → declaredNames ns xs = ns
  | [], _ => rfl
  | x :: xs, h => by
    have hx : ns.contains x = true := by simpa using h x List.mem_cons_self
    rw [declaredNames, List.foldl_cons, if_pos hx, ← declaredNames]
    exact declaredNames_of_mem fun y hy => h y (List.mem_cons_of_mem x hy)

/-- A formula that reads whole, with its names declared without fault and compiled without
fault, is answered with the node compiled. -/
theorem parseAndSimplify_run_of {e e₁ : Engine} {text : String} {g : Formula}
    (hp : Formula.parse text = .ok g) (hd : (declare (variablesOf text)).run e = (none, e₁))
    (hk : ((compile e₁.levelOf g).run e₁.kernel).2.faults = []) :
    (parseAndSimplify text).run e =
      (.ok ((compile e₁.levelOf g).run e₁.kernel).1.toNat,
        { e₁ with kernel := ((compile e₁.levelOf g).run e₁.kernel).2 }) := by
  unfold parseAndSimplify
  rw [hp]
  dsimp only
  rw [run_bind, hd]
  dsimp only
  rw [run_bind, run_get, run_bind, onKernel_run, run_bind, takeFaults_of_nil hk]
  rfl

section Declare

variable {e : Engine} (hs : Sound e) (hlim : e.kernel.limits.maxNodes = 0)
include hs hlim

/-- Without a node limit, declaring names up to the largest number of variables succeeds and
records no fault. -/
theorem declare_unlimited {xs : List String}
    (hbound : (declaredNames e.names xs).size ≤ maxVariables) :
    ∃ e₁, (declare xs).run e = (none, e₁) ∧ e₁.kernel.faults = [] ∧
      e₁.kernel.limits = e.kernel.limits := by
  rw [declare_run]
  split
  · exact ⟨_, rfl, hs.faults, rfl⟩
  · -- the new number is at least the old one, and fits
    have hle : e.names.size ≤ (declaredNames e.names xs).size := by
      simpa using (declaredNames_spec xs hs.nodup).2.1.length_le
    have hwrap : wrap32 ((declaredNames e.names xs).size : Int) =
        (declaredNames e.names xs).size :=
      wrap32_of_lt (Int.natCast_nonneg _) (by unfold maxVariables at hbound; omega)
    obtain ⟨hnone, hfaults, hlimits⟩ := @setVarnum_unlimited e.kernel hlim
      ((declaredNames e.names xs).size : Int) (by rw [hwrap, ← hs.size]; omega)
      (by rw [hwrap]; exact_mod_cast hbound)
    -- name the table after the declaration before taking it apart
    generalize hp : (setVarnum ((declaredNames e.names xs).size : Int)).run e.kernel = p
      at hnone hfaults hlimits ⊢
    obtain ⟨r, k₁⟩ := p
    dsimp only at hnone hfaults hlimits ⊢
    subst hnone
    exact ⟨_, rfl, hfaults.trans hs.faults, hlimits⟩

/-- Without a node limit, a formula whose names can all be declared is answered with an
expression that has the formula's truth values; the engine stays sound and keeps its texts. -/
theorem parseAndSimplify_run {text : String} {g : Formula} (hp : Formula.parse text = .ok g)
    (hbound : (declaredNames e.names (variablesOf text)).size ≤ maxVariables) :
    ∃ v e', (parseAndSimplify text).run e = (.ok v, e') ∧ Sound e' ∧ Evolves e e' ∧
      e'.names = declaredNames e.names (variablesOf text) ∧ e'.rendered = e.rendered ∧
      e'.kernel.limits = e.kernel.limits ∧ v < e'.kernel.nodes.size ∧
      ∀ σ, e'.value v σ = g.eval σ := by
  obtain ⟨e₁, hd, hf₁, hlim₁⟩ := declare_unlimited hs hlim hbound
  obtain ⟨hnames, hrend, hc₁, ho₁, hext, hvar₁, hsize⟩ := declare_none hs hd
  have hsize₁ : e₁.kernel.varnum = e₁.names.size :=
    hsize.resolve_right (by rw [hnames]; unfold maxVariables at hbound; omega)
  obtain ⟨hnodup, hpre, hmem⟩ := declaredNames_spec (variablesOf text) hs.nodup
  rw [← hnames] at hnodup hpre hmem
  -- every name of the formula is an identifier of the text, hence declared
  have hin : ∀ x ∈ g.names, x ∈ e₁.names.toList :=
    fun x hx => (hmem x).2 (.inr (mem_firstOccurrences.2 (Formula.parse_names hp x hx).2))
  have hlev : ∀ x ∈ g.names, e₁.levelOf x < e₁.kernel.varnum :=
    fun x hx => hsize₁ ▸ (levelOf_of_mem hnodup (hin x hx)).1
  have hk := compile_unlimited e₁.levelOf g hc₁ ho₁ hf₁ (by rw [hlim₁]; exact hlim) hvar₁ hlev
  have hb := compile_builds e₁.levelOf g hc₁ ho₁ hvar₁ hlev
  obtain ⟨v, hv, hvlt, hw⟩ := hb.answers hk
  -- the engine after the declaration is sound
  have hev : Evolves e e₁ := ⟨hext, hpre⟩
  have hs₁ : Sound e₁ := by
    refine ⟨hc₁, ho₁, hf₁, hnodup, hsize₁.symm, hvar₁, fun x hx => ?_, fun x s hx => ?_⟩
    · rcases (hmem x).1 hx with h | h
      · exact hs.named x h
      · exact isName_of_mem_identifiers (mem_firstOccurrences.1 h)
    · rw [hrend] at hx
      obtain ⟨hlt, hr⟩ := hs.rendered x s hx
      exact ⟨Nat.lt_of_lt_of_le hlt hext.size_le, hr.evolves hs hev hlt⟩
  obtain ⟨hs', hev'⟩ := hs₁.withKernel hb.sound hb.ordered hk hb.grows
  refine ⟨v, _, by rw [parseAndSimplify_run_of hp hd hk, hv, Int.toNat_natCast], hs',
    hev.trans hev', hnames, hrend, hb.grows.limits.trans hlim₁, hvlt, fun σ => ?_⟩
  -- each name's level reads the name's value
  have heval : (g.eval fun x => e₁.levels σ (e₁.levelOf x)) = g.eval σ :=
    Formula.eval_congr fun x hx => levels_levelOf hnodup (hin x hx) σ
  rw [value, show levels { e₁ with kernel := ((compile e₁.levelOf g).run e₁.kernel).2 } σ =
    e₁.levels σ from rfl, hw]
  dsimp only
  rw [heval, terminalOf_beq_one]

end Declare

/-! ### The text of an expression -/

section Forms

variable {e : Engine} (hs : Sound e)
include hs

/-- The disjunctive form of an exact cover over the support of an expression that is not
constant reads back as a formula with the expression's truth values: the cover has a term since
the expression is not false, and no empty term since it is not true. -/
theorem renders_disjunctive {x : Nat} (hx : x < e.kernel.nodes.size) (h2 : 2 ≤ x)
    {dnf : List (List Literal)}
    (hsem : ∀ σ, (∃ t ∈ dnf, ∀ l ∈ t, l.holds σ = true) ↔ e.value x σ = true)
    (hsupp : ∀ t ∈ dnf, ∀ l ∈ t, e.InSupport x l.name) :
    Renders e x (joinTerms dnf " & " " | ") ∧
      ∀ y ∈ identifiers (joinTerms dnf " & " " | "), e.InSupport x y := by
  have hne : dnf ≠ [] := by
    rintro rfl
    have h0 := hs.eq_zero_of_value hx fun σ => by simpa using (hsem σ).symm
    omega
  have hterm : ∀ t ∈ dnf, t ≠ [] := by
    rintro t ht rfl
    have h1 := hs.eq_one_of_value hx fun σ => (hsem σ).1 ⟨[], ht, by simp⟩
    omega
  obtain ⟨g, hp, heval, hid⟩ := Formula.parse_disjunctive dnf hne hterm
    fun t ht l hl => hs.named _ (hsupp t ht l hl).mem_names
  refine ⟨⟨g, hp, fun σ => ?_⟩, fun y hy => ?_⟩
  · rw [heval]
    apply Bool.eq_iff_iff.2
    rw [← hsem σ]
    simp only [List.any_eq_true, List.all_eq_true]
  · obtain ⟨t, ht, l, hl, rfl⟩ := hid y hy
    exact hsupp t ht l hl

/-- The conjunctive form of an exact cover of the negation over the support, with its literals
negated, reads back as a formula with the expression's truth values. -/
theorem renders_conjunctive {x : Nat} (hx : x < e.kernel.nodes.size) (h2 : 2 ≤ x)
    {cnf : List (List Literal)}
    (hsem : ∀ σ, (∃ t ∈ cnf, ∀ l ∈ t, l.holds σ = false) ↔ e.value x σ = false)
    (hsupp : ∀ t ∈ cnf, ∀ l ∈ t, e.InSupport x l.name) :
    Renders e x (joinTerms cnf " | " " & ") ∧
      ∀ y ∈ identifiers (joinTerms cnf " | " " & "), e.InSupport x y := by
  have hne : cnf ≠ [] := by
    rintro rfl
    have h1 := hs.eq_one_of_value hx fun σ => by simpa using (hsem σ).symm
    omega
  have hterm : ∀ t ∈ cnf, t ≠ [] := by
    rintro t ht rfl
    have h0 := hs.eq_zero_of_value hx fun σ => (hsem σ).1 ⟨[], ht, by simp⟩
    omega
  obtain ⟨g, hp, heval, hid⟩ := Formula.parse_conjunctive cnf hne hterm
    fun t ht l hl => hs.named _ (hsupp t ht l hl).mem_names
  refine ⟨⟨g, hp, fun σ => ?_⟩, fun y hy => ?_⟩
  · rw [heval]
    -- every term has a literal that holds exactly when no term has all its literals false
    cases hv : e.value x σ with
    | false =>
      obtain ⟨t, ht, hf⟩ := (hsem σ).2 hv
      refine List.all_eq_false.2 ⟨t, ht, ?_⟩
      simpa [List.any_eq_false] using hf
    | true =>
      refine List.all_eq_true.2 fun t ht => Classical.byContradiction fun hnot => ?_
      have hf : ∀ l ∈ t, l.holds σ = false := by simpa [List.any_eq_true] using hnot
      rw [(hsem σ).1 ⟨t, ht, hf⟩] at hv
      cases hv
  · obtain ⟨t, ht, l, hl, rfl⟩ := hid y hy
    exact hsupp t ht l hl

end Forms

/-- An expression whose walks are one minus another's has the negated truth values. -/
theorem value_of_negation {e : Engine} {k : Kernel} {x v : Nat}
    (hw : ∀ τ, k.walk τ v = 1 - e.kernel.walk τ x) (σ : String → Bool) :
    ({ e with kernel := k } : Engine).value v σ = !e.value x σ := by
  show (k.walk (e.levels σ) v == 1) = !(e.kernel.walk (e.levels σ) x == 1)
  have h := walk_lt_two e.kernel (e.levels σ) x
  rw [hw]
  generalize e.kernel.walk (e.levels σ) x = w at h ⊢
  interval_cases w <;> rfl

/-- An expression and its negation have the same support: a level changes one exactly when it
changes the other. -/
theorem InSupport.of_negation {e : Engine} (hs : Sound e) {x v : Nat}
    (hx : x < e.kernel.nodes.size) (hv : v < e.kernel.nodes.size)
    (hw : ∀ τ, e.kernel.walk τ v = 1 - e.kernel.walk τ x) {y : String} (h : e.InSupport v y) :
    e.InSupport x y := by
  obtain ⟨i, hi, h2, hy⟩ := h
  obtain ⟨σ, hσ⟩ := (reaches_level_iff hs.ordered.structured hs.ordered.levels hv _).1
    ⟨i, hi, h2, rfl⟩
  have hdep : e.kernel.DependsOn x (e.kernel.level i) := by
    refine ⟨σ, fun heq => hσ ?_⟩
    rw [hw, hw, heq]
  obtain ⟨i', hi', h2', hlev⟩ :=
    (reaches_level_iff hs.ordered.structured hs.ordered.levels hx _).2 hdep
  exact ⟨i', hi', h2', hlev ▸ hy⟩

/-- The support of an expression in a later table of the same engine is its support before. -/
theorem InSupport.of_extends {e : Engine} {k : Kernel} (hext : Extends e.kernel k) {x : Nat}
    (hx : x < e.kernel.nodes.size) {y : String} (h : InSupport { e with kernel := k } x y) :
    e.InSupport x y := by
  obtain ⟨i, hi, h2, hy⟩ := h
  have hi' := (Reaches.extends_iff hext hx).1 hi
  refine ⟨i, hi', h2, ?_⟩
  rw [← hext.level h2 (Nat.lt_of_le_of_lt hi'.le hx)]
  exact hy

/-- A text the engine remembers for an expression that is not constant is answered as it is, and
nothing changes. -/
theorem render_run_of_rendered {e : Engine} {x : Nat} {s : String} (h1 : x ≠ 1) (h0 : x ≠ 0)
    (hm : e.rendered[x]? = some s) : (render x).run e = (.ok s, e) := by
  unfold render
  rw [if_neg h1, if_neg h0]
  simp only [run_bind, run_get, hm]
  rfl

/-- Rendering an expression that is not constant and was not rendered before, when negating it
records no fault: the engine computes a cover of the expression and, after negating it, a cover
of the negation, and remembers the shorter form. The text reads back as a formula with the
expression's truth values and names only its support. -/
theorem render_fresh {e : Engine} (hs : Sound e) {x : Nat} (hx : x < e.kernel.nodes.size)
    (h2 : 2 ≤ x) (hmemo : e.rendered[x]? = none) (hk₁ : ((negate x).run e.kernel).2.faults = []) :
    ∃ s k₁, (render x).run e = (.ok s, { e with kernel := k₁, rendered := e.rendered.insert x s }) ∧
      Grows e.kernel k₁ ∧ CacheSound k₁ ∧ Ordered k₁ ∧ k₁.faults = [] ∧
      Renders e x s ∧ ∀ y ∈ identifiers s, e.InSupport x y := by
  obtain ⟨dnf, hdnf, hdsem, hdsupp⟩ := cover_run hs hx false
  have hb := negate_builds hs.cache hs.ordered x
  obtain ⟨v, hv, hvlt, hw⟩ := hb.answers hk₁
  obtain ⟨hs₁, -⟩ := hs.withKernel hb.sound hb.ordered hk₁ hb.grows
  obtain ⟨cnf, hcnf, hcsem, hcsupp⟩ := cover_run hs₁ hvlt true
  have hxk : x < ((negate x).run e.kernel).2.nodes.size :=
    Nat.lt_of_lt_of_le hx hb.grows.ext.size_le
  have hneg₀ : ∀ τ, ((negate x).run e.kernel).2.walk τ v = 1 - e.kernel.walk τ x := fun τ => by
    rw [hw τ, Int.toNat_natCast]
  -- the negation's walks against the expression's, both in the table after negating
  have hneg : ∀ τ, ((negate x).run e.kernel).2.walk τ v =
      1 - ((negate x).run e.kernel).2.walk τ x := fun τ => by
    rw [hneg₀ τ, walk_extends hb.grows.ext τ x hx]
  refine ⟨if literalCount cnf < literalCount dnf then joinTerms cnf " | " " & "
    else joinTerms dnf " & " " | ", _, ?_, hb.grows, hb.sound, hb.ordered, hk₁, ?_⟩
  · unfold render
    rw [if_neg (by omega), if_neg (by omega)]
    simp only [run_bind, run_get, hmemo, hdnf, onKernel_run, hv,
      @takeFaults_of_nil { e with kernel := ((negate x).run e.kernel).2 } hk₁, Int.toNat_natCast,
      hcnf, run_modify, run_pure]
  · -- the disjunctive form, or the conjunctive one from the negation's cover
    have hd := renders_disjunctive hs hx h2 (fun σ => by simpa using hdsem σ) hdsupp
    have hcsem' : ∀ σ, (∃ t ∈ cnf, ∀ l ∈ t, l.holds σ = false) ↔ e.value x σ = false :=
      fun σ => by simpa [value_of_negation hneg₀] using hcsem σ
    have hc := renders_conjunctive hs hx h2 hcsem' fun t ht l hl =>
      (hcsupp t ht l hl).of_negation hs₁ hxk hvlt hneg |>.of_extends hb.grows.ext hx
    split
    · exact hc
    · exact hd

/-! ### Rendering between calls -/

/-- Remembering a text that reads back as a node of the table keeps the invariant. -/
theorem Sound.remember {e : Engine} (hs : Sound e) {x : Nat} {s : String}
    (hx : x < e.kernel.nodes.size) (hr : Renders e x s) :
    Sound { e with rendered := e.rendered.insert x s } := by
  refine ⟨hs.cache, hs.ordered, hs.faults, hs.nodup, hs.size, hs.bounded, hs.named, ?_⟩
  intro x' s' h
  rw [Std.HashMap.getElem?_insert] at h
  split at h
  · rename_i hxx
    cases beq_iff_eq.1 hxx
    cases h
    exact ⟨hx, hr⟩
  · exact hs.rendered x' s' h

/-- What rendering keeps between calls: a sound engine without a node limit, whose remembered
texts name only the support of their expressions. -/
structure Faithful (e : Engine) : Prop where
  sound : Sound e
  unlimited : e.kernel.limits.maxNodes = 0
  mentions : ∀ x s, e.rendered[x]? = some s → ∀ y ∈ identifiers s, e.InSupport x y

/-- A call that keeps the invariant and the remembered texts, and the limits of the table,
keeps the engine faithful. -/
theorem Faithful.evolves {e e' : Engine} (hf : Faithful e) (hs : Sound e') (hev : Evolves e e')
    (hr : e'.rendered = e.rendered) (hl : e'.kernel.limits = e.kernel.limits) : Faithful e' := by
  refine ⟨hs, by rw [hl]; exact hf.unlimited, fun x s h y hy => ?_⟩
  rw [hr] at h
  exact (hf.mentions x s h y hy).evolves hf.sound hev (hf.sound.rendered x s h).1

/-- An engine that a later call leaves: it evolves from the earlier one and still remembers every
text the earlier one remembers. -/
structure Later (e e' : Engine) : Prop where
  evolves : Evolves e e'
  remembers : ∀ (x : Nat) (s : String), e.rendered[x]? = some s → e'.rendered[x]? = some s

theorem Later.refl (e : Engine) : Later e e :=
  ⟨.refl e, fun _ _ h => h⟩

theorem Later.trans {e e' e'' : Engine} (h : Later e e') (h' : Later e' e'') : Later e e'' :=
  ⟨h.evolves.trans h'.evolves, fun x s hx => h'.remembers x s (h.remembers x s hx)⟩

/-- Rendering a node of a faithful engine succeeds and keeps the engine faithful. The constants
are written "True" and "False"; any other expression is written as a text that reads back as a
formula with its truth values and names only its support, and that the engine remembers. -/
theorem render_run {e : Engine} (hf : Faithful e) {x : Nat} (hx : x < e.kernel.nodes.size) :
    ∃ s e', (render x).run e = (.ok s, e') ∧ Faithful e' ∧ Later e e' ∧ e'.names = e.names ∧
      (x = 1 → s = "True") ∧ (x = 0 → s = "False") ∧
      (2 ≤ x → Renders e x s ∧ (∀ y ∈ identifiers s, e.InSupport x y) ∧
        e'.rendered[x]? = some s) := by
  by_cases h1 : x = 1
  · subst h1
    exact ⟨"True", e, rfl, hf, .refl e, rfl, fun _ => rfl, fun h => absurd h (by decide),
      fun h => absurd h (by decide)⟩
  by_cases h0 : x = 0
  · subst h0
    exact ⟨"False", e, rfl, hf, .refl e, rfl, fun h => absurd h (by decide), fun _ => rfl,
      fun h => absurd h (by decide)⟩
  have h2 : 2 ≤ x := by omega
  rcases hm : e.rendered[x]? with _ | s
  · -- a fresh text, remembered in the engine after the negation was built
    obtain ⟨s, k₁, hrun, hg, hc, ho, hk, hr, hsupp⟩ := render_fresh hf.sound hx h2 hm
      (negate_unlimited hf.sound.ordered.structured hf.sound.cache hf.sound.faults hf.unlimited hx)
    obtain ⟨hs₁, hev₁⟩ := hf.sound.withKernel hc ho hk hg
    have hx₁ : x < k₁.nodes.size := Nat.lt_of_lt_of_le hx hg.ext.size_le
    refine ⟨s, _, hrun, ⟨hs₁.remember hx₁ (hr.evolves hf.sound hev₁ hx), ?_, ?_⟩,
      ⟨⟨hev₁.ext, hev₁.names⟩, fun y t hy => ?_⟩, rfl, fun h => absurd h h1, fun h => absurd h h0,
      fun _ => ⟨hr, hsupp, Std.HashMap.getElem?_insert_self⟩⟩
    · show k₁.limits.maxNodes = 0
      rw [hg.limits]
      exact hf.unlimited
    · intro x' s' h y hy
      rw [Std.HashMap.getElem?_insert] at h
      split at h
      · rename_i hxx
        cases beq_iff_eq.1 hxx
        cases h
        exact (hsupp y hy).evolves hf.sound hev₁ hx
      · exact (hf.mentions x' s' h y hy).evolves hf.sound hev₁ (hf.sound.rendered x' s' h).1
    · -- the one key written was not remembered before
      show (e.rendered.insert x s)[y]? = some t
      rw [Std.HashMap.getElem?_insert, if_neg fun hxy => by
        rw [← beq_iff_eq.1 hxy, hm] at hy; cases hy]
      exact hy
  · -- a remembered text
    exact ⟨s, e, render_run_of_rendered h1 h0 hm, hf, .refl e, rfl, fun h => absurd h h1, fun h => absurd h h0,
      fun _ => ⟨(hf.sound.rendered x s hm).2, hf.mentions x s hm, hm⟩⟩

end Engine

end DecisionDiagrams
