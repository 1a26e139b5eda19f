/-
Formulas compiled into the node table compute their truth values.

The simplifier turns a formula into a node by one operation of the table per connective. Each
operation either records a fault or answers a node that computes what it should; a recorded
fault stays until it is cleared. So when a compilation leaves no fault, every step answered, and
the node of the formula is true exactly where the formula is.

* `Kernel.Grows` — the tables a computation leaves after a given one: they extend it, keep its
  variables and its node limit, and keep a fault once one is recorded. Every operation grows the
  table (`negate_grows`, `apply_grows`, `restrict_grows`, `ithvar_grows`, `nithvar_grows`).
* `Kernel.Answers` — once no fault is left, an answer is a node of the table that computes a
  given function of the assignment (`negate_answers`, `apply_answers`, `restrict_answers`,
  `ithvar_answers`, `nithvar_answers`).
* `Engine.compile_builds` — the node of a compiled formula is the terminal of the formula's
  truth value, with each name read at its level.
-/
import Mathlib
import DecisionDiagrams.Proofs.NodeFunctions
import DecisionDiagrams.Simplify.Engine

namespace DecisionDiagrams

namespace Kernel

/-! ### Tables that a computation leaves -/

/-- A table that a computation leaves after `k`: it extends `k`, keeps its variables and its
node limit, and keeps a fault once one is recorded. -/
structure Grows (k k' : Kernel) : Prop where
  ext : Extends k k'
  varnum : k'.varnum = k.varnum
  varset : k'.varset = k.varset
  limits : k'.limits = k.limits
  faults : k.faults ≠ [] → k'.faults ≠ []

namespace Grows

theorem refl (k : Kernel) : Grows k k :=
  ⟨.refl k, rfl, rfl, rfl, id⟩

theorem trans {k k' k'' : Kernel} (h : Grows k k') (h' : Grows k' k'') : Grows k k'' :=
  ⟨h.ext.trans h'.ext, h'.varnum.trans h.varnum, h'.varset.trans h.varset,
    h'.limits.trans h.limits, fun hf => h'.faults (h.faults hf)⟩

/-- A table that differs only in its counters, caches and faults grows when no fault is lost. -/
theorem of_eq {k k' : Kernel} (hn : k'.nodes = k.nodes) (hu : k'.unique = k.unique)
    (hv : k'.varnum = k.varnum) (hs : k'.varset = k.varset) (hl : k'.limits = k.limits)
    (hf : k.faults ≠ [] → k'.faults ≠ []) : Grows k k' :=
  ⟨.of_eq hn hu, hv, hs, hl, hf⟩

theorem count (k : Kernel) (f : Counters → Counters) : Grows k (k.count f) :=
  .of_eq rfl rfl rfl rfl rfl id

theorem record (k : Kernel) (f : Fault) : Grows k (k.record f) :=
  .of_eq rfl rfl rfl rfl rfl fun _ => List.cons_ne_nil _ _

end Grows

/-- Node creation keeps the limit, and a recorded fault. -/
theorem node_limits_faults (level : Nat) (lo hi : Option Nat) (k : Kernel) :
    (node level lo hi k).2.limits = k.limits ∧
      (k.faults ≠ [] → (node level lo hi k).2.faults ≠ []) := by
  rcases node_cases level lo hi k with ⟨f, hf⟩ | ⟨f, a, b, -, -, hf⟩ |
    ⟨f, a, b, -, -, -, -, -, hf⟩
  · rw [hf]
    exact ⟨rfl, id⟩
  · rw [hf]
    exact ⟨rfl, fun _ => List.cons_ne_nil _ _⟩
  · rw [hf]
    exact ⟨by simp, fun h => by simpa using h⟩

/-- Counting, recording faults and creating nodes grow the table and keep its caches sound. -/
theorem grows_tableInvariant (k₀ : Kernel) :
    TableInvariant (fun k => CacheSound k ∧ Grows k₀ k) fun _ _ _ _ => True where
  count f h hs := ⟨cacheSound_tableInvariant.count f h.1 hs, h.2.trans (.count _ f)⟩
  record f h hs := ⟨cacheSound_tableInvariant.record f h.1 hs, h.2.trans (.record _ f)⟩
  node level lo hi h hs hlo hhi _ := by
    obtain ⟨-, -, hvn, hvs⟩ := node_frame hs level lo hi
    obtain ⟨hlim, hf⟩ := node_limits_faults level lo hi _
    exact ⟨cacheSound_tableInvariant.node level lo hi h.1 hs hlo hhi fun _ _ _ _ => trivial,
      h.2.trans ⟨node_extends level lo hi _, hvn, hvs, hlim, hf⟩⟩

/-- A cache sound for its own invariant stays sound with any property that storing an entry
keeps: storing changes the caches only. -/
theorem Memo.Sound.and {κ : Type} {m : Memo κ} {P : Kernel → Prop} (h : m.Sound CacheSound)
    (hP : ∀ {k : Kernel} (a r : Array CacheEntry), P k →
      P { k with applyCache := a, restrictCache := r }) :
    m.Sound fun k => CacheSound k ∧ P k where
  read hI hs hx hr := h.read hI.1 hs hx hr
  write {k x v} hI hs hx hf hv := by
    refine ⟨h.write hI.1 hs hx hf hv, ?_⟩
    obtain ⟨a, r, hw⟩ := m.write_eq x v k
    rw [hw]
    exact hP a r hI.2

/-- Storing an entry grows the table. -/
theorem grows_write {k₀ k : Kernel} (a r : Array CacheEntry) (h : Grows k₀ k) :
    Grows k₀ { k with applyCache := a, restrictCache := r } :=
  h.trans (.of_eq rfl rfl rfl rfl rfl id)

theorem negate_grows {k : Kernel} (hs : Structured k) (hc : CacheSound k) (n : Int) :
    Grows k ((negate n).run k).2 :=
  (negate_invariant (grows_tableInvariant k) (negMemo_sound.and grows_write)
    (negMemo.guarded_true fun k' => CacheSound k' ∧ Grows k k') n ⟨hc, .refl k⟩ hs).1.2

theorem apply_grows {k : Kernel} (hs : Structured k) (hc : CacheSound k) (l r op : Int) :
    Grows k ((apply l r op).run k).2 :=
  (apply_invariant (grows_tableInvariant k) (fun o => (applyMemo_sound o).and grows_write)
    (fun o => (applyMemo o).guarded_true fun k' => CacheSound k' ∧ Grows k k') l r op
    ⟨hc, .refl k⟩ hs).1.2

theorem restrict_grows {k : Kernel} (hs : Structured k) (hc : CacheSound k) (n level : Int)
    (val : Bool) : Grows k ((restrict n level val).run k).2 :=
  (restrict_invariant (grows_tableInvariant k)
    (fun level val h => (restrictMemo_sound_of_nonneg level val h).and grows_write)
    (fun _ _ _ => (restrictMemo _ _ _).guarded_true fun k' => CacheSound k' ∧ Grows k k')
    n level val ⟨hc, .refl k⟩ hs).1.2

theorem ithvar_grows (i : Int) (k : Kernel) : Grows k ((ithvar i).run k).2 := by
  rw [ithvar_run]
  split
  · exact .record k _
  · exact .refl k

theorem nithvar_grows (i : Int) (k : Kernel) : Grows k ((nithvar i).run k).2 := by
  rw [nithvar_run]
  split
  · exact .record k _
  · exact .refl k

/-! ### Answers -/

/-- Once the table `k'` holds no fault, the answer `r` is a node of it that computes `spec`. -/
def Answers (k' : Kernel) (r : Int) (spec : (Nat → Bool) → Nat) : Prop :=
  k'.faults = [] → ∃ v : Nat, r = v ∧ v < k'.nodes.size ∧ ∀ σ, k'.walk σ v = spec σ

/-- An answer is a node that the operation found, or `-1` with a fault left in the table. -/
theorem answer_cases (r : Option Nat) (k : Kernel) :
    (((answer r).run k).1 = -1 ∧ ((answer r).run k).2.faults ≠ []) ∨
      ∃ v : Nat, ((answer r).run k).1 = v := by
  rw [answer_run]
  cases r with
  | some n =>
    dsimp only
    split
    · exact .inr ⟨n, rfl⟩
    · rename_i hf
      exact .inl ⟨rfl, fun h => hf (List.isEmpty_iff.2 h)⟩
  | none =>
    dsimp only
    split
    · exact .inl ⟨rfl, List.cons_ne_nil _ _⟩
    · rename_i hf
      exact .inl ⟨rfl, fun h => hf (List.isEmpty_iff.2 h)⟩

/-- An operation answers as `answer` does, after checks that record a fault when they fail. -/
theorem answers_of_cases {k' : Kernel} {r : Int} {spec : (Nat → Bool) → Nat}
    (hcases : (r = -1 ∧ k'.faults ≠ []) ∨ ∃ v : Nat, r = v)
    (hwalk : ∀ v : Nat, r = v → v < k'.nodes.size ∧ ∀ σ, k'.walk σ v = spec σ) :
    Answers k' r spec := by
  intro hf
  rcases hcases with ⟨-, hne⟩ | ⟨v, hv⟩
  · exact absurd hf hne
  · exact ⟨v, hv, hwalk v hv⟩

theorem negate_answers {k : Kernel} (hc : CacheSound k) (ho : Ordered k) (n : Int) :
    Answers ((negate n).run k).2 ((negate n).run k).1 fun σ => 1 - k.walk σ n.toNat := by
  refine answers_of_cases ?_ fun v hv => negate_walk hc ho hv
  rw [negate_run]
  split
  · exact .inl ⟨rfl, List.cons_ne_nil _ _⟩
  · exact answer_cases _ _

theorem Operator.ofCode?_code (o : Operator) : Operator.ofCode? o.code = some o := by
  cases o <;> rfl

theorem apply_answers {k : Kernel} (hc : CacheSound k) (ho : Ordered k) (l r : Int)
    (o : Operator) :
    Answers ((apply l r o.code).run k).2 ((apply l r o.code).run k).1
      fun σ => o.onTerminals (k.walk σ l.toNat) (k.walk σ r.toNat) := by
  refine answers_of_cases ?_ fun v hv => ?_
  · rw [apply_run]
    split
    · exact .inl ⟨rfl, List.cons_ne_nil _ _⟩
    split
    · exact .inl ⟨rfl, List.cons_ne_nil _ _⟩
    rw [Operator.ofCode?_code]
    exact answer_cases _ _
  · obtain ⟨o', ho', hlt, hwalk⟩ := apply_walk hc ho hv
    rw [Operator.ofCode?_code, Option.some.injEq] at ho'
    subst ho'
    exact ⟨hlt, hwalk⟩

theorem restrict_answers {k : Kernel} (hc : CacheSound k) (ho : Ordered k) (n : Int)
    {level : Int} (val : Bool) (h0 : 0 ≤ level) (hmax : level ≤ maxVariables) :
    Answers ((restrict n level val).run k).2 ((restrict n level val).run k).1
      fun σ => k.walk (fixLevel σ level.toNat val) n.toNat := by
  refine answers_of_cases ?_ fun v hv => restrict_walk hc ho val h0 hmax hv
  rw [restrict_run]
  split
  · exact .inl ⟨rfl, List.cons_ne_nil _ _⟩
  split
  · exact .inl ⟨rfl, List.cons_ne_nil _ _⟩
  split
  · exact answer_cases _ _
  · exact answer_cases _ _

/-- A literal of a level within the largest number of variables is answered, or a fault is
recorded when there is no such variable. -/
theorem ithvar_answers {k : Kernel} (ho : Ordered k) {i : Int} (h0 : 0 ≤ i)
    (hmax : i ≤ maxVariables) :
    Answers ((ithvar i).run k).2 ((ithvar i).run k).1 fun σ => if σ i.toNat then 1 else 0 := by
  refine answers_of_cases ?_ fun v hv => ?_
  · rw [ithvar_run]
    split
    · exact .inl ⟨rfl, List.cons_ne_nil _ _⟩
    · rename_i hi
      rw [wrap32_of_le h0 hmax] at hi
      obtain ⟨p, hp⟩ : ∃ p, k.varset[i.toNat]? = some p :=
        Option.isSome_iff_exists.1 (by simp [ho.varset_size]; omega)
      exact .inr ⟨p.1, by rw [hp]; rfl⟩
  · obtain ⟨htab, hlt, hwalk⟩ := ithvar_walk ho hv
    rw [htab]
    exact ⟨hlt, hwalk⟩

theorem nithvar_answers {k : Kernel} (ho : Ordered k) {i : Int} (h0 : 0 ≤ i)
    (hmax : i ≤ maxVariables) :
    Answers ((nithvar i).run k).2 ((nithvar i).run k).1 fun σ => if σ i.toNat then 0 else 1 := by
  refine answers_of_cases ?_ fun v hv => ?_
  · rw [nithvar_run]
    split
    · exact .inl ⟨rfl, List.cons_ne_nil _ _⟩
    · rename_i hi
      rw [wrap32_of_le h0 hmax] at hi
      obtain ⟨p, hp⟩ : ∃ p, k.varset[i.toNat]? = some p :=
        Option.isSome_iff_exists.1 (by simp [ho.varset_size]; omega)
      exact .inr ⟨p.2, by rw [hp]; rfl⟩
  · obtain ⟨htab, hlt, hwalk⟩ := nithvar_walk ho hv
    rw [htab]
    exact ⟨hlt, hwalk⟩

/-! ### Runs that build nodes -/

/-- A run from `k` that leaves `k'` and answers `r`: it keeps the caches sound and the table
ordered, grows the table, and answers a node that computes `spec` unless it leaves a fault. -/
structure Builds (k k' : Kernel) (r : Int) (spec : (Nat → Bool) → Nat) : Prop where
  sound : CacheSound k'
  ordered : Ordered k'
  grows : Grows k k'
  answers : Answers k' r spec

theorem Builds.congr {k k' : Kernel} {r : Int} {spec spec' : (Nat → Bool) → Nat}
    (h : Builds k k' r spec) (heq : ∀ σ, spec σ = spec' σ) : Builds k k' r spec' :=
  ⟨h.sound, h.ordered, h.grows, fun hf => by
    obtain ⟨v, hv, hlt, hw⟩ := h.answers hf
    exact ⟨v, hv, hlt, fun σ => (hw σ).trans (heq σ)⟩⟩

/-- A later run that leaves no fault: the earlier one left none either, so it answered. -/
theorem Builds.answered {k k' k'' : Kernel} {r : Int} {spec : (Nat → Bool) → Nat}
    (h : Builds k k' r spec) (hg : Grows k' k'') (hf : k''.faults = []) :
    ∃ v : Nat, r = v ∧ v < k'.nodes.size ∧ ∀ σ, k'.walk σ v = spec σ :=
  h.answers (Classical.byContradiction fun hne => hg.faults hne hf)

theorem negate_builds {k : Kernel} (hc : CacheSound k) (ho : Ordered k) (n : Int) :
    Builds k ((negate n).run k).2 ((negate n).run k).1 fun σ => 1 - k.walk σ n.toNat :=
  ⟨(negate_ordered n hc ho).1, (negate_ordered n hc ho).2, negate_grows ho.structured hc n,
    negate_answers hc ho n⟩

theorem apply_builds {k : Kernel} (hc : CacheSound k) (ho : Ordered k) (l r : Int)
    (o : Operator) :
    Builds k ((apply l r o.code).run k).2 ((apply l r o.code).run k).1
      fun σ => o.onTerminals (k.walk σ l.toNat) (k.walk σ r.toNat) :=
  ⟨(apply_ordered l r o.code hc ho).1, (apply_ordered l r o.code hc ho).2,
    apply_grows ho.structured hc l r o.code, apply_answers hc ho l r o⟩

theorem restrict_builds {k : Kernel} (hc : CacheSound k) (ho : Ordered k) (n : Int)
    {level : Int} (val : Bool) (h0 : 0 ≤ level) (hmax : level ≤ maxVariables) :
    Builds k ((restrict n level val).run k).2 ((restrict n level val).run k).1
      fun σ => k.walk (fixLevel σ level.toNat val) n.toNat :=
  ⟨(restrict_ordered n level val hc ho).1, (restrict_ordered n level val hc ho).2,
    restrict_grows ho.structured hc n level val, restrict_answers hc ho n val h0 hmax⟩

theorem ithvar_keeps (i : Int) {k : Kernel} (hc : CacheSound k) (ho : Ordered k) :
    CacheSound ((ithvar i).run k).2 ∧ Ordered ((ithvar i).run k).2 ∧
      Grows k ((ithvar i).run k).2 :=
  have h := perform_ordered (.ithvar i) hc ho fun _ h => nomatch h
  ⟨h.1, h.2, ithvar_grows i k⟩

theorem nithvar_keeps (i : Int) {k : Kernel} (hc : CacheSound k) (ho : Ordered k) :
    CacheSound ((nithvar i).run k).2 ∧ Ordered ((nithvar i).run k).2 ∧
      Grows k ((nithvar i).run k).2 :=
  have h := perform_ordered (.nithvar i) hc ho fun _ h => nomatch h
  ⟨h.1, h.2, nithvar_grows i k⟩

theorem ithvar_builds {k : Kernel} (hc : CacheSound k) (ho : Ordered k) {i : Int} (h0 : 0 ≤ i)
    (hmax : i ≤ maxVariables) :
    Builds k ((ithvar i).run k).2 ((ithvar i).run k).1 fun σ => if σ i.toNat then 1 else 0 :=
  have h := ithvar_keeps i hc ho
  ⟨h.1, h.2.1, h.2.2, ithvar_answers ho h0 hmax⟩

theorem nithvar_builds {k : Kernel} (hc : CacheSound k) (ho : Ordered k) {i : Int} (h0 : 0 ≤ i)
    (hmax : i ≤ maxVariables) :
    Builds k ((nithvar i).run k).2 ((nithvar i).run k).1 fun σ => if σ i.toNat then 0 else 1 :=
  have h := nithvar_keeps i hc ho
  ⟨h.1, h.2.1, h.2.2, nithvar_answers ho h0 hmax⟩

/-- A negation or an operator on a reference below zero records a fault. -/
theorem negate_faults_of_neg {n : Int} (hn : n < 0) (k : Kernel) :
    ((negate n).run k).2.faults ≠ [] := by
  rw [negate_run, if_pos (Or.inl hn)]
  simp

theorem apply_faults_of_neg {l r : Int} (h : l < 0 ∨ r < 0) (op : Int) (k : Kernel) :
    ((apply l r op).run k).2.faults ≠ [] := by
  rw [apply_run]
  by_cases hl : l < 0 ∨ l ≥ k.nodes.size
  · rw [if_pos hl]
    simp
  · rw [if_neg hl, if_pos (Or.inl (h.resolve_left fun h' => hl (Or.inl h')))]
    simp

/-- Negation of what an earlier run answered. -/
theorem Builds.negate {k k₁ : Kernel} {r : Int} {spec : (Nat → Bool) → Nat}
    (h : Builds k k₁ r spec) :
    Builds k ((negate r).run k₁).2 ((negate r).run k₁).1 fun σ => 1 - spec σ := by
  have h₂ := negate_builds h.sound h.ordered r
  refine ⟨h₂.sound, h₂.ordered, h.grows.trans h₂.grows, fun hf => ?_⟩
  obtain ⟨v, rfl, -, hw⟩ := h.answered h₂.grows hf
  obtain ⟨v₂, hv₂, hlt₂, hw₂⟩ := h₂.answers hf
  exact ⟨v₂, hv₂, hlt₂, fun σ => by simp only [hw₂ σ, Int.toNat_natCast, hw σ]⟩

/-- An operator on what two earlier runs answered, one after the other. -/
theorem Builds.apply {k k₁ k₂ : Kernel} {a b : Int} {sa sb : (Nat → Bool) → Nat}
    (ha : Builds k k₁ a sa) (hb : Builds k₁ k₂ b sb) (o : Operator) :
    Builds k ((apply a b o.code).run k₂).2 ((apply a b o.code).run k₂).1
      fun σ => o.onTerminals (sa σ) (sb σ) := by
  have h₃ := apply_builds hb.sound hb.ordered a b o
  refine ⟨h₃.sound, h₃.ordered, (ha.grows.trans hb.grows).trans h₃.grows, fun hf => ?_⟩
  obtain ⟨vb, rfl, -, hwb⟩ := hb.answered h₃.grows hf
  obtain ⟨va, rfl, hlta, hwa⟩ := ha.answered (hb.grows.trans h₃.grows) hf
  obtain ⟨v₃, hv₃, hlt₃, hw₃⟩ := h₃.answers hf
  -- the first answer is walked the same way in the table the second run left
  refine ⟨v₃, hv₃, hlt₃, fun σ => ?_⟩
  simp only [hw₃ σ, Int.toNat_natCast, hwb σ, walk_extends hb.grows.ext σ va hlta, hwa σ]

end Kernel

/-! ### Compiled formulas -/

namespace Engine

open Kernel

/-- The terminal of a truth value. -/
def terminalOf (b : Bool) : Nat :=
  if b then 1 else 0

theorem one_sub_terminalOf (b : Bool) : 1 - terminalOf b = terminalOf (!b) := by
  cases b <;> rfl

/-- The operator of a connective computes the connective on terminals. -/
theorem operatorOf_onTerminals (op : Connective) (a b : Bool) :
    (operatorOf op).onTerminals (terminalOf a) (terminalOf b) = terminalOf (op.apply a b) := by
  cases op <;> cases a <;> cases b <;> rfl

/-- A variable or a negated variable: compiled to one of its literals. -/
def isLiteral : Formula → Bool
  | .var _ => true
  | .not (.var _) => true
  | _ => false

/-- Compiling keeps the table ordered and its caches sound, and grows it. -/
theorem compile_grows (levelOf : String → Nat) (f : Formula) {k : Kernel} (hc : CacheSound k)
    (ho : Ordered k) :
    CacheSound ((compile levelOf f).run k).2 ∧ Ordered ((compile levelOf f).run k).2 ∧
      Grows k ((compile levelOf f).run k).2 := by
  induction f generalizing k with
  | var x => exact ithvar_keeps _ hc ho
  | not g ih =>
    cases g with
    | var x => exact nithvar_keeps _ hc ho
    | not g' =>
      obtain ⟨hc₁, ho₁, hg₁⟩ := ih hc ho
      have h := negate_ordered ((compile levelOf g'.not).run k).1 hc₁ ho₁
      exact ⟨h.1, h.2, hg₁.trans (negate_grows ho₁.structured hc₁ _)⟩
    | bin op l r =>
      obtain ⟨hc₁, ho₁, hg₁⟩ := ih hc ho
      have h := negate_ordered ((compile levelOf (.bin op l r)).run k).1 hc₁ ho₁
      exact ⟨h.1, h.2, hg₁.trans (negate_grows ho₁.structured hc₁ _)⟩
  | bin op l r ihl ihr =>
    obtain ⟨hc₁, ho₁, hg₁⟩ := ihl hc ho
    obtain ⟨hc₂, ho₂, hg₂⟩ := ihr hc₁ ho₁
    have h := apply_ordered ((compile levelOf l).run k).1
      ((compile levelOf r).run ((compile levelOf l).run k).2).1 (operatorOf op).code hc₂ ho₂
    exact ⟨h.1, h.2, (hg₁.trans hg₂).trans (apply_grows ho₂.structured hc₂ _ _ _)⟩

theorem compile_not_run (levelOf : String → Nat) {g : Formula} (hg : isLiteral g.not = false)
    (k : Kernel) : (compile levelOf g.not).run k =
      (negate ((compile levelOf g).run k).1).run ((compile levelOf g).run k).2 := by
  cases g with
  | var x => cases hg
  | not g' => rfl
  | bin op l r => rfl

theorem compile_bin_run (levelOf : String → Nat) (op : Connective) (l r : Formula) (k : Kernel) :
    (compile levelOf (.bin op l r)).run k =
      let a := (compile levelOf l).run k
      let b := (compile levelOf r).run a.2
      (apply a.1 b.1 (operatorOf op).code).run b.2 :=
  rfl

/-- A literal of a level without one in the table is `-1`. -/
theorem literal_of_not_lt {k : Kernel} (ho : Ordered k) {L : Nat} (hL : ¬ L < k.varnum)
    (g : Nat × Nat → Int) : (k.varset[L]?.map g).getD (-1) = -1 := by
  have hnone : k.varset[L]? = none := by
    rw [Array.getElem?_eq_none_iff, ho.varset_size]
    omega
  simp [hnone]

/-- A literal at a level outside the table answers `-1` or records a fault; either way a
connective above it fails. So a compilation that leaves no fault reads every name at a level of
the table, unless the formula is a single literal answered by `-1`. -/
theorem compile_levels (levelOf : String → Nat) (f : Formula) {k : Kernel} (hc : CacheSound k)
    (ho : Ordered k) (hf : ((compile levelOf f).run k).2.faults = []) :
    (∀ x ∈ f.names, levelOf x < k.varnum) ∨
      (isLiteral f ∧ ((compile levelOf f).run k).1 = -1) := by
  induction f generalizing k with
  | var x =>
    rw [show compile levelOf (.var x) = ithvar (levelOf x) from rfl] at hf ⊢
    by_cases hlt : levelOf x < k.varnum
    · exact .inl (by simp [Formula.names, hlt])
    refine .inr ⟨rfl, ?_⟩
    rw [ithvar_run] at hf ⊢
    by_cases hbad : (levelOf x : Int) < 0 ∨ wrap32 (levelOf x) ≥ k.varnum
    · rw [if_pos hbad] at hf
      simp at hf
    · rw [if_neg hbad, Int.toNat_natCast]
      exact literal_of_not_lt ho hlt _
  | not g ih =>
    by_cases hlit : isLiteral g.not
    · -- a negated name is its negative literal
      obtain ⟨x, rfl⟩ : ∃ x, g = .var x := by
        cases g with
        | var x => exact ⟨x, rfl⟩
        | not g' => cases hlit
        | bin op l r => cases hlit
      rw [show compile levelOf (Formula.var x).not = nithvar (levelOf x) from rfl] at hf ⊢
      by_cases hlt : levelOf x < k.varnum
      · exact .inl (by simp [Formula.names, hlt])
      refine .inr ⟨rfl, ?_⟩
      rw [nithvar_run] at hf ⊢
      by_cases hbad : (levelOf x : Int) < 0 ∨ wrap32 (levelOf x) ≥ k.varnum
      · rw [if_pos hbad] at hf
        simp at hf
      · rw [if_neg hbad, Int.toNat_natCast]
        exact literal_of_not_lt ho hlt _
    · rw [Bool.not_eq_true] at hlit
      rw [compile_not_run levelOf hlit] at hf
      obtain ⟨hc₁, ho₁, -⟩ := compile_grows levelOf g hc ho
      have hf₁ : ((compile levelOf g).run k).2.faults = [] := Classical.byContradiction fun h =>
        (negate_grows ho₁.structured hc₁ _).faults h hf
      rcases ih hc ho hf₁ with hlev | ⟨-, hneg⟩
      · exact .inl hlev
      · rw [hneg] at hf
        exact absurd hf (negate_faults_of_neg (by decide) _)
  | bin op l r ihl ihr =>
    rw [compile_bin_run] at hf
    dsimp only at hf
    obtain ⟨hc₁, ho₁, hg₁⟩ := compile_grows levelOf l hc ho
    obtain ⟨hc₂, ho₂, hg₂⟩ := compile_grows levelOf r hc₁ ho₁
    -- no fault at the end means none after either operand
    have hf₂ : ((compile levelOf r).run ((compile levelOf l).run k).2).2.faults = [] :=
      Classical.byContradiction fun h => (apply_grows ho₂.structured hc₂ _ _ _).faults h hf
    have hf₁ : ((compile levelOf l).run k).2.faults = [] :=
      Classical.byContradiction fun h => hg₂.faults h hf₂
    rcases ihl hc ho hf₁ with hlevl | ⟨-, hnegl⟩
    · rcases ihr hc₁ ho₁ hf₂ with hlevr | ⟨-, hnegr⟩
      · refine .inl fun x hx => ?_
        rcases List.mem_append.1 hx with hx | hx
        · exact hlevl x hx
        · exact hg₁.varnum ▸ hlevr x hx
      · rw [hnegr] at hf
        exact absurd hf (apply_faults_of_neg (.inr (by decide)) _ _)
    · rw [hnegl] at hf
      exact absurd hf (apply_faults_of_neg (.inl (by decide)) _ _)

/-- The node of a compiled formula whose names are read at levels of the table is the terminal
of the formula's truth value; the run keeps the table ordered and its caches sound. -/
theorem compile_builds (levelOf : String → Nat) (f : Formula) {k : Kernel} (hc : CacheSound k)
    (ho : Ordered k) (hvar : (k.varnum : Int) ≤ maxVariables)
    (hlev : ∀ x ∈ f.names, levelOf x < k.varnum) :
    Builds k ((compile levelOf f).run k).2 ((compile levelOf f).run k).1
      fun σ => terminalOf (f.eval fun x => σ (levelOf x)) := by
  have hmax : ∀ x ∈ f.names, (levelOf x : Int) ≤ maxVariables := fun x hx => by
    have := hlev x hx
    omega
  induction f generalizing k with
  | var x =>
    have h := ithvar_builds hc ho (Int.natCast_nonneg (levelOf x))
      (hmax x (List.mem_singleton_self x))
    rw [Int.toNat_natCast] at h
    exact h.congr fun σ => rfl
  | not g ih =>
    cases g with
    | var x =>
      -- a negated name is its negative literal
      have h := nithvar_builds hc ho (Int.natCast_nonneg (levelOf x))
        (hmax x (List.mem_singleton_self x))
      rw [Int.toNat_natCast] at h
      exact h.congr fun σ => by
        cases hσ : σ (levelOf x) <;> simp [terminalOf, Formula.eval, hσ]
    | not g' => exact (ih hc ho hvar hlev hmax).negate.congr fun σ => one_sub_terminalOf _
    | bin op l r => exact (ih hc ho hvar hlev hmax).negate.congr fun σ => one_sub_terminalOf _
  | bin op l r ihl ihr =>
    have hl := ihl hc ho hvar (fun x hx => hlev x (List.mem_append_left _ hx))
      (fun x hx => hmax x (List.mem_append_left _ hx))
    have hvar₁ := hl.grows.varnum
    have hr := ihr hl.sound hl.ordered (by rw [hvar₁]; exact hvar)
      (fun x hx => hvar₁ ▸ hlev x (List.mem_append_right _ hx))
      (fun x hx => hmax x (List.mem_append_right _ hx))
    exact ((hl.apply hr) (operatorOf op)).congr fun σ => operatorOf_onTerminals op _ _

end Engine

end DecisionDiagrams
