/-
The simplifier's engine between calls, and what its expressions mean.

An expression of the engine is a node of its table; its level `l` stands for the `l`-th declared
name. Under an assignment of the names, an expression is true when the walk from its node, which
reads each level as the value of its name, reaches the true terminal.

* `Engine.value` — the truth value of an expression under an assignment of names.
* `Engine.Sound` — the invariant between calls: the table is ordered with sound caches and no
  fault, the names are distinct, one for each level, and every remembered text reads back as a
  formula with the truth values of its expression (`Engine.Renders`).
* `Engine.Evolves` — what a call leaves: the table and the names only grow, so expressions keep
  their truth values (`Engine.value_evolves`).
* `Engine.substitute_value` — a substitution that succeeds gives the cofactor: the expression
  with the name's value fixed; every substitution keeps the invariant.
* `Engine.parseAndSimplify_linear` — reading and compiling the linear text of a formula answers
  an expression with the formula's truth values.
-/
import Mathlib
import DecisionDiagrams.Proofs.Compilation
import DecisionDiagrams.Proofs.Parsing

namespace DecisionDiagrams

namespace Formula

/-- A formula reads only its own names. -/
theorem eval_congr {σ τ : String → Bool} {f : Formula} (h : ∀ x ∈ f.names, σ x = τ x) :
    f.eval σ = f.eval τ := by
  induction f with
  | var x => exact h x (List.mem_singleton_self x)
  | not f ih => rw [eval, eval, ih h]
  | bin op l r ihl ihr =>
    rw [eval, eval, ihl fun x hx => h x (List.mem_append_left _ hx),
      ihr fun x hx => h x (List.mem_append_right _ hx)]

theorem names_expandArrows (f : Formula) (x : String) :
    x ∈ f.expandArrows.names ↔ x ∈ f.names := by
  induction f with
  | var y => rfl
  | not f ih => exact ih
  | bin op l r ihl ihr =>
    cases op <;> simp only [expandArrows, names, List.mem_append, ihl, ihr]
    -- an equivalence names each side twice
    case iff => tauto

/-- The names of a formula read from a text are names, also once its arrows are expanded. -/
theorem parse_expandArrows_names {text : String} {f : Formula} (hp : parse text = .ok f) :
    ∀ x ∈ f.expandArrows.names, Token.isName x := fun x hx =>
  (parse_names hp x ((names_expandArrows f x).1 hx)).1

theorem eval_expandArrows (σ : String → Bool) (f : Formula) :
    f.expandArrows.eval σ = f.eval σ := by
  induction f with
  | var y => rfl
  | not f ih => rw [expandArrows, eval, eval, ih]
  | bin op l r ihl ihr =>
    cases op <;> simp only [expandArrows, eval, Connective.apply, ihl, ihr]
    case iff => cases l.eval σ <;> cases r.eval σ <;> rfl

/-- A formula built from its variables by `~`, `&` and `|` alone. -/
def arrowFree : Formula → Bool
  | .var _ => true
  | .not f => f.arrowFree
  | .bin op l r => (op == .and || op == .or) && l.arrowFree && r.arrowFree

theorem arrowFree_expandArrows (f : Formula) : f.expandArrows.arrowFree := by
  induction f with
  | var x => rfl
  | not f ih => exact ih
  | bin op l r ihl ihr => cases op <;> simp [expandArrows, arrowFree, ihl, ihr]

/-- Expanding the arrows leaves a formula over `~`, `&` and `|` with the same names and the same
truth value under every assignment. The formula expanded is a value and stays as it was. -/
theorem expandArrows_equivalent (f : Formula) :
    f.expandArrows.arrowFree ∧ (∀ x, x ∈ f.expandArrows.names ↔ x ∈ f.names) ∧
      ∀ σ, f.expandArrows.eval σ = f.eval σ :=
  ⟨arrowFree_expandArrows f, names_expandArrows f, fun σ => eval_expandArrows σ f⟩

end Formula

/-- The first occurrences of the elements of `xs`, appended to `acc` past those already in it. -/
def firstOccurrencesFrom (acc xs : List String) : List String :=
  xs.foldl (fun acc x => if acc.contains x then acc else acc ++ [x]) acc

theorem firstOccurrences_eq (xs : List String) :
    firstOccurrences xs = firstOccurrencesFrom [] xs := rfl

theorem mem_firstOccurrencesFrom {acc xs : List String} {x : String} :
    x ∈ firstOccurrencesFrom acc xs ↔ x ∈ acc ∨ x ∈ xs := by
  induction xs generalizing acc with
  | nil => simp [firstOccurrencesFrom]
  | cons y ys ih =>
    rw [firstOccurrencesFrom, List.foldl_cons]
    refine ih.trans ?_
    split
    · rename_i hy
      have hy' : y ∈ acc := by simpa using hy
      constructor
      · rintro (h | h)
        · exact .inl h
        · exact .inr (List.mem_cons_of_mem y h)
      · rintro (h | h)
        · exact .inl h
        · rcases List.mem_cons.1 h with rfl | h
          · exact .inl hy'
          · exact .inr h
    · simp only [List.mem_append, List.mem_cons]
      tauto

theorem mem_firstOccurrences {xs : List String} {x : String} :
    x ∈ firstOccurrences xs ↔ x ∈ xs :=
  mem_firstOccurrencesFrom.trans (by simp)

/-- A number below `2 ^ 31` is its own 32-bit reading. -/
theorem wrap32_of_lt {n : Int} (h0 : 0 ≤ n) (h : n < 2147483648) : wrap32 n = n := by
  unfold wrap32
  unfold Int.bmod
  rw [Int.emod_eq_of_lt h0 (by omega)]
  simp only
  rw [if_pos (by omega)]

namespace Kernel

/-- Counting, recording faults and creating nodes extend the table. -/
theorem extends_tableInvariant (k₀ : Kernel) :
    TableInvariant (Extends k₀) fun _ _ _ _ => True where
  count f h _ := h.trans (.of_sameTable (SameTable.count _ f).symm)
  record _ h _ := h.trans (.of_eq rfl rfl)
  node level lo hi h _ _ _ _ := h.trans (node_extends level lo hi _)

/-- A declaration of variables keeps every internal node, whether it succeeds or not. -/
theorem setVarnum_extends (num : Int) {k : Kernel} (hs : Structured k) :
    Extends k ((setVarnum num).run k).2 :=
  (setVarnum_invariant (extends_tableInvariant k) (fun _ _ _ _ _ => trivial)
    (fun _ h _ => h.trans (.of_eq rfl rfl))
    (fun n h _ => h.trans (extends_setTerminals n _)) (fun _ h _ => h.trans (.of_eq rfl rfl))
    num (.refl k) hs).1

/-- A declaration that answers no fault accepted its number, which is the new number of
variables. -/
theorem setVarnum_none {num : Int} {k : Kernel} (h : ((setVarnum num).run k).1 = none) :
    ¬ (wrap32 num < k.varnum ∨ wrap32 num > maxVariables) ∧
      ((setVarnum num).run k).2.varnum = (wrap32 num).toNat := by
  rw [setVarnum_run] at h ⊢
  split at h
  · cases h
  · rename_i hbad
    refine ⟨hbad, ?_⟩
    rw [if_neg hbad]
    dsimp only at h ⊢
    split at h
    · rename_i hr
      rw [if_pos hr]
    · cases h

/-- In level order a node reads only the levels from its own down to the terminals' level: two
assignments that agree there give the same walk. -/
theorem walk_congr {k : Kernel} (hs : Structured k) (hl : Levels k) {σ τ : Nat → Bool} {lo : Nat}
    (h : ∀ l, lo ≤ l → l < (k.entry 0).level → σ l = τ l) :
    ∀ n, n < k.nodes.size → (2 ≤ n → lo ≤ k.level n) → k.walk σ n = k.walk τ n := by
  intro n
  induction n using Nat.strongRecOn with
  | ind n ih =>
  intro hn habove
  by_cases h2 : n < 2
  · rw [walk_terminal _ _ h2, walk_terminal _ _ h2]
  · have h2' : 2 ≤ n := by omega
    have hle := habove h2'
    -- both children lie above the node, hence at or above `lo`
    have hlo := ih _ (lowOf_lt k n (by omega)) (lowOf_lt_size k h2' hn)
      fun _ => Nat.le_of_lt (Nat.lt_of_le_of_lt hle (hl.lowOf hs h2' hn))
    have hhi := ih _ (highOf_lt k n (by omega)) (highOf_lt_size k h2' hn)
      fun _ => Nat.le_of_lt (Nat.lt_of_le_of_lt hle (hl.highOf hs h2' hn))
    rw [walk_internal _ _ h2', walk_internal _ _ h2', h _ hle (hl.below n h2' hn), hlo, hhi]

/-- Two assignments that agree on the levels of an ordered table give every node the same
walk. -/
theorem walk_congr_of_ordered {k : Kernel} (ho : Ordered k) {σ τ : Nat → Bool}
    (h : ∀ l, l < k.varnum → σ l = τ l) (n : Nat) (hn : n < k.nodes.size) :
    k.walk σ n = k.walk τ n :=
  @walk_congr k ho.structured ho.levels σ τ 0 (fun l _ hl => h l (ho.top ▸ hl)) n hn
    fun _ => Nat.zero_le _

end Kernel

namespace Engine

open Kernel

/-- The assignment of levels that gives each level the value of its name. -/
def levels (e : Engine) (σ : String → Bool) (l : Nat) : Bool :=
  σ (e.names[l]?.getD "")

/-- The truth value of expression `x` when each name `v` has the value `σ v`. -/
def value (e : Engine) (x : Nat) (σ : String → Bool) : Bool :=
  e.kernel.walk (e.levels σ) x == 1

/-- A text that reads back as a formula with the truth values of expression `x`. -/
def Renders (e : Engine) (x : Nat) (s : String) : Prop :=
  ∃ g, Formula.parse s = .ok g ∧ ∀ σ, g.eval σ = e.value x σ

/-- The invariant of an engine between calls. -/
structure Sound (e : Engine) : Prop where
  cache : CacheSound e.kernel
  ordered : Ordered e.kernel
  faults : e.kernel.faults = []
  nodup : e.names.toList.Nodup
  size : e.names.size = e.kernel.varnum
  bounded : (e.kernel.varnum : Int) ≤ maxVariables
  named : ∀ x ∈ e.names.toList, Token.isName x
  rendered : ∀ x s, e.rendered[x]? = some s → x < e.kernel.nodes.size ∧ Renders e x s

/-! ### Names and levels -/

/-- Distinct names stand at distinct levels. -/
theorem level_inj {e : Engine} (hd : e.names.toList.Nodup) {i j : Nat} (hi : i < e.names.size)
    (hj : j < e.names.size) (h : e.names[i] = e.names[j]) : i = j :=
  (@List.Nodup.getElem_inj_iff String e.names.toList hd i (by simpa using hi) j
    (by simpa using hj)).1 (by simpa using h)

/-- With distinct names, a name's level is the position where it stands. -/
theorem level?_eq_some {e : Engine} (hd : e.names.toList.Nodup) {x : String} {l : Nat} :
    e.level? x = some l ↔ ∃ h : l < e.names.size, e.names[l] = x := by
  rw [level?, ← Array.idxOf?_toList, List.idxOf?_eq_some_iff]
  constructor
  · rintro ⟨hl, hx, -⟩
    exact ⟨by simpa using hl, by simpa using hx⟩
  · rintro ⟨hl, rfl⟩
    refine ⟨by simpa using hl, by simp, fun j hj hjx => ?_⟩
    have := level_inj hd (by simpa using hj.trans hl) hl (by simpa using hjx)
    omega

theorem levels_of_level? {e : Engine} (hd : e.names.toList.Nodup) {x : String} {l : Nat}
    (h : e.level? x = some l) (σ : String → Bool) : e.levels σ l = σ x := by
  obtain ⟨hl, rfl⟩ := (level?_eq_some hd).1 h
  simp [levels, hl]

/-- Setting a declared name sets its level. -/
theorem levels_update {e : Engine} (hd : e.names.toList.Nodup) {x : String} {lvl : Nat}
    (h : e.level? x = some lvl) (σ : String → Bool) (val : Bool) {l : Nat}
    (hl : l < e.names.size) :
    e.levels (Function.update σ x val) l = fixLevel (e.levels σ) lvl val l := by
  obtain ⟨hlvl, rfl⟩ := (level?_eq_some hd).1 h
  by_cases hll : l = lvl
  · subst hll
    simp [levels, hl]
  · have hne : e.names[l] ≠ e.names[lvl] := fun heq => hll (level_inj hd hl hlvl heq)
    simp [levels, hl, fixLevel_ne _ _ hll, Function.update_of_ne hne]

/-- Setting a name that is not declared changes no level. -/
theorem levels_update_of_none {e : Engine} {x : String} (h : e.level? x = none)
    (σ : String → Bool) (val : Bool) {l : Nat} (hl : l < e.names.size) :
    e.levels (Function.update σ x val) l = e.levels σ l := by
  rw [level?, ← Array.idxOf?_toList, List.idxOf?_eq_none_iff] at h
  have hne : e.names[l] ≠ x := fun heq => h (heq ▸ Array.getElem_mem_toList hl)
  simp [levels, hl, Function.update_of_ne hne]

/-- A declared name stands at its level. -/
theorem levelOf_of_mem {e : Engine} (hd : e.names.toList.Nodup) {x : String}
    (hx : x ∈ e.names.toList) : ∃ h : e.levelOf x < e.names.size, e.names[e.levelOf x] = x := by
  rcases hl : e.level? x with _ | l
  · rw [level?, ← Array.idxOf?_toList, List.idxOf?_eq_none_iff] at hl
    exact absurd hx hl
  · rw [levelOf, hl, Option.getD_some]
    exact (level?_eq_some hd).1 hl

theorem levels_levelOf {e : Engine} (hd : e.names.toList.Nodup) {x : String}
    (hx : x ∈ e.names.toList) (σ : String → Bool) : e.levels σ (e.levelOf x) = σ x := by
  obtain ⟨hl, hget⟩ := levelOf_of_mem hd hx
  simp [levels, hl, hget]

/-! ### Engines that calls leave -/

/-- An engine that a call leaves after `e`: its table extends the table of `e`, and its names
extend the names of `e`. -/
structure Evolves (e e' : Engine) : Prop where
  ext : Extends e.kernel e'.kernel
  names : e.names.toList <+: e'.names.toList

namespace Evolves

theorem refl (e : Engine) : Evolves e e :=
  ⟨.refl _, List.prefix_refl _⟩

theorem trans {e e' e'' : Engine} (h : Evolves e e') (h' : Evolves e' e'') : Evolves e e'' :=
  ⟨h.ext.trans h'.ext, h.names.trans h'.names⟩

end Evolves

/-- An expression keeps its truth values as the engine evolves: its node is kept, and the
levels it reads keep their names. -/
theorem value_evolves {e e' : Engine} (hs : Sound e) (h : Evolves e e') {x : Nat}
    (hx : x < e.kernel.nodes.size) (σ : String → Bool) : e'.value x σ = e.value x σ := by
  have hlev : ∀ l, l < e.kernel.varnum → e'.levels σ l = e.levels σ l := by
    intro l hl
    have hl' : l < e.names.toList.length := by simpa [hs.size] using hl
    have hget := h.names.getElem hl'
    simp only [Array.getElem_toList] at hget
    have hl'' : l < e'.names.size := by
      simpa using Nat.lt_of_lt_of_le hl' h.names.length_le
    simp [levels, hget, hl'', show l < e.names.size by simpa using hl']
  rw [value, value, walk_extends h.ext _ x hx,
    walk_congr_of_ordered hs.ordered hlev x hx]

theorem Renders.evolves {e e' : Engine} (hs : Sound e) (h : Evolves e e') {x : Nat}
    (hx : x < e.kernel.nodes.size) {s : String} (hr : Renders e x s) : Renders e' x s := by
  obtain ⟨g, hg, hval⟩ := hr
  exact ⟨g, hg, fun σ => (hval σ).trans (value_evolves hs h hx σ).symm⟩

/-! ### Table operations and their faults -/

theorem onKernel_run {α : Type} (m : KernelM α) (e : Engine) :
    (onKernel m).run e = ((m.run e.kernel).1, { e with kernel := (m.run e.kernel).2 }) :=
  rfl

theorem takeFaults_run (e : Engine) :
    takeFaults.run e = if e.kernel.faults.isEmpty then (none, e)
      else (some e.kernel.faults, { e with kernel := e.kernel.clearError }) := by
  simp only [takeFaults, modifyGet, MonadStateOf.modifyGet, StateT.modifyGet, StateT.run]
  split <;> rfl

theorem takeFaults_of_nil {e : Engine} (h : e.kernel.faults = []) : takeFaults.run e = (none, e) := by
  rw [takeFaults_run, if_pos (List.isEmpty_iff.2 h)]

theorem takeFaults_eq_none {e : Engine} (h : (takeFaults.run e).1 = none) :
    e.kernel.faults = [] := by
  rw [takeFaults_run] at h
  split at h
  · exact List.isEmpty_iff.1 ‹_›
  · cases h

/-- A table that grew soundly from the engine's, with no fault: the engine with it keeps the
invariant. -/
theorem Sound.withKernel {e : Engine} (hs : Sound e) {k : Kernel} (hc : CacheSound k)
    (ho : Ordered k) (hf : k.faults = []) (hg : Grows e.kernel k) :
    Sound { e with kernel := k } ∧ Evolves e { e with kernel := k } := by
  have hev : Evolves e { e with kernel := k } := ⟨hg.ext, List.prefix_refl _⟩
  refine ⟨⟨hc, ho, hf, hs.nodup, hs.size.trans hg.varnum.symm, hg.varnum ▸ hs.bounded, hs.named,
    ?_⟩, hev⟩
  intro x s hx
  obtain ⟨hlt, hr⟩ := hs.rendered x s hx
  exact ⟨Nat.lt_of_lt_of_le hlt hg.ext.size_le, hr.evolves hs hev hlt⟩

/-- Taking the faults of a table that grew soundly from the engine's keeps the invariant:
recorded faults are cleared, and nothing else changes. -/
theorem Sound.takeFaults {e : Engine} (hs : Sound e) {k : Kernel} (hc : CacheSound k)
    (ho : Ordered k) (hg : Grows e.kernel k) :
    Sound (takeFaults.run { e with kernel := k }).2 ∧
      Evolves e (takeFaults.run { e with kernel := k }).2 ∧
      (takeFaults.run { e with kernel := k }).2.names = e.names := by
  rw [takeFaults_run]
  split
  · exact ⟨(hs.withKernel hc ho (List.isEmpty_iff.1 ‹_›) hg).1,
      (hs.withKernel hc ho (List.isEmpty_iff.1 ‹_›) hg).2, rfl⟩
  · have hg' : Grows e.kernel k.clearError :=
      ⟨hg.ext.trans (.of_eq rfl rfl), hg.varnum, hg.varset, hg.limits,
        fun h => absurd hs.faults h⟩
    have h := hs.withKernel (k := k.clearError) (hc.mono ho.structured (.of_eq rfl rfl) rfl rfl)
      (ho.of_eq _ rfl rfl rfl rfl rfl) rfl hg'
    exact ⟨h.1, h.2, rfl⟩

/-! ### Substitution -/

/-- A step of an engine computation runs on the state the step before it left. -/
theorem run_bind {α β : Type} (x : EngineM α) (f : α → EngineM β) (e : Engine) :
    (x >>= f).run e = (f (x.run e).1).run (x.run e).2 :=
  rfl

theorem run_get (e : Engine) : (get : EngineM Engine).run e = (e, e) :=
  rfl

theorem run_modify (f : Engine → Engine) (e : Engine) :
    (modify f : EngineM Unit).run e = ((), f e) :=
  rfl

theorem run_pure {α : Type} (a : α) (e : Engine) : (pure a : EngineM α).run e = (a, e) :=
  rfl

theorem substitute_run_none {e : Engine} {name : String} (h : e.level? name = none) (x : Nat)
    (val : Bool) : (substitute x name val).run e = (.ok x, e) := by
  simp only [substitute, run_bind, run_get, h, run_pure]

theorem substitute_run_some {e : Engine} {name : String} {lvl : Nat} (h : e.level? name = some lvl)
    (x : Nat) (val : Bool) :
    (substitute x name val).run e =
      let r := (Kernel.restrict x lvl val).run e.kernel
      let t := takeFaults.run { e with kernel := r.2 }
      match t.1 with
      | some fs => (.error ((Failure.of (.kernel fs)).within
          ("cannot substitute " ++ name ++ "=" ++ (if val then "true" else "false"))), t.2)
      | none => (.ok r.1.toNat, t.2) := by
  simp only [substitute, run_bind, run_get, h, onKernel_run]
  generalize StateT.run takeFaults _ = t
  rcases t with ⟨_ | fs, t⟩ <;> rfl

theorem Sound.level_lt {e : Engine} (hs : Sound e) {name : String} {lvl : Nat}
    (h : e.level? name = some lvl) : lvl < e.kernel.varnum :=
  hs.size ▸ ((level?_eq_some hs.nodup).1 h).1

/-- Restricting an expression at a declared level: the run builds the cofactor. -/
theorem Sound.restrict_builds {e : Engine} (hs : Sound e) {name : String} {lvl : Nat}
    (h : e.level? name = some lvl) (x : Nat) (val : Bool) :
    Builds e.kernel ((Kernel.restrict x lvl val).run e.kernel).2
      ((Kernel.restrict x lvl val).run e.kernel).1
      fun σ => e.kernel.walk (fixLevel σ lvl val) x := by
  have hlt := hs.level_lt h
  have hb := Kernel.restrict_builds hs.cache hs.ordered x val (Int.natCast_nonneg lvl)
    (Int.le_trans (Int.ofNat_le.2 (Nat.le_of_lt hlt)) hs.bounded)
  simpa using hb

/-- Substitution keeps the invariant and the names, whether it succeeds or not. -/
theorem substitute_sound {e : Engine} (hs : Sound e) (x : Nat) (name : String) (val : Bool) :
    Sound ((substitute x name val).run e).2 ∧ Evolves e ((substitute x name val).run e).2 ∧
      ((substitute x name val).run e).2.names = e.names := by
  rcases h : e.level? name with _ | lvl
  · rw [substitute_run_none h]
    exact ⟨hs, .refl e, rfl⟩
  · have hb := hs.restrict_builds h x val
    have ht := hs.takeFaults hb.sound hb.ordered hb.grows
    rw [substitute_run_some h]
    dsimp only
    split <;> exact ht

/-- A substitution that succeeds answers the cofactor: the expression with the name's value
fixed. -/
theorem substitute_value {e : Engine} (hs : Sound e) {x : Nat} (hx : x < e.kernel.nodes.size)
    {name : String} {val : Bool} {y : Nat} (h : ((substitute x name val).run e).1 = .ok y) :
    y < ((substitute x name val).run e).2.kernel.nodes.size ∧
      ∀ σ, ((substitute x name val).run e).2.value y σ = e.value x (Function.update σ name val) := by
  rcases hl : e.level? name with _ | lvl
  · rw [substitute_run_none hl] at h ⊢
    cases h
    refine ⟨hx, fun σ => ?_⟩
    rw [value, value, walk_congr_of_ordered hs.ordered (fun l hl' =>
      (levels_update_of_none hl σ val (hs.size ▸ hl')).symm) x hx]
  · have hb := hs.restrict_builds hl x val
    rw [substitute_run_some hl] at h ⊢
    dsimp only at h ⊢
    split at h
    · cases h
    · rename_i hnone
      have hf := takeFaults_eq_none hnone
      rw [takeFaults_of_nil hf]
      obtain ⟨v, hv, hvlt, hw⟩ := hb.answers hf
      cases h
      rw [hv, Int.toNat_natCast]
      refine ⟨hvlt, fun σ => ?_⟩
      -- the cofactor reads the levels of the name's value fixed, which are the levels of the
      -- updated assignment
      have hlev := walk_congr_of_ordered hs.ordered (fun l hl' =>
        levels_update hs.nodup hl σ val (hs.size ▸ hl')) x hx
      simp only [value, hw]
      exact congrArg (· == 1) hlev.symm

/-! ### Declaring names -/

/-- The names after declaring `xs`: each one not declared yet is appended. -/
def declaredNames (ns : Array String) (xs : List String) : Array String :=
  xs.foldl (fun ns x => if ns.contains x then ns else ns.push x) ns

theorem declaredNames_spec (xs : List String) {ns : Array String} (hd : ns.toList.Nodup) :
    (declaredNames ns xs).toList.Nodup ∧ ns.toList <+: (declaredNames ns xs).toList ∧
      ∀ x, x ∈ (declaredNames ns xs).toList ↔ x ∈ ns.toList ∨ x ∈ xs := by
  induction xs generalizing ns with
  | nil => simp [declaredNames, hd]
  | cons y ys ih =>
    simp only [declaredNames, List.foldl_cons] at ih ⊢
    by_cases hy : ns.contains y
    · rw [if_pos hy]
      obtain ⟨h1, h2, h3⟩ := ih hd
      refine ⟨h1, h2, fun x => ?_⟩
      rw [h3]
      have hy' : y ∈ ns.toList := by simpa using hy
      constructor
      · rintro (h | h)
        · exact .inl h
        · exact .inr (List.mem_cons_of_mem y h)
      · rintro (h | h)
        · exact .inl h
        · rcases List.mem_cons.1 h with rfl | h
          · exact .inl hy'
          · exact .inr h
    · rw [if_neg hy]
      have hy' : y ∉ ns.toList := by simpa using hy
      have hd' : (ns.push y).toList.Nodup := by
        rw [Array.toList_push]
        exact hd.append (List.nodup_singleton y) (List.disjoint_singleton.2 hy')
      obtain ⟨h1, h2, h3⟩ := ih hd'
      refine ⟨h1, (List.prefix_append _ [y]).trans (by simpa using h2), fun x => ?_⟩
      rw [h3]
      simp only [Array.toList_push, List.mem_append, List.mem_cons]
      tauto

theorem declare_run (xs : List String) (e : Engine) :
    (declare xs).run e =
      if (declaredNames e.names xs).size = e.kernel.varnum then
        (none, { e with names := declaredNames e.names xs })
      else
        (((setVarnum (declaredNames e.names xs).size).run e.kernel).1,
          { e with names := declaredNames e.names xs,
                   kernel := ((setVarnum (declaredNames e.names xs).size).run e.kernel).2 }) := by
  simp only [declare, run_bind, run_get, run_modify]
  unfold declaredNames
  by_cases hc : (xs.foldl (fun ns x => if ns.contains x then ns else ns.push x) e.names).size =
    e.kernel.varnum
  · simp only [hc, ↓reduceIte, run_pure]
  · simp only [hc, ↓reduceIte]
    rw [onKernel_run]

theorem declaredNames_size_le (ns : Array String) (xs : List String) :
    (declaredNames ns xs).size ≤ ns.size + xs.length := by
  induction xs generalizing ns with
  | nil => simp [declaredNames]
  | cons y ys ih =>
    simp only [declaredNames, List.foldl_cons, List.length_cons] at ih ⊢
    split
    · exact Nat.le_trans (ih ns) (by omega)
    · exact Nat.le_trans (ih _) (by simp; omega)

/-- A declaration that answers no fault leaves the declared names and a sound, ordered table
that extends the old one; it has one variable for each name, unless there are at least `2 ^ 31`
names. -/
theorem declare_none {e : Engine} (hs : Sound e) {xs : List String} {e₁ : Engine}
    (h : (declare xs).run e = (none, e₁)) :
    e₁.names = declaredNames e.names xs ∧ e₁.rendered = e.rendered ∧ CacheSound e₁.kernel ∧
      Ordered e₁.kernel ∧ Extends e.kernel e₁.kernel ∧ (e₁.kernel.varnum : Int) ≤ maxVariables ∧
      (e₁.kernel.varnum = e₁.names.size ∨ 2147483648 ≤ e₁.names.size) := by
  rw [declare_run] at h
  split at h
  · rename_i hsize
    cases h
    exact ⟨rfl, rfl, hs.cache, hs.ordered, .refl _, hs.bounded, .inl hsize.symm⟩
  · -- the table after the declaration, with its answer
    generalize hp : (setVarnum ((declaredNames e.names xs).size : Int)).run e.kernel = p at h
    obtain ⟨r₁, k₁⟩ := p
    obtain ⟨rfl, rfl⟩ := Prod.mk.inj h
    have h1 : ((setVarnum ((declaredNames e.names xs).size : Int)).run e.kernel).1 = none := by
      rw [hp]
    obtain ⟨hbad, hvar⟩ := setVarnum_none h1
    have hc₁ := (setVarnum_cacheSound ((declaredNames e.names xs).size : Int)
      hs.ordered.structured hs.cache).2
    have ho₁ := setVarnum_ordered _ hs.ordered (fun hout => hout.2 h1)
    have hext := setVarnum_extends ((declaredNames e.names xs).size : Int) hs.ordered.structured
    rw [hp] at hvar hc₁ ho₁ hext
    refine ⟨rfl, rfl, hc₁, ho₁, hext, ?_, ?_⟩
    · dsimp only at hvar ⊢
      rw [hvar]
      omega
    · dsimp only at hvar ⊢
      by_cases hbig : 2147483648 ≤ (declaredNames e.names xs).size
      · exact .inr hbig
      · left
        rw [hvar, wrap32_of_lt (Int.natCast_nonneg _) (by omega), Int.toNat_natCast]

/-! ### Reading and compiling a formula -/

theorem parseAndSimplify_ok {text : String} {e : Engine} {n : Nat}
    (h : ((parseAndSimplify text).run e).1 = .ok n) :
    ∃ f e₁ r k, Formula.parse text = .ok f ∧ (declare (variablesOf text)).run e = (none, e₁) ∧
      (compile e₁.levelOf f).run e₁.kernel = (r, k) ∧ k.faults = [] ∧ n = r.toNat ∧
      ((parseAndSimplify text).run e).2 = { e₁ with kernel := k } := by
  unfold parseAndSimplify at h ⊢
  split at h
  · cases h
  rename_i f hf
  rw [hf]
  rw [run_bind] at h ⊢
  generalize hd : (declare (variablesOf text)).run e = d at h ⊢
  obtain ⟨_ | fs, e₁⟩ := d
  · dsimp only at h ⊢
    rw [run_bind, run_get, run_bind, onKernel_run, run_bind] at h ⊢
    generalize hc : (compile e₁.levelOf f).run e₁.kernel = c at h ⊢
    obtain ⟨r, k⟩ := c
    dsimp only at h ⊢
    generalize ht : takeFaults.run { e₁ with kernel := k } = t at h ⊢
    obtain ⟨_ | fs, e₂⟩ := t
    · have hk := takeFaults_eq_none (congrArg Prod.fst ht)
      rw [takeFaults_of_nil hk] at ht
      cases ht
      simp only [run_pure, Except.ok.injEq] at h
      exact ⟨f, e₁, r, k, rfl, rfl, hc, hk, h.symm, rfl⟩
    · cases h
  · cases h

theorem isLiteral_names {f : Formula} (h : isLiteral f) : ∃ x, f.names = [x] := by
  cases f with
  | var x => exact ⟨x, rfl⟩
  | not g =>
    cases g with
    | var x => exact ⟨x, rfl⟩
    | not _ => cases h
    | bin _ _ _ => cases h
  | bin _ _ _ => cases h

/-- After the names of a formula were declared, a compilation without fault needed a level for
each name: the number of variables is the number of names. -/
theorem declared_size {e : Engine} (hs : Sound e) {g : Formula} {e₁ : Engine}
    (hd : (declare (firstOccurrences g.names)).run e = (none, e₁))
    (hf : ((compile e₁.levelOf g).run e₁.kernel).2.faults = []) :
    e₁.names.size = e₁.kernel.varnum := by
  obtain ⟨hnames, -, hc₁, ho₁, -, hbound, hvarnum⟩ := declare_none hs hd
  obtain ⟨hnodup, hpre, hmem⟩ := declaredNames_spec (firstOccurrences g.names) hs.nodup
  rw [← hnames] at hnodup hpre hmem
  rcases hvarnum with heq | hbig
  · exact heq.symm
  exfalso
  have hold : e.names.size ≤ 2097151 := by
    have := hs.bounded
    rw [← hs.size] at this
    unfold maxVariables at this
    omega
  rcases compile_levels e₁.levelOf g hc₁ ho₁ hf with hlev | ⟨hlit, -⟩
  · -- the last name is a new one, from the formula, and its level is past every variable
    have hlast : e₁.names.size - 1 < e₁.names.size := by omega
    have hnew : e₁.names[e₁.names.size - 1] ∉ e.names.toList := by
      intro hin
      obtain ⟨i, hi, hget⟩ := List.getElem_of_mem hin
      have hi' : i < e₁.names.size := by simpa using Nat.lt_of_lt_of_le hi hpre.length_le
      have hii := level_inj hnodup hi' hlast (by simpa [hget] using (hpre.getElem hi).symm)
      have : i < e.names.size := by simpa using hi
      omega
    have hg : e₁.names[e₁.names.size - 1] ∈ g.names := by
      rcases (hmem _).1 (Array.getElem_mem_toList hlast) with h | h
      · exact absurd h hnew
      · exact mem_firstOccurrences.1 h
    have hl := hlev _ hg
    obtain ⟨hlt, hget⟩ := levelOf_of_mem hnodup (Array.getElem_mem_toList hlast)
    have hpos := level_inj hnodup hlt hlast hget
    have hmax : (e₁.kernel.varnum : Int) ≤ 2097151 := hbound
    omega
  · -- a literal names one variable, and there were few before it
    have hfo : (firstOccurrences g.names).length ≤ 1 := by
      obtain ⟨x, hx⟩ := isLiteral_names hlit
      simp [hx, firstOccurrences]
    have := declaredNames_size_le e.names (firstOccurrences g.names)
    rw [← hnames] at this
    omega

theorem terminalOf_beq_one (b : Bool) : (terminalOf b == 1) = b := by
  cases b <;> rfl

/-- Reading and compiling the linear text of a formula whose variables are names: a success
keeps the invariant and answers an expression with the truth values of the formula. -/
theorem parseAndSimplify_linear {e : Engine} (hs : Sound e) {g : Formula}
    (hg : ∀ x ∈ g.names, Token.isName x) {n : Nat}
    (h : ((parseAndSimplify g.linear).run e).1 = .ok n) :
    Sound ((parseAndSimplify g.linear).run e).2 ∧ Evolves e ((parseAndSimplify g.linear).run e).2 ∧
      n < ((parseAndSimplify g.linear).run e).2.kernel.nodes.size ∧
      ∀ σ, ((parseAndSimplify g.linear).run e).2.value n σ = g.eval σ := by
  obtain ⟨f, e₁, r, k, hf, hd, hc, hk, rfl, he⟩ := parseAndSimplify_ok h
  rw [Formula.parse_linear g hg] at hf
  cases hf
  rw [he]
  rw [variablesOf, Formula.identifiers_linear g hg] at hd
  obtain ⟨hnames, hrend, hc₁, ho₁, hext, hbound, -⟩ := declare_none hs hd
  obtain ⟨hnodup, hpre, hmem⟩ := declaredNames_spec (firstOccurrences g.names) hs.nodup
  rw [← hnames] at hnodup hpre hmem
  have hin : ∀ x ∈ g.names, x ∈ e₁.names.toList :=
    fun x hx => (hmem x).2 (.inr (mem_firstOccurrences.2 hx))
  have hgrow := compile_grows e₁.levelOf g hc₁ ho₁
  rw [hc] at hgrow
  have hk₁ : e₁.kernel.faults = [] :=
    Classical.byContradiction fun hne => hgrow.2.2.faults hne hk
  have hsize := declared_size hs hd (by rw [hc]; exact hk)
  have hev : Evolves e e₁ := ⟨hext, hpre⟩
  have hs₁ : Sound e₁ := by
    refine ⟨hc₁, ho₁, hk₁, hnodup, hsize, hbound, fun x hx => ?_, fun x s hx => ?_⟩
    · rcases (hmem x).1 hx with h | h
      · exact hs.named x h
      · exact hg x (mem_firstOccurrences.1 h)
    · rw [hrend] at hx
      obtain ⟨hlt, hr⟩ := hs.rendered x s hx
      exact ⟨Nat.lt_of_lt_of_le hlt hext.size_le, hr.evolves hs hev hlt⟩
  have hlev : ∀ x ∈ g.names, e₁.levelOf x < e₁.kernel.varnum :=
    fun x hx => hsize ▸ (levelOf_of_mem hnodup (hin x hx)).1
  have hb := compile_builds e₁.levelOf g hc₁ ho₁ hbound hlev
  rw [hc] at hb
  obtain ⟨v, rfl, hvlt, hw⟩ := hb.answers hk
  obtain ⟨hs', hev'⟩ := hs₁.withKernel hb.sound hb.ordered hk hb.grows
  refine ⟨hs', hev.trans hev', by simpa using hvlt, fun σ => ?_⟩
  -- each name's level reads the name's value
  have heval : (g.eval fun x => e₁.levels σ (e₁.levelOf x)) = g.eval σ :=
    Formula.eval_congr fun x hx => levels_levelOf hnodup (hin x hx) σ
  rw [value, Int.toNat_natCast, show levels { e₁ with kernel := k } σ = e₁.levels σ from rfl]
  simp only [hw]
  rw [heval, terminalOf_beq_one]

end Engine

end DecisionDiagrams
