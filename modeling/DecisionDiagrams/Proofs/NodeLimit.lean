/-
The node limit is the only cause of failure on a sound engine.

A table records a fault of its own only when it is full (`Fault.tableFull`). The recursions that
build nodes record one more fault when they cannot finish, but only after a node could not be
made below them, and an operation refuses its result only when a fault is recorded. So on a table
without faults every chain of faults that negation or restriction leaves holds the node limit. On
a sound engine a substitution and a rendering therefore fail only for the node limit, and whether
they fail or not they leave the engine sound, later and with its names.

* `Failure.OfMemory` — a failure whose cause is a chain of faults of the table holding the node
  limit; it is reported as a memory error.
* `Kernel.Blamed`, `Kernel.Failed` — the faults a step adds: none or a chain holding the node
  limit, resp. such a chain.
* `Kernel.Memo.go_faults` — a run of a recursion adds nothing or a chain holding the node limit,
  and such a chain when it answers no node.
* `Engine.Leaves` — what a call on a sound engine leaves.
* `Engine.substitute_leaves`, `Engine.render_leaves`, `Diagram.expand_leaves` — the calls of a
  build fail only for the node limit.
-/
import DecisionDiagrams.Proofs.BuildEngine

namespace DecisionDiagrams

namespace Fault

@[simp] theorem chainIsMemory_nil : chainIsMemory [] = false := rfl

@[simp] theorem chainIsMemory_cons (f : Fault) (fs : List Fault) :
    chainIsMemory (f :: fs) = (f.isMemory || chainIsMemory fs) :=
  List.any_cons

@[simp] theorem chainIsMemory_append (fs gs : List Fault) :
    chainIsMemory (fs ++ gs) = (chainIsMemory fs || chainIsMemory gs) :=
  List.any_append

end Fault

namespace Failure

/-- A failure caused by the node limit: its cause is a chain of faults of the table that holds
the limit. -/
def OfMemory (f : Failure) : Prop :=
  ∃ fs, f.cause = .kernel fs ∧ Fault.chainIsMemory fs = true

theorem OfMemory.within {f : Failure} (h : f.OfMemory) (ctx : String) : (f.within ctx).OfMemory :=
  h

/-- A failure of the node limit is reported as a memory error. -/
theorem OfMemory.kind_eq {f : Failure} (h : f.OfMemory) : f.kind = "MemoryError" := by
  obtain ⟨fs, hc, hm⟩ := h
  simp [kind, hc, hm]

end Failure

namespace Kernel

/-- The faults that a step from `k` to `k'` adds in front of those of `k`: none, or a chain
holding the node limit. -/
def Blamed (k k' : Kernel) : Prop :=
  ∃ new, k'.faults = new ++ k.faults ∧ (new = [] ∨ Fault.chainIsMemory new = true)

/-- A step from `k` to `k'` that adds a chain of faults holding the node limit. -/
def Failed (k k' : Kernel) : Prop :=
  ∃ new, k'.faults = new ++ k.faults ∧ Fault.chainIsMemory new = true

section Steps

variable {k k' k'' : Kernel}

theorem Blamed.of_faults (h : k'.faults = k.faults) : Blamed k k' :=
  ⟨[], by rw [h, List.nil_append], .inl rfl⟩

theorem Failed.blamed (h : Failed k k') : Blamed k k' :=
  let ⟨new, hf, hm⟩ := h
  ⟨new, hf, .inr hm⟩

theorem Blamed.trans (h : Blamed k k') (h' : Blamed k' k'') : Blamed k k'' := by
  obtain ⟨new, hf, hm⟩ := h
  obtain ⟨new', hf', hm'⟩ := h'
  refine ⟨new' ++ new, by rw [hf', hf, List.append_assoc], ?_⟩
  rcases hm with rfl | hm
  · rcases hm' with rfl | hm'
    · exact .inl rfl
    · exact .inr (by simp [hm'])
  · exact .inr (by simp [hm])

theorem Failed.trans_blamed (h : Failed k k') (h' : Blamed k' k'') : Failed k k'' := by
  obtain ⟨new, hf, hm⟩ := h
  obtain ⟨new', hf', -⟩ := h'
  exact ⟨new' ++ new, by rw [hf', hf, List.append_assoc], by simp [hm]⟩

theorem Blamed.trans_failed (h : Blamed k k') (h' : Failed k' k'') : Failed k k'' := by
  obtain ⟨new, hf, -⟩ := h
  obtain ⟨new', hf', hm'⟩ := h'
  exact ⟨new' ++ new, by rw [hf', hf, List.append_assoc], by simp [hm']⟩

/-- A fault recorded after the node limit keeps the chain holding it. -/
theorem Failed.record (h : Failed k k') (f : Fault) : Failed k (k'.record f) := by
  obtain ⟨new, hf, hm⟩ := h
  exact ⟨f :: new, by rw [record_faults, hf, List.cons_append], by simp [hm]⟩

/-- A table that a step failed on has faults, when it had none before. -/
theorem Failed.faults_ne_nil (h : Failed k k') : k'.faults ≠ [] := by
  obtain ⟨new, hf, hm⟩ := h
  rintro hnil
  rw [hnil] at hf
  obtain rfl := (List.append_eq_nil_iff.1 hf.symm).1
  simp at hm

/-- From a table without faults, the faults a step adds are those the table then has: none, or
a chain holding the node limit. -/
theorem Blamed.of_nil (h : Blamed k k') (hk : k.faults = []) :
    k'.faults = [] ∨ Fault.chainIsMemory k'.faults = true := by
  obtain ⟨new, hf, hm⟩ := h
  rw [hk, List.append_nil] at hf
  rw [hf]
  exact hm

end Steps

/-- Making a node adds no fault unless the table is full; then it adds the node limit and makes
no node. A missing child makes no node either. -/
theorem node_faults (level : Nat) (lo hi : Option Nat) (k : Kernel) :
    Blamed k (node level lo hi k).2 ∧
      ((node level lo hi k).1 = none → lo = none ∨ hi = none ∨ Failed k (node level lo hi k).2) := by
  rcases lo with _ | a
  · exact ⟨.of_faults rfl, fun _ => .inl rfl⟩
  rcases hi with _ | b
  · exact ⟨.of_faults rfl, fun _ => .inr (.inl rfl)⟩
  -- both children: equal children, a known triple, a full table or a new node
  simp only [node]
  split
  · exact ⟨.of_faults rfl, fun h => by cases h⟩
  split
  · exact ⟨.of_faults rfl, fun h => by cases h⟩
  split
  · exact ⟨(show Failed k _ from ⟨[.tableFull level a b], rfl, rfl⟩).blamed,
      fun _ => .inr (.inr ⟨[.tableFull level a b], rfl, rfl⟩)⟩
  · exact ⟨.of_faults (by simp), fun h => by cases h⟩

/-- The answer of an operation adds no fault when the run answered a node, or recorded the node
limit already. -/
theorem answer_faults {k k' : Kernel} {r : Option Nat} (hb : Blamed k k')
    (hr : r = none → Failed k k') : Blamed k ((answer r).run k').2 := by
  rw [answer_run]
  cases r with
  | some v => exact hb
  | none =>
    have hne : k'.faults.isEmpty = false :=
      List.isEmpty_eq_false_iff.2 ((hr rfl).faults_ne_nil)
    simp only [hne, Bool.false_eq_true, if_false]
    exact hb

namespace Memo

variable {κ : Type} (m : Memo κ)

/-- Storing an answer adds no fault; storing none records the recursion's fault, after the node
limit. -/
theorem store_faults (x : κ) {k₀ k : Kernel} {r : Option Nat} (hb : Blamed k₀ k)
    (hr : r = none → Failed k₀ k) :
    Blamed k₀ (m.store x r k).2 ∧ ((m.store x r k).1 = none → Failed k₀ (m.store x r k).2) := by
  cases r with
  | none =>
    have hf : Failed k₀ (k.record (m.fault x)) := (hr rfl).record _
    exact ⟨hf.blamed, fun _ => hf⟩
  | some v =>
    obtain ⟨a, c, hw⟩ := m.write_eq x v k
    have hb' : Blamed k₀ (m.write x v k) := by
      rw [hw]
      exact hb
    exact ⟨hb', fun h => by cases h⟩

/-- A run of a recursion adds no fault or a chain holding the node limit, and the latter when it
answers no node: the node it could not make was refused by a full table, or lies above a child it
could not make. The induction is on the measure of the argument, as the recursion's. -/
theorem go_faults :
    ∀ (x : κ) (k : Kernel), Blamed k (m.go x k).2 ∧ ((m.go x k).1 = none → Failed k (m.go x k).2) := by
  intro x
  induction h : m.measure x using Nat.strongRecOn generalizing x with
  | ind n ih =>
  intro k
  cases hb : m.base k x with
  | some w =>
    rw [m.go_base hb]
    exact ⟨.of_faults rfl, fun h => by cases h⟩
  | none =>
  rw [m.go_split hb]
  have hlt := m.split_lt k x hb
  cases hread : m.read x k with
  | some w =>
    rw [m.lookup_hit hread]
    exact ⟨.of_faults rfl, fun h => by cases h⟩
  | none =>
  rw [m.lookup_miss hread]
  dsimp only
  -- the two children, the node of their answers, then the store
  have h₁ : Blamed k (k.count fun c => { c with opMiss := c.opMiss + 1 }) := .of_faults rfl
  obtain ⟨hp, hpn⟩ := ih _ (h ▸ hlt.1) _ rfl (k.count fun c => { c with opMiss := c.opMiss + 1 })
  generalize m.go (m.split k x).2.1 (k.count fun c => { c with opMiss := c.opMiss + 1 }) = p
    at hp hpn
  obtain ⟨hq, hqn⟩ := ih _ (h ▸ hlt.2) _ rfl p.2
  generalize m.go (m.split k x).2.2 p.2 = q at hq hqn
  obtain ⟨hr, hrn⟩ := node_faults (m.split k x).1 p.1 q.1 q.2
  generalize node (m.split k x).1 p.1 q.1 q.2 = r at hr hrn
  refine m.store_faults x (h₁.trans (hp.trans (hq.trans hr))) fun hnone => ?_
  rcases hrn hnone with hpn' | hqn' | hf
  · exact h₁.trans_failed ((hpn hpn').trans_blamed (hq.trans hr))
  · exact h₁.trans_failed (hp.trans_failed ((hqn hqn').trans_blamed hr))
  · exact h₁.trans_failed (hp.trans_failed (hq.trans_failed hf))

end Memo

/-- Negating a node of the table adds no fault or a chain holding the node limit. -/
theorem negate_faults {k : Kernel} {n : Nat} (hn : n < k.nodes.size) :
    Blamed k ((negate n).run k).2 := by
  rw [negate_run, if_neg (by omega)]
  dsimp only
  rw [negateNode_run, Int.toNat_natCast]
  obtain ⟨hb, hf⟩ := negMemo.go_faults n k
  exact answer_faults hb hf

/-- Restricting a node of the table at a level of a variable adds no fault or a chain holding
the node limit. -/
theorem restrict_faults {k : Kernel} {n lvl : Nat} (hn : n < k.nodes.size) (hlvl : lvl < k.varnum)
    (hvar : (k.varnum : Int) ≤ maxVariables) (val : Bool) :
    Blamed k ((restrict n lvl val).run k).2 := by
  have hwrap : wrap32 (lvl : Int) = lvl := wrap32_of_le (Int.natCast_nonneg _) (by omega)
  rw [restrict_run, if_neg (by omega), if_neg (by omega), if_neg (by omega)]
  dsimp only
  rw [restrictNode_run]
  obtain ⟨hb, hf⟩ := (restrictMemo (wrap32 (lvl : Int)).toNat val
    (2 * (lvl : Int).toNat + 1 + if val then 1 else 0)).go_faults (n : Int).toNat k
  exact answer_faults hb hf

end Kernel

namespace Engine

open Kernel

/-- What a call on the sound engine `e` leaves: a sound engine, later than `e` and with its
names, and an answer with `Q`, unless the call failed for the node limit. -/
structure Leaves {α : Type} (e : Engine) (Q : α → Engine → Prop) (r : Except Failure α × Engine) :
    Prop where
  sound : Sound r.2
  later : Later e r.2
  names : r.2.names = e.names
  answer : ∀ v, r.1 = .ok v → Q v r.2
  memory : ∀ f, r.1 = .error f → f.OfMemory

/-- A call that answers at once leaves the engine as it is. -/
theorem leaves_ok {α : Type} {e : Engine} (hs : Sound e) {Q : α → Engine → Prop} {v : α}
    (hq : Q v e) : Leaves e Q (.ok v, e) :=
  ⟨hs, .refl e, rfl, fun _ h => by cases h; exact hq, fun _ h => by cases h⟩

/-- The faults that a sound engine's table took, when there are some: a failure of the node
limit. -/
theorem ofMemory_of_taken {e : Engine} (hs : Sound e) {k : Kernel} (hb : Blamed e.kernel k)
    (hne : k.faults.isEmpty = false) (ctx : String) :
    ((Failure.of (.kernel k.faults)).within ctx).OfMemory := by
  refine ⟨k.faults, rfl, ?_⟩
  rcases hb.of_nil hs.faults with h | h
  · rw [h] at hne
    cases hne
  · exact h

/-- A substitution on a sound engine fails only for the node limit. -/
theorem substitute_fails {e : Engine} (hs : Sound e) {x : Nat} (hx : x < e.kernel.nodes.size)
    (name : String) (val : Bool) (f : Failure) (hf : ((substitute x name val).run e).1 = .error f) :
    f.OfMemory := by
  rcases hl : e.level? name with _ | lvl
  · rw [substitute_run_none hl] at hf
    cases hf
  · have hb := restrict_faults hx (hs.level_lt hl) hs.bounded val
    rw [substitute_run_some hl] at hf
    dsimp only at hf
    rw [takeFaults_run] at hf
    cases hne : (StateT.run (restrict x lvl val) e.kernel).2.faults.isEmpty
    · rw [if_neg (by rw [hne]; decide)] at hf
      cases hf
      exact ofMemory_of_taken hs hb hne _
    · rw [if_pos hne] at hf
      cases hf

/-- A substitution on a sound engine answers the cofactor, unless it fails for the node limit. -/
theorem substitute_leaves {e : Engine} (hs : Sound e) {x : Nat} (hx : x < e.kernel.nodes.size)
    (name : String) (val : Bool) :
    Leaves e (fun y e' => y < e'.kernel.nodes.size ∧
      ∀ σ, e'.value y σ = e.value x (Function.update σ name val)) ((substitute x name val).run e) := by
  obtain ⟨hs', hev, hnames⟩ := substitute_sound hs x name val
  obtain ⟨hr, -⟩ := substitute_keeps hs x name val
  exact ⟨hs', ⟨hev, fun z t hz => by rw [hr]; exact hz⟩, hnames, fun y hy => substitute_value hs hx hy,
    substitute_fails hs hx name val⟩

/-- Rendering an expression whose negation records faults fails with them, and the engine keeps
the table with the faults cleared. -/
theorem render_run_of_faults {e : Engine} (hs : Sound e) {x : Nat} (hx : x < e.kernel.nodes.size)
    (h2 : 2 ≤ x) (hmemo : e.rendered[x]? = none)
    (hne : ((negate x).run e.kernel).2.faults.isEmpty = false) :
    (render x).run e = (.error ((Failure.of (.kernel ((negate x).run e.kernel).2.faults)).within
      "cannot render"), { e with kernel := ((negate x).run e.kernel).2.clearError }) := by
  obtain ⟨dnf, hdnf, -⟩ := cover_run hs hx false
  unfold render
  rw [if_neg (by omega), if_neg (by omega)]
  simp only [run_bind, run_get, hmemo, hdnf, onKernel_run, takeFaults_run, hne,
    Bool.false_eq_true, if_false, run_pure]

/-- Rendering on a sound engine fails only for the node limit; a fresh text is remembered only
when it was computed, and it reads back as the expression. -/
theorem render_leaves {e : Engine} (hs : Sound e) {x : Nat} (hx : x < e.kernel.nodes.size) :
    Leaves e (fun _ _ => True) ((render x).run e) := by
  by_cases h1 : x = 1
  · subst h1
    exact leaves_ok hs trivial
  by_cases h0 : x = 0
  · subst h0
    exact leaves_ok hs trivial
  have h2 : 2 ≤ x := by omega
  rcases hm : e.rendered[x]? with _ | s
  · have hb := negate_builds hs.cache hs.ordered x
    cases hne : ((negate x).run e.kernel).2.faults.isEmpty
    · -- the negation ran out of nodes: its faults are the failure, and they are cleared
      rw [render_run_of_faults hs hx h2 hm hne]
      obtain ⟨hs', hev, hn⟩ := hs.takeFaults hb.sound hb.ordered hb.grows
      rw [takeFaults_run, if_neg (by rw [hne]; decide)] at hs' hev hn
      exact ⟨hs', ⟨hev, fun _ _ h => h⟩, hn, (fun _ h => by cases h),
        fun f hf => by
          cases hf
          exact ofMemory_of_taken hs (negate_faults hx) hne _⟩
    · -- a fresh text, remembered after the negation was built
      obtain ⟨s, k₁, hrun, hg, hc, ho, hk, hr, -⟩ :=
        render_fresh hs hx h2 hm (List.isEmpty_iff.1 hne)
      rw [hrun]
      obtain ⟨hs₁, hev₁⟩ := hs.withKernel hc ho hk hg
      refine ⟨hs₁.remember (Nat.lt_of_lt_of_le hx hg.ext.size_le) (hr.evolves hs hev₁ hx),
        ⟨⟨hev₁.ext, hev₁.names⟩, fun y t hy => ?_⟩, rfl, fun _ _ => trivial, fun _ h => by cases h⟩
      -- the one key written was not remembered before
      show (e.rendered.insert x s)[y]? = some t
      rw [Std.HashMap.getElem?_insert, if_neg fun hxy => by
        rw [← beq_iff_eq.1 hxy, hm] at hy; cases hy]
      exact hy
  · rw [render_run_of_rendered h1 h0 hm]
    exact leaves_ok hs trivial

end Engine

open Engine

/-- Expanding a residual of a sound engine on a variable answers the residuals with the variable
set true (high) and false (low), unless a substitution fails for the node limit. -/
theorem Diagram.expand_leaves {e : Engine} (hs : Sound e) {r : Residual} (hr : r.Valid e)
    (v : String) :
    Engine.Leaves e (fun p e' => p.1.Valid e' ∧ p.2.Valid e' ∧
      ∀ σ, p.1.holds e' σ = r.holds e (Function.update σ v true) ∧
        p.2.holds e' σ = r.holds e (Function.update σ v false)) ((Diagram.expand r v).run e) := by
  have hx := Residual.node_lt hs hr
  have L₁ := Engine.substitute_leaves hs hx v true
  rw [Diagram.expand_eq, run_bind]
  rcases h₁ : (substitute r.node v true).run e with ⟨g | hi, e₁⟩
  · rw [h₁] at L₁
    dsimp only
    rw [run_pure]
    exact ⟨L₁.sound, L₁.later, L₁.names, (fun _ h => by cases h), fun f hf => by
      cases hf
      exact L₁.memory g rfl⟩
  rw [h₁] at L₁
  obtain ⟨hilt, hival⟩ := L₁.answer hi rfl
  have hx₁ := Nat.lt_of_lt_of_le hx L₁.later.evolves.ext.size_le
  have L₂ := Engine.substitute_leaves L₁.sound hx₁ v false
  dsimp only
  rw [run_bind]
  rcases h₂ : (substitute r.node v false).run e₁ with ⟨g | lo, e₂⟩
  · rw [h₂] at L₂
    dsimp only
    rw [run_pure]
    exact ⟨L₂.sound, L₁.later.trans L₂.later, L₂.names.trans L₁.names, (fun _ h => by cases h),
      fun f hf => by
        cases hf
        exact L₂.memory g rfl⟩
  rw [h₂] at L₂
  obtain ⟨lolt, loval⟩ := L₂.answer lo rfl
  dsimp only
  rw [run_pure]
  refine ⟨L₂.sound, L₁.later.trans L₂.later, L₂.names.trans L₁.names, fun p hp => ?_,
    fun _ h => by cases h⟩
  cases hp
  refine ⟨Diagram.valid_residualOf (Nat.lt_of_lt_of_le hilt L₂.later.evolves.ext.size_le),
    Diagram.valid_residualOf lolt, fun σ => ⟨?_, ?_⟩⟩
  · rw [Diagram.holds_residualOf, value_evolves L₁.sound L₂.later.evolves hilt, hival,
      Residual.holds_eq_value]
  · rw [Diagram.holds_residualOf, loval, value_evolves hs L₁.later.evolves hx,
      Residual.holds_eq_value]

end DecisionDiagrams
