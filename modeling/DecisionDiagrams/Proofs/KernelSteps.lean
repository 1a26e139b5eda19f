/-
What each operation of the interface does to the table.

* `Kernel.FaultsOnly` — a computation that changes nothing but the recorded faults. Every
  operation that only reads the table is one (`perform_cases`): the literals, evaluation, the
  support, counting, the two folds and `clearError`. What remains are `setVarnum`, `negate`,
  `apply` and `restrict`.
* `checkRef_run`, `answer_run`, `negate_run`, `apply_run`, `restrict_run`, `setVarnum_run` and
  `declareLevels_cons` — the operations as plain functions of the table: the checks they make
  first, then the recursion or the declaration of levels, then the answer.
* `Kernel.setTerminals` — the first thing `setVarnum` does: the terminals take the new number
  of variables as their level. It keeps the shape of the table (`Structured.setTerminals`).
* `setVarnum_invariant` — a property of tables that node creation, the terminal update, the
  new literals and the new number of variables keep holds after `setVarnum`, when it fails
  half-way as well.
-/
import DecisionDiagrams.Proofs.KernelMemo

namespace DecisionDiagrams

namespace Kernel

/-! ### Computations that only record faults -/

/-- A computation whose table afterwards differs from the one before at most in its faults. -/
def FaultsOnly {α : Type} (x : KernelM α) : Prop :=
  ∀ k, ∃ fs, (x.run k).2 = { k with faults := fs }

namespace FaultsOnly

theorem pure {α : Type} (a : α) : FaultsOnly (Pure.pure a : KernelM α) :=
  fun k => ⟨k.faults, rfl⟩

theorem get : FaultsOnly (MonadState.get : KernelM Kernel) :=
  fun k => ⟨k.faults, rfl⟩

theorem record (f : Fault) : FaultsOnly (modify (Kernel.record f)) :=
  fun k => ⟨f :: k.faults, rfl⟩

theorem bind {α β : Type} {x : KernelM α} {f : α → KernelM β} (hx : FaultsOnly x)
    (hf : ∀ a, FaultsOnly (f a)) : FaultsOnly (x >>= f) := by
  intro k
  obtain ⟨fs, h⟩ := hx k
  obtain ⟨fs', h'⟩ := hf (x.run k).1 (x.run k).2
  refine ⟨fs', ?_⟩
  show ((f (x.run k).1).run (x.run k).2).2 = _
  rw [h', h]

/-- A loop whose body only records faults only records faults. -/
theorem forIn {α β : Type} (xs : List α) (b : β) {f : α → β → KernelM (ForInStep β)}
    (hf : ∀ a b, FaultsOnly (f a b)) : FaultsOnly (ForIn.forIn xs b f) := by
  induction xs generalizing b with
  | nil => exact pure b
  | cons a as ih =>
    rw [List.forIn_cons]
    refine bind (hf a b) fun s => ?_
    cases s with
    | done b' => exact pure b'
    | yield b' => exact ih b'

end FaultsOnly

theorem checkRef_run (n : Int) (k : Kernel) : (checkRef n).run k =
    if n < 0 ∨ n ≥ k.nodes.size then (false, k.record (.illegalReference n)) else (true, k) := by
  simp only [checkRef, StateT.run_bind, StateT.run_get, pure_bind]
  split <;> rfl

theorem checkRef_bind_of_bad {β : Type} {n : Int} {k : Kernel} (h : n < 0 ∨ n ≥ k.nodes.size)
    (f : Bool → KernelM β) :
    (checkRef n >>= f).run k = (f false).run (k.record (.illegalReference n)) := by
  rw [StateT.run_bind, checkRef_run, if_pos h]
  rfl

theorem checkRef_bind_of_ok {β : Type} {n : Int} {k : Kernel} (h : ¬(n < 0 ∨ n ≥ k.nodes.size))
    (f : Bool → KernelM β) : (checkRef n >>= f).run k = (f true).run k := by
  rw [StateT.run_bind, checkRef_run, if_neg h]
  rfl

theorem checkRef_faultsOnly (n : Int) : FaultsOnly (checkRef n) := by
  intro k
  rw [checkRef_run]
  split
  · exact ⟨_, rfl⟩
  · exact ⟨k.faults, rfl⟩

/-- The answer of an operation reads only the faults and records at most one. -/
theorem answer_run (r : Option Nat) (k : Kernel) : (answer r).run k =
    match r with
    | some n => (if k.faults.isEmpty then n else -1, k)
    | none => (-1, if k.faults.isEmpty then k.record .unexpected else k) := by
  cases r with
  | some n =>
    simp only [answer, StateT.run_bind, StateT.run_get, pure_bind]
    split <;> rfl
  | none =>
    simp only [answer, StateT.run_bind, StateT.run_get, pure_bind]
    split <;> rfl

theorem answer_faultsOnly (r : Option Nat) : FaultsOnly (answer r) := by
  intro k
  rw [answer_run]
  cases r with
  | some n => exact ⟨k.faults, rfl⟩
  | none =>
    dsimp only
    split
    · exact ⟨_, rfl⟩
    · exact ⟨k.faults, rfl⟩

theorem ithvar_faultsOnly (i : Int) : FaultsOnly (ithvar i) := by
  unfold ithvar
  refine .bind .get fun k => ?_
  split
  · exact .bind (.record _) fun _ => .pure _
  · exact .pure _

theorem nithvar_faultsOnly (i : Int) : FaultsOnly (nithvar i) := by
  unfold nithvar
  refine .bind .get fun k => ?_
  split
  · exact .bind (.record _) fun _ => .pure _
  · exact .pure _

theorem evalAt_faultsOnly (n : Int) (σ : Nat → Bool) : FaultsOnly (evalAt n σ) := by
  unfold evalAt
  refine .bind (checkRef_faultsOnly n) fun b => ?_
  split
  · exact .bind (.record _) fun _ => .pure _
  · exact .bind .get fun _ => .pure _

theorem support_faultsOnly (n : Int) : FaultsOnly (support n) := by
  unfold support
  refine .bind (checkRef_faultsOnly n) fun b => ?_
  split
  · exact .pure _
  · exact .bind .get fun _ => .pure _

theorem satcount_faultsOnly (n : Int) : FaultsOnly (satcount n) := by
  unfold satcount
  refine .bind (checkRef_faultsOnly n) fun b => ?_
  split
  · exact .bind (.record _) fun _ => .pure _
  · exact .bind .get fun _ => .pure _

theorem allsat_faultsOnly {σ : Type} (n : Int) (f : σ → Array Int → Except String σ) (s : σ) :
    FaultsOnly (allsat n f s) := by
  unfold allsat
  refine .bind (checkRef_faultsOnly n) fun b => ?_
  split
  · exact .pure _
  · exact .bind .get fun _ => .pure _

theorem allnodes_faultsOnly {σ : Type} (roots : List Int) (f : σ → Nat → Triple → Except String σ)
    (s : σ) : FaultsOnly (allnodes roots f s) := by
  unfold allnodes
  -- the loop checks each root; what follows it either returns the error or folds
  refine .bind (.forIn _ _ fun r _ => .bind (checkRef_faultsOnly r) fun b => ?_) fun p => ?_
  · split
    · exact .pure _
    · exact .pure _
  · obtain ⟨_ | r, _⟩ := p
    · exact .bind .get fun _ => .pure _
    · exact .pure _

/-- Every operation either changes nothing but the faults, or is one of the four that build
nodes. -/
theorem perform_cases (op : Op) (k : Kernel) :
    (∃ fs, perform op k = { k with faults := fs }) ∨ (∃ n, op = .setVarnum n) ∨
      (∃ n, op = .negate n) ∨ (∃ l r o, op = .apply l r o) ∨
      (∃ n level val, op = .restrict n level val) := by
  cases op with
  | setVarnum n => exact .inr (.inl ⟨n, rfl⟩)
  | negate n => exact .inr (.inr (.inl ⟨n, rfl⟩))
  | apply l r o => exact .inr (.inr (.inr (.inl ⟨l, r, o, rfl⟩)))
  | restrict n level val => exact .inr (.inr (.inr (.inr ⟨n, level, val, rfl⟩)))
  | ithvar i => exact .inl (ithvar_faultsOnly i k)
  | nithvar i => exact .inl (nithvar_faultsOnly i k)
  | constant _ => exact .inl ⟨k.faults, rfl⟩
  | evalAt n σ => exact .inl (evalAt_faultsOnly n σ k)
  | support n => exact .inl (support_faultsOnly n k)
  | satcount n => exact .inl (satcount_faultsOnly n k)
  | allsat n f s => exact .inl (allsat_faultsOnly n f s k)
  | allnodes roots f s => exact .inl (allnodes_faultsOnly roots f s k)
  | clearError => exact .inl ⟨[], rfl⟩

section Answer

variable {I : Kernel → Prop} {G : Kernel → Nat → Nat → Nat → Prop} (hI : TableInvariant I G)
include hI

/-- The answer keeps every property that recording a fault keeps. -/
theorem answer_invariant (r : Option Nat) {k : Kernel} (hIk : I k) (hs : Structured k) :
    I ((answer r).run k).2 ∧ Structured ((answer r).run k).2 := by
  rw [answer_run]
  cases r with
  | some n => exact ⟨hIk, hs⟩
  | none =>
    dsimp only
    split
    · exact ⟨hI.record _ hIk hs, hs.of_eq _ rfl rfl rfl⟩
    · exact ⟨hIk, hs⟩

end Answer

/-! ### The new table -/

/-- The table that `create` declares its variables in: the two terminals, no variables, and
no caches yet. -/
def blank (limits : Limits) : Kernel :=
  { nodes := #[⟨0, 0, 0⟩, ⟨0, 1, 1⟩], unique := {}, varnum := 0, varset := #[],
    produced := 0, cachedFor := 2, faults := [], counters := {},
    applyCache := #[], restrictCache := #[], limits := limits }

/-- A created table is the blank one, with fresh caches, after its variables were declared. -/
theorem create_ok {v : Int} {limits : Limits} {k : Kernel} (h : create v limits = .ok k) :
    (setVarnum v).run (blank limits).resetCaches = (none, k) := by
  unfold create at h
  split at h
  · cases h
  · dsimp only at h
    split at h
    · rename_i k' heq
      cases h
      exact heq
    · cases h

theorem Structured.blank (limits : Limits) : Structured (blank limits) where
  two_le := by simp [Kernel.blank]
  false_children := ⟨rfl, rfl⟩
  true_children := ⟨rfl, rfl⟩
  children i h2 hi := by
    simp only [Kernel.blank, List.size_toArray, List.length_cons, List.length_nil] at hi
    omega
  unique t i := by
    simp only [Kernel.blank, Std.HashMap.getElem?_empty, List.size_toArray, List.length_cons,
      List.length_nil, reduceCtorEq, false_iff]
    omega
  bound _ := Nat.le_max_right _ 2

/-! ### The operations that build nodes -/

theorem negate_run (n : Int) (k : Kernel) : (negate n).run k =
    if n < 0 ∨ n ≥ k.nodes.size then
      (-1, (k.record (.illegalReference n)).record (.wrongOperand .not n))
    else
      let p := (negateNode n.toNat).run k
      (answer p.1).run p.2 := by
  by_cases hn : n < 0 ∨ n ≥ k.nodes.size
  · rw [if_pos hn, negate, checkRef_bind_of_bad hn]
    rfl
  · rw [if_neg hn, negate, checkRef_bind_of_ok hn]
    rfl

theorem apply_run (l r op : Int) (k : Kernel) : (apply l r op).run k =
    if l < 0 ∨ l ≥ k.nodes.size then
      (-1, (k.record (.illegalReference l)).record (.wrongLeft op l))
    else if r < 0 ∨ r ≥ k.nodes.size then
      (-1, (k.record (.illegalReference r)).record (.wrongRight op r))
    else
      match Operator.ofCode? op with
      | none => (-1, k.record (.unsupportedOperator op))
      | some o =>
        let p := (applyNodes o l.toNat r.toNat).run k
        (answer p.1).run p.2 := by
  by_cases hl : l < 0 ∨ l ≥ k.nodes.size
  · rw [if_pos hl, apply, checkRef_bind_of_bad hl]
    rfl
  rw [if_neg hl, apply, checkRef_bind_of_ok hl]
  by_cases hr : r < 0 ∨ r ≥ k.nodes.size
  · rw [if_pos hr]
    simp only [Bool.not_true, Bool.false_eq_true, if_false, checkRef_bind_of_bad hr]
    rfl
  rw [if_neg hr]
  simp only [Bool.not_true, Bool.false_eq_true, if_false, checkRef_bind_of_ok hr]
  cases Operator.ofCode? op <;> rfl

/-- A level that wraps to a negative 32-bit number restricts nothing; otherwise the recursion
runs with the wrapped level and the restriction's cache number. -/
theorem restrict_run (n level : Int) (val : Bool) (k : Kernel) : (restrict n level val).run k =
    if n < 0 ∨ n ≥ k.nodes.size then
      (-1, (k.record (.illegalReference n)).record (.wrongOperand .restrict n))
    else if level < 0 ∨ wrap32 level ≥ k.varnum then
      (-1, k.record (.unknownVariable level .restrict))
    else if wrap32 level < 0 then (answer (some n.toNat)).run k
    else
      let p := (restrictNode (wrap32 level).toNat val
        (2 * level.toNat + 1 + if val then 1 else 0) n.toNat).run k
      (answer p.1).run p.2 := by
  by_cases hn : n < 0 ∨ n ≥ k.nodes.size
  · rw [if_pos hn, restrict, checkRef_bind_of_bad hn]
    rfl
  rw [if_neg hn, restrict, checkRef_bind_of_ok hn]
  simp only [Bool.not_true, Bool.false_eq_true, if_false, StateT.run_bind, StateT.run_get,
    pure_bind]
  split
  · rfl
  · split <;> rfl

section Build

variable {I : Kernel → Prop} {G : Kernel → Nat → Nat → Nat → Prop} (hI : TableInvariant I G)
include hI

/-- Negation keeps every property that its recursion keeps. -/
theorem negate_invariant (hm : negMemo.Sound I) (hg : negMemo.Guarded I G) (n : Int)
    {k : Kernel} (hIk : I k) (hs : Structured k) :
    I ((negate n).run k).2 ∧ Structured ((negate n).run k).2 := by
  rw [negate_run]
  split
  · -- a bad reference records two faults
    have h₁ := hI.record (.illegalReference n) hIk hs
    exact ⟨hI.record _ h₁ (hs.of_eq _ rfl rfl rfl), hs.of_eq _ rfl rfl rfl⟩
  · rw [negateNode_run]
    obtain ⟨hI', hs', -, -⟩ := negMemo.go_invariant hI hm hg n.toNat k hIk hs
      (show n.toNat < k.nodes.size by omega)
    exact answer_invariant hI _ hI' hs'

/-- A binary operator keeps every property that the recursions of all operators keep. -/
theorem apply_invariant (hm : ∀ o, (applyMemo o).Sound I) (hg : ∀ o, (applyMemo o).Guarded I G)
    (l r op : Int) {k : Kernel} (hIk : I k) (hs : Structured k) :
    I ((apply l r op).run k).2 ∧ Structured ((apply l r op).run k).2 := by
  have hrecord : ∀ f, I (k.record f) ∧ Structured (k.record f) :=
    fun f => ⟨hI.record f hIk hs, hs.of_eq _ rfl rfl rfl⟩
  rw [apply_run]
  split
  · exact ⟨hI.record _ (hrecord _).1 (hrecord _).2, hs.of_eq _ rfl rfl rfl⟩
  split
  · exact ⟨hI.record _ (hrecord _).1 (hrecord _).2, hs.of_eq _ rfl rfl rfl⟩
  cases Operator.ofCode? op with
  | none => exact hrecord _
  | some o =>
    dsimp only
    rw [applyNodes_run]
    obtain ⟨hI', hs', -, -⟩ := (applyMemo o).go_invariant hI (hm o) (hg o) (l.toNat, r.toNat) k
      hIk hs (show l.toNat < k.nodes.size ∧ r.toNat < k.nodes.size by omega)
    exact answer_invariant hI _ hI' hs'

/-- Restriction keeps every property that the recursions of all restrictions of a natural level
keep. -/
theorem restrict_invariant
    (hm : ∀ (level : Int) (val : Bool), 0 ≤ level →
      (restrictMemo (wrap32 level).toNat val (2 * level.toNat + 1 + if val then 1 else 0)).Sound I)
    (hg : ∀ (level : Int) (val : Bool), 0 ≤ level →
      (restrictMemo (wrap32 level).toNat val
        (2 * level.toNat + 1 + if val then 1 else 0)).Guarded I G)
    (n level : Int) (val : Bool) {k : Kernel} (hIk : I k) (hs : Structured k) :
    I ((restrict n level val).run k).2 ∧ Structured ((restrict n level val).run k).2 := by
  have hrecord : ∀ f, I (k.record f) ∧ Structured (k.record f) :=
    fun f => ⟨hI.record f hIk hs, hs.of_eq _ rfl rfl rfl⟩
  rw [restrict_run]
  split
  · exact ⟨hI.record _ (hrecord _).1 (hrecord _).2, hs.of_eq _ rfl rfl rfl⟩
  split
  · exact hrecord _
  split
  · exact answer_invariant hI _ hIk hs
  dsimp only
  rw [restrictNode_run]
  obtain ⟨hI', hs', -, -⟩ := (restrictMemo _ _ _).go_invariant hI (hm level val (by omega))
    (hg level val (by omega)) n.toNat k hIk hs (show n.toNat < k.nodes.size by omega)
  exact answer_invariant hI _ hI' hs'

end Build

/-! ### Declaring variables -/

/-- The terminals with level `n`. -/
def setTerminals (n : Nat) (k : Kernel) : Kernel :=
  { k with nodes := (k.nodes.setIfInBounds 0 ⟨n, 0, 0⟩).setIfInBounds 1 ⟨n, 1, 1⟩ }

@[simp] theorem setTerminals_size (n : Nat) (k : Kernel) :
    (k.setTerminals n).nodes.size = k.nodes.size := by
  simp [setTerminals]

theorem setTerminals_entry (n : Nat) (k : Kernel) {i : Nat} (h2 : 2 ≤ i) :
    (k.setTerminals n).entry i = k.entry i := by
  simp only [setTerminals, entry]
  rw [Array.getElem?_setIfInBounds_ne (by omega), Array.getElem?_setIfInBounds_ne (by omega)]

theorem setTerminals_entry_zero (n : Nat) {k : Kernel} (h : 2 ≤ k.nodes.size) :
    (k.setTerminals n).entry 0 = ⟨n, 0, 0⟩ := by
  simp only [setTerminals, entry]
  rw [Array.getElem?_setIfInBounds_ne (by omega), Array.getElem?_setIfInBounds_self_of_lt (by omega)]
  rfl

theorem setTerminals_entry_one (n : Nat) {k : Kernel} (h : 2 ≤ k.nodes.size) :
    (k.setTerminals n).entry 1 = ⟨n, 1, 1⟩ := by
  simp only [setTerminals, entry]
  rw [Array.getElem?_setIfInBounds_self_of_lt (by simp; omega)]
  rfl

/-- Moving the terminals keeps every internal node. -/
theorem extends_setTerminals (n : Nat) (k : Kernel) : Extends k (k.setTerminals n) where
  size_le := by simp
  entry i h2 _ := setTerminals_entry n k h2
  unique _ _ h := h

theorem Structured.setTerminals {k : Kernel} (hs : Structured k) (n : Nat) :
    Structured (k.setTerminals n) where
  two_le := by simpa using hs.two_le
  false_children := by simp [setTerminals_entry_zero n hs.two_le]
  true_children := by simp [setTerminals_entry_one n hs.two_le]
  children i h2 hi := by
    rw [setTerminals_entry n k h2]
    exact hs.children i h2 (by simpa using hi)
  unique t i := by
    rw [show (k.setTerminals n).unique = k.unique from rfl, hs.unique, setTerminals_size]
    constructor
    · rintro ⟨h2, hi, he⟩
      exact ⟨h2, hi, (setTerminals_entry n k h2).trans he⟩
    · rintro ⟨h2, hi, he⟩
      exact ⟨h2, hi, (setTerminals_entry n k h2).symm.trans he⟩
  bound h := by
    rw [setTerminals_size]
    exact hs.bound h

theorem setVarnum_run (num : Int) (k : Kernel) : (setVarnum num).run k =
    if wrap32 num < k.varnum ∨ wrap32 num > maxVariables then
      (some (.badVarnum num :: k.faults), k.record (.badVarnum num))
    else
      let r := (declareLevels (List.range' k.varnum ((wrap32 num).toNat - k.varnum))).run
        (k.setTerminals (wrap32 num).toNat)
      if r.1 then (none, { r.2 with varnum := (wrap32 num).toNat }) else (some r.2.faults, r.2) := by
  simp only [setVarnum, StateT.run_bind, StateT.run_get, pure_bind]
  split
  · rfl
  · simp only [StateT.run_bind, StateT.run_modify, StateT.run_get, pure_bind]
    change (((declareLevels _).run (k.setTerminals (wrap32 num).toNat)) >>= _) = _
    cases ((declareLevels (List.range' k.varnum ((wrap32 num).toNat - k.varnum))).run
      (k.setTerminals (wrap32 num).toNat)) with
    | mk b k' => cases b <;> rfl

theorem declareLevels_cons (lvl : Nat) (rest : List Nat) (k : Kernel) :
    (declareLevels (lvl :: rest)).run k =
      let p := node lvl (some 0) (some 1) k
      let q := node lvl (some 1) (some 0) p.2
      match p.1, q.1 with
      | some a, some b => (declareLevels rest).run { q.2 with varset := q.2.varset.push (a, b) }
      | _, _ => (false, q.2.record (.cannotAllocate lvl)) := by
  simp only [declareLevels, StateT.run_bind, makeNode, StateT.run_modifyGet, pure_bind]
  generalize node lvl (some 0) (some 1) k = p
  generalize node lvl (some 1) (some 0) p.2 = q
  obtain ⟨_ | a, k₁⟩ := p <;> obtain ⟨_ | b, k₂⟩ := q <;> rfl

section Declare

variable {I : Kernel → Prop} {G : Kernel → Nat → Nat → Nat → Prop} (hI : TableInvariant I G)
  (hG : ∀ {k : Kernel} (level a b : Nat), a < 2 → b < 2 → G k level a b)
  (hvarset : ∀ {k : Kernel} (p : Nat × Nat), I k → Structured k →
    I { k with varset := k.varset.push p })
include hI hG hvarset

/-- Declaring levels keeps every property that node creation over the two terminals and a new
pair of literals keep, also when a literal cannot be created. -/
theorem declareLevels_invariant : ∀ (levels : List Nat) (k : Kernel), I k → Structured k →
    I ((declareLevels levels).run k).2 ∧ Structured ((declareLevels levels).run k).2 := by
  intro levels
  induction levels with
  | nil => exact fun k hIk hs => ⟨hIk, hs⟩
  | cons lvl rest ih =>
    intro k hIk hs
    rw [declareLevels_cons]
    dsimp only
    -- the two literals have the terminals as children
    have hlt : ∀ {k : Kernel}, Structured k → ∀ c, c < 2 → c < k.nodes.size :=
      fun hs c hc => Nat.lt_of_lt_of_le hc hs.two_le
    have hterm : ∀ {k : Kernel} (a b : Nat), Structured k → a < 2 → b < 2 →
        I k → I (node lvl (some a) (some b) k).2 ∧ Structured (node lvl (some a) (some b) k).2 :=
      fun a b hs ha hb hIk =>
        ⟨hI.node lvl _ _ hIk hs (by rintro _ ⟨⟩; exact hlt hs a ha)
            (by rintro _ ⟨⟩; exact hlt hs b hb) (by rintro _ _ ⟨⟩ ⟨⟩; exact hG lvl a b ha hb),
          node_structured hs lvl (by rintro _ ⟨⟩; exact hlt hs a ha)
            (by rintro _ ⟨⟩; exact hlt hs b hb)⟩
    obtain ⟨hIp, hsp⟩ := hterm 0 1 hs (by omega) (by omega) hIk
    obtain ⟨hIq, hsq⟩ := hterm 1 0 hsp (by omega) (by omega) hIp
    generalize node lvl (some 0) (some 1) k = p at hIp hsp hIq hsq
    generalize node lvl (some 1) (some 0) p.2 = q at hIq hsq
    obtain ⟨_ | a, k₁⟩ := p <;> obtain ⟨_ | b, k₂⟩ := q
    · exact ⟨hI.record _ hIq hsq, hsq.of_eq _ rfl rfl rfl⟩
    · exact ⟨hI.record _ hIq hsq, hsq.of_eq _ rfl rfl rfl⟩
    · exact ⟨hI.record _ hIq hsq, hsq.of_eq _ rfl rfl rfl⟩
    · exact ih _ (hvarset _ hIq hsq) (hsq.of_eq _ rfl rfl rfl)

/-- `setVarnum` keeps every property that node creation, the terminal update, a new pair of
literals and a new number of variables keep, whether it succeeds, fails at once, or fails
after some levels were declared. -/
theorem setVarnum_invariant
    (hterm : ∀ {k : Kernel} (n : Nat), I k → Structured k → I (k.setTerminals n))
    (hvarnum : ∀ {k : Kernel} (n : Nat), I k → Structured k → I { k with varnum := n })
    (num : Int) {k : Kernel} (hIk : I k) (hs : Structured k) :
    I ((setVarnum num).run k).2 ∧ Structured ((setVarnum num).run k).2 := by
  rw [setVarnum_run]
  split
  · exact ⟨hI.record _ hIk hs, hs.of_eq _ rfl rfl rfl⟩
  · obtain ⟨hId, hsd⟩ := declareLevels_invariant hI hG hvarset
      (List.range' k.varnum ((wrap32 num).toNat - k.varnum)) _
      (hterm (wrap32 num).toNat hIk hs) (hs.setTerminals (wrap32 num).toNat)
    dsimp only
    split
    · exact ⟨hvarnum _ hId hsd, hsd.of_eq _ rfl rfl rfl⟩
    · exact ⟨hId, hsd⟩

end Declare

end Kernel

end DecisionDiagrams
