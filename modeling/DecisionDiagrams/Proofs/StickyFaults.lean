/-
Recorded faults stick until they are cleared.

A fault is recorded in front of the faults already recorded, and nothing but `clearError`
forgets them: every other operation of the table's interface leaves the chain it found as the
end of the chain it leaves. So once a fault is recorded it stays recorded, below every later
fault, until the faults are cleared; a chain that holds the node limit keeps holding it, so a
memory failure is still recognised after any number of later faults. While a fault is recorded,
negation, the binary operators and restriction answer `-1` whatever their arguments, because
the answer of an operation refuses every node once a fault is recorded.

* `Kernel.Chains` — a computation whose table afterwards ends with the faults it started with,
  with its rules for the monad and the recursions that build nodes.
* `Kernel.perform_chains` — every operation but `clearError` is one.
* `Kernel.negate_of_faults`, `Kernel.apply_of_faults`, `Kernel.restrict_of_faults` — the three
  operations that build nodes fail while a fault is recorded.
* `Kernel.faults_stick` — the main statement, over runs of operations.
-/
import DecisionDiagrams.Proofs.TableOperations

namespace DecisionDiagrams

namespace Kernel

/-! ### Computations that keep the recorded faults -/

/-- A computation whose table afterwards ends with the faults the table had before: it records
new faults only in front of them. -/
def Chains {α : Type} (x : KernelM α) : Prop :=
  ∀ k, k.faults <:+ (x.run k).2.faults

/-- The faults a step blames on the node limit are recorded in front of the earlier ones. -/
theorem Blamed.suffix {k k' : Kernel} (h : Blamed k k') : k.faults <:+ k'.faults := by
  obtain ⟨new, hf, -⟩ := h
  rw [hf]
  exact List.suffix_append new k.faults

namespace Chains

theorem pure {α : Type} (a : α) : Chains (Pure.pure a : KernelM α) :=
  fun k => List.suffix_refl k.faults

theorem get : Chains (MonadState.get : KernelM Kernel) :=
  fun k => List.suffix_refl k.faults

theorem record (f : Fault) : Chains (modify (Kernel.record f)) :=
  fun k => List.suffix_cons f k.faults

theorem bind {α β : Type} {x : KernelM α} {f : α → KernelM β} (hx : Chains x)
    (hf : ∀ a, Chains (f a)) : Chains (x >>= f) :=
  fun k => (hx k).trans (hf (x.run k).1 (x.run k).2)

/-- A loop whose body keeps the faults keeps them. -/
theorem forIn {α β : Type} (xs : List α) (b : β) {f : α → β → KernelM (ForInStep β)}
    (hf : ∀ a b, Chains (f a b)) : Chains (ForIn.forIn xs b f) := by
  induction xs generalizing b with
  | nil => exact pure b
  | cons a as ih =>
    rw [List.forIn_cons]
    refine bind (hf a b) fun s => ?_
    cases s with
    | done b' => exact pure b'
    | yield b' => exact ih b'

end Chains

/-! ### The operations -/

theorem checkRef_chains (n : Int) : Chains (checkRef n) := by
  intro k
  rw [checkRef_run]
  split
  · exact List.suffix_cons _ k.faults
  · exact List.suffix_refl k.faults

/-- The answer of an operation records at most that it failed. -/
theorem answer_chains (r : Option Nat) : Chains (answer r) := by
  intro k
  rw [answer_run]
  cases r with
  | some n => exact List.suffix_refl k.faults
  | none =>
    dsimp only
    split
    · exact List.suffix_cons _ k.faults
    · exact List.suffix_refl k.faults

/-- While a fault is recorded, an answer is `-1`, whatever the operation built. -/
theorem answer_of_faults {k : Kernel} (h : k.faults ≠ []) (r : Option Nat) :
    ((answer r).run k).1 = -1 := by
  have hne : k.faults.isEmpty = false := List.isEmpty_eq_false_iff.2 h
  rw [answer_run]
  cases r with
  | some n => simp only [hne, Bool.false_eq_true, if_false]
  | none => rfl

theorem ithvar_chains (i : Int) : Chains (ithvar i) := by
  unfold ithvar
  refine .bind .get fun k => ?_
  split
  · exact .bind (.record _) fun _ => .pure _
  · exact .pure _

theorem nithvar_chains (i : Int) : Chains (nithvar i) := by
  unfold nithvar
  refine .bind .get fun k => ?_
  split
  · exact .bind (.record _) fun _ => .pure _
  · exact .pure _

theorem evalAt_chains (n : Int) (σ : Nat → Bool) : Chains (evalAt n σ) := by
  unfold evalAt
  refine .bind (checkRef_chains n) fun b => ?_
  split
  · exact .bind (.record _) fun _ => .pure _
  · exact .bind .get fun _ => .pure _

theorem support_chains (n : Int) : Chains (support n) := by
  unfold support
  refine .bind (checkRef_chains n) fun b => ?_
  split
  · exact .pure _
  · exact .bind .get fun _ => .pure _

theorem satcount_chains (n : Int) : Chains (satcount n) := by
  unfold satcount
  refine .bind (checkRef_chains n) fun b => ?_
  split
  · exact .bind (.record _) fun _ => .pure _
  · exact .bind .get fun _ => .pure _

theorem allsat_chains {σ : Type} (n : Int) (f : σ → Array Int → Except String σ) (s : σ) :
    Chains (allsat n f s) := by
  unfold allsat
  refine .bind (checkRef_chains n) fun b => ?_
  split
  · exact .pure _
  · exact .bind .get fun _ => .pure _

theorem allnodes_chains {σ : Type} (roots : List Int) (f : σ → Nat → Triple → Except String σ)
    (s : σ) : Chains (allnodes roots f s) := by
  unfold allnodes
  refine .bind (.forIn _ _ fun r _ => .bind (checkRef_chains r) fun b => ?_) fun p => ?_
  · split
    · exact .pure _
    · exact .pure _
  · obtain ⟨_ | r, _⟩ := p
    · exact .bind .get fun _ => .pure _
    · exact .pure _

/-- A recursion that builds nodes records nothing, or the node limit and what failed above
it, in front of the faults it found. -/
theorem Memo.go_chains {κ : Type} (m : Memo κ) (x : κ) (k : Kernel) :
    k.faults <:+ (m.go x k).2.faults :=
  ((m.go_faults x k).1).suffix

/-- A run that goes on from the table a recursion left and answers keeps the faults. -/
theorem answer_go_chains {κ : Type} (m : Memo κ) (x : κ) (k : Kernel) :
    k.faults <:+ ((answer (m.go x k).1).run (m.go x k).2).2.faults :=
  (m.go_chains x k).trans (answer_chains _ _)

theorem negate_chains (n : Int) : Chains (negate n) := by
  intro k
  rw [negate_run]
  split
  · exact (List.suffix_cons _ _).trans (List.suffix_cons _ _)
  · dsimp only
    rw [negateNode_run]
    exact answer_go_chains negMemo _ k

theorem apply_chains (l r op : Int) : Chains (apply l r op) := by
  intro k
  rw [apply_run]
  split
  · exact (List.suffix_cons _ _).trans (List.suffix_cons _ _)
  split
  · exact (List.suffix_cons _ _).trans (List.suffix_cons _ _)
  split
  · exact List.suffix_cons _ _
  · dsimp only
    rw [applyNodes_run]
    exact answer_go_chains (applyMemo _) _ k

theorem restrict_chains (n level : Int) (val : Bool) : Chains (restrict n level val) := by
  intro k
  rw [restrict_run]
  split
  · exact (List.suffix_cons _ _).trans (List.suffix_cons _ _)
  split
  · exact List.suffix_cons _ _
  split
  · exact answer_chains _ k
  · dsimp only
    rw [restrictNode_run]
    exact answer_go_chains (restrictMemo _ _ _) _ k

/-- Declaring levels records at most the node limit and the level it stopped at. The induction
is on the levels; each makes its two literals, then records them or stops. -/
theorem declareLevels_chains : ∀ levels : List Nat, Chains (declareLevels levels)
  | [] => .pure true
  | lvl :: rest => by
    intro k
    rw [declareLevels_cons]
    dsimp only
    have hp := (node_faults lvl (some 0) (some 1) k).1.suffix
    have hq := (node_faults lvl (some 1) (some 0) (node lvl (some 0) (some 1) k).2).1.suffix
    generalize node lvl (some 0) (some 1) k = p at hp hq
    generalize node lvl (some 1) (some 0) p.2 = q at hq
    have hpq := hp.trans hq
    obtain ⟨_ | a, k₁⟩ := p <;> obtain ⟨_ | b, k₂⟩ := q
    · exact hpq.trans (List.suffix_cons _ _)
    · exact hpq.trans (List.suffix_cons _ _)
    · exact hpq.trans (List.suffix_cons _ _)
    · dsimp only
      exact hpq.trans (declareLevels_chains rest { k₂ with varset := k₂.varset.push (a, b) })

theorem setVarnum_chains (num : Int) : Chains (setVarnum num) := by
  intro k
  rw [setVarnum_run]
  split
  · exact List.suffix_cons _ _
  · -- the terminals take the new level, which keeps the faults
    have h := declareLevels_chains (List.range' k.varnum ((wrap32 num).toNat - k.varnum))
      (k.setTerminals (wrap32 num).toNat)
    dsimp only
    split
    · exact h
    · exact h

/-- Every operation but `clearError` keeps the faults it finds at the end of its chain. -/
theorem perform_chains {op : Op} (h : op ≠ .clearError) (k : Kernel) :
    k.faults <:+ (perform op k).faults := by
  cases op with
  | setVarnum n => exact setVarnum_chains n k
  | ithvar i => exact ithvar_chains i k
  | nithvar i => exact nithvar_chains i k
  | constant _ => exact List.suffix_refl k.faults
  | negate n => exact negate_chains n k
  | apply l r o => exact apply_chains l r o k
  | restrict n level val => exact restrict_chains n level val k
  | evalAt n σ => exact evalAt_chains n σ k
  | support n => exact support_chains n k
  | satcount n => exact satcount_chains n k
  | allsat n f s => exact allsat_chains n f s k
  | allnodes roots f s => exact allnodes_chains roots f s k
  | clearError => exact absurd rfl h

/-- A run of operations without `clearError` keeps the faults it starts with at the end of its
chain, by induction on the run. -/
theorem performAll_chains {ops : List Op} (h : ∀ op ∈ ops, op ≠ .clearError) (k : Kernel) :
    k.faults <:+ (performAll ops k).faults := by
  induction ops generalizing k with
  | nil => exact List.suffix_refl k.faults
  | cons op ops ih =>
    exact (perform_chains (h op List.mem_cons_self) k).trans
      (ih (fun o ho => h o (List.mem_cons_of_mem op ho)) (perform op k))

/-! ### Operations on a table with faults -/

section Faulty

variable {k : Kernel} (h : k.faults ≠ [])
include h

/-- While a fault is recorded, negation answers `-1`. -/
theorem negate_of_faults (n : Int) : ((negate n).run k).1 = -1 := by
  rw [negate_run]
  split
  · rfl
  · dsimp only
    rw [negateNode_run]
    exact answer_of_faults (fun hn => h (List.eq_nil_of_suffix_nil
      (hn ▸ negMemo.go_chains _ k))) _

/-- While a fault is recorded, every binary operator answers `-1`. -/
theorem apply_of_faults (l r op : Int) : ((apply l r op).run k).1 = -1 := by
  rw [apply_run]
  split
  · rfl
  split
  · rfl
  split
  · rfl
  · dsimp only
    rw [applyNodes_run]
    exact answer_of_faults (fun hn => h (List.eq_nil_of_suffix_nil
      (hn ▸ (applyMemo _).go_chains _ k))) _

/-- While a fault is recorded, restriction answers `-1`. -/
theorem restrict_of_faults (n level : Int) (val : Bool) :
    ((restrict n level val).run k).1 = -1 := by
  rw [restrict_run]
  split
  · rfl
  split
  · rfl
  split
  · exact answer_of_faults h _
  · dsimp only
    rw [restrictNode_run]
    exact answer_of_faults (fun hn => h (List.eq_nil_of_suffix_nil
      (hn ▸ (restrictMemo _ _ _).go_chains _ k))) _

end Faulty

/-- Faults stick: along a run of operations without `clearError`, the faults recorded before
the run stay recorded below the new ones, so a chain holding the node limit keeps holding it;
and once a fault is recorded, negation, the binary operators and restriction answer `-1`
whatever their arguments. -/
theorem faults_stick {ops : List Op} (hops : ∀ op ∈ ops, op ≠ .clearError) (k : Kernel) :
    k.faults <:+ (performAll ops k).faults ∧
      (Fault.chainIsMemory k.faults = true →
        Fault.chainIsMemory (performAll ops k).faults = true) ∧
      (k.faults ≠ [] → ∀ (n l r op level : Int) (val : Bool),
        ((negate n).run (performAll ops k)).1 = -1 ∧
          ((apply l r op).run (performAll ops k)).1 = -1 ∧
          ((restrict n level val).run (performAll ops k)).1 = -1) := by
  have hsuf := performAll_chains hops k
  obtain ⟨new, hnew⟩ := id hsuf
  refine ⟨hsuf, fun hm => ?_, fun hne n l r op level val => ?_⟩
  · rw [← hnew, Fault.chainIsMemory_append, hm, Bool.or_true]
  · have hne' : (performAll ops k).faults ≠ [] := by
      rw [← hnew]
      exact fun hn => hne (List.append_eq_nil_iff.1 hn).2
    exact ⟨negate_of_faults hne' n, apply_of_faults hne' l r op, restrict_of_faults hne' n level val⟩

/-- A table that failed on a bad reference goes on failing through a declaration and a binary
operator: its fault stays, and every node operation answers `-1`. -/
theorem faults_stick_after_bad_reference :
    (∀ op ∈ [Op.setVarnum 2, Op.apply 2 3 0], op ≠ Op.clearError) ∧
      (perform (.negate 7) oneVariable).faults <:+
        (performAll [.setVarnum 2, .apply 2 3 0] (perform (.negate 7) oneVariable)).faults ∧
      (Fault.chainIsMemory (perform (.negate 7) oneVariable).faults = true →
        Fault.chainIsMemory
          (performAll [.setVarnum 2, .apply 2 3 0] (perform (.negate 7) oneVariable)).faults =
            true) ∧
      ((perform (.negate 7) oneVariable).faults ≠ [] → ∀ (n l r op level : Int) (val : Bool),
        ((negate n).run
            (performAll [.setVarnum 2, .apply 2 3 0] (perform (.negate 7) oneVariable))).1 = -1 ∧
          ((apply l r op).run
            (performAll [.setVarnum 2, .apply 2 3 0] (perform (.negate 7) oneVariable))).1 = -1 ∧
          ((restrict n level val).run
            (performAll [.setVarnum 2, .apply 2 3 0] (perform (.negate 7) oneVariable))).1 = -1) :=
  have hops : ∀ op ∈ [Op.setVarnum 2, Op.apply 2 3 0], op ≠ Op.clearError := by simp
  ⟨hops, faults_stick hops (perform (.negate 7) oneVariable)⟩

end Kernel

end DecisionDiagrams
