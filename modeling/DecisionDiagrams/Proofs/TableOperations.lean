/-
What negation, the binary operators and restriction answer on every reachable table.

On a reachable table without faults each of the three operations either stops at the node limit,
answering `-1` with the limit among the faults it leaves, or answers the one node of the table it
leaves that computes its function: the other terminal than its argument's for negation, the
operator's truth table on the terminals of its operands for a binary operator, and the cofactor
for restriction. A cofactor does not depend on the level it fixes, so that level is not in its
support. Once an operation has answered a node, the table keeps every node that answer was found
from, and a sound cache answers only what the recursion finds; so asking again, after any
operations, answers that node again, and so do a negation of the negation and a symmetric operator
with its operands swapped.

* `Kernel.Outcome`, `Memo.answer_outcome` — the two outcomes of a memoised recursion.
* `negRec_find_involutive`, `applyRec_find_swap` — negation and symmetric operators found back.
* `Kernel.Follows` — the tables a run of operations leaves after a given one.
* `negate_apply_compute`, `restrict_cofactor` — the main statements.
-/
import DecisionDiagrams.Proofs.GradedTables
import DecisionDiagrams.Proofs.NodeLimit

namespace DecisionDiagrams

namespace Operator

/-- An operator that gives the same truth value on its arguments swapped. -/
def Symmetric (o : Operator) : Prop :=
  ∀ a b, o.eval a b = o.eval b a

theorem onTerminals_comm {o : Operator} (hsym : o.Symmetric) (l r : Nat) :
    o.onTerminals l r = o.onTerminals r l := by
  unfold onTerminals
  rw [hsym]

/-- The shortcuts of a symmetric operator do not depend on the order of the operands;
implication, the one operator that is not symmetric, has the only shortcuts that do. -/
theorem shortcut_comm {o : Operator} (hsym : o.Symmetric) (l r : Nat) :
    o.shortcut l r = o.shortcut r l := by
  cases o with
  | imp => exact absurd (hsym false true) (by decide)
  | _ => simp only [shortcut]; split_ifs <;> simp_all

/-- Only the numbers from `0` to `4` name operators. -/
theorem ofCode?_eq_none {op : Int} (h : op < 0 ∨ 4 < op) : ofCode? op = none := by
  unfold ofCode?
  rw [if_neg (by omega), if_neg (by omega), if_neg (by omega), if_neg (by omega),
    if_neg (by omega)]

end Operator

namespace Kernel

/-! ### The outcome of an operation -/

/-- What an operation that builds nodes answers from a table without faults and leaves in `k'`:
`-1` after the node limit stopped it, the limit being among the faults of `k'`, or a node of `k'`
that computes `f`, with no fault recorded, and then no other node of `k'` computes `f`. -/
def Outcome (k' : Kernel) (r : Int) (f : (Nat → Bool) → Nat) : Prop :=
  (r = -1 ∧ Fault.chainIsMemory k'.faults = true) ∨
    ∃ v : Nat, r = v ∧ k'.faults = [] ∧ v < k'.nodes.size ∧ (∀ σ, k'.walk σ v = f σ) ∧
      ∀ u, u < k'.nodes.size → (∀ σ, k'.walk σ u = f σ) → u = v

/-- The answer of an operation from a table without faults, after a run that added no fault or a
chain holding the node limit, and the latter when it found no node. -/
theorem outcome_of_blamed {k k₂ : Kernel} (hf : k.faults = []) {r : Option Nat}
    (hb : Blamed k k₂) (hfail : r = none → Failed k k₂) {f : (Nat → Bool) → Nat}
    (hnode : ∀ v, r = some v → v < k₂.nodes.size ∧ (∀ σ, k₂.walk σ v = f σ) ∧
      ∀ u, u < k₂.nodes.size → (∀ σ, k₂.walk σ u = f σ) → u = v) :
    Outcome ((answer r).run k₂).2 ((answer r).run k₂).1 f := by
  obtain ⟨new, hk₂, hnew⟩ := hb
  rw [hf, List.append_nil] at hk₂
  -- a chain holding the node limit is not empty, so the answer records nothing more
  have hlimit : Fault.chainIsMemory new = true →
      (k₂.faults.isEmpty = false ∧ Fault.chainIsMemory k₂.faults = true) := fun hmem => by
    refine ⟨List.isEmpty_eq_false_iff.2 ?_, by rw [hk₂]; exact hmem⟩
    rintro hnil
    rw [hk₂] at hnil
    rw [hnil] at hmem
    simp at hmem
  rw [answer_run]
  cases r with
  | none =>
    obtain ⟨new', hk₂', hmem⟩ := hfail rfl
    rw [hf, List.append_nil] at hk₂'
    obtain ⟨hne, hmem'⟩ := hlimit (hk₂ ▸ hk₂' ▸ hmem)
    dsimp only
    rw [hne]
    exact .inl ⟨rfl, hmem'⟩
  | some v =>
    dsimp only
    rcases hnew with rfl | hmem
    · have hempty : k₂.faults.isEmpty = true := by rw [hk₂]; rfl
      rw [hempty]
      obtain ⟨hlt, hw, huniq⟩ := hnode v rfl
      exact .inr ⟨v, rfl, hk₂, hlt, hw, huniq⟩
    · obtain ⟨hne, hmem'⟩ := hlimit hmem
      rw [hne]
      exact .inl ⟨rfl, hmem'⟩

/-- A memoised recursion on a graded table without faults, with sound caches: it stops at the
node limit, or its answer is the one node of the table it leaves that meets the recursion's
specification. -/
theorem Memo.answer_outcome {κ : Type} {m : Memo κ} {lb : Kernel → κ → Nat}
    {spec : Kernel → κ → (Nat → Bool) → Nat} (hm : m.Sound CacheSound) (hb : m.LevelBound lb)
    (hcomp : m.Computes Levels spec) {k : Kernel} (hs : Structured k) (hc : CacheSound k)
    (hg : Graded k) (hf : k.faults = []) {x : κ} (hx : m.inRange k x) :
    Outcome ((answer (m.go x k).1).run (m.go x k).2).2 ((answer (m.go x k).1).run (m.go x k).2).1
      (spec k x) := by
  obtain ⟨⟨-, hg₂⟩, hs₂, hext, hfound⟩ := m.go_invariant graded_tableInvariant
    (hm.and graded_write) (hb.guarded_graded gradedOf) x k ⟨hc, hg⟩ hs hx
  obtain ⟨hbl, hfail⟩ := m.go_faults x k
  refine outcome_of_blamed hf hbl hfail fun v hv => ?_
  obtain ⟨hfind, hlt⟩ := hfound v hv
  -- the answer meets the specification in the table it leaves, which agrees with `k` on `x`
  have hw : ∀ σ, (m.go x k).2.walk σ v = spec k x σ := fun σ =>
    (hcomp.find_walk_graded hs₂ hg₂ (m.inRange_mono x hext hx) hfind σ).trans
      (hcomp.stable σ hext hx)
  exact ⟨hlt, hw, fun u hu huw =>
    eq_of_walk_eq_graded hs₂ hg₂ hu hlt fun σ => (huw σ).trans (hw σ).symm⟩

/-! ### The operations on valid arguments -/

/-- The restriction of a level within the largest number of variables, as a memoised recursion;
its cache is sound. -/
theorem restrictMemo_sound_of_le {L : Int} (val : Bool) (h0 : 0 ≤ L) (hmax : L ≤ maxVariables) :
    (restrictMemo L.toNat val (restrictId L.toNat val)).Sound CacheSound := by
  have hm := restrictMemo_sound L.toNat val
  rwa [Int.toNat_of_nonneg h0, wrap32_of_le h0 hmax] at hm

theorem negate_run_of_valid {k : Kernel} {n : Int} (h0 : 0 ≤ n) (hn : n < k.nodes.size) :
    (negate n).run k = (answer (negMemo.go n.toNat k).1).run (negMemo.go n.toNat k).2 := by
  rw [negate_run, if_neg (by omega), negateNode_run]

theorem apply_run_of_valid {k : Kernel} (o : Operator) {l r : Int} (hl0 : 0 ≤ l)
    (hl : l < k.nodes.size) (hr0 : 0 ≤ r) (hr : r < k.nodes.size) :
    (apply l r o.code).run k =
      (answer ((applyMemo o).go (l.toNat, r.toNat) k).1).run
        ((applyMemo o).go (l.toNat, r.toNat) k).2 := by
  rw [apply_run, if_neg (by omega), if_neg (by omega), Operator.ofCode?_code]
  dsimp only
  rw [applyNodes_run]

theorem restrict_run_of_valid {k : Kernel} {n L : Int} (hn0 : 0 ≤ n) (hn : n < k.nodes.size)
    (hL0 : 0 ≤ L) (hL : L < k.varnum) (hvar : (k.varnum : Int) ≤ maxVariables) (val : Bool) :
    (restrict n L val).run k =
      (answer ((restrictMemo L.toNat val (restrictId L.toNat val)).go n.toNat k).1).run
        ((restrictMemo L.toNat val (restrictId L.toNat val)).go n.toNat k).2 := by
  have hw := wrap32_of_le hL0 (by omega)
  rw [restrict_run, hw, if_neg (by omega), if_neg (by omega), if_neg (by omega), restrictNode_run]
  rfl

/-- Negation of a node of a graded table without faults. -/
theorem negate_outcome {k : Kernel} (hs : Structured k) (hc : CacheSound k) (hg : Graded k)
    (hf : k.faults = []) {n : Int} (h0 : 0 ≤ n) (hn : n < k.nodes.size) :
    Outcome ((negate n).run k).2 ((negate n).run k).1 fun σ => 1 - k.walk σ n.toNat := by
  rw [negate_run_of_valid h0 hn]
  exact Memo.answer_outcome negMemo_sound negRec_levelBound
    (negRec_computes.mono fun _ _ => trivial) hs hc hg hf (show n.toNat < k.nodes.size by omega)

/-- A binary operator on two nodes of a graded table without faults. -/
theorem apply_outcome {k : Kernel} (hs : Structured k) (hc : CacheSound k) (hg : Graded k)
    (hf : k.faults = []) (o : Operator) {l r : Int} (hl0 : 0 ≤ l) (hl : l < k.nodes.size)
    (hr0 : 0 ≤ r) (hr : r < k.nodes.size) :
    Outcome ((apply l r o.code).run k).2 ((apply l r o.code).run k).1
      fun σ => o.onTerminals (k.walk σ l.toNat) (k.walk σ r.toNat) := by
  rw [apply_run_of_valid o hl0 hl hr0 hr]
  exact Memo.answer_outcome (applyMemo_sound o) (applyRec_levelBound o)
    ((applyRec_computes o).mono fun _ _ => trivial) hs hc hg hf
    (show l.toNat < k.nodes.size ∧ r.toNat < k.nodes.size by omega)

/-- Restriction of a node of a graded table without faults at a level of a variable. -/
theorem restrict_outcome {k : Kernel} (hs : Structured k) (hc : CacheSound k) (hg : Graded k)
    (hf : k.faults = []) {n L : Int} (hn0 : 0 ≤ n) (hn : n < k.nodes.size) (hL0 : 0 ≤ L)
    (hL : L < k.varnum) (hvar : (k.varnum : Int) ≤ maxVariables) (val : Bool) :
    Outcome ((restrict n L val).run k).2 ((restrict n L val).run k).1
      fun σ => k.walk (fixLevel σ L.toNat val) n.toNat := by
  rw [restrict_run_of_valid hn0 hn hL0 hL hvar]
  exact Memo.answer_outcome (restrictMemo_sound_of_le val hL0 (by omega))
    (restrictRec_levelBound _ _) (restrictRec_computes _ _) hs hc hg hf
    (show n.toNat < k.nodes.size by omega)

/-! ### Answers the table already holds -/

/-- A run of a recursion with a sound cache keeps the shape of the table and the soundness of its
caches, and only adds to the table. -/
theorem Memo.go_cacheSound {κ : Type} {m : Memo κ} (hm : m.Sound CacheSound) {k : Kernel}
    (hs : Structured k) (hc : CacheSound k) {x : κ} (hx : m.inRange k x) :
    Structured (m.go x k).2 ∧ CacheSound (m.go x k).2 ∧ Extends k (m.go x k).2 := by
  obtain ⟨hc', hs', hext, -⟩ := m.go_invariant cacheSound_tableInvariant hm (m.guarded_true _) x k
    hc hs hx
  exact ⟨hs', hc', hext⟩

/-- On a table with sound caches, an argument whose answer the table already holds is answered
so, and nothing but the counters and the caches changes. -/
theorem Memo.go_of_find {κ : Type} {m : Memo κ} (hm : m.Sound CacheSound) {k : Kernel}
    (hs : Structured k) (hc : CacheSound k) {x : κ} (hx : m.inRange k x) {v : Nat}
    (hv : m.find k x = some v) : (m.go x k).1 = some v ∧ SameTable (m.go x k).2 k := by
  obtain ⟨h₁, h₂⟩ := m.go_refines cacheSound_tableInvariant hm (m.guarded_true _) x k k hc hs
    (.refl k) hx
  obtain ⟨hf₁, hf₂⟩ := m.free_go_of_find x k v hs hx hv
  exact ⟨h₁.trans hf₁, h₂.trans hf₂⟩

/-- On a table without faults, an argument whose answer the table already holds is answered by
that node. -/
theorem Memo.answer_of_find {κ : Type} {m : Memo κ} (hm : m.Sound CacheSound) {k : Kernel}
    (hs : Structured k) (hc : CacheSound k) (hf : k.faults = []) {x : κ} (hx : m.inRange k x)
    {v : Nat} (hv : m.find k x = some v) : ((answer (m.go x k).1).run (m.go x k).2).1 = v := by
  obtain ⟨h₁, h₂⟩ := m.go_of_find hm hs hc hx hv
  rw [h₁, answer_run]
  simp [h₂.faults, hf]

/-- A node answered by an operation was found by its recursion, in the table it leaves, which
holds no fault. -/
theorem Memo.found_of_answer {κ : Type} {m : Memo κ} (hm : m.Sound CacheSound) {k : Kernel}
    (hs : Structured k) (hc : CacheSound k) {x : κ} (hx : m.inRange k x) {v : Nat}
    (hv : ((answer (m.go x k).1).run (m.go x k).2).1 = v) :
    m.find (m.go x k).2 x = some v ∧ v < (m.go x k).2.nodes.size ∧ (m.go x k).2.faults = [] ∧
      ((answer (m.go x k).1).run (m.go x k).2).2 = (m.go x k).2 := by
  obtain ⟨hr, htab⟩ := answer_eq_natCast hv
  obtain ⟨-, -, -, hfound⟩ := m.go_invariant cacheSound_tableInvariant hm (m.guarded_true _) x k
    hc hs hx
  obtain ⟨hfind, hlt⟩ := hfound v hr
  refine ⟨hfind, hlt, ?_, htab⟩
  -- an answer other than `-1` is given only when no fault is recorded
  rw [answer_run, hr] at hv
  dsimp only at hv
  split at hv
  · rename_i hempty
    exact List.isEmpty_iff.1 hempty
  · omega

/-- Negation answers a terminal with the other terminal. -/
theorem negRec_base_terminal (k : Kernel) {n : Nat} (h : n < 2) :
    negRec.base k n = some (1 - n) :=
  if_pos h

theorem negRec_base_internal (k : Kernel) {n : Nat} (h : 2 ≤ n) : negRec.base k n = none :=
  if_neg (by omega)

/-- The answer found for the negation of a node is found negated back to the node: its children
are the negations of the node's children, and the unique table holds the node's own triple. The
induction is on the node, whose children are below it. -/
theorem negRec_find_involutive {k : Kernel} (hs : Structured k) :
    ∀ n m, n < k.nodes.size → negRec.find k n = some m → negRec.find k m = some n := by
  intro n
  induction n using Nat.strongRecOn with
  | ind n ih =>
  intro m hn hm
  by_cases h2 : n < 2
  · rw [negRec.find_base (negRec_base_terminal k h2)] at hm
    cases hm
    rw [negRec.find_base (negRec_base_terminal k (by omega))]
    congr 1
    omega
  have hlo := lowOf_lt k n (by omega)
  have hhi := highOf_lt k n (by omega)
  obtain ⟨a, b, ha, hb, hab⟩ := negRec.find_split (negRec_base_internal k (by omega)) hm
  have ha' : negRec.find k a = some (k.lowOf n) := ih _ hlo a (by omega) ha
  have hb' : negRec.find k b = some (k.highOf n) := ih _ hhi b (by omega) hb
  have hne : k.lowOf n ≠ k.highOf n := by
    rw [hs.lowOf_eq (by omega) hn, hs.highOf_eq (by omega) hn]
    exact (hs.children n (by omega) hn).2.2
  -- the negated children differ, so the answer is the node of their triple
  have hab' : a ≠ b := by
    rintro rfl
    exact hne (Option.some.inj (ha'.symm.trans hb'))
  rw [lookupNode_of_ne k hab'] at hab
  obtain ⟨hm2, hmn, hme⟩ := (hs.unique _ _).1 hab
  have hsplit : nodeSplit k m = (k.level n, a, b) := by
    simp only [nodeSplit, Kernel.level, hs.lowOf_eq hm2 hmn, hs.highOf_eq hm2 hmn, hme]
    rfl
  have hlow : negRec.find k (negRec.split k m).2.1 = some (k.lowOf n) := by
    change negRec.find k (nodeSplit k m).2.1 = _
    rw [hsplit]
    exact ha'
  have hhigh : negRec.find k (negRec.split k m).2.2 = some (k.highOf n) := by
    change negRec.find k (nodeSplit k m).2.2 = _
    rw [hsplit]
    exact hb'
  have htriple : k.lookupNode (negRec.split k m).1 (k.lowOf n) (k.highOf n) = some n := by
    change k.lookupNode (nodeSplit k m).1 _ _ = _
    rw [hsplit, Kernel.lookupNode, if_neg hne]
    refine (hs.unique _ _).2 ⟨by omega, hn, ?_⟩
    simp only [Kernel.level, hs.lowOf_eq (by omega) hn, hs.highOf_eq (by omega) hn]
  exact negRec.find_of_split (negRec_base_internal k hm2) hlow hhigh htriple

/-! ### Operators with their operands swapped -/

theorem applyBase_swap {o : Operator} (hsym : o.Symmetric) (x : Nat × Nat) :
    applyBase o x.swap = applyBase o x := by
  unfold applyBase
  rw [Prod.fst_swap, Prod.snd_swap, Operator.shortcut_comm hsym x.2 x.1,
    Operator.onTerminals_comm hsym x.2 x.1]
  simp only [and_comm]

/-- Swapping the operands swaps the operands of the two recursive calls and keeps their level. -/
theorem applySplit_swap (k : Kernel) {x : Nat × Nat} (ht : ¬ (x.1 < 2 ∧ x.2 < 2)) :
    applySplit k x.swap =
      ((applySplit k x).1, (applySplit k x).2.1.swap, (applySplit k x).2.2.swap) := by
  obtain ⟨l, r⟩ := x
  dsimp only at ht
  unfold applySplit
  dsimp only [Prod.swap]
  split_ifs <;> simp_all <;> omega

/-- A symmetric operator finds, for its operands swapped, what it finds for them. The induction
follows the recursion, whose calls on the swapped operands are the swapped calls. -/
theorem applyRec_find_swap {o : Operator} (hsym : o.Symmetric) (k : Kernel) :
    ∀ (x : Nat × Nat) (v : Nat), (applyRec o).find k x = some v →
      (applyRec o).find k x.swap = some v := by
  intro x
  induction h : (applyRec o).measure x using Nat.strongRecOn generalizing x with
  | ind n ih =>
  intro v hv
  have hbase : (applyRec o).base k x.swap = (applyRec o).base k x := applyBase_swap hsym x
  cases hb : (applyRec o).base k x with
  | some w =>
    rw [(applyRec o).find_base hb] at hv
    rw [(applyRec o).find_base (hbase.trans hb), hv]
  | none =>
  obtain ⟨a, b, ha, hb', hab⟩ := (applyRec o).find_split hb hv
  have hlt := (applyRec o).split_lt k x hb
  have hsplit : (applyRec o).split k x.swap =
      (((applyRec o).split k x).1, ((applyRec o).split k x).2.1.swap,
        ((applyRec o).split k x).2.2.swap) :=
    applySplit_swap k (applyBase_none hb)
  have ha' : (applyRec o).find k ((applyRec o).split k x.swap).2.1 = some a := by
    rw [hsplit]
    exact ih _ (h ▸ hlt.1) _ rfl a ha
  have hb'' : (applyRec o).find k ((applyRec o).split k x.swap).2.2 = some b := by
    rw [hsplit]
    exact ih _ (h ▸ hlt.2) _ rfl b hb'
  refine (applyRec o).find_of_split (hbase.trans hb) ha' hb'' ?_
  rw [hsplit]
  exact hab

/-! ### Answers found again -/

/-- The negation of the negation of a node is the node: the first negation leaves in the table
every node that the second one needs, and a sound cache answers only what the recursion finds. -/
theorem negate_negate {k : Kernel} (hs : Structured k) (hc : CacheSound k) {n : Int}
    (h0 : 0 ≤ n) (hn : n < k.nodes.size) {m : Nat} (hm : ((negate n).run k).1 = m) :
    ((negate m).run ((negate n).run k).2).1 = n := by
  have hx : negMemo.inRange k n.toNat := show n.toNat < k.nodes.size by omega
  rw [negate_run_of_valid h0 hn] at hm ⊢
  obtain ⟨hfind, hlt, hf₁, htab⟩ := negMemo.found_of_answer negMemo_sound hs hc hx hm
  obtain ⟨hs₁, hc₁, hext⟩ := negMemo.go_cacheSound negMemo_sound hs hc hx
  have hback := negRec_find_involutive hs₁ _ _ (Nat.lt_of_lt_of_le hx hext.size_le) hfind
  rw [htab, negate_run_of_valid (Int.natCast_nonneg m) (by omega), Int.toNat_natCast,
    negMemo.answer_of_find negMemo_sound hs₁ hc₁ hf₁ hlt hback]
  omega

/-- A symmetric operator answers the node it answered for two operands again for the operands
swapped. -/
theorem apply_swap {k : Kernel} (hs : Structured k) (hc : CacheSound k) {o : Operator}
    (hsym : o.Symmetric) {l r : Int} (hl0 : 0 ≤ l) (hl : l < k.nodes.size) (hr0 : 0 ≤ r)
    (hr : r < k.nodes.size) {v : Nat} (hv : ((apply l r o.code).run k).1 = v) :
    ((apply r l o.code).run ((apply l r o.code).run k).2).1 = v := by
  have hx : (applyMemo o).inRange k (l.toNat, r.toNat) :=
    show l.toNat < k.nodes.size ∧ r.toNat < k.nodes.size by omega
  rw [apply_run_of_valid o hl0 hl hr0 hr] at hv ⊢
  obtain ⟨hfind, -, hf₁, htab⟩ := (applyMemo o).found_of_answer (applyMemo_sound o) hs hc hx hv
  obtain ⟨hs₁, hc₁, hext⟩ := (applyMemo o).go_cacheSound (applyMemo_sound o) hs hc hx
  have hsize := hext.size_le
  have hx₁ : (applyMemo o).inRange ((applyMemo o).go (l.toNat, r.toNat) k).2 (r.toNat, l.toNat) :=
    show r.toNat < ((applyMemo o).go (l.toNat, r.toNat) k).2.nodes.size ∧
      l.toNat < ((applyMemo o).go (l.toNat, r.toNat) k).2.nodes.size by omega
  rw [htab, apply_run_of_valid o hr0 (by omega) hl0 (by omega)]
  exact (applyMemo o).answer_of_find (applyMemo_sound o) hs₁ hc₁ hf₁ hx₁
    (applyRec_find_swap hsym _ _ v hfind)

/-- A restriction answers the node it answered again on every later table that keeps the nodes
it answered from, declares the level and holds no fault. -/
theorem restrict_again {k : Kernel} (hs : Structured k) (hc : CacheSound k) {n L : Int}
    (hn0 : 0 ≤ n) (hn : n < k.nodes.size) (hL0 : 0 ≤ L) (hL : L < k.varnum)
    (hvar : (k.varnum : Int) ≤ maxVariables) (val : Bool) {m : Nat}
    (hm : ((restrict n L val).run k).1 = m) {k₂ : Kernel} (hs₂ : Structured k₂)
    (hc₂ : CacheSound k₂) (hext₂ : Extends ((restrict n L val).run k).2 k₂)
    (hL₂ : L < k₂.varnum) (hvar₂ : (k₂.varnum : Int) ≤ maxVariables) (hf₂ : k₂.faults = []) :
    ((restrict n L val).run k₂).1 = m := by
  have hsound := restrictMemo_sound_of_le val hL0 (by omega)
  have hx : (restrictMemo L.toNat val (restrictId L.toNat val)).inRange k n.toNat :=
    show n.toNat < k.nodes.size by omega
  rw [restrict_run_of_valid hn0 hn hL0 hL hvar] at hm hext₂
  obtain ⟨hfind, -, -, htab⟩ := Memo.found_of_answer hsound hs hc hx hm
  obtain ⟨hs₁, -, hext⟩ := Memo.go_cacheSound hsound hs hc hx
  rw [htab] at hext₂
  have hsize := (hext.trans hext₂).size_le
  rw [restrict_run_of_valid hn0 (by omega) hL0 hL₂ hvar₂]
  exact Memo.answer_of_find hsound hs₂ hc₂ hf₂ (show n.toNat < k₂.nodes.size by omega)
    ((restrictRec _ _).find_mono hs₁ hext₂ _ _ (Nat.lt_of_lt_of_le hx hext.size_le) hfind)

/-! ### Runs of operations -/

/-- A table that operations leave after `k`: it keeps every internal node of `k` and declares at
least its variables, and no more than the largest number when `k` declares no more. -/
structure Follows (k k' : Kernel) : Prop where
  ext : Extends k k'
  varnum_le : k.varnum ≤ k'.varnum
  bounded : (k.varnum : Int) ≤ maxVariables → (k'.varnum : Int) ≤ maxVariables

theorem Follows.refl (k : Kernel) : Follows k k :=
  ⟨.refl k, Nat.le_refl _, id⟩

theorem Follows.trans {k k' k'' : Kernel} (h : Follows k k') (h' : Follows k' k'') :
    Follows k k'' :=
  ⟨h.ext.trans h'.ext, Nat.le_trans h.varnum_le h'.varnum_le, fun hb => h'.bounded (h.bounded hb)⟩

theorem Follows.of_grows {k k' : Kernel} (h : Grows k k') : Follows k k' :=
  ⟨h.ext, Nat.le_of_eq h.varnum.symm, fun hb => by rw [h.varnum]; exact hb⟩

/-- Node creation keeps the number of variables. -/
theorem varnum_tableInvariant (v : Nat) :
    TableInvariant (fun k => k.varnum = v) fun _ _ _ _ => True where
  count _ h _ := h
  record _ h _ := h
  node level lo hi h hs _ _ _ := (node_frame hs level lo hi).2.2.1.trans h

/-- A declaration of variables keeps their number, or sets it to the number it accepted, which
is no smaller and no larger than the largest number of variables. -/
theorem setVarnum_varnum (num : Int) {k : Kernel} (hs : Structured k) :
    ((setVarnum num).run k).2.varnum = k.varnum ∨
      (((setVarnum num).run k).2.varnum = (wrap32 num).toNat ∧ k.varnum ≤ (wrap32 num).toNat ∧
        wrap32 num ≤ maxVariables) := by
  rw [setVarnum_run]
  split
  · exact .inl rfl
  · rename_i hbad
    have hd := (declareLevels_invariant (varnum_tableInvariant k.varnum)
      (fun _ _ _ _ _ => trivial) (fun _ h _ => h)
      (List.range' k.varnum ((wrap32 num).toNat - k.varnum)) (k.setTerminals (wrap32 num).toNat)
      rfl (hs.setTerminals _)).1
    dsimp only
    split
    · exact .inr ⟨rfl, by omega, by omega⟩
    · exact .inl hd

/-- One operation keeps every internal node, and declares more variables only within the largest
number. -/
theorem perform_follows (op : Op) {k : Kernel} (hs : Structured k) (hc : CacheSound k) :
    Follows k (perform op k) := by
  rcases perform_cases op k with ⟨fs, h⟩ | ⟨num, rfl⟩ | ⟨n, rfl⟩ | ⟨l, r, o, rfl⟩ |
    ⟨n, level, val, rfl⟩
  · rw [h]
    exact ⟨.of_eq rfl rfl, Nat.le_refl _, id⟩
  · have hext := setVarnum_extends num hs
    change Follows k ((setVarnum num).run k).2
    rcases setVarnum_varnum num hs with h | ⟨h, hle, hmax⟩
    · exact ⟨hext, Nat.le_of_eq h.symm, fun hb => by rw [h]; exact hb⟩
    · exact ⟨hext, h ▸ hle, fun _ => by rw [h]; omega⟩
  · exact .of_grows (negate_grows hs hc n)
  · exact .of_grows (apply_grows hs hc l r o)
  · exact .of_grows (restrict_grows hs hc n level val)

/-- Every reachable table declares no more than the largest number of variables. -/
theorem reachable_varnum_le {k : Kernel} (h : Reachable k) : (k.varnum : Int) ≤ maxVariables := by
  induction h with
  | create h =>
    obtain ⟨hbad, hv⟩ := setVarnum_none (congrArg Prod.fst (create_ok h))
    rw [create_ok h] at hv
    rw [hv]
    omega
  | step op hr ih =>
    obtain ⟨hs, hc⟩ := reachable_cacheSound hr
    exact (perform_follows op hs hc).bounded ih

/-- The table that a run of operations leaves. -/
def performAll (ops : List Op) (k : Kernel) : Kernel :=
  ops.foldl (fun k op => perform op k) k

/-- A run of operations from a reachable table reaches a table that follows it. -/
theorem reachable_performAll :
    ∀ (ops : List Op) {k : Kernel}, Reachable k →
      Reachable (performAll ops k) ∧ Follows k (performAll ops k)
  | [], k, h => ⟨h, .refl k⟩
  | op :: ops, _, h =>
    have hk := reachable_cacheSound h
    have ih := reachable_performAll ops (.step op h)
    ⟨ih.1, (perform_follows op hk.1 hk.2).trans ih.2⟩

/-! ### Operations on reachable tables -/

/-- Negation and the binary operators on a reachable table without faults. Each stops at the
node limit or answers the one node of the table it leaves that computes its function; a
negation negated again gives back its argument, a symmetric operator gives the same node for its
operands swapped, and a number that names no operator is refused. -/
theorem negate_apply_compute {k : Kernel} (hr : Reachable k) (hf : k.faults = []) :
    (∀ n : Int, 0 ≤ n → n < k.nodes.size →
      Outcome ((negate n).run k).2 ((negate n).run k).1 (fun σ => 1 - k.walk σ n.toNat) ∧
        ∀ m : Nat, ((negate n).run k).1 = m → ((negate m).run ((negate n).run k).2).1 = n) ∧
    (∀ (o : Operator) (l r : Int), 0 ≤ l → l < k.nodes.size → 0 ≤ r → r < k.nodes.size →
      Outcome ((apply l r o.code).run k).2 ((apply l r o.code).run k).1
          (fun σ => o.onTerminals (k.walk σ l.toNat) (k.walk σ r.toNat)) ∧
        (o.Symmetric → ∀ v : Nat, ((apply l r o.code).run k).1 = v →
          ((apply r l o.code).run ((apply l r o.code).run k).2).1 = v)) ∧
    ∀ l r op : Int, 0 ≤ l → l < k.nodes.size → 0 ≤ r → r < k.nodes.size → (op < 0 ∨ 4 < op) →
      (apply l r op).run k = (-1, k.record (.unsupportedOperator op)) := by
  obtain ⟨hs, hc, hg⟩ := reachable_graded hr
  refine ⟨fun n h0 hn => ⟨negate_outcome hs hc hg hf h0 hn, fun m hm => ?_⟩,
    fun o l r hl0 hl hr0 hr => ⟨apply_outcome hs hc hg hf o hl0 hl hr0 hr, ?_⟩,
    fun l r op hl0 hl hr0 hr hop => ?_⟩
  · exact negate_negate hs hc h0 hn hm
  · exact fun hsym v hv => apply_swap hs hc hsym hl0 hl hr0 hr hv
  · rw [apply_run, if_neg (by omega), if_neg (by omega), Operator.ofCode?_eq_none hop]

/-- The table created with one variable and small caches: the two terminals and the two literals
of level `0`. -/
def oneVariable : Kernel :=
  ((setVarnum 1).run (blank ⟨0, 3, 0⟩).resetCaches).2

theorem reachable_oneVariable : Reachable oneVariable :=
  .create (show create 1 ⟨0, 3, 0⟩ = .ok oneVariable by unfold oneVariable; cbv)

theorem negate_apply_compute_oneVariable :
    Reachable oneVariable ∧ oneVariable.faults = [] ∧
    (∀ n : Int, 0 ≤ n → n < oneVariable.nodes.size →
      Outcome ((negate n).run oneVariable).2 ((negate n).run oneVariable).1
          (fun σ => 1 - oneVariable.walk σ n.toNat) ∧
        ∀ m : Nat, ((negate n).run oneVariable).1 = m →
          ((negate m).run ((negate n).run oneVariable).2).1 = n) ∧
    (∀ (o : Operator) (l r : Int), 0 ≤ l → l < oneVariable.nodes.size → 0 ≤ r →
      r < oneVariable.nodes.size →
      Outcome ((apply l r o.code).run oneVariable).2 ((apply l r o.code).run oneVariable).1
          (fun σ => o.onTerminals (oneVariable.walk σ l.toNat) (oneVariable.walk σ r.toNat)) ∧
        (o.Symmetric → ∀ v : Nat, ((apply l r o.code).run oneVariable).1 = v →
          ((apply r l o.code).run ((apply l r o.code).run oneVariable).2).1 = v)) ∧
    ∀ l r op : Int, 0 ≤ l → l < oneVariable.nodes.size → 0 ≤ r → r < oneVariable.nodes.size →
      (op < 0 ∨ 4 < op) →
      (apply l r op).run oneVariable = (-1, oneVariable.record (.unsupportedOperator op)) :=
  have hf : oneVariable.faults = [] := by unfold oneVariable; cbv
  ⟨reachable_oneVariable, hf, negate_apply_compute reachable_oneVariable hf⟩

@[simp] theorem fixLevel_fixLevel (σ : Nat → Bool) (lvl : Nat) (a b : Bool) :
    fixLevel (fixLevel σ lvl a) lvl b = fixLevel σ lvl b := by
  funext l
  by_cases h : l = lvl <;> simp [fixLevel, h]

/-- Restriction on a reachable table. A node it answers is the cofactor of its argument: it
computes the argument with the level fixed to the value, so the level is not in its support; and
every later run of operations that leaves no fault answers it again. -/
theorem restrict_cofactor {k : Kernel} (hr : Reachable k) {n L : Int} (hn0 : 0 ≤ n)
    (hn : n < k.nodes.size) (hL0 : 0 ≤ L) (hL : L < k.varnum) (val : Bool) {m : Nat}
    (hm : ((restrict n L val).run k).1 = m) :
    m < ((restrict n L val).run k).2.nodes.size ∧
    (∀ σ, ((restrict n L val).run k).2.walk σ m =
      ((restrict n L val).run k).2.walk (fixLevel σ L.toNat val) n.toNat) ∧
    (∃ S, (support m).run ((restrict n L val).run k).2 =
      (some S, ((restrict n L val).run k).2) ∧ L.toNat ∉ S) ∧
    ∀ ops : List Op, (performAll ops ((restrict n L val).run k).2).faults = [] →
      ((restrict n L val).run (performAll ops ((restrict n L val).run k).2)).1 = m := by
  obtain ⟨hs, hc, -⟩ := reachable_graded hr
  have hvar := reachable_varnum_le hr
  have hr₁ : Reachable ((restrict n L val).run k).2 := .step (.restrict n L val) hr
  obtain ⟨hs₁, hc₁, hg₁⟩ := reachable_graded hr₁
  have hgrow := restrict_grows hs hc n L val
  -- the answer is a node, so the restriction left no fault, and the table held none before
  obtain ⟨hf₁, hlt⟩ : ((restrict n L val).run k).2.faults = [] ∧
      m < ((restrict n L val).run k).2.nodes.size := by
    rw [restrict_run_of_valid hn0 hn hL0 hL hvar] at hm ⊢
    obtain ⟨-, hlt, hf₁, htab⟩ := Memo.found_of_answer (restrictMemo_sound_of_le val hL0 (by omega))
      hs hc (show n.toNat < k.nodes.size by omega) hm
    rw [htab]
    exact ⟨hf₁, hlt⟩
  have hf : k.faults = [] := Classical.byContradiction fun hne => hgrow.faults hne hf₁
  -- the cofactor, read in the table the restriction leaves
  have hw : ∀ σ, ((restrict n L val).run k).2.walk σ m =
      ((restrict n L val).run k).2.walk (fixLevel σ L.toNat val) n.toNat := by
    rcases restrict_outcome hs hc (reachable_graded hr).2.2 hf hn0 hn hL0 hL hvar val with
      ⟨hneg, -⟩ | ⟨v, hv, -, -, hvw, -⟩
    · omega
    · obtain rfl : v = m := by omega
      intro σ
      rw [hvw σ, walk_extends hgrow.ext _ n.toNat (by omega)]
  refine ⟨hlt, hw, ?_, fun ops hf₂ => ?_⟩
  · -- a node that does not depend on a level reaches no internal node of that level
    obtain ⟨S, hrun, -, hmem⟩ := support_run hlt
    refine ⟨S, hrun, fun hin => ?_⟩
    obtain ⟨σ, hdep⟩ := (reaches_level_iff_graded hs₁ hg₁ hlt _).1 ((hmem _).1 hin)
    rw [hw, hw, fixLevel_fixLevel, fixLevel_fixLevel] at hdep
    exact hdep rfl
  · obtain ⟨hr₂, hfol⟩ := reachable_performAll ops hr₁
    obtain ⟨hs₂, hc₂, -⟩ := reachable_graded hr₂
    have hvl := hgrow.varnum
    exact restrict_again hs hc hn0 hn hL0 hL hvar val hm hs₂ hc₂ hfol.ext
      (by have := hfol.varnum_le; omega) (reachable_varnum_le hr₂) hf₂

theorem restrict_cofactor_oneVariable :
    Reachable oneVariable ∧ (0 : Int) ≤ 2 ∧ (2 : Int) < oneVariable.nodes.size ∧ (0 : Int) ≤ 0 ∧
      (0 : Int) < oneVariable.varnum ∧ ((restrict 2 0 true).run oneVariable).1 = (1 : Nat) ∧
    1 < ((restrict 2 0 true).run oneVariable).2.nodes.size ∧
    (∀ σ, ((restrict 2 0 true).run oneVariable).2.walk σ 1 =
      ((restrict 2 0 true).run oneVariable).2.walk (fixLevel σ (0 : Int).toNat true) (2 : Int).toNat) ∧
    (∃ S, (support (1 : Nat)).run ((restrict 2 0 true).run oneVariable).2 =
      (some S, ((restrict 2 0 true).run oneVariable).2) ∧ (0 : Int).toNat ∉ S) ∧
    ∀ ops : List Op, (performAll ops ((restrict 2 0 true).run oneVariable).2).faults = [] →
      ((restrict 2 0 true).run (performAll ops ((restrict 2 0 true).run oneVariable).2)).1 =
        (1 : Nat) :=
  have hsize : (2 : Int) < oneVariable.nodes.size := by
    have : oneVariable.nodes.size = 4 := by unfold oneVariable; cbv
    omega
  have hvarnum : (0 : Int) < oneVariable.varnum := by
    have : oneVariable.varnum = 1 := by unfold oneVariable; cbv
    omega
  have hm : ((restrict 2 0 true).run oneVariable).1 = (1 : Nat) := by unfold oneVariable; cbv
  ⟨reachable_oneVariable, by decide, hsize, by decide, hvarnum, hm,
    restrict_cofactor reachable_oneVariable (by decide) hsize (by decide) hvarnum true hm⟩

end Kernel

end DecisionDiagrams
