/-
What the nodes of a table compute.

A node stands for the Boolean function that `Kernel.walk` evaluates: the terminal reached from
it when each level takes the value an assignment gives it. The three recursions answer nodes
for the negation of a node, an operator on two nodes, and the cofactor of a node with one level
fixed.

* `walk_internal`, `walk_lt_two`, `walk_extends` — the walk descends one node at a time, ends at
  a terminal, and does not change as the table grows.
* `walk_lookupNode` — the node of a triple tests its level and goes to one of its children.
* `walk_fixLevel_of_lt` — in level order, a node does not depend on the levels above it.
* `Recursion.Computes` — a specification of a recursion's answers that its base answers meet and
  that follows Shannon's expansion at each split; `Computes.find_walk`: every answer found meets
  it. Instances: `negRec_computes`, `applyRec_computes`, `restrictRec_computes`.
-/
import Mathlib
import DecisionDiagrams.Proofs.OrderedTable

namespace DecisionDiagrams

namespace Kernel

/-! ### The walk -/

section Walk

variable (k : Kernel) (σ : Nat → Bool)

theorem walk_terminal {n : Nat} (h : n < 2) : k.walk σ n = n := by
  rw [walk, dif_pos h]

theorem walk_internal {n : Nat} (h : 2 ≤ n) :
    k.walk σ n = if σ (k.level n) then k.walk σ (k.highOf n) else k.walk σ (k.lowOf n) := by
  rw [walk, dif_neg (by omega)]

/-- Every walk ends at a terminal. -/
theorem walk_lt_two (n : Nat) : k.walk σ n < 2 := by
  induction n using Nat.strongRecOn with
  | ind n ih =>
  by_cases h : n < 2
  · rw [walk_terminal k σ h]
    exact h
  · rw [walk_internal k σ (by omega)]
    split
    · exact ih _ (highOf_lt k n (by omega))
    · exact ih _ (lowOf_lt k n (by omega))

end Walk

/-- The walk reads only the nodes. -/
theorem walk_of_nodes_eq {k k' : Kernel} (h : k'.nodes = k.nodes) (σ : Nat → Bool) (n : Nat) :
    k'.walk σ n = k.walk σ n := by
  have he : ∀ i, k'.entry i = k.entry i := fun i => by simp [Kernel.entry, h]
  induction n using Nat.strongRecOn with
  | ind n ih =>
  by_cases h2 : n < 2
  · rw [walk_terminal _ σ h2, walk_terminal _ σ h2]
  · have h2' : 2 ≤ n := by omega
    have hlo : k'.lowOf n = k.lowOf n := by simp [Kernel.lowOf, he]
    have hhi : k'.highOf n = k.highOf n := by simp [Kernel.highOf, he]
    have hlv : k'.level n = k.level n := by simp [Kernel.level, he]
    rw [walk_internal k' σ h2', walk_internal k σ h2', hlo, hhi, hlv,
      ih _ (highOf_lt k n (by omega)), ih _ (lowOf_lt k n (by omega))]

/-- A node of a table is walked the same way in every table that extends it. -/
theorem walk_extends {k k' : Kernel} (hext : Extends k k') (σ : Nat → Bool) :
    ∀ n, n < k.nodes.size → k'.walk σ n = k.walk σ n := by
  intro n
  induction n using Nat.strongRecOn with
  | ind n ih =>
  intro hn
  by_cases h2 : n < 2
  · rw [walk_terminal _ σ h2, walk_terminal _ σ h2]
  · have h2' : 2 ≤ n := by omega
    rw [walk_internal _ σ h2', walk_internal _ σ h2', hext.level h2' hn, hext.lowOf h2' hn,
      hext.highOf h2' hn,
      ih _ (highOf_lt k n (by omega)) (highOf_lt_size k h2' hn),
      ih _ (lowOf_lt k n (by omega)) (lowOf_lt_size k h2' hn)]

/-- The node of a triple `(level, a, b)` tests `level`, going to `b` where it is true and to `a`
where it is false. -/
theorem walk_lookupNode {k : Kernel} (hs : Structured k) {level a b v : Nat}
    (h : k.lookupNode level a b = some v) (σ : Nat → Bool) :
    k.walk σ v = if σ level then k.walk σ b else k.walk σ a := by
  rcases lookupNode_eq_some.1 h with ⟨rfl, rfl⟩ | ⟨-, hu⟩
  · -- equal children: the node is the child itself
    split <;> rfl
  · obtain ⟨h2, hv, he⟩ := (hs.unique _ _).1 hu
    rw [walk_internal k σ h2, hs.highOf_eq h2 hv, hs.lowOf_eq h2 hv]
    simp [Kernel.level, he]

/-! ### Fixing one level -/

/-- The assignment `σ` with level `lvl` set to `val`. -/
def fixLevel (σ : Nat → Bool) (lvl : Nat) (val : Bool) : Nat → Bool :=
  fun l => if l = lvl then val else σ l

@[simp] theorem fixLevel_same (σ : Nat → Bool) (lvl : Nat) (val : Bool) :
    fixLevel σ lvl val lvl = val := by
  simp [fixLevel]

theorem fixLevel_ne (σ : Nat → Bool) {lvl l : Nat} (val : Bool) (h : l ≠ lvl) :
    fixLevel σ lvl val l = σ l := by
  simp [fixLevel, h]

/-- In level order a node depends only on its own level and those below it: fixing a level
above it changes nothing. -/
theorem walk_fixLevel_of_lt {k : Kernel} (hs : Structured k) (hl : Levels k) (σ : Nat → Bool)
    {lvl : Nat} (val : Bool) :
    ∀ n, n < k.nodes.size → (2 ≤ n → lvl < k.level n) →
      k.walk (fixLevel σ lvl val) n = k.walk σ n := by
  intro n
  induction n using Nat.strongRecOn with
  | ind n ih =>
  intro hn habove
  by_cases h2 : n < 2
  · rw [walk_terminal _ _ h2, walk_terminal _ _ h2]
  · have h2' : 2 ≤ n := by omega
    have hlt := habove h2'
    -- both children lie above the node, hence above `lvl`
    have hlo := ih _ (lowOf_lt k n (by omega)) (lowOf_lt_size k h2' hn)
      fun _ => Nat.lt_trans hlt (hl.lowOf hs h2' hn)
    have hhi := ih _ (highOf_lt k n (by omega)) (highOf_lt_size k h2' hn)
      fun _ => Nat.lt_trans hlt (hl.highOf hs h2' hn)
    rw [walk_internal _ _ h2', walk_internal _ _ h2', fixLevel_ne σ val (by omega), hlo, hhi]

/-! ### What a recursion computes -/

/-- A specification of a recursion's answers: `spec k x σ` is the terminal that the answer for
`x` reaches under `σ`. The base answers meet it, and at a split it follows Shannon's expansion:
it is the specification of the high child where the split's level is true and of the low child
where it is false. -/
structure Recursion.Computes {κ : Type} (R : Recursion κ) (I : Kernel → Prop)
    (spec : Kernel → κ → (Nat → Bool) → Nat) : Prop where
  base : ∀ {k : Kernel} {x : κ} {v : Nat} (σ : Nat → Bool), I k → Structured k → R.inRange k x →
    R.base k x = some v → k.walk σ v = spec k x σ
  split : ∀ {k : Kernel} {x : κ} (σ : Nat → Bool), I k → Structured k → R.inRange k x →
    R.base k x = none →
      spec k x σ =
        if σ (R.split k x).1 then spec k (R.split k x).2.2 σ else spec k (R.split k x).2.1 σ
  stable : ∀ {k k' : Kernel} {x : κ} (σ : Nat → Bool), Extends k k' → R.inRange k x →
    spec k' x σ = spec k x σ

/-- Every answer found meets the specification. -/
theorem Recursion.Computes.find_walk {κ : Type} {R : Recursion κ} {I : Kernel → Prop}
    {spec : Kernel → κ → (Nat → Bool) → Nat} (hc : R.Computes I spec) {k : Kernel} (hI : I k)
    (hs : Structured k) :
    ∀ (x : κ) (v : Nat), R.inRange k x → R.find k x = some v →
      ∀ σ, k.walk σ v = spec k x σ := by
  intro x
  induction h : R.measure x using Nat.strongRecOn generalizing x with
  | ind n ih =>
  intro v hx hv σ
  cases hbase : R.base k x with
  | some w =>
    rw [R.find_base hbase] at hv
    cases hv
    exact hc.base σ hI hs hx hbase
  | none =>
    obtain ⟨a, b, ha, hb, hab⟩ := R.find_split hbase hv
    have hlt := R.split_lt k x hbase
    have hr := R.split_inRange x hs hx hbase
    -- the answer is the node of the split's level over the children's answers
    rw [walk_lookupNode hs hab σ, ih _ (h ▸ hlt.1) _ rfl a hr.1 ha σ,
      ih _ (h ▸ hlt.2) _ rfl b hr.2 hb σ]
    exact (hc.split σ hI hs hx hbase).symm

/-- Negation swaps the terminals. -/
theorem negRec_computes : negRec.Computes (fun _ => True) fun k n σ => 1 - k.walk σ n where
  base {k n v} σ _ _ _ h := by
    have hn : n < 2 := Nat.lt_of_not_le fun h2 => by
      have : negBase n = none := if_neg (by omega)
      rw [show negRec.base k n = negBase n from rfl, this] at h
      cases h
    have hv : negBase n = some (1 - n) := if_pos hn
    rw [show negRec.base k n = negBase n from rfl, hv] at h
    cases h
    rw [walk_terminal k σ (by omega), walk_terminal k σ hn]
  split {k n} σ _ _ _ h := by
    show 1 - k.walk σ n =
      if σ (k.level n) then 1 - k.walk σ (k.highOf n) else 1 - k.walk σ (k.lowOf n)
    rw [walk_internal k σ (two_le_of_ite_none h)]
    split <;> rfl
  stable σ hext hn := by
    show 1 - _ = 1 - _
    rw [walk_extends hext σ _ hn]

/-- What a shortcut answers is what the operator gives on the terminals of its arguments, for
any reading `w` of nodes as terminals that keeps the two terminals. -/
theorem Operator.shortcut_onTerminals {op : Operator} {l r v : Nat} (h : op.shortcut l r = some v)
    (w : Nat → Nat) (hw : ∀ n, w n < 2) (h0 : w 0 = 0) (h1 : w 1 = 1) :
    w v = op.onTerminals (w l) (w r) := by
  have hl : w l = 0 ∨ w l = 1 := by have := hw l; omega
  have hr : w r = 0 ∨ w r = 1 := by have := hw r; omega
  -- a shortcut answers an argument or a terminal: each case is a fact about two terminals
  cases op <;> simp only [Operator.shortcut] at h <;> repeat' split at h
  all_goals cases h
  all_goals grind [Operator.onTerminals, Operator.eval]

theorem shortcut_walk {op : Operator} {l r v : Nat} (h : op.shortcut l r = some v) (k : Kernel)
    (σ : Nat → Bool) : k.walk σ v = op.onTerminals (k.walk σ l) (k.walk σ r) :=
  Operator.shortcut_onTerminals h (k.walk σ) (walk_lt_two k σ) (walk_terminal k σ (by omega))
    (walk_terminal k σ (by omega))

/-- A binary operator applies the operator to the terminals its operands reach. -/
theorem applyRec_computes (op : Operator) :
    (applyRec op).Computes (fun _ => True)
      fun k x σ => op.onTerminals (k.walk σ x.1) (k.walk σ x.2) where
  base {k x v} σ _ _ _ h := by
    change applyBase op x = some v at h
    rcases applyBase_eq_some.1 h with hsc | ⟨-, ht₁, ht₂, rfl⟩
    · exact shortcut_walk hsc k σ
    · have := Operator.onTerminals_le op x.1 x.2
      rw [walk_terminal k σ (by omega), walk_terminal k σ ht₁, walk_terminal k σ ht₂]
  split {k x} σ _ _ _ h := by
    change op.onTerminals (k.walk σ x.1) (k.walk σ x.2) =
      if σ (applySplit k x).1 then
        op.onTerminals (k.walk σ (applySplit k x).2.2.1) (k.walk σ (applySplit k x).2.2.2)
      else
        op.onTerminals (k.walk σ (applySplit k x).2.1.1) (k.walk σ (applySplit k x).2.1.2)
    -- the split operands are walked one step; the other is left as it is
    rcases applySplit_cases k (applyBase_none h) with ⟨h1, h2, he, hsp⟩ | ⟨h1, -, hsp⟩ |
      ⟨h2, -, hsp⟩ <;> rw [hsp]
    · rw [walk_internal k σ h1, walk_internal k σ h2, he]
      split <;> rfl
    · rw [walk_internal k σ h1]
      split <;> rfl
    · rw [walk_internal k σ h2]
      split <;> rfl
  stable σ hext hx := by
    show op.onTerminals _ _ = op.onTerminals _ _
    rw [walk_extends hext σ _ hx.1, walk_extends hext σ _ hx.2]

/-- Restriction of level `lvl` to `val` computes the cofactor, on tables in level order. -/
theorem restrictRec_computes (lvl : Nat) (val : Bool) :
    (restrictRec lvl val).Computes Levels fun k n σ => k.walk (fixLevel σ lvl val) n where
  base {k n v} σ hl hs hn h := by
    change restrictBase lvl val k n = some v at h
    rcases restrictBase_eq_some.1 h with ⟨rfl, h2 | hgt⟩ | ⟨h2', hlv, rfl⟩
    · rw [walk_terminal _ _ h2, walk_terminal _ _ h2]
    · -- a node above the level does not depend on it
      exact (walk_fixLevel_of_lt hs hl σ val v hn fun _ => hgt).symm
    · -- a node at the level is replaced by the child that the value selects
      rw [walk_internal _ _ h2', hlv, fixLevel_same, ← hs.highOf_eq h2' hn,
        ← hs.lowOf_eq h2' hn]
      cases val
      · rw [if_neg Bool.false_ne_true, if_neg Bool.false_ne_true]
        exact (walk_fixLevel_of_lt hs hl σ false _ (lowOf_lt_size k h2' hn)
          fun _ => hlv ▸ hl.lowOf hs h2' hn).symm
      · rw [if_pos rfl, if_pos rfl]
        exact (walk_fixLevel_of_lt hs hl σ true _ (highOf_lt_size k h2' hn)
          fun _ => hlv ▸ hl.highOf hs h2' hn).symm
  split {k n} σ _ _ _ h := by
    change restrictBase lvl val k n = none at h
    -- a node below the level: the fixed level is not its own
    obtain ⟨h2, hlt⟩ := restrictBase_eq_none.1 h
    show k.walk (fixLevel σ lvl val) n =
      if σ (k.level n) then k.walk (fixLevel σ lvl val) (k.highOf n)
      else k.walk (fixLevel σ lvl val) (k.lowOf n)
    rw [walk_internal _ _ h2, fixLevel_ne σ val (by omega)]
  stable σ hext hn := walk_extends hext _ _ hn

/-! ### The answers of the operations -/

/-- A run of a memoised recursion on an ordered table with sound caches: what it answers is a
node of the table it leaves and meets the recursion's specification. -/
theorem Memo.go_walk {κ : Type} {m : Memo κ} {I : Kernel → Prop}
    {spec : Kernel → κ → (Nat → Bool) → Nat} {lb : Kernel → κ → Nat} (hm : m.Sound CacheSound)
    (hb : m.LevelBound lb) (hc : m.Computes I spec) (hI : ∀ k, Ordered k → I k) {k : Kernel}
    (hck : CacheSound k) (ho : Ordered k) {x : κ} (hx : m.inRange k x) {v : Nat}
    (hv : (m.go x k).1 = some v) :
    v < (m.go x k).2.nodes.size ∧ ∀ σ, (m.go x k).2.walk σ v = spec k x σ := by
  obtain ⟨⟨-, ho'⟩, hs', hext, hfind⟩ := m.go_invariant ordered_tableInvariant hm.ordered
    (hb.guarded_above levels_of_ordered) x k ⟨hck, ho⟩ ho.structured hx
  obtain ⟨hf, hlt⟩ := hfind v hv
  refine ⟨hlt, fun σ => ?_⟩
  rw [hc.find_walk (hI _ ho') hs' x v (m.inRange_mono x hext hx) hf σ, hc.stable σ hext hx]

/-- A nonnegative answer is the node the operation found, and answering leaves the table. -/
theorem answer_eq_natCast {r : Option Nat} {k : Kernel} {v : Nat}
    (h : ((answer r).run k).1 = v) : r = some v ∧ ((answer r).run k).2 = k := by
  rw [answer_run] at h ⊢
  cases r with
  | some n =>
    dsimp only at h ⊢
    split at h
    · exact ⟨by rw [Int.ofNat_inj.1 h], rfl⟩
    · omega
  | none =>
    dsimp only at h
    omega

/-- The node that negation answers computes the negation of its argument. -/
theorem negate_walk {k : Kernel} (hc : CacheSound k) (ho : Ordered k) {n : Int} {v : Nat}
    (hv : ((negate n).run k).1 = v) :
    v < ((negate n).run k).2.nodes.size ∧
      ∀ σ, ((negate n).run k).2.walk σ v = 1 - k.walk σ n.toNat := by
  rw [negate_run] at hv ⊢
  by_cases hn : n < 0 ∨ n ≥ k.nodes.size
  · rw [if_pos hn] at hv
    omega
  rw [if_neg hn] at hv ⊢
  dsimp only at hv ⊢
  rw [negateNode_run] at hv ⊢
  obtain ⟨hr, htab⟩ := answer_eq_natCast hv
  rw [htab]
  exact Memo.go_walk negMemo_sound negRec_levelBound negRec_computes (fun _ _ => trivial) hc ho
    (show n.toNat < k.nodes.size by omega) hr

/-- The node that a binary operator answers computes the operator on its two arguments. -/
theorem apply_walk {k : Kernel} (hc : CacheSound k) (ho : Ordered k) {l r op : Int} {v : Nat}
    (hv : ((apply l r op).run k).1 = v) :
    ∃ o, Operator.ofCode? op = some o ∧ v < ((apply l r op).run k).2.nodes.size ∧
      ∀ σ, ((apply l r op).run k).2.walk σ v =
        o.onTerminals (k.walk σ l.toNat) (k.walk σ r.toNat) := by
  rw [apply_run] at hv ⊢
  by_cases hl : l < 0 ∨ l ≥ k.nodes.size
  · rw [if_pos hl] at hv
    omega
  rw [if_neg hl] at hv ⊢
  by_cases hr : r < 0 ∨ r ≥ k.nodes.size
  · rw [if_pos hr] at hv
    omega
  rw [if_neg hr] at hv ⊢
  cases ho' : Operator.ofCode? op with
  | none =>
    rw [ho'] at hv
    dsimp only at hv
    omega
  | some o =>
    rw [ho'] at hv
    dsimp only at hv ⊢
    rw [applyNodes_run] at hv ⊢
    obtain ⟨hres, htab⟩ := answer_eq_natCast hv
    rw [htab]
    exact ⟨o, rfl, Memo.go_walk (applyMemo_sound o) (applyRec_levelBound o) (applyRec_computes o)
      (fun _ _ => trivial) hc ho
      ⟨show l.toNat < k.nodes.size by omega, show r.toNat < k.nodes.size by omega⟩ hres⟩

/-- A level within the largest number of variables is its own 32-bit reading. -/
theorem wrap32_of_le {n : Int} (h0 : 0 ≤ n) (h : n ≤ maxVariables) : wrap32 n = n := by
  unfold wrap32 maxVariables at *
  unfold Int.bmod
  rw [Int.emod_eq_of_lt h0 (by omega)]
  simp only
  rw [if_pos (by omega)]

/-- The node that restriction answers computes the cofactor of its argument. -/
theorem restrict_walk {k : Kernel} (hc : CacheSound k) (ho : Ordered k) {n level : Int}
    (val : Bool) (h0 : 0 ≤ level) (hmax : level ≤ maxVariables) {v : Nat}
    (hv : ((restrict n level val).run k).1 = v) :
    v < ((restrict n level val).run k).2.nodes.size ∧
      ∀ σ, ((restrict n level val).run k).2.walk σ v =
        k.walk (fixLevel σ level.toNat val) n.toNat := by
  have hw := wrap32_of_le h0 hmax
  rw [restrict_run] at hv ⊢
  by_cases hn : n < 0 ∨ n ≥ k.nodes.size
  · rw [if_pos hn] at hv
    omega
  rw [if_neg hn] at hv ⊢
  by_cases hlv : level < 0 ∨ wrap32 level ≥ k.varnum
  · rw [if_pos hlv] at hv
    omega
  rw [if_neg hlv, if_neg (by omega)] at hv ⊢
  dsimp only at hv ⊢
  rw [restrictNode_run] at hv ⊢
  obtain ⟨hres, htab⟩ := answer_eq_natCast hv
  rw [htab, hw]
  rw [hw] at hres
  exact Memo.go_walk (restrictMemo_sound_of_nonneg level val h0 |> fun hm => by rwa [hw] at hm)
    (restrictRec_levelBound _ _) (restrictRec_computes _ _) (fun _ h => h.levels) hc ho
    (show n.toNat < k.nodes.size by omega) hres

/-- A node over the two terminals tests its level and answers a terminal. -/
theorem walk_of_terminal_children {k : Kernel} (hs : Structured k) {p j a b : Nat} (h2 : 2 ≤ p)
    (hp : p < k.nodes.size) (he : k.entry p = ⟨j, a, b⟩) (ha : a < 2) (hb : b < 2)
    (σ : Nat → Bool) : k.walk σ p = if σ j then b else a := by
  rw [walk_internal k σ h2, hs.highOf_eq h2 hp, hs.lowOf_eq h2 hp, he]
  simp only [Kernel.level, he]
  rw [walk_terminal k σ ha, walk_terminal k σ hb]

theorem ithvar_run (i : Int) (k : Kernel) : (ithvar i).run k =
    if i < 0 ∨ wrap32 i ≥ k.varnum then (-1, k.record (.unknownVariable i .ithvar))
    else ((k.varset[i.toNat]?.map fun p => (p.1 : Int)).getD (-1), k) := by
  unfold ithvar
  by_cases h : i < 0 ∨ wrap32 i ≥ k.varnum
  · rw [if_pos h]
    simp only [StateT.run_bind, StateT.run_get, pure_bind, if_pos h]
    rfl
  · rw [if_neg h]
    simp only [StateT.run_bind, StateT.run_get, pure_bind, if_neg h]
    rfl

theorem nithvar_run (i : Int) (k : Kernel) : (nithvar i).run k =
    if i < 0 ∨ wrap32 i ≥ k.varnum then (-1, k.record (.unknownVariable i .nithvar))
    else ((k.varset[i.toNat]?.map fun p => (p.2 : Int)).getD (-1), k) := by
  unfold nithvar
  by_cases h : i < 0 ∨ wrap32 i ≥ k.varnum
  · rw [if_pos h]
    simp only [StateT.run_bind, StateT.run_get, pure_bind, if_pos h]
    rfl
  · rw [if_neg h]
    simp only [StateT.run_bind, StateT.run_get, pure_bind, if_neg h]
    rfl

/-- An entry of `varset` that a literal reference reads. -/
theorem varset_getD_natCast {k : Kernel} {i : Int} {f : Nat × Nat → Nat} {v : Nat}
    (h : ((k.varset[i.toNat]?.map fun p => (f p : Int)).getD (-1)) = v) :
    ∃ p, k.varset[i.toNat]? = some p ∧ f p = v := by
  cases hp : k.varset[i.toNat]? with
  | none =>
    rw [hp] at h
    simp at h
  | some p =>
    rw [hp] at h
    simp only [Option.map_some, Option.getD_some] at h
    exact ⟨p, rfl, Int.ofNat_inj.1 h⟩

/-- The positive literal of a variable is true exactly where the variable is. -/
theorem ithvar_walk {k : Kernel} (ho : Ordered k) {i : Int} {v : Nat}
    (hv : ((ithvar i).run k).1 = v) :
    ((ithvar i).run k).2 = k ∧ v < k.nodes.size ∧
      ∀ σ, k.walk σ v = if σ i.toNat then 1 else 0 := by
  rw [ithvar_run] at hv ⊢
  by_cases hi : i < 0 ∨ wrap32 i ≥ k.varnum
  · rw [if_pos hi] at hv
    omega
  rw [if_neg hi] at hv ⊢
  obtain ⟨⟨p, q⟩, hpq, rfl⟩ := varset_getD_natCast hv
  obtain ⟨h2, hp, he⟩ := (ho.structured.unique _ _).1 (ho.literals _ _ hpq).1
  exact ⟨rfl, hp, walk_of_terminal_children ho.structured h2 hp he (by omega) (by omega)⟩

/-- The negative literal of a variable is true exactly where the variable is false. -/
theorem nithvar_walk {k : Kernel} (ho : Ordered k) {i : Int} {v : Nat}
    (hv : ((nithvar i).run k).1 = v) :
    ((nithvar i).run k).2 = k ∧ v < k.nodes.size ∧
      ∀ σ, k.walk σ v = if σ i.toNat then 0 else 1 := by
  rw [nithvar_run] at hv ⊢
  by_cases hi : i < 0 ∨ wrap32 i ≥ k.varnum
  · rw [if_pos hi] at hv
    omega
  rw [if_neg hi] at hv ⊢
  obtain ⟨⟨p, q⟩, hpq, rfl⟩ := varset_getD_natCast hv
  obtain ⟨h2, hq, he⟩ := (ho.structured.unique _ _).1 (ho.literals _ _ hpq).2
  exact ⟨rfl, hq, walk_of_terminal_children ho.structured h2 hq he (by omega) (by omega)⟩

end Kernel

end DecisionDiagrams
