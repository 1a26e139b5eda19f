/-
The second phase of a reduced build.

The first phase leaves, for each level, the nodes of that level, every node settled with its
children one level down. The second phase goes from the last level up and gives each node of
the first phase a representative in the arena: the representative of its children when they
coincide, the node already made with its variable and children when there is one, and else a
new node with those children, recorded in a table keyed by variable and children. Each
representative holds the truth values of the node it represents, at its level or below it, so
the new nodes are settled with their children below them; no new node has equal children, and
the table makes any two of them with the same variable and children one node. The arena is
thus a reduced decision graph from the root's representative, which holds the formula's truth
values.

* `Diagram.ReduceStep` — what the second phase does with one node of the first.
* `Diagram.Reducing` — the arena, the table and the representatives during the second phase.
* `Diagram.Reducing.step` — one step keeps the invariant and gives the node a representative.
* `Diagram.reducedDiagram_run` — the reduced build succeeds, and leaves a reduced graph of
  settled nodes whose root holds the diagram's expression.
-/
import DecisionDiagrams.Proofs.Layers
import DecisionDiagrams.Proofs.DecisionTrees

namespace DecisionDiagrams

namespace Arena

/-- A child holds its parent's truth values where the child's side is taken. -/
theorem ChildOf.holds_update {e : Engine} {a : Arena} {below : Nat → Nat → Prop} {n m : DNode} {v : String}
    {b : Bool} {c : Nat} (h : a.ChildOf e below n v b c) (hm : a.at? c = some m) (σ : String → Bool) :
    m.value.holds e (Function.update σ v b) = n.value.holds e (Function.update σ v b) := by
  obtain ⟨m', hm', -, hh, -⟩ := h
  rw [hm, Option.some.injEq] at hm'
  subst hm'
  rw [hh, Function.update_idem]

/-- Two nodes with one child on a side agree where that side is taken. -/
theorem ChildOf.cofactor_eq {e : Engine} {a : Arena} {below below' : Nat → Nat → Prop} {n n' : DNode}
    {v : String} {b : Bool} {c : Nat} (h : a.ChildOf e below n v b c)
    (h' : a.ChildOf e below' n' v b c) (σ : String → Bool) :
    n.value.holds e (Function.update σ v b) = n'.value.holds e (Function.update σ v b) := by
  obtain ⟨m, hm, -, hh, -⟩ := h
  obtain ⟨m', hm', -, hh', -⟩ := h'
  rw [hm, Option.some.injEq] at hm'
  subst hm'
  rw [← hh, ← hh']

/-- An arena as a reduced build leaves it: every node settled with its internal children below
it, no test with equal children, no two tests with one variable and the same children, and one
terminal of each value. -/
structure Reduced (a : Arena) (e : Engine) (order : List String) : Prop where
  settled : ∀ j m, a.at? j = some m → a.Settled e order (· < ·) j
  children_ne : ∀ j m, a.at? j = some m → m.isTerminal = false → m.low ≠ m.high
  tests_inj : ∀ i j m n, a.at? i = some m → a.at? j = some n → m.isTerminal = false →
    n.isTerminal = false → m.var = n.var → m.low = n.low → m.high = n.high → i = j
  leaves_inj : ∀ i j m n, a.at? i = some m → a.at? j = some n → m.isTerminal = true →
    n.isTerminal = true → m.terminalValue = n.terminalValue → i = j
  leaf_children : ∀ j m, a.at? j = some m → m.isTerminal = true → m.low = none ∧ m.high = none

/-- From any of its nodes, a reduced arena is a reduced decision graph over the levels of the
order: the nodes reached are nodes of the arena, settled, and two tests of one level read one
variable. -/
theorem Reduced.graph {a : Arena} {e : Engine} {order : List String} (hR : a.Reduced e order)
    {root : Nat} {r : DNode} (hr : a.at? root = some r) : a.graph.Reduced order.length root := by
  have hset : ∀ id, a.graph.Reach root id → a.Settled e order (· < ·) id := fun id h => by
    obtain ⟨m, hm⟩ := exists_of_reach hR.settled hr h
    exact hR.settled id m hm
  refine ⟨ordered_of_settled (fun _ _ h => h) hset, fun n L lo hi _ hs => ?_,
    fun n m L lo hi _ _ hn hm => ?_, fun n m b _ _ hn hm => ?_⟩
  · obtain ⟨n', hn', ht, -, rfl, rfl⟩ := exists_of_shape_test hs
    obtain ⟨-, hlo, hhi, -⟩ := (hR.settled _ _ hn').test hn' ht
    intro heq
    exact hR.children_ne _ _ hn' ht (by rw [hlo, hhi, heq])
  · obtain ⟨n', hn', ht, hL, rfl, rfl⟩ := exists_of_shape_test hn
    obtain ⟨m', hm', hmt, hL', hlo, hhi⟩ := exists_of_shape_test hm
    obtain ⟨hv, hlo₁, hhi₁, -⟩ := (hR.settled _ _ hn').test hn' ht
    obtain ⟨hv', hlo₂, hhi₂, -⟩ := (hR.settled _ _ hm').test hm' hmt
    -- two tests of one level read the variable of that level
    exact hR.tests_inj _ _ _ _ hn' hm' ht hmt (by rw [hv, hv', hL, hL'])
      (by rw [hlo₁, hlo₂, hlo]) (by rw [hhi₁, hhi₂, hhi])
  · obtain ⟨n', hn', ht, rfl⟩ := exists_of_shape_leaf hn
    obtain ⟨m', hm', hmt, hb⟩ := exists_of_shape_leaf hm
    exact hR.leaves_inj _ _ _ _ hn' hm' ht hmt hb.symm

end Arena

namespace Diagram

open Engine Arena

/-- The state of the second phase: the representatives of the nodes of the first phase, the
table of nodes made by variable and children, and the arena. -/
abbrev ReduceState := Std.HashMap Nat Nat × Std.HashMap (String × Nat × Nat) Nat × Arena

/-- The children of a node of the first phase, by their representatives. -/
def repChild (rep : Std.HashMap Nat Nat) (c : Option Nat) : Nat :=
  rep.getD (c.getD 0) 0

/-- The key of a node in the table of the second phase: its variable and its children. -/
def reduceKey (n : DNode) (lo hi : Nat) : String × Nat × Nat :=
  (n.var.getD "", lo, hi)

variable (P : Layer) (id : Nat)

/-- What the second phase does with node `id` of the first phase `P`. -/
inductive ReduceStep : ReduceState → ReduceState → Prop
  /-- A node that is not there is skipped. -/
  | missing {s : ReduceState} : P.nodes[id]? = none → ReduceStep s s
  /-- A node whose children have one representative is represented by it. -/
  | collapse {rep uniq a} {n : DNode} : P.nodes[id]? = some n →
      repChild rep n.low = repChild rep n.high →
      ReduceStep (rep, uniq, a) (rep.insert id (repChild rep n.low), uniq, a)
  /-- A node with the variable and children of a node already made is represented by it. -/
  | share {rep uniq a} {n : DNode} {r : Nat} : P.nodes[id]? = some n →
      repChild rep n.low ≠ repChild rep n.high →
      uniq[reduceKey n (repChild rep n.low) (repChild rep n.high)]? = some r →
      ReduceStep (rep, uniq, a) (rep.insert id r, uniq, a)
  /-- Otherwise a new node is made with those children, and recorded. -/
  | fresh {rep uniq a} {n : DNode} : P.nodes[id]? = some n →
      repChild rep n.low ≠ repChild rep n.high →
      uniq[reduceKey n (repChild rep n.low) (repChild rep n.high)]? = none →
      ReduceStep (rep, uniq, a) (rep.insert id a.next,
        uniq.insert (reduceKey n (repChild rep n.low) (repChild rep n.high)) a.next,
        (a.alloc { n with low := some (repChild rep n.low), high := some (repChild rep n.high) }).2)

variable {P id}

/-- The second phase on a level takes a step for its first node, then goes on with the others. -/
theorem reduceLevel_cons (ids : List Nat) (rep : Std.HashMap Nat Nat)
    (uniq : Std.HashMap (String × Nat × Nat) Nat) (a : Arena) :
    ∃ s, ReduceStep P id (rep, uniq, a) s ∧
      reduceLevel P (id :: ids) rep uniq a = reduceLevel P ids s.1 s.2.1 s.2.2 := by
  rw [reduceLevel, List.foldl_cons]
  cases hn : P.nodes[id]? with
  | none => exact ⟨(rep, uniq, a), .missing hn, rfl⟩
  | some n =>
    -- the step reads the children's representatives and the table
    by_cases hc : rep.getD (n.low.getD 0) 0 = rep.getD (n.high.getD 0) 0
    · refine ⟨_, .collapse hn hc, ?_⟩
      simp only [if_pos hc]
      rfl
    · cases hu : uniq[reduceKey n (repChild rep n.low) (repChild rep n.high)]? with
      | some r =>
        refine ⟨_, .share hn hc hu, ?_⟩
        simp only [reduceKey, repChild] at hu
        simp only [if_neg hc, hu]
        rfl
      | none =>
        refine ⟨_, .fresh hn hc hu, ?_⟩
        simp only [reduceKey, repChild] at hu
        simp only [if_neg hc, hu]
        rfl

/-- What a step of the second phase keeps at each node of a level, the level keeps. -/
theorem reduceLevel_keeps {I : ReduceState → Prop} :
    ∀ (ids : List Nat) (s : ReduceState),
      (∀ id ∈ ids, ∀ s s', ReduceStep P id s s' → I s → I s') → I s →
      I (reduceLevel P ids s.1 s.2.1 s.2.2)
  | [], _, _, hs => hs
  | id :: ids, s, hI, hs => by
    obtain ⟨s₁, hstep, heq⟩ : ∃ s₁, ReduceStep P id s s₁ ∧
        reduceLevel P (id :: ids) s.1 s.2.1 s.2.2 = reduceLevel P ids s₁.1 s₁.2.1 s₁.2.2 :=
      reduceLevel_cons ids s.1 s.2.1 s.2.2
    rw [heq]
    exact reduceLevel_keeps ids s₁ (fun i hi => hI i (List.mem_cons_of_mem id hi))
      (hI id List.mem_cons_self s s₁ hstep hs)

/-- And so do the levels, reduced one after the other. -/
theorem foldl_reduceLevel_keeps {I : ReduceState → Prop} :
    ∀ (levels : List (List Nat)) (s : ReduceState),
      (∀ ids ∈ levels, ∀ id ∈ ids, ∀ s s', ReduceStep P id s s' → I s → I s') → I s →
      I (levels.foldl (fun s ids => reduceLevel P ids s.1 s.2.1 s.2.2) s)
  | [], _, _, hs => hs
  | ids :: levels, s, hI, hs =>
    foldl_reduceLevel_keeps levels _ (fun ids' h => hI ids' (List.mem_cons_of_mem ids h))
      (reduceLevel_keeps ids s (hI ids List.mem_cons_self) hs)

theorem repChild_of_getElem? {rep : Std.HashMap Nat Nat} {c r : Nat} (h : rep[c]? = some r) :
    repChild rep (some c) = r := by
  simp [repChild, Std.HashMap.getD_eq_getD_getElem?, h]

/-- A residual is determined by its two cofactors on a variable. -/
theorem holds_eq_of_cofactors {e : Engine} {x y : Residual} {v : String}
    (h : ∀ b σ, x.holds e (Function.update σ v b) = y.holds e (Function.update σ v b))
    (σ : String → Bool) : x.holds e σ = y.holds e σ := by
  have hσ := h (σ v) σ
  rwa [Function.update_eq_self] at hσ

variable (order : List String) (P : Layer) (e : Engine) (base : Nat)

/-- Node `r` of the arena represents node `i` of the first phase: it holds the same truth
values, and when it tests a variable it is a node at the level of `i` or below it. -/
def Represents (a : Arena) (i r : Nat) : Prop :=
  ∃ n m, P.nodes[i]? = some n ∧ a.at? r = some m ∧ m.value.Valid e ∧
    (∀ σ, m.value.holds e σ = n.value.holds e σ) ∧
    (m.isTerminal = false → n.isTerminal = false ∧ n.level ≤ m.level)

/-- The second phase under way: the two terminals at `base` and `base + 1`; every other node a
settled test with distinct children below it, recorded in the table under its variable and
children; each entry of the table such a node; and each representative holding the truth
values of the node it represents. -/
structure Reducing (rep : Std.HashMap Nat Nat) (uniq : Std.HashMap (String × Nat × Nat) Nat)
    (a : Arena) : Prop where
  yes : a.at? base = some { DNode.terminal true "True" order.length with id := base }
  no : a.at? (base + 1) = some { DNode.terminal false "False" order.length with id := base + 1 }
  inner : ∀ j m, a.at? j = some m → j ≠ base → j ≠ base + 1 →
    m.isTerminal = false ∧ a.Settled e order (· < ·) j ∧ m.low ≠ m.high ∧
      uniq[reduceKey m (m.low.getD 0) (m.high.getD 0)]? = some j
  table : ∀ key r, uniq[key]? = some r → ∃ m, a.at? r = some m ∧ m.isTerminal = false ∧
    reduceKey m (m.low.getD 0) (m.high.getD 0) = key
  reps : ∀ i r, rep[i]? = some r → Represents P e a i r

variable {order P e base}

/-- A node that is kept keeps representing. -/
theorem Represents.of_at? {a a' : Arena} {i r : Nat} (h : Represents P e a i r)
    (hr : ∀ m, a.at? r = some m → a'.at? r = some m) : Represents P e a' i r := by
  obtain ⟨n, m, hn, hm, hval, hholds, hlev⟩ := h
  exact ⟨n, m, hn, hr m hm, hval, hholds, hlev⟩

/-- The representative of a child of a node of the first phase is that node's child in the
arena: it holds the cofactor, below the node. -/
theorem Represents.childOf {a : Arena} {n : DNode} {v : String} {b : Bool} {c r : Nat}
    (hc : P.arena.ChildOf e (· + 1 = ·) n v b c) (hr : Represents P e a c r) :
    a.ChildOf e (· < ·) n v b r := by
  obtain ⟨m₁, hm₁, -, hh₁, hl₁⟩ := hc
  obtain ⟨n₂, m, hn₂, hm, hval, hh, hl⟩ := hr
  rw [Layer.at?_arena, hn₂, Option.some.injEq] at hm₁
  subst hm₁
  refine ⟨m, hm, hval, fun σ => (hh σ).trans (hh₁ σ), fun ht => ?_⟩
  obtain ⟨ht₂, hle⟩ := hl ht
  have := hl₁ ht₂
  omega

/-- A new test whose children hold its cofactors is settled. -/
theorem settled_alloc {a : Arena} {below : Nat → Nat → Prop} {n : DNode}
    (hnt : n.isTerminal = false) (hval : n.value.Valid e) {v : String} (hv : n.var = some v)
    (hov : order[n.level]? = some v) {lo hi : Nat} (clo : a.ChildOf e below n v false lo)
    (chi : a.ChildOf e below n v true hi) :
    (a.alloc { n with low := some lo, high := some hi }).2.Settled e order below a.next := by
  have hk := keeps_alloc { n with low := some lo, high := some hi } a
  refine ⟨{ { n with low := some lo, high := some hi } with id := a.next },
    by rw [at?_alloc, if_pos rfl], hval, fun h => ?_, fun _ => ?_⟩
  · cases h.symm.trans hnt
  · exact ⟨v, lo, hi, hv, hov, rfl, rfl, clo.keeps hk, chi.keeps hk⟩

/-- A test whose two children are one node is represented by that node. -/
theorem Represents.of_children {a : Arena} {i c : Nat} {n : DNode} (hn : P.nodes[i]? = some n)
    (hnt : n.isTerminal = false) {v : String} (clo : a.ChildOf e (· < ·) n v false c)
    (chi : a.ChildOf e (· < ·) n v true c) : Represents P e a i c := by
  have hholds : ∀ m, a.at? c = some m → ∀ σ, m.value.holds e σ = n.value.holds e σ :=
    fun m hm => holds_eq_of_cofactors fun b σ => by
      cases b
      · exact clo.holds_update hm σ
      · exact chi.holds_update hm σ
  obtain ⟨m, hm, hval, -, hlev⟩ := clo
  exact ⟨n, m, hn, hm, hval, hholds m hm, fun ht => ⟨hnt, Nat.le_of_lt (hlev ht)⟩⟩

/-- A test is represented by a node that tests its variable with the same children. -/
theorem Represents.of_same_children (hnodup : order.Nodup) {a : Arena} {i r lo hi : Nat}
    {n m : DNode} (hn : P.nodes[i]? = some n) (hnt : n.isTerminal = false) (hm : a.at? r = some m)
    (hval : m.value.Valid e) {v : String} (hnv : order[n.level]? = some v)
    (hmv : order[m.level]? = some v) (clo : a.ChildOf e (· < ·) n v false lo)
    (chi : a.ChildOf e (· < ·) n v true hi) (mlo : a.ChildOf e (· < ·) m v false lo)
    (mhi : a.ChildOf e (· < ·) m v true hi) : Represents P e a i r := by
  -- the order names each variable once, so the two tests stand at one level
  have hlev : m.level = n.level :=
    (List.getElem?_inj (List.getElem?_eq_some_iff.1 hmv).1 hnodup).1 (hmv.trans hnv.symm)
  have hcof : ∀ b σ, m.value.holds e (Function.update σ v b) =
      n.value.holds e (Function.update σ v b) := by
    intro b σ
    cases b
    · exact mlo.cofactor_eq clo σ
    · exact mhi.cofactor_eq chi σ
  exact ⟨n, m, hn, hm, hval, holds_eq_of_cofactors hcof, fun _ => ⟨hnt, hlev.ge⟩⟩

/-- A new node with the residual of a node of the first phase represents it. -/
theorem Represents.alloc {a : Arena} {i : Nat} {n : DNode} (hn : P.nodes[i]? = some n)
    (hnt : n.isTerminal = false) (hval : n.value.Valid e) (lo hi : Nat) :
    Represents P e (a.alloc { n with low := some lo, high := some hi }).2 i a.next :=
  ⟨n, { { n with low := some lo, high := some hi } with id := a.next }, hn,
    by rw [at?_alloc, if_pos rfl], hval, fun _ => rfl, fun _ => ⟨hnt, le_rfl⟩⟩

variable (order P e) in
/-- Node `i` of the first phase is ready for the second: a settled test whose children have
their representatives. -/
def Ready (rep : Std.HashMap Nat Nat) (i : Nat) : Prop :=
  ∃ n, P.nodes[i]? = some n ∧ n.isTerminal = false ∧ P.arena.Settled e order (· + 1 = ·) i ∧
    ∀ c, P.arena.ParentOf i c → c ∈ rep

/-- Representatives are only added, so a ready node stays ready. -/
theorem Ready.mono {rep rep' : Std.HashMap Nat Nat} {i : Nat} (h : Ready order P e rep i)
    (hsub : ∀ c ∈ rep, c ∈ rep') : Ready order P e rep' i := by
  obtain ⟨n, hn, hnt, hset, hkids⟩ := h
  exact ⟨n, hn, hnt, hset, fun c hc => hsub c (hkids c hc)⟩

section Step

variable {rep : Std.HashMap Nat Nat} {uniq : Std.HashMap (String × Nat × Nat) Nat} {a : Arena}
  (hR : Reducing order P e base rep uniq a)
include hR

/-- The terminals stand below the next id. -/
theorem Reducing.terminals_lt : base + 1 < a.next :=
  (lt_next_of_at? hR.no).2

/-- A test of the arena, as the table finds it: a settled node with its variable, at the level
of its variable, and children that hold its cofactors below it. -/
theorem Reducing.tested {key : String × Nat × Nat} {r : Nat} (hk : uniq[key]? = some r) :
    ∃ m, a.at? r = some m ∧ m.value.Valid e ∧ m.isTerminal = false ∧ m.var = some key.1 ∧
      order[m.level]? = some key.1 ∧ m.low = some key.2.1 ∧ m.high = some key.2.2 ∧
      a.ChildOf e (· < ·) m key.1 false key.2.1 ∧ a.ChildOf e (· < ·) m key.1 true key.2.2 := by
  obtain ⟨m, hm, hmt, rfl⟩ := hR.table key r hk
  have hrb : r ≠ base := by
    rintro rfl
    rw [hR.yes, Option.some.injEq] at hm
    rw [← hm] at hmt
    cases hmt
  have hrn : r ≠ base + 1 := by
    rintro rfl
    rw [hR.no, Option.some.injEq] at hm
    rw [← hm] at hmt
    cases hmt
  obtain ⟨-, ⟨m', hm', hval, -, hint⟩, -, -⟩ := hR.inner r m hm hrb hrn
  rw [hm, Option.some.injEq] at hm'
  subst hm'
  obtain ⟨v, lo, hi, hv, hov, hlo, hhi, clo, chi⟩ := hint hmt
  refine ⟨m, hm, hval, hmt, ?_⟩
  simp only [reduceKey, hv, hlo, hhi, Option.getD_some]
  exact ⟨trivial, hov, trivial, trivial, clo, chi⟩

/-- Giving one node a representative keeps the others, in an arena that keeps the nodes. -/
theorem Reducing.reps_insert {a' : Arena} (hkeep : ∀ r m, a.at? r = some m → a'.at? r = some m)
    {i r : Nat} (hr : Represents P e a' i r) :
    ∀ j r', (rep.insert i r)[j]? = some r' → Represents P e a' j r' := by
  intro j r' hj
  rw [Std.HashMap.getElem?_insert] at hj
  split at hj
  · rename_i hij
    cases hj
    exact (beq_iff_eq.1 hij) ▸ hr
  · exact (hR.reps j r' hj).of_at? (hkeep r')

/-- A test of the arena is neither terminal. -/
theorem Reducing.ne_terminals {j : Nat} {m : DNode} (hm : a.at? j = some m)
    (hmt : m.isTerminal = false) : j ≠ base ∧ j ≠ base + 1 := by
  constructor
  · rintro rfl
    rw [hR.yes, Option.some.injEq] at hm
    rw [← hm] at hmt
    cases hmt
  · rintro rfl
    rw [hR.no, Option.some.injEq] at hm
    rw [← hm] at hmt
    cases hmt

/-- A new test with distinct children that hold its cofactors below it, and whose key the
table does not hold, keeps the invariant once it is recorded. -/
theorem Reducing.alloc {n : DNode} (hnt : n.isTerminal = false) (hval : n.value.Valid e)
    {v : String} (hv : n.var = some v) (hov : order[n.level]? = some v) {lo hi : Nat}
    (hne : lo ≠ hi) (clo : a.ChildOf e (· < ·) n v false lo) (chi : a.ChildOf e (· < ·) n v true hi)
    (hu : uniq[reduceKey n lo hi]? = none) {i : Nat} (hr : Represents P e (a.alloc
      { n with low := some lo, high := some hi }).2 i a.next) :
    Reducing order P e base (rep.insert i a.next) (uniq.insert (reduceKey n lo hi) a.next)
      (a.alloc { n with low := some lo, high := some hi }).2 := by
  have hk := keeps_alloc { n with low := some lo, high := some hi } a
  -- the nodes made before stay as they are
  have hold : ∀ j m, a.at? j = some m →
      (a.alloc { n with low := some lo, high := some hi }).2.at? j = some m := fun j m hm => by
    rw [at?_alloc, if_neg (Nat.ne_of_lt (lt_next_of_at? hm).2)]
    exact hm
  -- no test made before has the new key, which the table does not hold
  have hkey : ∀ j m, a.at? j = some m → m.isTerminal = false →
      reduceKey m (m.low.getD 0) (m.high.getD 0) ≠ reduceKey n lo hi := by
    intro j m hm hmt heq
    have hj := (hR.inner j m hm (hR.ne_terminals hm hmt).1 (hR.ne_terminals hm hmt).2).2.2.2
    rw [heq, hu] at hj
    cases hj
  refine ⟨hold _ _ hR.yes, hold _ _ hR.no, fun j m hm hy hno => ?_, fun key r hr' => ?_,
    hR.reps_insert hold hr⟩
  · rw [at?_alloc] at hm
    split at hm
    · -- the new node is a settled test with distinct children, recorded under its key
      rename_i hj
      rw [Option.some.injEq] at hm
      subst hm hj
      refine ⟨hnt, settled_alloc hnt hval hv hov clo chi, by simpa using hne, ?_⟩
      exact Std.HashMap.getElem?_insert_self
    · obtain ⟨hmt, hset, hne', hj⟩ := hR.inner j m hm hy hno
      rename_i hj'
      refine ⟨hmt, hset.keeps hk (by rw [at?_alloc, if_neg hj']), hne', ?_⟩
      rw [Std.HashMap.getElem?_insert, if_neg (by simpa using (hkey j m hm hmt).symm)]
      exact hj
  · rw [Std.HashMap.getElem?_insert] at hr'
    split at hr'
    · rename_i hkey'
      cases hr'
      exact ⟨{ { n with low := some lo, high := some hi } with id := a.next },
        by rw [at?_alloc, if_pos rfl], hnt, beq_iff_eq.1 hkey'⟩
    · obtain ⟨m, hm, hmt, hkm⟩ := hR.table key r hr'
      exact ⟨m, hold r m hm, hmt, hkm⟩

/-- One step of the second phase on a ready node keeps the invariant, gives the node its
representative, and keeps the representatives given before. -/
theorem Reducing.step (hnodup : order.Nodup) {s : ReduceState} (hready : Ready order P e rep id)
    (hs : ReduceStep P id (rep, uniq, a) s) :
    Reducing order P e base s.1 s.2.1 s.2.2 ∧ id ∈ s.1 ∧ ∀ c ∈ rep, c ∈ s.1 := by
  obtain ⟨n, hn, hnt, ⟨n', hn', hval, -, hint⟩, hkids⟩ := hready
  rw [Layer.at?_arena, hn, Option.some.injEq] at hn'
  subst hn'
  obtain ⟨v, lo, hi, hv, hov, hlo, hhi, plo, phi⟩ := hint hnt
  -- the representatives of the children, which are the node's children in the arena
  obtain ⟨rlo, hrlo⟩ := Option.isSome_iff_exists.1
    (Std.HashMap.mem_iff_isSome_getElem?.1 (hkids lo ⟨n, by simpa using hn, .inl hlo⟩))
  obtain ⟨rhi, hrhi⟩ := Option.isSome_iff_exists.1
    (Std.HashMap.mem_iff_isSome_getElem?.1 (hkids hi ⟨n, by simpa using hn, .inr hhi⟩))
  have clo := (hR.reps lo rlo hrlo).childOf plo
  have chi := (hR.reps hi rhi hrhi).childOf phi
  have hclo : repChild rep n.low = rlo := by rw [hlo]; exact repChild_of_getElem? hrlo
  have hchi : repChild rep n.high = rhi := by rw [hhi]; exact repChild_of_getElem? hrhi
  have hid : ∀ r, id ∈ rep.insert id r := fun _ => Std.HashMap.mem_insert_self
  have hsub : ∀ r, ∀ c ∈ rep, c ∈ rep.insert id r := fun _ _ hc => Std.HashMap.mem_insert.2 (.inr hc)
  cases hs with
  | missing h =>
    rw [hn] at h
    cases h
  | collapse h hc =>
    rw [hn, Option.some.injEq] at h
    subst h
    rw [hclo, hchi] at hc
    subst hc
    refine ⟨⟨hR.yes, hR.no, hR.inner, hR.table, hR.reps_insert (fun _ _ h => h) ?_⟩, hid _, hsub _⟩
    rw [hclo]
    exact Represents.of_children hn hnt clo chi
  | share h hc hu =>
    rename_i r
    rw [hn, Option.some.injEq] at h
    subst h
    -- the node found has the variable and the children of this one
    rw [hclo, hchi] at hu
    obtain ⟨m, hm, hmval, -, -, hmo, -, -, mlo, mhi⟩ := hR.tested hu
    simp only [reduceKey, hv, Option.getD_some] at hmo mlo mhi
    exact ⟨⟨hR.yes, hR.no, hR.inner, hR.table, hR.reps_insert (fun _ _ h => h)
      (Represents.of_same_children hnodup hn hnt hm hmval hov hmo clo chi mlo mhi)⟩, hid _, hsub _⟩
  | fresh h hc hu =>
    rw [hn, Option.some.injEq] at h
    subst h
    rw [hclo, hchi] at hc hu ⊢
    exact ⟨hR.alloc hnt hval hv hov hc clo chi hu (Represents.alloc hn hnt hval rlo rhi), hid _,
      hsub _⟩

/-- The terminals of the arena are the two of the start. -/
theorem Reducing.terminal_at {j : Nat} {m : DNode} (hm : a.at? j = some m)
    (hmt : m.isTerminal = true) :
    j = base ∧ m.terminalValue = true ∨ j = base + 1 ∧ m.terminalValue = false := by
  by_cases hy : j = base
  · subst hy
    rw [hR.yes, Option.some.injEq] at hm
    exact .inl ⟨rfl, by rw [← hm]; rfl⟩
  by_cases hno : j = base + 1
  · subst hno
    rw [hR.no, Option.some.injEq] at hm
    exact .inr ⟨rfl, by rw [← hm]; rfl⟩
  have := (hR.inner j m hm hy hno).1
  rw [hmt] at this
  cases this

/-- The second phase under way keeps the arena reduced: its tests are the nodes of the table,
which has one node per variable and children, and its terminals are the two of the start. -/
theorem Reducing.reduced : a.Reduced e order := by
  refine ⟨fun j m hm => ?_, fun j m hm hmt => ?_, fun i j m n hm hn hmt hnt hv hlo hhi => ?_,
    fun i j m n hm hn hmt hnt hb => ?_, fun j m hm hmt => ?_⟩
  · by_cases hy : j = base
    · subst hy
      exact settled_terminal hR.yes
    by_cases hno : j = base + 1
    · subst hno
      exact settled_terminal hR.no
    exact (hR.inner j m hm hy hno).2.1
  · obtain ⟨hy, hno⟩ := hR.ne_terminals hm hmt
    exact (hR.inner j m hm hy hno).2.2.1
  · obtain ⟨hy, hno⟩ := hR.ne_terminals hm hmt
    obtain ⟨hy', hno'⟩ := hR.ne_terminals hn hnt
    have hi := (hR.inner i m hm hy hno).2.2.2
    have hj := (hR.inner j n hn hy' hno').2.2.2
    have hkey : reduceKey m (m.low.getD 0) (m.high.getD 0) =
        reduceKey n (n.low.getD 0) (n.high.getD 0) := by
      simp only [reduceKey, hv, hlo, hhi]
    rw [hkey, hj, Option.some.injEq] at hi
    exact hi.symm
  · rcases hR.terminal_at hm hmt with ⟨rfl, hbm⟩ | ⟨rfl, hbm⟩ <;>
      rcases hR.terminal_at hn hnt with ⟨rfl, hbn⟩ | ⟨rfl, hbn⟩
    · rfl
    · rw [hbm, hbn] at hb
      cases hb
    · rw [hbm, hbn] at hb
      cases hb
    · rfl
  · -- the terminals are the two of the start, without children
    rcases hR.terminal_at hm hmt with ⟨rfl, -⟩ | ⟨rfl, -⟩
    · rw [hR.yes, Option.some.injEq] at hm
      rw [← hm]
      exact ⟨rfl, rfl⟩
    · rw [hR.no, Option.some.injEq] at hm
      rw [← hm]
      exact ⟨rfl, rfl⟩

end Step

/-! ### The levels, from the last up -/

/-- The second phase on the nodes of a level, each ready: it keeps the invariant, gives each of
them its representative and keeps the representatives given before. The nodes of a level do not
read each other's representatives, so the induction is on the list of the level's nodes. -/
theorem reduceLevel_run (hnodup : order.Nodup) :
    ∀ (ids : List Nat) (rep : Std.HashMap Nat Nat) (uniq : Std.HashMap (String × Nat × Nat) Nat)
      (a : Arena), Reducing order P e base rep uniq a → (∀ id ∈ ids, Ready order P e rep id) →
      Reducing order P e base (reduceLevel P ids rep uniq a).1 (reduceLevel P ids rep uniq a).2.1
          (reduceLevel P ids rep uniq a).2.2 ∧
        (∀ id ∈ ids, id ∈ (reduceLevel P ids rep uniq a).1) ∧
        ∀ c ∈ rep, c ∈ (reduceLevel P ids rep uniq a).1
  | [], _, _, _, hR, _ => ⟨hR, fun _ h => (List.not_mem_nil h).elim, fun _ h => h⟩
  | id :: ids, rep, uniq, a, hR, hready => by
    obtain ⟨s, hs, heq⟩ : ∃ s, ReduceStep P id (rep, uniq, a) s ∧
        reduceLevel P (id :: ids) rep uniq a = reduceLevel P ids s.1 s.2.1 s.2.2 :=
      reduceLevel_cons ids rep uniq a
    obtain ⟨hR₁, hid, hsub₁⟩ := hR.step hnodup (hready id List.mem_cons_self) hs
    obtain ⟨hR₂, hids, hsub₂⟩ := reduceLevel_run hnodup ids s.1 s.2.1 s.2.2 hR₁
      fun i hi => (hready i (List.mem_cons_of_mem id hi)).mono hsub₁
    rw [heq]
    refine ⟨hR₂, fun i hi => ?_, fun c hc => hsub₂ c (hsub₁ c hc)⟩
    rcases List.mem_cons.1 hi with rfl | hi
    · exact hsub₂ _ hid
    · exact hids i hi

/-- A node of the first phase at level `L` is ready once the terminals and every node past
level `L` have their representatives: its children are terminals or nodes one level down. -/
theorem LayerArena.ready (hX : LayerArena order P e)
    (hexp : ∀ (i : Nat) (n : DNode), P.nodes[i]? = some n → n.isTerminal = false → n.low ≠ none)
    {rep : Std.HashMap Nat Nat} (h0 : 0 ∈ rep) (h1 : 1 ∈ rep) {L : Nat}
    (hdone : ∀ (i : Nat) (n : DNode), P.nodes[i]? = some n → n.isTerminal = false → L + 1 ≤ n.level →
      i ∈ rep)
    {i : Nat} {n : DNode} (hn : P.nodes[i]? = some n) (hnt : n.isTerminal = false)
    (hL : n.level = L) : Ready order P e rep i := by
  have hn' : P.arena.at? i = some n := by simpa using hn
  have hset : P.arena.Settled e order (· + 1 = ·) i := by
    rcases hX.toExpandingArena.settled_or_pending hn' with h | ⟨-, hlow, -⟩
    · exact h
    · exact absurd hlow (hexp i n hn hnt)
  refine ⟨n, hn, hnt, hset, fun c ⟨n₁, hn₁, hc⟩ => ?_⟩
  rw [hn', Option.some.injEq] at hn₁
  subst hn₁
  obtain ⟨n₂, hn₂, -, -, hint⟩ := hset
  rw [hn', Option.some.injEq] at hn₂
  subst hn₂
  obtain ⟨v, lo, hi, -, -, hlo, hhi, ⟨ml, hml, -, -, hll⟩, ⟨mh, hmh, -, -, hlh⟩⟩ := hint hnt
  -- a child is a terminal, or an internal node one level down
  have hchild : ∀ {c : Nat} {m : DNode}, P.arena.at? c = some m →
      (m.isTerminal = false → n.level + 1 = m.level) → c ∈ rep := by
    intro c m hm hlev
    rw [Layer.at?_arena] at hm
    cases hmt : m.isTerminal
    · exact hdone c m hm hmt (by rw [← hlev hmt, hL])
    · rcases hX.terminal_id hm hmt with rfl | rfl
      · exact h0
      · exact h1
  rcases hc with hc | hc
  · rw [hlo, Option.some.injEq] at hc
    subst hc
    exact hchild hml hll
  · rw [hhi, Option.some.injEq] at hc
    subst hc
    exact hchild hmh hlh

variable (order P e base) in
/-- The second phase once the terminals and every node at level `L` or past it have their
representatives. -/
structure ReducedFrom (L : Nat) (s : ReduceState) : Prop where
  reducing : Reducing order P e base s.1 s.2.1 s.2.2
  yes : 0 ∈ s.1
  no : 1 ∈ s.1
  done : ∀ (i : Nat) (n : DNode), P.nodes[i]? = some n → n.isTerminal = false → L ≤ n.level → i ∈ s.1

/-- The second phase over the levels that the first phase found, the last one first: before a
level, the terminals and every node past it have their representatives, so each node of the
level is ready, and after it the nodes of the level have theirs too. The induction is on the
levels. -/
theorem reduceLevels_run (hnodup : order.Nodup) (hX : LayerArena order P e)
    (hexp : ∀ (i : Nat) (n : DNode), P.nodes[i]? = some n → n.isTerminal = false → n.low ≠ none)
    {f : ReduceState → List Nat → ReduceState}
    (hf : ∀ s ids, f s ids = reduceLevel P ids s.1 s.2.1 s.2.2) :
    ∀ (levels : List (List Nat)) (L : Nat) (s : ReduceState),
      (∀ j, ∀ i ∈ levels.getD j [], ∃ n : DNode, P.nodes[i]? = some n ∧ n.isTerminal = false ∧
        n.level = L + j) →
      (∀ (i : Nat) (n : DNode), P.nodes[i]? = some n → n.isTerminal = false → L ≤ n.level →
        i ∈ levels.getD (n.level - L) []) →
      Reducing order P e base s.1 s.2.1 s.2.2 → 0 ∈ s.1 → 1 ∈ s.1 →
      ReducedFrom order P e base L (levels.foldr (fun ids s => f s ids) s)
  | [], _, _, _, hcomp, hR, h0, h1 =>
    ⟨hR, h0, h1, fun i n hn hnt hL => absurd (hcomp i n hn hnt hL) (by simp)⟩
  | ids :: rest, L, s, hlev, hcomp, hR, h0, h1 => by
    -- the levels past `L` first
    have ih := reduceLevels_run hnodup hX hexp hf rest (L + 1) s
      (fun j i hi => by
        obtain ⟨n, hn, hnt, hL⟩ := hlev (j + 1) i (by rwa [List.getD_cons_succ])
        exact ⟨n, hn, hnt, by omega⟩)
      (fun i n hn hnt hL => by
        have hmem := hcomp i n hn hnt (by omega)
        rwa [show n.level - L = n.level - (L + 1) + 1 by omega, List.getD_cons_succ] at hmem)
      hR h0 h1
    rw [List.foldr_cons, hf]
    obtain ⟨hR', hids, hsub⟩ := reduceLevel_run hnodup ids _ _ _ ih.reducing fun i hi => by
      obtain ⟨n, hn, hnt, hL⟩ := hlev 0 i (by rwa [List.getD_cons_zero])
      exact hX.ready hexp ih.yes ih.no ih.done hn hnt hL
    refine ⟨hR', hsub 0 ih.yes, hsub 1 ih.no, fun i n hn hnt hL => ?_⟩
    by_cases hLe : n.level = L
    · have hmem := hcomp i n hn hnt hL
      rw [hLe, Nat.sub_self, List.getD_cons_zero] at hmem
      exact hids i hmem
    · exact hsub i (ih.done i n hn hnt (by omega))

/-- The second phase only adds nodes to the arena, from its base. -/
theorem ReduceStep.base_eq {s s' : ReduceState} (h : ReduceStep P id s s') :
    s'.2.2.base = s.2.2.base := by
  cases h <;> rfl

theorem reduceLevel_base :
    ∀ (ids : List Nat) (rep : Std.HashMap Nat Nat) (uniq : Std.HashMap (String × Nat × Nat) Nat)
      (a : Arena), (reduceLevel P ids rep uniq a).2.2.base = a.base
  | [], _, _, _ => rfl
  | id :: ids, rep, uniq, a => by
    obtain ⟨s, hs, heq⟩ : ∃ s, ReduceStep P id (rep, uniq, a) s ∧
        reduceLevel P (id :: ids) rep uniq a = reduceLevel P ids s.1 s.2.1 s.2.2 :=
      reduceLevel_cons ids rep uniq a
    rw [heq, reduceLevel_base ids]
    exact hs.base_eq

theorem foldr_reduceLevel_base {f : ReduceState → List Nat → ReduceState}
    (hf : ∀ s ids, f s ids = reduceLevel P ids s.1 s.2.1 s.2.2) :
    ∀ (levels : List (List Nat)) (s : ReduceState),
      (levels.foldr (fun ids s => f s ids) s).2.2.base = s.2.2.base
  | [], _ => rfl
  | ids :: rest, s => by
    rw [List.foldr_cons, hf, reduceLevel_base, foldr_reduceLevel_base hf rest s]

/-! ### The build -/

/-- The first phase starts from the two terminals and the root, at level `0` and not yet
expanded. -/
theorem layerStart_start {n : DNode} (hop : n.Opened e order) (hlev : n.level = 0)
    (hpend : n.low = none ∧ n.high = none) :
    LayerStart order 0 [2]
      { nodes := #[{ DNode.terminal true "True" order.length with id := 0 },
          { DNode.terminal false "False" order.length with id := 1 }, { n with id := 2 }],
        seen := ({} : Std.HashMap (String × Nat) Nat).insert (n.text, 0) 2 } e := by
  -- the only internal node of the start is the root, at index 2
  have hroot : ∀ (i : Nat) (m : DNode), (#[{ DNode.terminal true "True" order.length with id := 0 },
      { DNode.terminal false "False" order.length with id := 1 }, { n with id := 2 }])[i]? = some m →
      m.isTerminal = false → i = 2 ∧ m = { n with id := 2 } := by
    intro i m hm hmt
    have hi3 : i < 3 := (Array.getElem?_eq_some_iff.1 hm).1
    obtain rfl | rfl | rfl : i = 0 ∨ i = 1 ∨ i = 2 := by omega
    · cases hm
      cases hmt
    · cases hm
      cases hmt
    · cases hm
      exact ⟨rfl, rfl⟩
  refine ⟨⟨⟨by rw [Layer.at?_arena]; rfl, by rw [Layer.at?_arena]; rfl, fun j m hm hj0 hj1 => ?_⟩,
    fun t L i hi => ?_⟩, fun i hi => ?_, fun i m hm hmt _ => ?_, fun i m hm hmt _ => ?_⟩
  · rw [Layer.at?_arena] at hm
    have hj3 : j < 3 := (Array.getElem?_eq_some_iff.1 hm).1
    have hj0' : j ≠ 0 := hj0
    have hj1' : j ≠ 1 := hj1
    obtain rfl : j = 2 := by omega
    cases hm
    exact ⟨hop, .inl hpend⟩
  · rw [Std.HashMap.getElem?_insert] at hi
    split at hi
    · rename_i hkey
      cases hi
      obtain ⟨-, rfl⟩ := Prod.mk.inj (beq_iff_eq.1 hkey)
      exact ⟨{ n with id := 2 }, rfl, hlev, fun h => absurd h (by decide)⟩
    · simp at hi
  · rw [List.mem_singleton] at hi
    subst hi
    exact ⟨{ n with id := 2 }, rfl, hop.1, hlev⟩
  · obtain ⟨rfl, rfl⟩ := hroot i m hm hmt
    exact ⟨hlev, List.mem_singleton_self 2⟩
  · obtain ⟨rfl, rfl⟩ := hroot i m hm hmt
    exact List.mem_singleton_self 2

/-- A terminal of the arena represents a terminal of the first phase with its value. -/
theorem Represents.terminal {a : Arena} {i r k k' L L' : Nat} {b : Bool} {t t' : String}
    (hn : P.nodes[i]? = some { DNode.terminal b t L with id := k })
    (hm : a.at? r = some { DNode.terminal b t' L' with id := k' }) : Represents P e a i r :=
  ⟨_, _, hn, hm, trivial, fun _ => rfl, fun h => Bool.noConfusion h⟩

/-- The second phase starts from the two terminals, which represent the terminals of the
first. -/
theorem reducing_start (hX : LayerArena order P e) (base : Nat) :
    Reducing order P e base (((∅ : Std.HashMap Nat Nat).insert 0 base).insert 1 (base + 1)) ∅
      (Arena.terminal false order.length (Arena.terminal true order.length ⟨base, #[]⟩).2).2 := by
  have hyes := hX.yes
  have hno := hX.no
  rw [Layer.at?_arena] at hyes hno
  refine ⟨by rw [at?_terminals, if_neg (by omega), if_pos rfl], by rw [at?_terminals, if_pos rfl],
    fun j m hm hy hn => ?_, fun key r hr => ?_, fun i r hr => ?_⟩
  · rw [at?_terminals, if_neg hn, if_neg hy] at hm
    cases hm
  · simp at hr
  · rw [Std.HashMap.getElem?_insert] at hr
    split at hr
    · rename_i h1
      cases hr
      obtain rfl := beq_iff_eq.1 h1
      exact Represents.terminal hno (by rw [at?_terminals, if_pos rfl])
    · rw [Std.HashMap.getElem?_insert] at hr
      split at hr
      · rename_i h0
        cases hr
        obtain rfl := beq_iff_eq.1 h0
        exact Represents.terminal hyes (by rw [at?_terminals, if_neg (by omega), if_pos rfl])
      · simp at hr

/-- An arena of one terminal at the last level is reduced. -/
theorem reduced_terminal (b : Bool) (base : Nat) :
    (Arena.terminal b order.length ⟨base, #[]⟩).2.Reduced e order := by
  have hat : ∀ j, (Arena.terminal b order.length ⟨base, #[]⟩).2.at? j = if j = base then
      some { DNode.terminal b (if b then "True" else "False") order.length with id := base }
      else none := by
    intro j
    simp only [Arena.terminal, at?_alloc]
    simp [Arena.next, Arena.at?]
  -- the arena's one node is the terminal at the base
  have hone : ∀ j m, (Arena.terminal b order.length ⟨base, #[]⟩).2.at? j = some m → j = base ∧
      m = { DNode.terminal b (if b then "True" else "False") order.length with id := base } := by
    intro j m hm
    rw [hat] at hm
    split at hm
    · exact ⟨‹_›, (Option.some.inj hm).symm⟩
    · cases hm
  refine ⟨fun j m hm => ?_, fun j m hm hmt => ?_, fun i j m n hm _ hmt => ?_,
    fun i j m n hm hn _ _ _ => ?_, fun j m hm _ => ?_⟩
  · obtain ⟨rfl, rfl⟩ := hone j m hm
    exact settled_terminal hm
  · obtain ⟨-, rfl⟩ := hone j m hm
    cases hmt
  · obtain ⟨-, rfl⟩ := hone i m hm
    cases hmt
  · rw [(hone i m hm).1, (hone j n hn).1]
  · obtain ⟨-, rfl⟩ := hone j m hm
    exact ⟨rfl, rfl⟩

/-- The reduced build, on a faithful engine whose names are variables of an order without
repetitions, succeeds from any base: it leaves a later faithful engine with the same names and a
reduced arena from the base, whose root holds the truth values of the diagram's expression. -/
theorem reducedDiagram_run {d : Diagram} (hf : Faithful d.engine)
    (hroot : d.root < d.engine.kernel.nodes.size) (hnames : ∀ y ∈ d.engine.names.toList, y ∈ order)
    (hnodup : order.Nodup) (base : Nat) :
    ∃ root a e', ((reducedDiagram d order).run ⟨base, #[]⟩).run d.engine = ((.ok root, a), e') ∧
      Faithful e' ∧ Later d.engine e' ∧ e'.names = d.engine.names ∧ a.base = base ∧
      a.Reduced e' order ∧
      ∃ r, a.at? root = some r ∧ ∀ σ, r.value.holds e' σ = d.engine.value d.root σ := by
  have hres := Diagram.valid_residualOf (e := d.engine) hroot
  cases order with
  | nil =>
    -- without variables the expression is a constant, and the root is its terminal
    obtain ⟨b, hb⟩ := Residual.Free.const_of_length hf.sound hnames hres
      fun _ j hj _ => absurd hj (Nat.not_lt_zero j)
    refine ⟨base, _, d.engine, ?_, hf, .refl _, rfl, rfl, reduced_terminal b base, _,
      by rw [Arena.terminal, at?_alloc, if_pos (by simp [Arena.next])], fun σ => ?_⟩
    · rw [reducedDiagram]
      simp only [rootNode, hb]
      rfl
    · rw [← Diagram.holds_residualOf, hb]
      rfl
  | cons v rest =>
    have hop : (DNode.internal v (residualOf d.root) d.expression 0).Opened d.engine (v :: rest) :=
      ⟨rfl, rfl, hres, fun _ j hj _ => absurd hj (Nat.not_lt_zero j)⟩
    obtain ⟨levels, P, e₁, hrun, hf₁, hl₁, hn₁, hX, hk, hexp, hlev, hcomp, -⟩ :=
      expandLayers_run hnodup ((v :: rest).length + 1) 0 [2] _ d.engine
        (layerStart_start hop rfl ⟨rfl, rfl⟩) hf hnames (by simp)
    -- the second phase, from the two terminals, over the levels from the last up
    obtain ⟨F, hF⟩ : ∃ F : ReduceState → List Nat → ReduceState,
        F = fun s ids => reduceLevel P ids s.1 s.2.1 s.2.2 := ⟨_, rfl⟩
    have hF' : ∀ s ids, F s ids = reduceLevel P ids s.1 s.2.1 s.2.2 := fun _ _ => by rw [hF]
    obtain ⟨s₀, hs₀⟩ : ∃ s₀ : ReduceState, s₀ = ((((∅ : Std.HashMap Nat Nat).insert 0 base).insert
        1 (base + 1)), ∅, (Arena.terminal false (v :: rest).length
          (Arena.terminal true (v :: rest).length ⟨base, #[]⟩).2).2) := ⟨_, rfl⟩
    have hrun₂ : ((reducedDiagram d (v :: rest)).run ⟨base, #[]⟩).run d.engine =
        ((.ok ((levels.reverse.foldl F s₀).1.getD 2 0), (levels.reverse.foldl F s₀).2.2), e₁) := by
      subst hF hs₀
      rw [reducedDiagram]
      simp only [rootNode]
      rw [if_neg (show ¬ (DNode.internal v (residualOf d.root) d.expression 0).isTerminal = true
        from Bool.false_ne_true), build_bind, build_liftEngine, hrun]
      rfl
    have hRF : ReducedFrom (v :: rest) P e₁ base 0 (levels.reverse.foldl F s₀) := by
      rw [List.foldl_reverse]
      subst hs₀
      exact reduceLevels_run hnodup hX hexp hF' levels 0 _ hlev hcomp (reducing_start hX base)
        (by simp) (by simp)
    have hbase : (levels.reverse.foldl F s₀).2.2.base = base := by
      rw [List.foldl_reverse, foldr_reduceLevel_base hF', hs₀]
      rfl
    -- the root of the first phase keeps its residual, and has its representative
    obtain ⟨n₂, hn₂, hnt₂, hv₂, -⟩ := hk.isTerminal (j := 2) (by rw [Layer.at?_arena]; rfl)
    rw [Layer.at?_arena] at hn₂
    obtain ⟨r, hr⟩ := Option.isSome_iff_exists.1 (Std.HashMap.mem_iff_isSome_getElem?.1
      (hRF.done 2 n₂ hn₂ hnt₂ (Nat.zero_le _)))
    obtain ⟨n, m, hn, hm, -, hholds, -⟩ := hRF.reducing.reps 2 r hr
    rw [hn₂, Option.some.injEq] at hn
    subst hn
    refine ⟨r, _, e₁, hrun₂.trans ?_, hf₁, hl₁, hn₁, hbase, hRF.reducing.reduced, m, hm, fun σ => ?_⟩
    · rw [Std.HashMap.getD_eq_getD_getElem?, hr, Option.getD_some]
    · rw [hholds, hv₂]
      exact (Residual.holds_later hf.sound hl₁ hres σ).trans (Diagram.holds_residualOf _ σ)

end Diagram

end DecisionDiagrams
