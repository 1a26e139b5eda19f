/-
Decision trees.

The unreduced build puts the two terminals and the root in the arena and expands the root, and
then, depth first, every node it makes: the node's residual is expanded on the variable of its
level, each cofactor becomes the terminal of its value when it is a constant and a new node one
level down otherwise, and the new nodes are expanded in turn. On a faithful engine whose names
are variables of an order without repetitions the build succeeds: a cofactor at the last level
reads no variable, so it is a constant. Every node of the arena it leaves is settled with its
internal children one level down; no node but a terminal has two parents or is both children of
one node, and a node with a parent is internal only when its residual is an expression.

* `Diagram.TreeArena` — the arena during a tree build.
* `Diagram.treeChild_run` — the node made for a cofactor: its terminal, or a new node.
* `Diagram.expandTree_run` — expanding a node settles it and every node made below it.
* `Diagram.decisionTree_run` — the tree build succeeds and leaves a tree of settled nodes whose
  root holds the expression of the diagram.
-/
import DecisionDiagrams.Proofs.ExpandingArenas

namespace DecisionDiagrams

namespace Diagram

open Engine Arena

variable (order : List String) (ts : Terminals)

/-- The arena during a tree build: an arena during an expansion in which no node but a terminal
has two parents or is both children of one node, and every internal node with a parent holds an
expression: the constant cofactors are the terminals. -/
structure TreeArena (a : Arena) (e : Engine) : Prop extends ExpandingArena order ts a e where
  parent : ∀ p q c, c ≠ ts.yes → c ≠ ts.no → a.ParentOf p c → a.ParentOf q c → p = q
  sides : ∀ p n c, a.at? p = some n → n.low = some c → n.high = some c → c = ts.yes ∨ c = ts.no
  expr : ∀ p c m, a.ParentOf p c → a.at? c = some m → m.isTerminal = false →
    ∃ x, m.value = .expr x

/-- What expanding node `id` of a tree build leaves: a later faithful engine with the same names,
and a tree arena that keeps the nodes, changes none made before but `id`, and has no node left
to expand but those that were left before, `id` apart. -/
structure Expanded (a : Arena) (e : Engine) (id : Nat) (a' : Arena) (e' : Engine) : Prop where
  faithful : Faithful e'
  later : Later e e'
  names : e'.names = e.names
  tree : TreeArena order ts a' e'
  keeps : a.Keeps a'
  frame : ∀ j < a.next, j ≠ id → a'.at? j = a.at? j
  pending : ∀ j m, a'.at? j = some m → m.isTerminal = false → m.low = none → j < a.next ∧ j ≠ id

variable {order ts}

/-! ### The invariant of the arena -/

section Invariant

variable {a : Arena} {e : Engine} (hT : TreeArena order ts a e)
include hT

theorem TreeArena.later {e' : Engine} (hs : Sound e) (hl : Later e e') :
    TreeArena order ts a e' :=
  ⟨hT.toExpandingArena.later hs hl, hT.parent, hT.sides, hT.expr⟩

/-- Making a new node that is not yet expanded keeps a tree arena, and the new node has no
parent. -/
theorem TreeArena.alloc {n : DNode} (hop : n.Opened e order) (hpend : n.low = none ∧ n.high = none) :
    TreeArena order ts (a.alloc n).2 e ∧ (∀ p c, (a.alloc n).2.ParentOf p c → a.ParentOf p c) ∧
      ∀ p, ¬ (a.alloc n).2.ParentOf p a.next := by
  obtain ⟨hX, hpar, hfresh⟩ := hT.toExpandingArena.alloc hop hpend
  -- the new node has no children and no parent, and the others are as they were
  have hold : ∀ {j m}, (a.alloc n).2.at? j = some m → j ≠ a.next → a.at? j = some m :=
    fun {j m} hm hj => by rwa [at?_alloc, if_neg hj] at hm
  refine ⟨⟨hX, fun p q c hy hno hp hq => hT.parent p q c hy hno (hpar p c hp) (hpar q c hq),
    fun p m c hm hlo hhi => ?_, fun p c m hpc hm hmt => ?_⟩, hpar, hfresh⟩
  · by_cases hp : p = a.next
    · rw [hp, at?_alloc, if_pos rfl, Option.some.injEq] at hm
      rw [← hm] at hlo
      exact absurd (hpend.1.symm.trans hlo) (by simp)
    · exact hT.sides p m c (hold hm hp) hlo hhi
  · exact hT.expr p c m (hpar p c hpc) (hold hm fun h => hfresh p (h ▸ hpc)) hmt

/-- Giving a node its two children, each a terminal or a node without a parent that holds an
expression when it is internal, and the two the same node only when it is a terminal, keeps a
tree arena and settles the node. -/
theorem TreeArena.link {id : Nat} {n : DNode} (hn : a.at? id = some n) (hy : id ≠ ts.yes)
    (hno : id ≠ ts.no) {v : String} (hv : n.var = some v)
    {lo hi : Nat} (hlo : a.ChildOf e (· + 1 = ·) n v false lo)
    (hhi : a.ChildOf e (· + 1 = ·) n v true hi)
    (hflo : lo = ts.yes ∨ lo = ts.no ∨ ∀ p, ¬ a.ParentOf p lo)
    (hfhi : hi = ts.yes ∨ hi = ts.no ∨ ∀ p, ¬ a.ParentOf p hi)
    (hside : lo = hi → lo = ts.yes ∨ lo = ts.no)
    (hxlo : ∀ m, a.at? lo = some m → m.isTerminal = false → ∃ x, m.value = .expr x)
    (hxhi : ∀ m, a.at? hi = some m → m.isTerminal = false → ∃ x, m.value = .expr x) :
    TreeArena order ts (a.modifyNode id fun m => { m with low := some lo, high := some hi }) e ∧
      (a.modifyNode id fun m => { m with low := some lo, high := some hi }).Settled e order
        (· + 1 = ·) id := by
  obtain ⟨hX, hset, hpar⟩ := hT.toExpandingArena.link hn hy hno hv hlo hhi
  -- a node of the new arena is a node of the old one with other children
  have hback : ∀ {c m}, (a.modifyNode id fun m => { m with low := some lo, high := some hi }).at? c =
      some m → ∃ m₀, a.at? c = some m₀ ∧ m.value = m₀.value ∧ m.isTerminal = m₀.isTerminal := by
    intro c m hm
    rw [at?_modifyNode] at hm
    split_ifs at hm
    · obtain ⟨m₀, hm₀, rfl⟩ := Option.map_eq_some_iff.1 hm
      exact ⟨m₀, hm₀, rfl, rfl⟩
    · exact ⟨m, hm, rfl, rfl⟩
  -- `lo` and `hi` had no parent unless they are terminals
  have hfresh : ∀ c q, c ≠ ts.yes → c ≠ ts.no → (c = lo ∨ c = hi) → ¬ a.ParentOf q c := by
    rintro c q hcy hcn (rfl | rfl)
    · rcases hflo with h | h | h
      · exact absurd h hcy
      · exact absurd h hcn
      · exact h q
    · rcases hfhi with h | h | h
      · exact absurd h hcy
      · exact absurd h hcn
      · exact h q
  refine ⟨⟨hX, fun p q c hcy hcn hp hq => ?_, fun p m c hm hlo' hhi' => ?_,
    fun p c m hp hm hmt => ?_⟩, hset⟩
  · rcases hpar p c hp with ⟨rfl, hc⟩ | ⟨hpid, hp'⟩ <;>
      rcases hpar q c hq with ⟨rfl, hc'⟩ | ⟨hqid, hq'⟩
    · rfl
    · exact absurd hq' (hfresh c q hcy hcn hc)
    · exact absurd hp' (hfresh c p hcy hcn hc')
    · exact hT.parent p q c hcy hcn hp' hq'
  · by_cases hp : p = id
    · -- the linked node has `lo` and `hi` as its children
      rw [hp, at?_modifyNode, if_pos rfl, hn, Option.map_some, Option.some.injEq] at hm
      rw [← hm] at hlo' hhi'
      rw [← Option.some.inj hlo']
      exact hside ((Option.some.inj hlo').trans (Option.some.inj hhi').symm)
    · rw [at?_modifyNode, if_neg hp] at hm
      exact hT.sides p m c hm hlo' hhi'
  · obtain ⟨m₀, hm₀, hval, hterm⟩ := hback hm
    rw [hval]
    rw [hterm] at hmt
    rcases hpar p c hp with ⟨-, rfl | rfl⟩ | ⟨-, hp'⟩
    · exact hxlo m₀ hm₀ hmt
    · exact hxhi m₀ hm₀ hmt
    · exact hT.expr p c m₀ hp' hm₀ hmt

end Invariant

/-! ### The node for a cofactor -/

/-- The node made for a residual at a level: the terminal of its value for a constant, and for an
expression a new node holding it, not yet expanded, without a parent. An expression reads a
variable, so it cannot stand at the last level. -/
theorem treeChild_run {a : Arena} {e : Engine} (hT : TreeArena order ts a e) (hf : Faithful e)
    (hnames : ∀ y ∈ e.names.toList, y ∈ order) {r : Residual} (hr : r.Valid e) {L : Nat}
    (hfree : r.Free e order L) :
    ∃ c a' e', ((treeChild order ts r L).run a).run e = ((.ok c, a'), e') ∧ Faithful e' ∧
      Later e e' ∧ e'.names = e.names ∧ TreeArena order ts a' e' ∧ a.Keeps a' ∧
      (∀ j < a.next, a'.at? j = a.at? j) ∧ (∀ j, a.next ≤ j → j ≠ c → a'.at? j = none) ∧
      (∀ p c', a'.ParentOf p c' → a.ParentOf p c') ∧
      ∃ m, a'.at? c = some m ∧ m.value = r ∧ (m.isTerminal = true → c = ts.yes ∨ c = ts.no) ∧
        (m.isTerminal = false → m.level = L ∧ c = a.next ∧ m.low = none ∧ m.high = none ∧
          (∀ p, ¬ a'.ParentOf p c) ∧ ∃ x, r = .expr x) := by
  cases r with
  | const b =>
    refine ⟨if b then ts.yes else ts.no, a, e, rfl, hf, .refl e, rfl, hT, .refl a,
      fun _ _ => rfl, fun j hj _ => at?_of_next_le hj, fun _ _ h => h, ?_⟩
    cases b
    · exact ⟨_, hT.no, rfl, fun _ => .inr rfl, fun h => Bool.noConfusion h⟩
    · exact ⟨_, hT.yes, rfl, fun _ => .inl rfl, fun h => Bool.noConfusion h⟩
  | expr x =>
    obtain ⟨s, e₁, hrun, hf₁, hl₁, hn₁, -⟩ := render_run hf hr.2
    -- an expression reads a variable, so it stands above the last level
    have hLN : L < order.length := hfree.lt_length hf.sound hnames hr
    obtain ⟨v, hv⟩ : ∃ v, order[L]? = some v := ⟨order[L], List.getElem?_eq_getElem hLN⟩
    have hop : (DNode.internal v (.expr x) s L).Opened e₁ order :=
      ⟨rfl, hv.symm, hr.later hl₁, hfree.later hf.sound hl₁ hr⟩
    obtain ⟨hT', hpar, hfresh⟩ := (hT.later hf.sound hl₁).alloc hop ⟨rfl, rfl⟩
    refine ⟨a.next, _, e₁, by rw [treeChild, build_bind, build_liftEngine, hrun]; simp only [hv]; rfl,
      hf₁, hl₁, hn₁, hT', keeps_alloc _ a, fun j hj => by rw [at?_alloc, if_neg (by omega)],
      fun j hj hjc => by rw [at?_alloc, if_neg hjc]; exact at?_of_next_le hj, hpar,
      _, by rw [at?_alloc, if_pos rfl], rfl, fun h => Bool.noConfusion h,
      fun _ => ⟨rfl, rfl, rfl, rfl, hfresh, x, rfl⟩⟩

/-! ### Expanding a node -/

section Expand

variable {a : Arena} {e : Engine}

theorem Expanded.terminal (hT : TreeArena order ts a e) (hf : Faithful e) {c : Nat}
    (hc : c = ts.yes ∨ c = ts.no) : Expanded order ts a e c a e := by
  refine ⟨hf, .refl e, rfl, hT, .refl a, fun _ _ _ => rfl, fun j m hm hmt _ => ⟨(lt_next_of_at? hm).2, ?_⟩⟩
  rintro rfl
  rcases hc with rfl | rfl
  · rw [hT.yes, Option.some.injEq] at hm
    rw [← hm] at hmt
    cases hmt
  · rw [hT.no, Option.some.injEq] at hm
    rw [← hm] at hmt
    cases hmt

/-- A child made by `treeChild` that lies below the first new id is a terminal. -/
theorem terminal_of_lt {c next : Nat} {m : DNode}
    (ht : m.isTerminal = true → c = ts.yes ∨ c = ts.no) (hi : m.isTerminal = false → c = next)
    (hc : c < next) : c = ts.yes ∨ c = ts.no := by
  cases hmt : m.isTerminal
  · exact absurd (hi hmt) (by omega)
  · exact ht hmt

/-- Expanding a node settles it and every node made below it. The induction is on the fuel,
which covers the levels below the node; each step makes the two children, links them, and
expands the low child and then the high one, neither of which touches what the other made. -/
theorem expandTree_run (hnodup : order.Nodup) :
    ∀ fuel id (a : Arena) (e : Engine) (n : DNode), TreeArena order ts a e → Faithful e →
      (∀ y ∈ e.names.toList, y ∈ order) → a.at? id = some n → id ≠ ts.yes → id ≠ ts.no →
      n.low = none ∧ n.high = none → order.length - n.level ≤ fuel →
      ∃ a' e', ((expandTree order ts fuel id).run a).run e = ((.ok (), a'), e') ∧
        Expanded order ts a e id a' e' := by
  intro fuel
  induction fuel with
  | zero =>
    intro id a e n hT _ _ hn hy hno _ hfuel
    obtain ⟨-, -, -, hLN⟩ := (hT.inner id n hn hy hno).1.var_eq
    omega
  | succ fuel ih =>
    intro id a e n hT hf hnames hn hy hno hpend hfuel
    have hop := (hT.inner id n hn hy hno).1
    obtain ⟨v, hv, hov, hLN⟩ := hop.var_eq
    -- a child one level down is expanded with the fuel left, a terminal is not
    have hexpand : ∀ c (a' : Arena) (e' : Engine) (m : DNode), TreeArena order ts a' e' →
        Faithful e' → (∀ y ∈ e'.names.toList, y ∈ order) → a'.at? c = some m →
        (m.isTerminal = true → c = ts.yes ∨ c = ts.no) →
        (m.isTerminal = false → m.level = n.level + 1 ∧ m.low = none ∧ m.high = none) →
        ∃ a'' e'', ((c ≠ ts.yes ∧ c ≠ ts.no) →
          ((expandTree order ts fuel c).run a').run e' = ((.ok (), a''), e'')) ∧
          (¬ (c ≠ ts.yes ∧ c ≠ ts.no) → a'' = a' ∧ e'' = e') ∧ Expanded order ts a' e' c a'' e'' := by
      intro c a' e' m hT' hf' hnames' hm hterm hint
      by_cases hc : c ≠ ts.yes ∧ c ≠ ts.no
      · have hmt : m.isTerminal = false := by
          cases hmt : m.isTerminal
          · rfl
          · exact ((hterm hmt).elim hc.1 hc.2).elim
        obtain ⟨hlev, hpl, hph⟩ := hint hmt
        obtain ⟨a'', e'', hrun, E⟩ := ih c a' e' m hT' hf' hnames' hm hc.1 hc.2 ⟨hpl, hph⟩ (by omega)
        exact ⟨a'', e'', fun _ => hrun, fun h => absurd hc h, E⟩
      · exact ⟨a', e', fun h => absurd h hc, fun _ => ⟨rfl, rfl⟩,
          .terminal hT' hf' ((not_and_or.1 hc).imp not_not.1 not_not.1)⟩
    -- the two cofactors, and a node for each
    obtain ⟨hr, lr, e₁, hexp, hf₁, hl₁, hn₁, hrv, lrv, hsem⟩ := expand_run hf hop.2.2.1 v
    have hnames₁ : ∀ y ∈ e₁.names.toList, y ∈ order := hn₁ ▸ hnames
    obtain ⟨hi, a₁, e₂, hc₁, hf₂, hl₂, hn₂, hT₂, hk₁, hfr₁, hnew₁, hpar₁, mh, hmh, hmhv, hmht,
      hmhi⟩ := treeChild_run (hT.later hf.sound hl₁) hf₁ hnames₁ hrv
        (hop.2.2.2.cofactor hnodup hov fun σ => (hsem σ).1)
    obtain ⟨lo, a₂, e₃, hc₂, hf₃, hl₃, hn₃, hT₃, hk₂, hfr₂, hnew₂, hpar₂, ml, hml, hmlv, hmlt,
      hmli⟩ := treeChild_run hT₂ hf₂ (hn₂ ▸ hnames₁) (lrv.later hl₂)
        ((hop.2.2.2.cofactor hnodup hov fun σ => (hsem σ).2).later hf₁.sound hl₂ lrv)
    have hida : id < a.next := (lt_next_of_at? hn).2
    have hn₂' : a₂.at? id = some n := by
      rw [hfr₂ id (Nat.lt_of_lt_of_le hida hk₁.next), hfr₁ id hida, hn]
    have hmh₂ : a₂.at? hi = some mh := by rw [hfr₂ hi (lt_next_of_at? hmh).2, hmh]
    have hl₁₃ := hl₂.trans hl₃
    have hfresh : ∀ {c : Nat} {m : DNode}, (m.isTerminal = true → c = ts.yes ∨ c = ts.no) →
        (m.isTerminal = false → ∀ p, ¬ a₂.ParentOf p c) →
        c = ts.yes ∨ c = ts.no ∨ ∀ p, ¬ a₂.ParentOf p c := fun {c m} ht hi' => by
      cases hmt : m.isTerminal
      · exact .inr (.inr (hi' hmt))
      · exact (ht hmt).elim .inl fun h => .inr (.inl h)
    -- the two children are one node only when it is a terminal: a new high child is made first
    have hside : lo = hi → lo = ts.yes ∨ lo = ts.no := by
      intro heq
      cases hmt : ml.isTerminal
      · have hlo := (hmli hmt).2.1
        have hhi := (lt_next_of_at? hmh).2
        omega
      · exact hmlt hmt
    -- an internal child holds an expression
    have hexpr : ∀ {c : Nat} {m : DNode} {r : Residual}, a₂.at? c = some m → m.value = r →
        (m.isTerminal = false → ∃ x, r = .expr x) →
        ∀ m', a₂.at? c = some m' → m'.isTerminal = false → ∃ x, m'.value = .expr x := by
      intro c m r hm hmv hx m' hm' hmt
      rw [hm, Option.some.injEq] at hm'
      subst hm'
      obtain ⟨x, hx⟩ := hx hmt
      exact ⟨x, hmv.trans hx⟩
    obtain ⟨hT₄, -⟩ := hT₃.link hn₂' hy hno hv
      (childOf_of_holds hf.sound hf₁.sound (hl₁.trans hl₁₃) hl₁₃ hop.2.2.1 hml hmlv lrv
        (fun σ => (hsem σ).2) fun ht => ((hmli ht).1).symm)
      (childOf_of_holds hf.sound hf₁.sound (hl₁.trans hl₁₃) hl₁₃ hop.2.2.1 hmh₂ hmhv hrv
        (fun σ => (hsem σ).1) fun ht => ((hmhi ht).1).symm)
      (hfresh hmlt fun ht p hp => (hmli ht).2.2.2.2.1 p hp)
      (hfresh hmht fun ht p hp => (hmhi ht).2.2.2.2.1 p (hpar₂ p hi hp)) hside
      (hexpr hml hmlv fun ht => (hmli ht).2.2.2.2.2) (hexpr hmh₂ hmhv fun ht => (hmhi ht).2.2.2.2.2)
    -- the node after linking, and its children there
    have hid₃ : (a₂.modifyNode id fun m => { m with low := some lo, high := some hi }).at? id =
        some { n with low := some lo, high := some hi } := by
      rw [at?_modifyNode, if_pos rfl, hn₂', Option.map_some]
    have hlo_lt : lo < a₁.next → lo = ts.yes ∨ lo = ts.no :=
      terminal_of_lt hmlt fun ht => (hmli ht).2.1
    have hhi_lt : hi < a.next → hi = ts.yes ∨ hi = ts.no :=
      terminal_of_lt hmht fun ht => (hmhi ht).2.1
    have hloid : lo ≠ id := fun h => (hlo_lt (h ▸ Nat.lt_of_lt_of_le hida hk₁.next)).elim
      (fun h' => hy (h ▸ h')) fun h' => hno (h ▸ h')
    have hhiid : hi ≠ id := fun h => (hhi_lt (h ▸ hida)).elim
      (fun h' => hy (h ▸ h')) fun h' => hno (h ▸ h')
    -- expand the low child, then the high one
    obtain ⟨a₄, e₄, hrun₄, hskip₄, E₁⟩ := hexpand lo _ e₃ ml hT₄ hf₃ (hn₃ ▸ hn₂ ▸ hnames₁)
      (by rw [at?_modifyNode, if_neg hloid, hml]) hmlt fun ht => ⟨(hmli ht).1, (hmli ht).2.2.1,
        (hmli ht).2.2.2.1⟩
    have hmh₃ : (a₂.modifyNode id fun m => { m with low := some lo, high := some hi }).at? hi =
        some mh := by rw [at?_modifyNode, if_neg hhiid, hmh₂]
    have hhi₄ : a₄.at? hi = some mh := by
      by_cases hhit : hi = ts.yes ∨ hi = ts.no
      · rw [hT₄.at?_terminal E₁.tree.toExpandingArena hhit, hmh₃]
      have hlohi : hi ≠ lo := fun h => hhit (h ▸ hside h.symm)
      rw [E₁.frame hi (by simpa using (lt_next_of_at? hmh₂).2) hlohi, hmh₃]
    obtain ⟨a₅, e₅, hrun₅, hskip₅, E₂⟩ := hexpand hi a₄ e₄ mh E₁.tree E₁.faithful
      (E₁.names ▸ hn₃ ▸ hn₂ ▸ hnames₁) hhi₄ hmht fun ht => ⟨(hmhi ht).1, (hmhi ht).2.2.1,
        (hmhi ht).2.2.2.1⟩
    refine ⟨a₅, e₅, ?_, ?_⟩
    · rw [expandTree, build_bind, build_get]
      simp only [hn, hv, Option.getD_some, build_bind, build_liftEngine, hexp, hc₁, hc₂,
        build_modify]
      -- each child is expanded when it is not a terminal
      by_cases hlo : lo ≠ ts.yes ∧ lo ≠ ts.no
      · rw [if_pos hlo, build_bind, hrun₄ hlo]
        dsimp only
        by_cases hhi : hi ≠ ts.yes ∧ hi ≠ ts.no
        · rw [if_pos hhi, build_bind, hrun₅ hhi]
          rfl
        · obtain ⟨rfl, rfl⟩ := hskip₅ hhi
          rw [if_neg hhi]
          rfl
      · obtain ⟨rfl, rfl⟩ := hskip₄ hlo
        rw [if_neg hlo]
        by_cases hhi : hi ≠ ts.yes ∧ hi ≠ ts.no
        · rw [if_pos hhi, build_bind, hrun₅ hhi]
          rfl
        · obtain ⟨rfl, rfl⟩ := hskip₅ hhi
          rw [if_neg hhi]
          rfl
    · have hk₃ : a.Keeps (a₂.modifyNode id fun m => { m with low := some lo, high := some hi }) :=
        hk₁.trans (hk₂.trans (keeps_modifyNode id
          (f := fun m => { m with low := some lo, high := some hi }) (fun _ => ⟨rfl, rfl, rfl⟩) a₂))
      refine ⟨E₂.faithful, hl₁.trans (hl₁₃.trans (E₁.later.trans E₂.later)),
        by rw [E₂.names, E₁.names, hn₃, hn₂, hn₁], E₂.tree, hk₃.trans (E₁.keeps.trans E₂.keeps),
        fun j hj hjid => ?_, fun j m hm hmt hml' => ?_⟩
      · -- nothing made before changes but the node expanded; the terminals never change
        by_cases hjt : j = ts.yes ∨ j = ts.no
        · exact hT.at?_terminal E₂.tree.toExpandingArena hjt
        have hjhi : j ≠ hi := fun h => hjt (h ▸ hhi_lt (h ▸ hj))
        have hjlo : j ≠ lo := fun h => hjt (h ▸ hlo_lt (h ▸ Nat.lt_of_lt_of_le hj hk₁.next))
        have hj₃ : j < (a₂.modifyNode id fun m => { m with low := some lo, high := some hi }).next :=
          Nat.lt_of_lt_of_le hj hk₃.next
        rw [E₂.frame j (Nat.lt_of_lt_of_le hj₃ E₁.keeps.next) hjhi, E₁.frame j hj₃ hjlo,
          at?_modifyNode, if_neg hjid, hfr₂ j (Nat.lt_of_lt_of_le hj hk₁.next), hfr₁ j hj]
      · -- a node left to expand was left before: the new ones were expanded, `id` was linked
        obtain ⟨hj₄, hjhi⟩ := E₂.pending j m hm hmt hml'
        rw [E₂.frame j hj₄ hjhi] at hm
        obtain ⟨hj₃, hjlo⟩ := E₁.pending j m hm hmt hml'
        rw [E₁.frame j hj₃ hjlo] at hm
        have hjid : j ≠ id := by
          rintro rfl
          rw [hid₃, Option.some.injEq] at hm
          rw [← hm] at hml'
          cases hml'
        rw [at?_modifyNode, if_neg hjid] at hm
        have hj₁ : j < a₁.next := by
          by_contra h
          rw [hnew₂ j (by omega) hjlo] at hm
          cases hm
        rw [hfr₂ j hj₁] at hm
        have hj₀ : j < a.next := by
          by_contra h
          rw [hnew₁ j (by omega) hjhi] at hm
          cases hm
        exact ⟨hj₀, hjid⟩

end Expand

/-! ### The tree build -/

/-- The arena with the two terminals of a build, from `base` on, holds them and nothing else. -/
theorem at?_terminals (order : List String) (base j : Nat) :
    (Arena.terminal false order.length (Arena.terminal true order.length ⟨base, #[]⟩).2).2.at? j =
      if j = base + 1 then some { DNode.terminal false "False" order.length with id := base + 1 }
      else if j = base then some { DNode.terminal true "True" order.length with id := base }
      else none := by
  simp only [Arena.terminal, at?_alloc, alloc_next]
  simp [Arena.next, Arena.at?]

theorem tree_terminals (order : List String) (base : Nat) (e : Engine) :
    TreeArena order ⟨base, base + 1⟩
      (Arena.terminal false order.length (Arena.terminal true order.length ⟨base, #[]⟩).2).2 e := by
  have hother : ∀ j n, (Arena.terminal false order.length (Arena.terminal true order.length
      ⟨base, #[]⟩).2).2.at? j = some n → n.low = none ∧ n.high = none ∧ (j = base ∨ j = base + 1) := by
    intro j n hn
    rw [at?_terminals] at hn
    split_ifs at hn with h1 h0 <;> cases hn
    · exact ⟨rfl, rfl, .inr h1⟩
    · exact ⟨rfl, rfl, .inl h0⟩
  -- no node has a child yet
  have hnopar : ∀ p c, ¬ (Arena.terminal false order.length (Arena.terminal true order.length
      ⟨base, #[]⟩).2).2.ParentOf p c := by
    rintro p c ⟨n, hn, hc⟩
    obtain ⟨hlo, hhi, -⟩ := hother p n hn
    rw [hlo, hhi] at hc
    simp at hc
  refine ⟨⟨by rw [at?_terminals, if_neg (Nat.ne_of_lt (Nat.lt_succ_self base)), if_pos rfl],
    by rw [at?_terminals, if_pos rfl], fun j n hn hy hno => ?_⟩,
    fun p q c _ _ hp _ => absurd hp (hnopar p c), fun p n c hn hlo _ => ?_,
    fun p c _ hp _ _ => absurd hp (hnopar p c)⟩
  · obtain ⟨-, -, h | h⟩ := hother j n hn
    · exact absurd h hy
    · exact absurd h hno
  · rw [(hother p n hn).1] at hlo
    cases hlo

/-- The tree build succeeds: it leaves the terminals of a tree arena from `base` on, every node
settled, and a root at level `0` that holds the diagram's expression, internal when the order
has a variable. -/
theorem decisionTree_run {d : Diagram} (hf : Faithful d.engine)
    (hroot : d.root < d.engine.kernel.nodes.size) (hnames : ∀ y ∈ d.engine.names.toList, y ∈ order)
    (hnodup : order.Nodup) (base : Nat) :
    ∃ root a e', ((decisionTree d order).run ⟨base, #[]⟩).run d.engine = ((.ok root, a), e') ∧
      Faithful e' ∧ Later d.engine e' ∧ e'.names = d.engine.names ∧ a.base = base ∧
      TreeArena order ⟨base, base + 1⟩ a e' ∧
      (∀ j n, a.at? j = some n → a.Settled e' order (· + 1 = ·) j) ∧
      ∃ r, a.at? root = some r ∧ (∀ σ, r.value.holds e' σ = d.engine.value d.root σ) ∧
        r.level = 0 ∧ (0 < order.length → r.isTerminal = false) := by
  have hres := Diagram.valid_residualOf (e := d.engine) hroot
  have hT := tree_terminals order base d.engine
  cases order with
  | nil =>
    -- without variables the expression is a constant, and the root is its terminal
    obtain ⟨b, hb⟩ := Residual.Free.const_of_length hf.sound hnames hres
      fun _ j hj _ => absurd hj (Nat.not_lt_zero j)
    refine ⟨if b then base else base + 1, _, d.engine, ?_, hf, .refl _, rfl, rfl, hT,
      fun j n hn => ?_, ?_⟩
    · rw [decisionTree, build_bind, build_modifyGet, build_bind, build_modifyGet]
      simp only [rootNode, hb]
      rfl
    · by_cases hy : j = base
      · rw [hy]
        exact settled_terminal hT.yes
      by_cases hno : j = base + 1
      · rw [hno]
        exact settled_terminal hT.no
      rw [at?_terminals, if_neg hno, if_neg hy] at hn
      cases hn
    · cases b
      · exact ⟨_, hT.no, fun σ => by rw [← Diagram.holds_residualOf, hb]; rfl, rfl,
          fun h => absurd h (Nat.lt_irrefl 0)⟩
      · exact ⟨_, hT.yes, fun σ => by rw [← Diagram.holds_residualOf, hb]; rfl, rfl,
          fun h => absurd h (Nat.lt_irrefl 0)⟩
  | cons v rest =>
    -- the root is a new node testing the first variable, expanded with a level of fuel to spare
    have hop : (DNode.internal v (residualOf d.root) d.expression 0).Opened d.engine (v :: rest) :=
      ⟨rfl, rfl, hres, fun _ j hj _ => absurd hj (Nat.not_lt_zero j)⟩
    obtain ⟨hT₃, -, -⟩ := hT.alloc hop ⟨rfl, rfl⟩
    have hnext : (Arena.terminal false (v :: rest).length
        (Arena.terminal true (v :: rest).length ⟨base, #[]⟩).2).2.next = base + 2 := by
      simp [Arena.terminal, Arena.next, Arena.alloc]
    obtain ⟨a', e', hrun, E⟩ := expandTree_run hnodup ((v :: rest).length + 1) _ _ d.engine _ hT₃ hf
      hnames (by rw [at?_alloc, if_pos rfl]) (by rw [hnext]; show base + 2 ≠ base; omega)
      (by rw [hnext]; show base + 2 ≠ base + 1; omega) ⟨rfl, rfl⟩
      (Nat.le_succ_of_le (Nat.sub_le _ _))
    refine ⟨base + 2, a', e', ?_, E.faithful, E.later, E.names, E.keeps.base, E.tree,
      fun j m hm => ?_, ?_⟩
    · rw [decisionTree, build_bind, build_modifyGet, build_bind, build_modifyGet]
      simp only [rootNode]
      rw [if_neg (show ¬ (DNode.internal v (residualOf d.root) d.expression 0).isTerminal = true
        from Bool.false_ne_true), build_bind, build_modifyGet, build_bind]
      erw [hrun]
      rfl
    · -- no node is left to expand: the root was, and the others before it are the terminals
      rcases E.tree.settled_or_pending hm with h | ⟨hmt, hml, -⟩
      · exact h
      obtain ⟨hj, hjr⟩ := E.pending j m hm hmt hml
      simp only [alloc_next, hnext] at hj
      rw [hnext] at hjr
      have hjb : base ≤ j := by
        have := (lt_next_of_at? hm).1
        rwa [E.keeps.base] at this
      have hterm : j = base ∨ j = base + 1 := by omega
      rw [hT.at?_terminal E.tree.toExpandingArena hterm] at hm
      rcases hterm with rfl | rfl
      · rw [hT.yes, Option.some.injEq] at hm
        rw [← hm] at hmt
        cases hmt
      · rw [hT.no, Option.some.injEq] at hm
        rw [← hm] at hmt
        cases hmt
    · -- the root keeps its variable, level and residual, which keeps its truth values
      obtain ⟨r, hr, hrvar, hrv, hrl⟩ := E.keeps.node _ _ (by rw [at?_alloc, if_pos rfl])
      refine ⟨r, by rw [← hnext]; exact hr, fun σ => ?_, hrl, fun _ => ?_⟩
      · rw [hrv]
        exact (Residual.holds_later hf.sound E.later hres σ).trans (Diagram.holds_residualOf _ σ)
      · rw [DNode.isTerminal, hrvar]
        rfl

end Diagram

end DecisionDiagrams
