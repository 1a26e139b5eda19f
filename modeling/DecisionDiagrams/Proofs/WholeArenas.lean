/-
Builds leave whole arenas.

A view keys an internal node by its id and a terminal by its value, and names a child by the key
of the node it is. For the view to hold a build's nodes one to one and to name every child, an
arena must hold one terminal of each value at most, and every internal node must have both its
children. Both builds leave such an arena when they succeed, whatever the engine answers.

The tree build allocates its two terminals first and internal nodes after them; every node it
allocates stands above the last level, so the fuel the build starts with lasts until the node is
expanded and linked to its two children. The reduced build allocates its two terminals, or the
terminal of a constant root alone; past them it allocates only nodes of the first phase past its
terminals, which test a variable, with both children.

* `Arena.Whole` — an arena whose internal nodes have both children and whose terminals differ
  in value.
* `Diagram.decisionTree_whole`, `Diagram.reducedDiagram_whole` — the two builds.
* `Diagram.runBuild_whole` — either build, when it succeeds.
-/
import DecisionDiagrams.Proofs.DiagramIdentifiers

namespace DecisionDiagrams

namespace Arena

/-- An internal node with both children; a terminal or an id outside the arena trivially. -/
def Tied (a : Arena) (j : Nat) : Prop :=
  ∀ n, a.at? j = some n → n.isTerminal = false → n.low.isSome ∧ n.high.isSome

/-- An arena whose internal nodes have both children, and in which two terminals of one value are
one node. -/
structure Whole (a : Arena) : Prop where
  tied : ∀ j, a.Tied j
  terminals : ∀ i j n m, a.at? i = some n → a.at? j = some m → n.isTerminal = true →
    m.isTerminal = true → n.terminalValue = m.terminalValue → i = j

variable {a b : Arena}

theorem tied_of_terminal {j : Nat} {n : DNode} (hn : a.at? j = some n) (ht : n.isTerminal = true) :
    a.Tied j := by
  intro m hm hmt
  rw [hn, Option.some.injEq] at hm
  rw [hm, hmt] at ht
  cases ht

theorem tied_of_none {j : Nat} (h : a.at? j = none) : a.Tied j := by
  intro m hm
  rw [h] at hm
  cases hm

/-- Linking a node to two children ties it and keeps every tied node tied. -/
theorem tied_link (id lo hi : Nat) {j : Nat} (h : j = id ∨ a.Tied j) :
    (a.modifyNode id fun m => { m with low := some lo, high := some hi }).Tied j := by
  intro n hn hnt
  rw [at?_modifyNode] at hn
  split at hn
  · obtain ⟨m, -, rfl⟩ := Option.map_eq_some_iff.1 hn
    exact ⟨rfl, rfl⟩
  · rcases h with rfl | h
    · contradiction
    · exact h n hn hnt

theorem tied_alloc {n : DNode} {j : Nat} (hj : j ≠ a.next) (h : a.Tied j) :
    (a.alloc n).2.Tied j := by
  intro m hm
  rw [at?_alloc, if_neg hj] at hm
  exact h m hm

/-- Marks and numbers do not change what an arena links. -/
theorem Restyled.whole (h : Restyled a b) (ha : a.Whole) : b.Whole := by
  -- a node of `b` is a node of `a` with the same variable, children and value
  have back : ∀ {j : Nat} {n : DNode}, b.at? j = some n → ∃ m, a.at? j = some m ∧
      m.var = n.var ∧ m.low = n.low ∧ m.high = n.high ∧ m.value = n.value := by
    intro j n hn
    obtain ⟨m, hm, hmn⟩ := h.symm.at?_some hn
    have hvar : m.plain.var = n.plain.var := congrArg DNode.var hmn
    have hlow : m.plain.low = n.plain.low := congrArg DNode.low hmn
    have hhigh : m.plain.high = n.plain.high := congrArg DNode.high hmn
    have hval : m.plain.value = n.plain.value := congrArg DNode.value hmn
    exact ⟨m, hm, hvar, hlow, hhigh, hval⟩
  refine ⟨fun j n hn hnt => ?_, fun i j n m hn hm hnt hmt hv => ?_⟩
  · obtain ⟨n', hn', hvar, hlo, hhi, -⟩ := back hn
    rw [← hlo, ← hhi]
    exact ha.tied j n' hn' (by rw [DNode.isTerminal, hvar]; exact hnt)
  · obtain ⟨n', hn', hvar, -, -, hval⟩ := back hn
    obtain ⟨m', hm', hvar', -, -, hval'⟩ := back hm
    refine ha.terminals i j n' m' hn' hm' (by rw [DNode.isTerminal, hvar]; exact hnt)
      (by rw [DNode.isTerminal, hvar']; exact hmt) ?_
    rw [DNode.terminalValue, DNode.terminalValue, hval, hval']
    exact hv

/-- An arena whose internal nodes have both children and whose terminals stand at `yes` or at
`no` by their value: what the builds keep as they allocate. -/
structure Pinned (yes no : Nat) (a : Arena) : Prop where
  tied : ∀ j, a.Tied j
  terminals : ∀ j n, a.at? j = some n → n.isTerminal = true →
    j = if n.terminalValue then yes else no

theorem Pinned.whole {yes no : Nat} (h : a.Pinned yes no) : a.Whole := by
  refine ⟨h.tied, fun i j n m hn hm hnt hmt hv => ?_⟩
  rw [h.terminals i n hn hnt, h.terminals j m hm hmt, hv]

/-- A new internal node with both children keeps an arena pinned. -/
theorem Pinned.alloc {yes no : Nat} (h : a.Pinned yes no) {n : DNode} (hn : n.isTerminal = false)
    (hc : n.low.isSome ∧ n.high.isSome) : (a.alloc n).2.Pinned yes no := by
  refine ⟨fun j m hm hmt => ?_, fun j m hm hmt => ?_⟩
  all_goals
    rw [at?_alloc] at hm
    split at hm
  · cases hm
    exact hc
  · exact h.tied j m hm hmt
  · cases hm
    exact absurd (hn.symm.trans hmt) Bool.false_ne_true
  · exact h.terminals j m hm hmt

theorem pinned_empty (base : Nat) : (⟨base, #[]⟩ : Arena).Pinned base base := by
  have none : ∀ j, (⟨base, #[]⟩ : Arena).at? j = none := fun j => by simp [Arena.at?]
  exact ⟨fun j => tied_of_none (none j), fun j n hn => by rw [none j] at hn; cases hn⟩

/-- The arena of the reduced build for a constant: its one terminal. -/
theorem pinned_terminal (v : Bool) (L base : Nat) :
    (Arena.terminal v L ⟨base, #[]⟩).2.Pinned base base := by
  -- the one node is the terminal at the base
  have only : ∀ j n, (Arena.terminal v L ⟨base, #[]⟩).2.at? j = some n → j = base := by
    intro j n hn
    rw [Arena.terminal, at?_alloc] at hn
    split at hn
    · next h => exact h.trans (Nat.add_zero base)
    · simp [Arena.at?] at hn
  refine ⟨fun j m hm hmt => ?_, fun j n hn _ => ?_⟩
  · rw [Arena.terminal, at?_alloc] at hm
    split at hm
    · cases hm
      cases hmt
    · simp [Arena.at?] at hm
  · rw [only j n hn]
    split <;> rfl

/-- The two terminals that both builds start from. -/
theorem pinned_terminals (order : List String) (base : Nat) :
    (Arena.terminal false order.length (Arena.terminal true order.length ⟨base, #[]⟩).2).2.Pinned
      base (base + 1) := by
  refine ⟨fun j => ?_, fun j n hn _ => ?_⟩
  · have hn := Diagram.at?_terminals order base j
    split_ifs at hn
    · exact tied_of_terminal hn rfl
    · exact tied_of_terminal hn rfl
    · exact tied_of_none hn
  · rw [Diagram.at?_terminals] at hn
    split_ifs at hn with h1 h0
    · cases hn
      exact h1
    · cases hn
      exact h0

end Arena

namespace Diagram

open Arena

/-! ### The tree build -/

/-- The arena of a tree build: the two terminals, and internal nodes above the last level. -/
structure TreeNodes (order : List String) (ts : Terminals) (a : Arena) : Prop where
  yes : a.at? ts.yes = some { DNode.terminal true "True" order.length with id := ts.yes }
  no : a.at? ts.no = some { DNode.terminal false "False" order.length with id := ts.no }
  inner : ∀ j n, a.at? j = some n → j ≠ ts.yes → j ≠ ts.no →
    n.isTerminal = false ∧ n.level < order.length

section Tree

variable {order : List String} {ts : Terminals}

theorem TreeNodes.tied_terminal {a : Arena} (hT : TreeNodes order ts a) {c : Nat}
    (hc : c = ts.yes ∨ c = ts.no) : a.Tied c := by
  rcases hc with rfl | rfl
  · exact tied_of_terminal hT.yes rfl
  · exact tied_of_terminal hT.no rfl

/-- The two terminals are the only terminals, each at the id of its value. -/
theorem TreeNodes.terminalsAt {a : Arena} (hT : TreeNodes order ts a) :
    ∀ j n, a.at? j = some n → n.isTerminal = true →
      j = if n.terminalValue then ts.yes else ts.no := by
  intro j n hn ht
  by_cases hy : j = ts.yes
  · rw [hy, hT.yes, Option.some.injEq] at hn
    rw [hy, ← hn]
    rfl
  by_cases hno : j = ts.no
  · rw [hno, hT.no, Option.some.injEq] at hn
    rw [hno, ← hn]
    rfl
  rw [(hT.inner j n hn hy hno).1] at ht
  cases ht

/-- The node of the tree build for a residual: a terminal, or a new internal node at the level
asked for, the only node the call adds. -/
theorem treeChild_treeNodes {a : Arena} (hT : TreeNodes order ts a) (r : Residual) (L : Nat) :
    Guarded (· = a) (treeChild order ts r L) fun res a' => TreeNodes order ts a' ∧ a.Keeps a' ∧
      ∀ c, res = .ok c → (c = ts.yes ∨ c = ts.no ∨ ∃ m, a'.at? c = some m ∧ m.level = L) ∧
        ∀ j, a.Tied j → j ≠ c → a'.Tied j := by
  refine (treeChild_cases a r L).mono fun res a' h => ?_
  rcases h with ⟨rfl, hc⟩ | ⟨v, text, hv, rfl, rfl⟩
  · refine ⟨hT, .refl a', fun c hres => ?_⟩
    obtain ⟨b, -, rfl⟩ := hc c hres
    refine ⟨?_, fun j hj _ => hj⟩
    cases b
    · exact .inr (.inl rfl)
    · exact .inl rfl
  have hL : L < order.length := (List.getElem?_eq_some_iff.1 hv).1
  -- the terminals lie below the new id
  have old : ∀ {j : Nat} {m : DNode}, a.at? j = some m → j ≠ a.next := fun hm =>
    Nat.ne_of_lt (lt_next_of_at? hm).2
  refine ⟨⟨?_, ?_, fun j n hn hy hno => ?_⟩, keeps_alloc _ a, fun c hc => ?_⟩
  · rw [at?_alloc, if_neg (old hT.yes)]
    exact hT.yes
  · rw [at?_alloc, if_neg (old hT.no)]
    exact hT.no
  · rw [at?_alloc] at hn
    split at hn
    · cases hn
      exact ⟨rfl, hL⟩
    · exact hT.inner j n hn hy hno
  · cases hc
    exact ⟨.inr (.inr ⟨_, by rw [at?_alloc, if_pos rfl], rfl⟩), fun j hj hne => tied_alloc hne hj⟩

/-- Expanding a child unless it is a terminal, and going on unless the expansion failed. -/
theorem expandChild_guarded {P S : Arena → Prop} {Q : Except Failure Unit → Arena → Prop}
    (fuel c : Nat) (k : BuildM (Except Failure Unit))
    (hexp : c ≠ ts.yes ∧ c ≠ ts.no → Guarded P (expandTree order ts fuel c)
      fun r a' => (∀ f, r = .error f → Q (.error f) a') ∧ (r = .ok () → S a'))
    (hskip : ¬ (c ≠ ts.yes ∧ c ≠ ts.no) → ∀ a, P a → S a) (hk : Guarded S k Q) :
    Guarded P (if c ≠ ts.yes ∧ c ≠ ts.no then do
        let r ← expandTree order ts fuel c
        match r with
        | .error f => pure (.error f)
        | _ => k
      else k) Q := by
  split
  · next hc =>
    refine .bind (hexp hc) fun r => ?_
    split
    · next f => exact .pure fun a h => h.1 f rfl
    · next hr =>
      cases r with
      | error f => exact absurd rfl (hr f)
      | ok u => exact hk.pre fun a h => h.2 rfl
  · next hc => exact hk.pre (hskip hc)

/-- Expanding a node of the tree build with fuel for the levels below it ties the node, and
every node it makes, when it succeeds. The induction is on the fuel: the node is linked to the
nodes made for its cofactors, and these are expanded in turn, one level further down. -/
theorem expandTree_tied : ∀ (fuel id : Nat) (a : Arena), TreeNodes order ts a → id ≠ ts.yes →
    id ≠ ts.no → (∀ n, a.at? id = some n → order.length ≤ n.level + fuel) →
    Guarded (· = a) (expandTree order ts fuel id) fun res a' => TreeNodes order ts a' ∧
      a.Keeps a' ∧ (res = .ok () → ∀ j, j = id ∨ a.Tied j → a'.Tied j)
  | 0, id, a, hT, hy, hno, hfuel => .pure fun a' h => by
    rw [h]
    refine ⟨hT, .refl _, fun _ j hj => ?_⟩
    rcases hj with rfl | hj
    · -- a node above the last level has fuel left: there is no node
      cases hid : a.at? j with
      | none => exact tied_of_none hid
      | some n =>
        have := (hT.inner j n hid hy hno).2
        have := hfuel n hid
        omega
    · exact hj
  | fuel + 1, id, a, hT, hy, hno, hfuel => by
    -- the expansions below keep the arena's nodes and ties
    have below : ∀ c (a₀ : Arena), TreeNodes order ts a₀ → a.Keeps a₀ → c ≠ ts.yes → c ≠ ts.no →
        (∀ n, a₀.at? c = some n → order.length ≤ n.level + fuel) →
        Guarded (· = a₀) (expandTree order ts fuel c) fun res a' => TreeNodes order ts a' ∧
          a.Keeps a' ∧ a₀.Keeps a' ∧ (res = .ok () → ∀ j, j = c ∨ a₀.Tied j → a'.Tied j) :=
      fun c a₀ hT₀ hk₀ hcy hcn hc => (expandTree_tied fuel c a₀ hT₀ hcy hcn hc).mono
        fun _ _ h => ⟨h.1, hk₀.trans h.2.1, h.2.1, h.2.2⟩
    rw [expandTree]
    refine .bind .get fun s => .of_state fun s' hs' => ?_
    obtain ⟨rfl, rfl⟩ := hs'
    split
    case h_2 hnone =>
      refine .pure fun a' h => ?_
      rw [h]
      refine ⟨hT, .refl _, fun _ j hj => ?_⟩
      rcases hj with rfl | hj
      · exact tied_of_none (Option.eq_none_iff_forall_ne_some.2 hnone)
      · exact hj
    rename_i n hn
    refine .bind (.lift (T := fun _ => True) fun _ => trivial) fun t => ?_
    rcases t with f | ⟨hr, lr⟩
    · exact .pure fun a' h => by rw [h.1]; exact ⟨hT, .refl _, fun h => by cases h⟩
    -- the nodes for the two cofactors, one level down
    refine .bind (.of_state fun a₁ h₁ => (treeChild_treeNodes hT hr (n.level + 1)).pre
      fun s hs => hs.trans h₁.1) fun t => ?_
    rcases t with f | hi
    · exact .pure fun a' h => ⟨h.1, h.2.1, fun h => by cases h⟩
    refine .bind (Q := fun res a₂ => TreeNodes order ts a₂ ∧ s.Keeps a₂ ∧
        (hi = ts.yes ∨ hi = ts.no ∨ ∃ m, a₂.at? hi = some m ∧ m.level = n.level + 1) ∧
        (∀ j, s.Tied j → j ≠ hi → ∀ c, res = .ok c → j ≠ c → a₂.Tied j) ∧
        ∀ c, res = .ok c → (c = ts.yes ∨ c = ts.no ∨ ∃ m, a₂.at? c = some m ∧ m.level = n.level + 1))
      (.of_state fun a₁ h₁ => ?_) fun t => ?_
    · obtain ⟨hT₁, hk₁, hch⟩ := h₁
      obtain ⟨hhi, htied₁⟩ := hch hi rfl
      refine (treeChild_treeNodes hT₁ lr (n.level + 1)).mono fun res a₂ h₂ => ?_
      obtain ⟨hT₂, hk₂, hc₂⟩ := h₂
      refine ⟨hT₂, hk₁.trans hk₂, ?_, fun j hj hjh c hc hjc => (hc₂ c hc).2 j (htied₁ j hj hjh) hjc,
        fun c hc => (hc₂ c hc).1⟩
      rcases hhi with h | h | ⟨m, hm, hlev⟩
      · exact .inl h
      · exact .inr (.inl h)
      · obtain ⟨m', hm', -, -, hl'⟩ := hk₂.node hi m hm
        exact .inr (.inr ⟨m', hm', hl'.trans hlev⟩)
    rcases t with f | lo
    · exact .pure fun a' h => ⟨h.1, h.2.1, fun h => by cases h⟩
    -- link the node, then expand the children that are not terminals
    refine .bind (.modify (R := fun _ a₃ => TreeNodes order ts a₃ ∧ s.Keeps a₃ ∧
        (∀ j, j = id ∨ (s.Tied j ∧ j ≠ hi ∧ j ≠ lo) → a₃.Tied j) ∧
        (hi = ts.yes ∨ hi = ts.no ∨ ∃ m, a₃.at? hi = some m ∧ m.level = n.level + 1) ∧
        (lo = ts.yes ∨ lo = ts.no ∨ ∃ m, a₃.at? lo = some m ∧ m.level = n.level + 1))
      fun a₂ h₂ => ?_) fun _ => ?_
    · obtain ⟨hT₂, hk₂, hhi, htied, hlo⟩ := h₂
      have hk := keeps_modifyNode id (f := fun m => { m with low := some lo, high := some hi })
        (fun _ => ⟨rfl, rfl, rfl⟩) a₂
      -- the link changes children only, and the terminals are not linked
      have level : ∀ {c : Nat}, (c = ts.yes ∨ c = ts.no ∨ ∃ m, a₂.at? c = some m ∧
          m.level = n.level + 1) → (c = ts.yes ∨ c = ts.no ∨ ∃ m,
            (a₂.modifyNode id fun m => { m with low := some lo, high := some hi }).at? c = some m ∧
              m.level = n.level + 1) := by
        rintro c (h | h | ⟨m, hm, hl⟩)
        · exact .inl h
        · exact .inr (.inl h)
        · obtain ⟨m', hm', -, -, hl'⟩ := hk.node c m hm
          exact .inr (.inr ⟨m', hm', hl'.trans hl⟩)
      refine ⟨⟨?_, ?_, fun j m hm hjy hjn => ?_⟩, hk₂.trans hk, fun j hj => ?_, level hhi,
        level (hlo lo rfl)⟩
      · rw [at?_modifyNode, if_neg (Ne.symm hy)]
        exact hT₂.yes
      · rw [at?_modifyNode, if_neg (Ne.symm hno)]
        exact hT₂.no
      · rw [at?_modifyNode] at hm
        split at hm
        · obtain ⟨m₀, hm₀, rfl⟩ := Option.map_eq_some_iff.1 hm
          exact hT₂.inner j m₀ hm₀ hjy hjn
        · exact hT₂.inner j m hm hjy hjn
      · rcases hj with rfl | ⟨hj, hjh, hjl⟩
        · exact tied_link _ _ _ (.inl rfl)
        · exact tied_link _ _ _ (.inr (htied j hj hjh lo rfl hjl))
    dsimp only
    -- a child made one level down has the fuel left for the levels below it
    have fuel_of : ∀ {c : Nat} {a' : Arena}, c ≠ ts.yes → c ≠ ts.no →
        (c = ts.yes ∨ c = ts.no ∨ ∃ m, a'.at? c = some m ∧ m.level = n.level + 1) →
        ∀ m, a'.at? c = some m → order.length ≤ m.level + fuel := by
      rintro c a' hcy hcn (h | h | ⟨m, hm, hl⟩) m' hm'
      · exact absurd h hcy
      · exact absurd h hcn
      · rw [hm, Option.some.injEq] at hm'
        subst hm'
        have := hfuel n hn
        omega
    refine expandChild_guarded (S := fun a₄ => TreeNodes order ts a₄ ∧ s.Keeps a₄ ∧
        (∀ j, j = id ∨ (s.Tied j ∧ j ≠ hi) → a₄.Tied j) ∧
        (hi = ts.yes ∨ hi = ts.no ∨ ∃ m, a₄.at? hi = some m ∧ m.level = n.level + 1))
      fuel lo _ (fun hc => .of_state fun a₃ h₃ => ?_) (fun hc a₃ h₃ => ?_)
      (expandChild_guarded (S := fun a₅ => TreeNodes order ts a₅ ∧ s.Keeps a₅ ∧
          ∀ j, j = id ∨ s.Tied j → a₅.Tied j)
        fuel hi _ (fun hc => .of_state fun a₄ h₄ => ?_) (fun hc a₄ h₄ => ?_)
        (.pure fun a₅ h₅ => ⟨h₅.1, h₅.2.1, fun _ => h₅.2.2⟩))
    · -- the low child is expanded, and the high child stays as it was
      obtain ⟨hT₃, hk₃, htied₃, hhi₃, hlo₃⟩ := h₃
      refine (below lo a₃ hT₃ hk₃ hc.1 hc.2 (fuel_of hc.1 hc.2 hlo₃)).mono fun r a₄ h₄ => ?_
      obtain ⟨hT₄, hk₄, hk₃₄, htied₄⟩ := h₄
      refine ⟨fun f hf => ⟨hT₄, hk₄, fun h => by cases h⟩, fun hr => ⟨hT₄, hk₄,
        fun j hj => ?_, ?_⟩⟩
      · by_cases hjl : j = lo
        · exact htied₄ hr j (.inl hjl)
        · refine htied₄ hr j (.inr (htied₃ j ?_))
          rcases hj with hj | ⟨hj, hjh⟩
          · exact .inl hj
          · exact .inr ⟨hj, hjh, hjl⟩
      · rcases hhi₃ with h | h | ⟨m, hm, hl⟩
        · exact .inl h
        · exact .inr (.inl h)
        · obtain ⟨m', hm', -, -, hl'⟩ := hk₃₄.node hi m hm
          exact .inr (.inr ⟨m', hm', hl'.trans hl⟩)
    · -- the low child is a terminal
      obtain ⟨hT₃, hk₃, htied₃, hhi₃, -⟩ := h₃
      have hlo : lo = ts.yes ∨ lo = ts.no := (not_and_or.1 hc).imp not_not.1 not_not.1
      refine ⟨hT₃, hk₃, fun j hj => ?_, hhi₃⟩
      by_cases hjl : j = lo
      · rw [hjl]
        exact hT₃.tied_terminal hlo
      · rcases hj with hj | ⟨hj, hjh⟩
        · exact htied₃ j (.inl hj)
        · exact htied₃ j (.inr ⟨hj, hjh, hjl⟩)
    · -- the high child is expanded
      obtain ⟨hT₄, hk₄, htied₄, hhi₄⟩ := h₄
      refine (below hi a₄ hT₄ hk₄ hc.1 hc.2 (fuel_of hc.1 hc.2 hhi₄)).mono fun r a₅ h₅ => ?_
      obtain ⟨hT₅, hk₅, -, htied₅⟩ := h₅
      refine ⟨fun f hf => ⟨hT₅, hk₅, fun h => by cases h⟩, fun hr => ⟨hT₅, hk₅,
        fun j hj => ?_⟩⟩
      by_cases hjh : j = hi
      · exact htied₅ hr j (.inl hjh)
      · refine htied₅ hr j (.inr (htied₄ j ?_))
        rcases hj with hj | hj
        · exact .inl hj
        · exact .inr ⟨hj, hjh⟩
    · -- the high child is a terminal
      obtain ⟨hT₄, hk₄, htied₄, -⟩ := h₄
      have hhi : hi = ts.yes ∨ hi = ts.no := (not_and_or.1 hc).imp not_not.1 not_not.1
      refine ⟨hT₄, hk₄, fun j hj => ?_⟩
      by_cases hjh : j = hi
      · rw [hjh]
        exact hT₄.tied_terminal hhi
      · rcases hj with hj | hj
        · exact htied₄ j (.inl hj)
        · exact htied₄ j (.inr ⟨hj, hjh⟩)

/-- The two terminals the tree build starts from. -/
theorem treeNodes_terminals (order : List String) (base : Nat) :
    TreeNodes order ⟨base, base + 1⟩
      (Arena.terminal false order.length (Arena.terminal true order.length ⟨base, #[]⟩).2).2 := by
  refine ⟨by rw [at?_terminals, if_neg (Nat.ne_of_lt (Nat.lt_succ_self base)), if_pos rfl],
    by rw [at?_terminals, if_pos rfl], fun j n hn hy hno => ?_⟩
  rw [at?_terminals, if_neg hno, if_neg hy] at hn
  cases hn

/-- A tree build that succeeds leaves a whole arena, whatever the engine answers. -/
theorem decisionTree_whole (d : Diagram) (order : List String) (base : Nat) :
    Guarded (· = ⟨base, #[]⟩) (decisionTree d order)
      fun res a => ∀ root, res = .ok root → a.Whole := by
  have hT₂ : TreeNodes order ⟨base, base + 1⟩ (treeTerminals order base) :=
    treeNodes_terminals order base
  have hp₂ : (treeTerminals order base).Pinned base (base + 1) := pinned_terminals order base
  refine decisionTree_guarded (fun _ _ _ h => by cases h) (fun _ _ _ _ _ => hp₂.whole)
    fun root hroot hint => ?_
  obtain ⟨-, -, -, hlev, hord⟩ := rootNode_unlinked hroot
  -- the root joins the two terminals, above the last level
  have hT₃ : TreeNodes order ⟨base, base + 1⟩ ((treeTerminals order base).alloc root).2 := by
    refine ⟨?_, ?_, fun j n hn hy hno => ?_⟩
    · rw [at?_alloc, treeTerminals_next, if_neg (show ¬ base = base + 2 by omega)]
      exact hT₂.yes
    · rw [at?_alloc, treeTerminals_next, if_neg (show ¬ base + 1 = base + 2 by omega)]
      exact hT₂.no
    · rw [at?_alloc] at hn
      split at hn
      · cases hn
        refine ⟨hint, show root.level < order.length from ?_⟩
        rw [hlev]
        exact hord hint
      · exact hT₂.inner j n hn hy hno
  refine (expandTree_tied _ _ _ hT₃ (show base + 2 ≠ base by omega)
    (show base + 2 ≠ base + 1 by omega) fun m _ => by omega).mono fun t a h r hr => ?_
  rcases t with f | u
  · cases hr
  refine Pinned.whole ⟨fun j => h.2.2 rfl j ?_, h.1.terminalsAt⟩
  by_cases hj : j = base + 2
  · exact .inl hj
  · exact .inr (tied_alloc (by rw [treeTerminals_next]; exact hj) (hp₂.tied j))

end Tree

/-! ### The reduced build -/

/-- Every node of the first phase past the two terminals tests a variable. -/
def Layer.Tests (l : Layer) : Prop :=
  ∀ (i : Nat) (m : DNode), 2 ≤ i → l.nodes[i]? = some m → m.isTerminal = false

section Layers

variable {order : List String}

/-- Every node the first phase adds tests a variable. -/
theorem expandLayers_tests (fuel : Nat) (ids : List Nat) :
    Guarded Layer.Tests (expandLayers order fuel ids) fun _ l => l.Tests :=
  ((expandLayers_obeys (p := fun i m => 2 ≤ i → m.isTerminal = false)
    ⟨fun _ _ _ _ _ _ => rfl, fun _ _ _ _ h => h⟩ fuel ids).pre
      fun _ h i m hm hi => h i m hi hm).mono fun _ _ h i m hi hm => h i m hm hi

theorem startLayer_tests {root : DNode} (h : root.isTerminal = false) :
    (startLayer order root).Tests := by
  intro i m hi hm
  rcases i with _ | _ | _ | i
  · omega
  · omega
  · simp only [startLayer, List.getElem?_toArray, List.getElem?_cons_succ,
      List.getElem?_cons_zero, Option.some.injEq] at hm
    rw [← hm]
    exact h
  · simp [startLayer] at hm

end Layers

section Reduce

variable {P : Layer} {yes no : Nat}

/-- A step of the second phase keeps its arena pinned: the node it makes is a node of the first
phase that tests a variable, linked to two children. -/
theorem ReduceStep.pinned {id : Nat} {s s' : ReduceState} (h : ReduceStep P id s s')
    (hP : ∀ m, P.nodes[id]? = some m → m.isTerminal = false) (hs : s.2.2.Pinned yes no) :
    s'.2.2.Pinned yes no := by
  cases h with
  | missing _ => exact hs
  | collapse _ _ => exact hs
  | share _ _ _ => exact hs
  | fresh hn _ _ => exact hs.alloc (hP _ hn :) ⟨rfl, rfl⟩

end Reduce

/-- A reduced build leaves a whole arena, whatever the engine answers. -/
theorem reducedDiagram_whole (d : Diagram) (order : List String) (base : Nat) :
    Guarded (· = ⟨base, #[]⟩) (reducedDiagram d order) fun _ a => a.Whole := by
  -- the first phase, whatever the engine, makes nodes that test a variable, listed by level
  refine reducedDiagram_guarded (fun p => p.2.Tests ∧ ∀ levels, p.1 = .ok levels →
    Layer.Complete 0 levels p.2) (fun _ _ => (pinned_empty base).whole)
    (fun _ _ _ => (pinned_terminal _ _ base).whole) (fun root hroot hint e => ?_)
    (fun _ _ _ => (pinned_empty base).whole) fun levels layer hlayer s hs => ?_
  · obtain ⟨hmark, hlow, hhigh, hlev, hord⟩ := rootNode_unlinked hroot
    obtain ⟨hT, hW⟩ := startLayer_tiered hmark hlow hhigh hlev (hord hint)
    exact ⟨expandLayers_tests _ [2] _ e (startLayer_tests hint), fun levels hl =>
      (expandLayers_complete (order.length + 1) 0 [2] _ hT hW (by omega) _ e rfl).2.2 levels hl⟩
  obtain ⟨htests, hC⟩ := hlayer
  -- every node of a level lies past the terminals
  have hids : ∀ ids ∈ levels.reverse, ∀ i ∈ ids, ∀ m, layer.nodes[i]? = some m →
      m.isTerminal = false := by
    intro ids hids i hi m hm
    obtain ⟨k, hk, rfl⟩ := List.getElem_of_mem (List.mem_reverse.1 hids)
    have hi' : i ∈ levels.getD k [] := by rwa [List.getD_eq_getElem _ _ hk]
    exact htests i m ((hC levels rfl k i).1 hi').1 hm
  subst hs
  exact (foldl_reduceLevel_keeps _ _ (fun ids hids' id hid _ _ h hs => h.pinned
    (hids ids hids' id hid) hs) (pinned_terminals order base)).whole

/-- Either build, when it succeeds, leaves a whole arena, whatever the engine answers. -/
theorem runBuild_whole (d : Diagram) (k : Kind) (order : List String) (base : Nat) (e : Engine)
    {root : Nat} (h : ((runBuild d k order base).run e).1.1 = .ok root) :
    ((runBuild d k order base).run e).1.2.Whole := by
  cases k
  · exact decisionTree_whole d order base _ e rfl root h
  · exact reducedDiagram_whole d order base _ e rfl

end Diagram

end DecisionDiagrams
