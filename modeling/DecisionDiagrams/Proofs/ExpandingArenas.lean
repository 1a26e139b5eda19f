/-
Arenas while a build expands them.

Both builds grow their nodes by the same two moves: a new node for a cofactor, opened and not
yet expanded, and linking a node to its two children once they are made. While they do, the two
terminals stand at the last level, and every other node is opened and either waits to be
expanded or is settled with its internal children one level down.

* `Diagram.ExpandingArena` — the arena during an expansion.
* `Diagram.ExpandingArena.alloc` — a new opened node keeps the invariant and has no parent.
* `Diagram.ExpandingArena.link` — linking a node to children that hold its cofactors settles
  it.
-/
import DecisionDiagrams.Proofs.SettledArenas

namespace DecisionDiagrams

namespace Diagram

open Engine Arena

variable (order : List String) (ts : Terminals)

/-- The arena during an expansion: the two terminals at the last level, and every other node
opened and either not yet expanded or settled with its internal children one level down. -/
structure ExpandingArena (a : Arena) (e : Engine) : Prop where
  yes : a.at? ts.yes = some { DNode.terminal true "True" order.length with id := ts.yes }
  no : a.at? ts.no = some { DNode.terminal false "False" order.length with id := ts.no }
  inner : ∀ j n, a.at? j = some n → j ≠ ts.yes → j ≠ ts.no →
    n.Opened e order ∧ (n.low = none ∧ n.high = none ∨ a.Settled e order (· + 1 = ·) j)

variable {order ts}

section Invariant

variable {a : Arena} {e : Engine} (hX : ExpandingArena order ts a e)
include hX

theorem ExpandingArena.later {e' : Engine} (hs : Sound e) (hl : Later e e') :
    ExpandingArena order ts a e' := by
  refine ⟨hX.yes, hX.no, fun j n hn hy hno => ?_⟩
  obtain ⟨hop, hst⟩ := hX.inner j n hn hy hno
  exact ⟨hop.later hs hl, hst.imp (fun h => h) (Settled.later hs hl)⟩

/-- Every node is settled or not yet expanded. -/
theorem ExpandingArena.settled_or_pending {j : Nat} {n : DNode} (hn : a.at? j = some n) :
    a.Settled e order (· + 1 = ·) j ∨ n.isTerminal = false ∧ n.low = none ∧ n.high = none := by
  by_cases hy : j = ts.yes
  · exact .inl (settled_terminal (hy ▸ hX.yes))
  by_cases hno : j = ts.no
  · exact .inl (settled_terminal (hno ▸ hX.no))
  obtain ⟨hop, hpend | hset⟩ := hX.inner j n hn hy hno
  · exact .inr ⟨hop.1, hpend⟩
  · exact .inl hset

/-- The terminals are the same nodes in every arena of the expansion. -/
theorem ExpandingArena.at?_terminal {a' : Arena} {e' : Engine}
    (hX' : ExpandingArena order ts a' e') {c : Nat} (hc : c = ts.yes ∨ c = ts.no) :
    a'.at? c = a.at? c := by
  rcases hc with rfl | rfl
  · rw [hX.yes, hX'.yes]
  · rw [hX.no, hX'.no]

/-- The children of the nodes lie in the arena. -/
theorem ExpandingArena.child_lt {p c : Nat} (hp : a.ParentOf p c) : c < a.next := by
  obtain ⟨n, hn, hc⟩ := hp
  rcases hX.settled_or_pending hn with ⟨n', hn', -, hterm, hint⟩ | ⟨-, hlo, hhi⟩
  · rw [hn] at hn'
    cases hn'
    cases ht : n.isTerminal
    · obtain ⟨v, lo, hi, -, -, hlo, hhi, ⟨m, hm, -⟩, ⟨m', hm', -⟩⟩ := hint ht
      rcases hc with h | h
      · rw [hlo, Option.some.injEq] at h
        exact h ▸ (lt_next_of_at? hm).2
      · rw [hhi, Option.some.injEq] at h
        exact h ▸ (lt_next_of_at? hm').2
    · -- the terminals have no children
      have hnone : n.low = none ∧ n.high = none := by
        by_cases hy : p = ts.yes
        · rw [hy, hX.yes, Option.some.injEq] at hn
          exact ⟨by rw [← hn]; rfl, by rw [← hn]; rfl⟩
        by_cases hno : p = ts.no
        · rw [hno, hX.no, Option.some.injEq] at hn
          exact ⟨by rw [← hn]; rfl, by rw [← hn]; rfl⟩
        exact absurd ht (by rw [(hX.inner p n hn hy hno).1.1]; decide)
      rcases hc with h | h
      · rw [hnone.1] at h
        cases h
      · rw [hnone.2] at h
        cases h
  · rcases hc with h | h
    · rw [hlo] at h
      cases h
    · rw [hhi] at h
      cases h

/-- A new opened node, not yet expanded, keeps the invariant; it has no parent, and no node
gained a child. -/
theorem ExpandingArena.alloc {n : DNode} (hop : n.Opened e order)
    (hpend : n.low = none ∧ n.high = none) :
    ExpandingArena order ts (a.alloc n).2 e ∧ (∀ p c, (a.alloc n).2.ParentOf p c → a.ParentOf p c) ∧
      ∀ p, ¬ (a.alloc n).2.ParentOf p a.next := by
  have hold : ∀ j, j ≠ a.next → (a.alloc n).2.at? j = a.at? j := fun j hj => by
    rw [at?_alloc, if_neg hj]
  have hlt : ∀ {j : Nat} {m : DNode}, a.at? j = some m → j ≠ a.next := fun hm => by
    have := (lt_next_of_at? hm).2
    omega
  -- the parents in the new arena are parents in the old one
  have hpar : ∀ p c, (a.alloc n).2.ParentOf p c → a.ParentOf p c := by
    rintro p c ⟨m, hm, hc⟩
    by_cases hp : p = a.next
    · rw [hp, at?_alloc, if_pos rfl, Option.some.injEq] at hm
      rw [← hm] at hc
      rcases hc with h | h
      · rw [show ({ n with id := a.next } : DNode).low = none from hpend.1] at h
        cases h
      · rw [show ({ n with id := a.next } : DNode).high = none from hpend.2] at h
        cases h
    · exact ⟨m, (hold p hp).symm.trans hm, hc⟩
  refine ⟨⟨(hold _ (hlt hX.yes)).trans hX.yes, (hold _ (hlt hX.no)).trans hX.no,
    fun j m hm hy hno => ?_⟩, hpar, fun p hp => absurd (hX.child_lt (hpar p _ hp)) (Nat.lt_irrefl _)⟩
  by_cases hj : j = a.next
  · rw [hj, at?_alloc, if_pos rfl, Option.some.injEq] at hm
    rw [← hm]
    exact ⟨hop, .inl hpend⟩
  · rw [hold j hj] at hm
    obtain ⟨hop', hst⟩ := hX.inner j m hm hy hno
    exact ⟨hop', hst.imp (fun h => h) (Settled.keeps (keeps_alloc n a) (hold j hj))⟩

/-- Linking a node to two children that hold its cofactors keeps the invariant and settles the
node; the new parents are the node's. -/
theorem ExpandingArena.link {id : Nat} {n : DNode} (hn : a.at? id = some n) (hy : id ≠ ts.yes)
    (hno : id ≠ ts.no) {v : String} (hv : n.var = some v) {lo hi : Nat}
    (hlo : a.ChildOf e (· + 1 = ·) n v false lo) (hhi : a.ChildOf e (· + 1 = ·) n v true hi) :
    ExpandingArena order ts (a.modifyNode id fun m => { m with low := some lo, high := some hi }) e ∧
      (a.modifyNode id fun m => { m with low := some lo, high := some hi }).Settled e order
        (· + 1 = ·) id ∧
      ∀ p c, (a.modifyNode id fun m => { m with low := some lo, high := some hi }).ParentOf p c →
        p = id ∧ (c = lo ∨ c = hi) ∨ p ≠ id ∧ a.ParentOf p c := by
  have hk := keeps_modifyNode id (f := fun m => { m with low := some lo, high := some hi })
    (fun _ => ⟨rfl, rfl, rfl⟩) a
  have hold : ∀ j, j ≠ id →
      (a.modifyNode id fun m => { m with low := some lo, high := some hi }).at? j = a.at? j :=
    fun j hj => by rw [at?_modifyNode, if_neg hj]
  have hid : (a.modifyNode id fun m => { m with low := some lo, high := some hi }).at? id =
      some { n with low := some lo, high := some hi } := by
    rw [at?_modifyNode, if_pos rfl, hn, Option.map_some]
  have hop := (hX.inner id n hn hy hno).1
  obtain ⟨v', hv', hov, -⟩ := hop.var_eq
  rw [hv, Option.some.injEq] at hv'
  subst hv'
  have hset : (a.modifyNode id fun m => { m with low := some lo, high := some hi }).Settled e order
      (· + 1 = ·) id :=
    ⟨_, hid, hop.2.2.1, fun ht => Bool.noConfusion (ht.symm.trans hop.1),
      fun _ => ⟨v, lo, hi, hv, hov, rfl, rfl, hlo.keeps hk, hhi.keeps hk⟩⟩
  refine ⟨⟨(hold _ hy.symm).trans hX.yes, (hold _ hno.symm).trans hX.no,
    fun j m hm hjy hjn => ?_⟩, hset, ?_⟩
  · by_cases hj : j = id
    · subst hj
      rw [hid, Option.some.injEq] at hm
      subst hm
      exact ⟨hop, .inr hset⟩
    · rw [hold j hj] at hm
      obtain ⟨hop', hst⟩ := hX.inner j m hm hjy hjn
      exact ⟨hop', hst.imp (fun h => h) (Settled.keeps hk (hold j hj))⟩
  · -- a parent in the new arena is `id`, of `lo` or `hi`, or a parent in the old one
    rintro p c ⟨m, hm, hc⟩
    by_cases hp : p = id
    · subst hp
      rw [hid, Option.some.injEq] at hm
      subst hm
      refine .inl ⟨rfl, ?_⟩
      rcases hc with h | h
      · exact .inl (Option.some.inj h).symm
      · exact .inr (Option.some.inj h).symm
    · exact .inr ⟨hp, m, (hold p hp).symm.trans hm, hc⟩

end Invariant

end Diagram

end DecisionDiagrams
