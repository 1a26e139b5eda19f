/-
Sifting with fixed costs, and the automatic orders it finds.

A cost function answers fixed costs when each order has one cost, whatever the caller's state.
The cost that automatic ordering gives sifting, the measure of a build, is fixed only on the
states it leaves itself: diagrams made from one formula without a node limit, which a measure
keeps, and on which every order of the variables measures alike (`Diagram.Made.measure_eq`).
Sifting over the states that keep an invariant does what sifting does, so it is enough that the
costs are fixed on those states.

Automatic ordering with the `ls` strategy sifts the frequency order of the formula, takes the
order found and builds the kind for it. The variables are identifiers, which hold no NUL, so the
memory of sifting keys the orders exactly, and the order found costs no more than the frequency
order. The size of its build is its cost.

* `Order.sift_fixed_costs` — with fixed costs on the permutations of a start order whose names
  hold no NUL, sifting answers a cheaper permutation with its cost, after the passes allowed, an
  order no exchange of neighbours makes cheaper when the last pass adopted nothing.
* `Order.sift_restrict` — sifting over the states that keep an invariant does what sifting does.
* `Order.sift_fixed_costs_of_invariant` — costs fixed on the states of an invariant suffice.
* `Diagram.Made.measure` — a measure keeps a diagram made from a formula.
* `Diagram.autoOrder_within_frequency` — automatic ordering by sifting answers an order, which
  it installs, whose build costs no more than the frequency order measures.
-/
import DecisionDiagrams.Proofs.BuildSizes
import DecisionDiagrams.Proofs.DeclaredLevels
import DecisionDiagrams.Proofs.SiftRuns

namespace DecisionDiagrams

namespace Order

variable {σ ε : Type}

/-! ### Fixed costs -/

/-- With a cost function that answers fixed costs `G` on the permutations of a start order whose
names hold no NUL, sifting answers a permutation of the start order with its cost under `G`, no
more than the start order's, after at least one pass and no more passes than allowed; when the
last pass adopted no swap, no exchange of neighbours makes the order cheaper. -/
theorem sift_fixed_costs (start : List String) (hnul : ∀ x ∈ start, '\x00' ∉ x.toList)
    (cost : List String → StateM σ (Except ε Int)) (maxPasses : Nat) (s : σ)
    (G : List String → Int) (hG : ∀ o s', o.Perm start → ((cost o).run s').1 = .ok (G o)) :
    ∃ r, ((sift start cost maxPasses).run s).1 = .ok r ∧ r.order.Perm start ∧
      r.cost = G r.order ∧ r.cost ≤ G start ∧ 1 ≤ r.passes ∧
      (0 < maxPasses → r.passes ≤ maxPasses) ∧
      (maxPasses = 0 ∨ (pass G)^[r.passes - 1] start = r.order →
        ∀ i, i + 1 < r.order.length → r.cost ≤ G (swapAt r.order i)) := by
  obtain ⟨res, hres, -, K, O⟩ := sift_runs_search start cost maxPasses s
  rw [hres]
  obtain ⟨r, hr⟩ := K.answers (fun _ h => by cases h) fun o s' ho => ⟨G o, hG o s' ho⟩
  -- the search under `G` answers the order its passes leave, with its cost
  obtain ⟨rfl, -⟩ := (O G (K.agrees hnul hG)).ok r hr
  refine ⟨_, hr, iterate_pass_perm _, rfl, iterate_pass_le _, passesOf_pos, passesOf_le,
    fun hlast i hi => le_swapAt_of_pass_eq (pass_iterate_eq passesOf_pos ?_) hi⟩
  -- the last pass adopted no swap: without a limit the search stops only so
  rcases hlast with h0 | hlast
  · exact iterate_passesOf fun h => absurd h.1 (by omega)
  · exact hlast.symm

/-! ### Sifting over the states of an invariant -/

section Restrict

variable {α : Type} {P : σ → Prop}

/-- A cost function on the states that keep an invariant `P`, which it keeps. -/
def restrictCost (cost : List String → StateM σ α) (hP : ∀ o s, P s → P ((cost o).run s).2)
    (o : List String) : StateM {s // P s} α :=
  fun s => (((cost o).run s.1).1, ⟨((cost o).run s.1).2, hP o s.1 s.2⟩)

/-- Sifting with a cost function restricted to the states of an invariant answers what sifting
with the cost function answers, and leaves the same state. -/
theorem sift_restrict (start : List String) (cost : List String → StateM σ (Except ε Int))
    (hP : ∀ o s, P s → P ((cost o).run s).2) (maxPasses : Nat) {s : σ} (hs : P s) :
    ((sift start (restrictCost cost hP) maxPasses).run ⟨s, hs⟩).1 =
        ((sift start cost maxPasses).run s).1 ∧
      ((sift start (restrictCost cost hP) maxPasses).run ⟨s, hs⟩).2.1 =
        ((sift start cost maxPasses).run s).2 := by
  have hcost : ∀ o (s' : {s // P s}) s, s'.1 = s →
      ((restrictCost cost hP o).run s').1 = ((cost o).run s).1 ∧
        ((restrictCost cost hP o).run s').2.1 = ((cost o).run s).2 := by
    rintro o ⟨s', hs'⟩ s rfl
    exact ⟨rfl, rfl⟩
  obtain ⟨hres, hst⟩ := search_simulates hcost start maxPasses ({}, 0) ⟨s, hs⟩ s rfl
  rw [sift_run, sift_run]
  exact ⟨(congrArg Prod.fst hres :), hst⟩

/-- Costs fixed on the permutations of the start order and on the states of an invariant that
the cost function keeps are enough: sifting from such a state answers a cheaper permutation with
its cost, and leaves a state of the invariant. -/
theorem sift_fixed_costs_of_invariant (start : List String) (hnul : ∀ x ∈ start, '\x00' ∉ x.toList)
    (cost : List String → StateM σ (Except ε Int)) (hP : ∀ o s, P s → P ((cost o).run s).2)
    (maxPasses : Nat) {s : σ} (hs : P s) (G : List String → Int)
    (hG : ∀ o s', P s' → o.Perm start → ((cost o).run s').1 = .ok (G o)) :
    ∃ r, ((sift start cost maxPasses).run s).1 = .ok r ∧ r.order.Perm start ∧
      r.cost = G r.order ∧ r.cost ≤ G start ∧ P ((sift start cost maxPasses).run s).2 := by
  obtain ⟨hres, hst⟩ := sift_restrict start cost hP maxPasses hs
  obtain ⟨r, hr, hperm, hcost, hle, -⟩ := sift_fixed_costs start hnul (restrictCost cost hP)
    maxPasses ⟨s, hs⟩ G fun o s' ho => hG o s'.1 s'.2 ho
  exact ⟨r, hres ▸ hr, hperm, hcost, hle,
    hst ▸ ((sift start (restrictCost cost hP) maxPasses).run ⟨s, hs⟩).2.2⟩

end Restrict

end Order

/-- A name holds no NUL: its bytes are letters, digits and underscores, each the code of its
character. -/
theorem Token.nul_not_mem_of_isName {x : String} (h : Token.isName x) : '\x00' ∉ x.toList := by
  intro hx
  rw [← Token.asciiText_bytes h, Token.asciiText, String.toList_ofList, List.mem_map] at hx
  obtain ⟨b, hb, hb0⟩ := hx
  have hpart : Token.isIdentPart b := by
    have hid : Token.isIdentifier x.toUTF8.toList := h
    revert hid hb
    cases x.toUTF8.toList with
    | nil => intro hb; cases hb
    | cons c body =>
      intro hb hid
      simp only [Token.isIdentifier, Bool.and_eq_true, List.all_eq_true] at hid
      rcases List.mem_cons.1 hb with rfl | hb
      · exact Token.isIdentPart_of_isIdentStart hid.1
      · exact hid.2 b hb
  have hlt : b.toNat < 128 := by
    simpa using UInt8.lt_iff_toNat_lt.1 (Token.isIdentPart_lt hpart)
  have h48 : 48 ≤ b.toNat := by
    simp only [Token.isIdentPart, Token.isIdentStart, Bool.or_eq_true, beq_iff_eq, Bool.and_eq_true,
      decide_eq_true_eq, UInt8.le_iff_toNat_le, UInt8.ext_iff] at hpart
    simp only [UInt8.reduceToNat] at hpart
    omega
  -- an ASCII byte is the code of its character, and the code of NUL is `0`
  have hcode := congrArg Char.toNat hb0
  rw [Char.toNat_ofNat, if_pos (by unfold Nat.isValidChar; omega)] at hcode
  have hnul : '\x00'.toNat = 0 := rfl
  omega

namespace Diagram

open Engine Arena

/-! ### Automatic orders -/

/-- The cost of an order when sifting for a kind: the size of the kind's build for it. -/
def measureCost (k : Kind) (o : List String) : DiagramM (Except Failure Int) := do
  return (← measure k o).map Int.ofNat

theorem measureCost_run (k : Kind) (o : List String) (d : Diagram) :
    (measureCost k o).run d = (((measure k o).run d).1.map Int.ofNat, ((measure k o).run d).2) :=
  rfl

/-- The search with the `ls` strategy answers what sifting the frequency order answers. -/
theorem searchOrder_run_of_sift {k : Kind} {m : Nat} {d d' : Diagram} {r : Order.SiftResult}
    (h : (Order.sift (Order.frequency d.formula d.vars) (measureCost k) m).run d = (.ok r, d')) :
    (searchOrder k "ls" m).run d = (.ok r, d') := by
  unfold searchOrder
  rw [StateT.run_bind, StateT.run_get, pure_bind]
  simp only [Strategy.parse]
  rw [StateT.run_bind]
  erw [h]
  rfl

/-- An automatic order that is found, taken and built answers the search's outcome with the
size of the build as its cost. -/
theorem autoOrder_run_of {k : Kind} {s : String} {m : Nat} {d d₁ d₂ d₃ : Diagram}
    {r : Order.SiftResult} {root : Nat}
    (hs : (searchOrder k s m).run d = (.ok r, d₁)) (ho : setOrder r.order d₁ = .ok d₂)
    (hb : (build k).run d₂ = (.ok root, d₃)) :
    (autoOrder k s m).run d = (.ok { r with cost := Int.ofNat (size d₃ k) }, d₃) := by
  unfold autoOrder
  rw [StateT.run_bind, show (searchOrder k s m).run d = pure (.ok r, d₁) from hs, pure_bind]
  dsimp only
  rw [StateT.run_bind, StateT.run_get, pure_bind]
  dsimp only
  rw [ho]
  dsimp only
  rw [StateT.run_bind, StateT.run_set, pure_bind, StateT.run_bind,
    show (build k).run d₂ = pure (.ok root, d₃) from hb, pure_bind]
  rfl

/-- A measure keeps a diagram made from a formula, with its variables and its text: a refused
order changes nothing, and a build moves the diagram to a later faithful engine with the same
names, where the formula's node keeps its truth values. -/
theorem Made.measure {d : Diagram} {f : Formula} (hd : Made d f) (k : Kind) (o : List String) :
    Made ((measure k o).run d).2 f ∧ ((measure k o).run d).2.vars = d.vars ∧
      ((measure k o).run d).2.formula = d.formula := by
  cases ho : checkOrder d.vars o with
  | error f' =>
    rw [measure_run_of_error k o d ho]
    exact ⟨hd, rfl, rfl⟩
  | ok u =>
    have hc := hd.coherent
    have hp := perm_of_checkOrder ho
    obtain ⟨r, a, e, hrun, -, hst⟩ := measure_run k o d ho
    obtain ⟨root, a', e', hrun', hf', -⟩ := runBuild_run hd.faithful hc.root
      (fun y hy => hp.symm.subset (hc.names y hy)) (hp.nodup_iff.2 hc.nodup) k 0
    have L := hc.runBuild hp k 0
    rw [hrun] at L
    rw [hrun', Prod.mk.injEq] at hrun
    obtain ⟨-, rfl⟩ := hrun
    rw [hst]
    exact ⟨⟨hc.withEngine L.sound L.later L.names, hf', fun σ =>
      (value_evolves hc.sound L.later.evolves hc.root σ).trans (hd.value σ)⟩, rfl, rfl⟩

/-- A permutation of distinct variables is always taken as the order. -/
theorem setOrder_of_perm {d : Diagram} {o : List String} (hnodup : d.vars.Nodup)
    (h : o.Perm d.vars) : ∃ d', d.setOrder o = .ok d' :=
  ⟨_, setOrder_ok_iff.2 ⟨checkOrder_of_perm _ _ hnodup h, rfl⟩⟩

/-- The variables of a diagram made from a text are names, which hold no NUL. -/
theorem create_vars_nul {text : String} {limits : Limits} {order : Option (List String)}
    {d : Diagram} (h : create text limits order = .ok d) (hs : Sound d.engine) :
    ∀ x ∈ d.vars, '\x00' ∉ x.toList := fun x hx =>
  Token.nul_not_mem_of_isName (hs.named x (by rw [create_names h]; exact hx))

/-- Automatic ordering by sifting, on a diagram made from a text without a node limit, succeeds.
It installs the order it answers, a permutation of the variables, and the cost it answers, the
size of the build of the kind for that order, is no more than the measure of the frequency
order. -/
theorem autoOrder_within_frequency {text : String} {limits : Limits} (hlim : limits.maxNodes = 0)
    {order : Option (List String)} {d : Diagram} (h : create text limits order = .ok d) (k : Kind)
    (maxPasses : Nat) :
    ∃ r n, ((autoOrder k "ls" maxPasses).run d).1 = .ok r ∧
      ((measure k (Order.frequency d.formula d.vars)).run d).1 = .ok n ∧ r.cost ≤ n ∧
      r.order.Perm d.vars ∧ ((autoOrder k "ls" maxPasses).run d).2.order = r.order ∧
      r.cost = Int.ofNat (size ((autoOrder k "ls" maxPasses).run d).2 k) := by
  obtain ⟨f, -, -, -, -, -, hp, -⟩ := create_eq_ok h
  have hd := create_made hlim h hp
  have hc := hd.coherent
  have hstart : (Order.frequency d.formula d.vars).Perm d.vars := List.mergeSort_perm _ _
  -- the states of sifting: diagrams made from the formula, with its variables and text
  let P : Diagram → Prop := fun d' => Made d' f ∧ d'.vars = d.vars ∧ d'.formula = d.formula
  have hP : ∀ o d', P d' → P ((measureCost k o).run d').2 := by
    rintro o d' ⟨hd', hv, hfm⟩
    obtain ⟨hm, hv', hfm'⟩ := hd'.measure k o
    exact ⟨hm, hv'.trans hv, hfm'.trans hfm⟩
  -- on those states each permutation of the variables costs what it measures on `d`
  have hmeas : ∀ d', P d' → ∀ o, o.Perm d.vars →
      ∃ n, ((measure k o).run d).1 = .ok n ∧ ((measure k o).run d').1 = .ok n := by
    rintro d' ⟨hd', hv, -⟩ o ho
    exact hd.measure_eq hd' (fun _ => rfl) hv k ho
  let G : List String → Int := fun o => (((measure k o).run d).1.map Int.ofNat).toOption.getD 0
  have hG : ∀ o d', P d' → o.Perm (Order.frequency d.formula d.vars) →
      ((measureCost k o).run d').1 = .ok (G o) := by
    intro o d' hd' ho
    obtain ⟨n, hn, hn'⟩ := hmeas d' hd' o (ho.trans hstart)
    simp only [measureCost_run, hn', G, hn]
    rfl
  obtain ⟨r, hr, hperm, hcost, hle, hP₁⟩ := Order.sift_fixed_costs_of_invariant _
    (fun x hx => create_vars_nul h hc.sound x (hstart.subset hx)) (measureCost k) hP maxPasses
    (⟨hd, rfl, rfl⟩ : P d) G hG
  rcases hsift : (Order.sift (Order.frequency d.formula d.vars) (measureCost k) maxPasses).run d
    with ⟨res, d₁⟩
  rw [hsift] at hr hP₁
  obtain rfl : res = .ok r := hr
  obtain ⟨hd₁, hv₁, hfm₁⟩ := hP₁
  -- the order found is taken, and the kind is built for it
  have hperm₁ : r.order.Perm d₁.vars := hv₁ ▸ hperm.trans hstart
  obtain ⟨d₂, ho⟩ := setOrder_of_perm hd₁.coherent.nodup hperm₁
  have hd₂ := hd₁.setOrder ho
  obtain ⟨-, -, hord₂⟩ := setOrder_ok ho
  obtain ⟨n₂, root, hn₂, hb, hbo, hsize⟩ := hd₂.size_build k
  have hrun := autoOrder_run_of (searchOrder_run_of_sift hsift) ho (Prod.ext hb rfl)
  -- the build's size is the measure of the order found, which is its cost
  obtain ⟨n, hn, hn'⟩ := hmeas d₂ ⟨hd₂, (setOrder_vars ho).trans hv₁,
    (setOrder_formula ho).trans hfm₁⟩ r.order (hperm.trans hstart)
  rw [hord₂, hn', Except.ok.injEq] at hn₂
  obtain ⟨n₀, hn₀, -⟩ := hmeas d ⟨hd, rfl, rfl⟩ _ hstart
  have hGr : G r.order = n := by simp only [G, hn]; rfl
  have hGs : G (Order.frequency d.formula d.vars) = n₀ := by simp only [G, hn₀]; rfl
  refine ⟨{ r with cost := Int.ofNat (size ((build k).run d₂).2 k) }, n₀, by rw [hrun], hn₀, ?_,
    hperm.trans hstart, by rw [hrun]; exact hbo.trans hord₂, by rw [hrun]⟩
  show Int.ofNat (size ((build k).run d₂).2 k) ≤ n₀
  rw [hsize, ← hn₂, Int.ofNat_eq_natCast, ← hGr, ← hGs, ← hcost]
  exact hle

end Diagram

end DecisionDiagrams
