/-
The runs of sifting against its passes.

Run with the calls of the cost function written down, from a memory that remembers the calls
made so far, sifting computes the passes of `Order.pass` under any costs that agree with the
answers of its calls. Two triples say so, one computation at a time, and compose along `bind`:

* `Order.Keeps` — whatever the costs, a run only adds calls and keeps the memory remembering
  them, and a failure is the last call, on a key not called before; the answers satisfy a
  postcondition (for the passes: the orders are permutations of the start order).
* `Order.Compares` — under costs that agree with the calls a run leaves, the run compares given
  orders and answers as given: the keys called are those of before and of the orders compared,
  without repetition, and a failing run called the keys of a first part of them.

With these, each function of sifting has its lemma: `Order.compareStep_compares` for one
comparison, `Order.siftPass_compares` for a pass, `Order.siftLoop_compares` for the passes of
`Order.passesOf`, and `Order.search_compares` for the whole search.
-/
import DecisionDiagrams.Proofs.SiftMemory
import DecisionDiagrams.Proofs.SiftPasses

namespace DecisionDiagrams

namespace Order

variable {σ ε δ γ : Type}

/-! ### The steps of sifting, named -/

section Steps

variable {m : Type → Type} [Monad m]

/-- The comparison of a pass at position `i`: the cost of the current order against that of the
order with the names at `i` and `i + 1` exchanged, which replaces it when it costs strictly
less. -/
def compareStep (cost : List String → m (Except ε Int)) (d : List String × Bool) (i : Nat) :
    SiftM m ε (List String × Bool) := do
  let c ← evalOrder cost d.1
  let t ← evalOrder cost (swapAt d.1 i)
  pure (if t < c then (swapAt d.1 i, true) else (d.1, d.2))

theorem siftPass_eq (cost : List String → m (Except ε Int)) (cur : List String) :
    siftPass cost cur = (List.range (cur.length - 1)).foldlM (compareStep cost) (cur, false) :=
  rfl

/-- What the loop does after a pass: another pass when this one adopted a swap. -/
def continueLoop (cost : List String → m (Except ε Int)) (maxPasses fuel passes : Nat)
    (r : List String × Bool) : SiftM m ε (List String × Nat) :=
  if r.2 then siftLoop cost maxPasses fuel r.1 (passes + 1) else pure (r.1, passes + 1)

/-- The end of a search: the cost of the order the passes leave, and the count of calls. -/
def finishSearch (cost : List String → m (Except ε Int)) (r : List String × Nat) :
    SiftM m ε SiftResult := do
  let c ← evalOrder cost r.1
  let t ← get
  pure ⟨r.1, c, r.2, t.2⟩

theorem search_eq (start : List String) (cost : List String → m (Except ε Int))
    (maxPasses : Nat) :
    search start cost maxPasses =
      siftLoop cost maxPasses (factorial start.length + 1) start 0 >>= finishSearch cost :=
  rfl

theorem siftLoop_succ (cost : List String → m (Except ε Int)) (maxPasses fuel : Nat)
    (cur : List String) (passes : Nat) :
    siftLoop cost maxPasses (fuel + 1) cur passes =
      if maxPasses > 0 ∧ passes ≥ maxPasses then pure (cur, passes)
      else siftPass cost cur >>= continueLoop cost maxPasses fuel passes :=
  rfl

end Steps

/-! ### Runs that keep the memory -/

/-- What a run from the calls `calls`, with a memory that remembers them, leaves whatever the
costs: the calls only grow, each new one on a permutation of the start order with an answer of
`cost`; an answer satisfies `Q` and comes with a memory that remembers the calls; a failure is
the last call, on a key not called before, after calls the memory remembered. -/
structure Kept (cost : List String → StateM σ (Except ε Int)) (start : List String)
    (calls : Calls ε) (Q : δ → Prop)
    (res : (Except (List String × ε) δ × (Std.HashMap String Int × Nat)) × (σ × Calls ε)) :
    Prop where
  grows : calls <+: res.2.2
  new : ∀ p ∈ res.2.2, p ∈ calls ∨ p.1.Perm start ∧ ∃ s', ((cost p.1).run s').1 = p.2
  ok : ∀ d, res.1.1 = .ok d → Remembers start res.1.2 res.2.2 ∧ Q d
  error : ∀ f, res.1.1 = .error f → ∃ t₀ calls₀, Remembers start t₀ calls₀ ∧
    memoKey f.1 ∉ Calls.keys calls₀ ∧ res.2.2 = calls₀ ++ [(f.1, .error f.2)]

/-- A computation of sifting with the calls of `cost` written down keeps the memory, its answers
satisfying `Q`. -/
def Keeps (cost : List String → StateM σ (Except ε Int)) (start : List String)
    (x : SiftM (StateM (σ × Calls ε)) ε δ) (Q : δ → Prop) : Prop :=
  ∀ t s calls, Remembers start t calls → Kept cost start calls Q ((x.run.run t).run (s, calls))

/-- Every run that keeps the memory leaves calls of distinct keys, a failing call included. -/
theorem Kept.nodup {cost : List String → StateM σ (Except ε Int)} {start : List String}
    {calls : Calls ε} {Q : δ → Prop}
    {res : (Except (List String × ε) δ × (Std.HashMap String Int × Nat)) × (σ × Calls ε)}
    (h : Kept cost start calls Q res) : (Calls.keys res.2.2).Nodup := by
  rcases hr : res.1.1 with f | d
  · obtain ⟨t₀, calls₀, hR, hk, heq⟩ := h.error f hr
    rw [heq, Calls.keys_append, Calls.keys_singleton]
    exact hR.nodup.append (List.nodup_singleton _) (List.disjoint_singleton.2 hk)
  · exact (h.ok d hr).1.nodup

/-- With calls that all answered and a cost function that never fails on the permutations of
the start order, a run answers. -/
theorem Kept.answers {cost : List String → StateM σ (Except ε Int)} {start : List String}
    {calls : Calls ε} {Q : δ → Prop}
    {res : (Except (List String × ε) δ × (Std.HashMap String Int × Nat)) × (σ × Calls ε)}
    (h : Kept cost start calls Q res) (hcalls : ∀ p ∈ calls, ∃ c, p.2 = .ok c)
    (hc : ∀ o s, o.Perm start → ∃ c, ((cost o).run s).1 = .ok c) : ∃ d, res.1.1 = .ok d := by
  rcases hr : res.1.1 with f | d
  · -- the failing call would be an answer of the cost function, or one of the calls before
    obtain ⟨t₀, calls₀, -, -, heq⟩ := h.error f hr
    have hlast : (f.1, Except.error f.2) ∈ res.2.2 := by
      rw [heq]
      exact List.mem_append_right _ List.mem_cons_self
    rcases h.new _ hlast with hin | ⟨hperm, s', hs'⟩
    · obtain ⟨c, hc'⟩ := hcalls _ hin
      cases hc'
    · obtain ⟨c, hc'⟩ := hc f.1 s' hperm
      rw [hc'] at hs'
      cases hs'
  · exact ⟨d, rfl⟩

/-- When the cost function answers fixed costs `G` on the permutations of the start order and
the names hold no NUL, `G` agrees with the calls of every run from no calls. -/
theorem Kept.agrees {cost : List String → StateM σ (Except ε Int)} {start : List String}
    {Q : δ → Prop}
    {res : (Except (List String × ε) δ × (Std.HashMap String Int × Nat)) × (σ × Calls ε)}
    (h : Kept cost start [] Q res) (hnul : ∀ x ∈ start, '\x00' ∉ x.toList)
    {G : List String → Int} (hG : ∀ o s, o.Perm start → ((cost o).run s).1 = .ok (G o)) :
    Agrees start G res.2.2 := by
  intro p hp c hc o ho hk
  rcases h.new p hp with hin | ⟨hperm, s', hs'⟩
  · cases hin
  · -- the call answered `G` of its order, which is the only permutation with its key
    rw [hG _ _ hperm, hc] at hs'
    cases hs'
    rw [memoKey_inj_of_perm hnul ho hperm hk]

/-- A call that failed ends the run, with its order and its failure. -/
theorem Kept.error_of_call {cost : List String → StateM σ (Except ε Int)} {start : List String}
    {calls : Calls ε} {Q : δ → Prop}
    {res : (Except (List String × ε) δ × (Std.HashMap String Int × Nat)) × (σ × Calls ε)}
    (h : Kept cost start calls Q res) {p : List String × Except ε Int} (hp : p ∈ res.2.2) {e : ε}
    (he : p.2 = .error e) : res.1.1 = .error (p.1, e) := by
  rcases hr : res.1.1 with f | d
  · obtain ⟨t₀, calls₀, hR₀, -, heq⟩ := h.error f hr
    rw [heq, List.mem_append, List.mem_singleton] at hp
    rcases hp with hp | rfl
    · -- the calls before the last one answered
      obtain ⟨c, hc⟩ := hR₀.answered p hp
      rw [hc] at he
      cases he
    · cases he
      rfl
  · obtain ⟨c, hc⟩ := (h.ok d hr).1.answered p hp
    rw [hc] at he
    cases he

section Keeping

variable {start : List String} {cost : List String → StateM σ (Except ε Int)}

theorem Keeps.pure {Q : δ → Prop} {v : δ} (h : Q v) :
    Keeps cost start (Pure.pure v : SiftM (StateM (σ × Calls ε)) ε δ) Q := fun t s calls hR => by
  rw [siftM_run_pure]
  exact ⟨List.prefix_refl _, fun p hp => .inl hp, fun d hd => by cases hd; exact ⟨hR, h⟩,
    fun f hf => (by cases hf)⟩

theorem Keeps.get :
    Keeps cost start (get : SiftM (StateM (σ × Calls ε)) ε (Std.HashMap String Int × Nat))
      fun _ => True := fun t s calls hR => by
  rw [siftM_run_get]
  exact ⟨List.prefix_refl _, fun p hp => .inl hp, fun _ _ => ⟨hR, trivial⟩,
    fun f hf => (by cases hf)⟩

theorem Keeps.bind {x : SiftM (StateM (σ × Calls ε)) ε δ}
    {f : δ → SiftM (StateM (σ × Calls ε)) ε γ} {Q : δ → Prop} {R : γ → Prop}
    (hx : Keeps cost start x Q) (hf : ∀ d, Q d → Keeps cost start (f d) R) :
    Keeps cost start (x >>= f) R := by
  intro t s calls hR
  rcases hrun : (x.run.run t).run (s, calls) with ⟨⟨r, t₁⟩, s₁, calls₁⟩
  have K := hx t s calls hR
  rw [hrun] at K
  cases r with
  | error e =>
    -- the failure of `x` is the failure of the whole
    rw [siftM_run_bind_error hrun]
    exact ⟨K.grows, K.new, fun d hd => (by cases hd), fun g hg => by cases hg; exact K.error e rfl⟩
  | ok d =>
    rw [siftM_run_bind_ok hrun]
    obtain ⟨hR₁, hQ⟩ := K.ok d rfl
    have K₂ := hf d hQ t₁ s₁ calls₁ hR₁
    refine ⟨K.grows.trans K₂.grows, fun p hp => ?_, K₂.ok, K₂.error⟩
    rcases K₂.new p hp with hp | hp
    · exact K.new p hp
    · exact .inr hp

variable (cost)

theorem evalOrder_keeps {o : List String} (ho : o.Perm start) :
    Keeps cost start (evalOrder (withCalls cost) o) fun _ => True := by
  intro t s calls hR
  rcases hrun : ((evalOrder (withCalls cost) o).run.run t).run (s, calls) with
    ⟨⟨r, t'⟩, s', calls'⟩
  obtain ⟨-, hnew, hok, herr⟩ := evalOrder_remembers cost hR ho hrun
  refine ⟨?_, fun p hp => ?_, fun c hc => ⟨(hok c hc).1, trivial⟩, fun f hf => ?_⟩
  · rcases hnew with h | h
    · exact h ▸ List.prefix_refl calls
    · exact h ▸ List.prefix_append _ _
  · -- the only new call is the one on the order, with the cost function's answer
    rcases hnew with h | h
    · exact .inl (h ▸ hp)
    · rw [h, List.mem_append, List.mem_singleton] at hp
      rcases hp with hp | rfl
      · exact .inl hp
      · exact .inr ⟨ho, s, rfl⟩
  · obtain ⟨h₁, -, hk, h₂⟩ := herr f hf
    exact ⟨t, calls, hR, h₁ ▸ hk, by rw [h₂, h₁]⟩

theorem compareStep_keeps {d : List String × Bool} (hd : d.1.Perm start) (i : Nat) :
    Keeps cost start (compareStep (withCalls cost) d i) fun r => r.1.Perm start := by
  have hswap : (swapAt d.1 i).Perm start := (swapAt_perm d.1 i).trans hd
  refine (evalOrder_keeps cost hd).bind fun c _ =>
    (evalOrder_keeps cost hswap).bind fun t _ => Keeps.pure ?_
  by_cases hlt : t < c
  · rw [if_pos hlt]
    exact hswap
  · rw [if_neg hlt]
    exact hd

theorem foldlM_compareStep_keeps :
    ∀ (is : List Nat) (d : List String × Bool), d.1.Perm start →
      Keeps cost start (is.foldlM (compareStep (withCalls cost)) d) fun r => r.1.Perm start
  | [], _, hd => Keeps.pure hd
  | i :: is, d, hd => by
    rw [List.foldlM_cons]
    exact (compareStep_keeps cost hd i).bind fun d' hd' => foldlM_compareStep_keeps is d' hd'

theorem siftPass_keeps {cur : List String} (hcur : cur.Perm start) :
    Keeps cost start (siftPass (withCalls cost) cur) fun r => r.1.Perm start := by
  rw [siftPass_eq]
  exact foldlM_compareStep_keeps cost _ (cur, false) hcur

theorem continueLoop_keeps {maxPasses fuel passes : Nat}
    (hloop : ∀ cur, cur.Perm start → Keeps cost start
      (siftLoop (withCalls cost) maxPasses fuel cur (passes + 1)) fun r => r.1.Perm start)
    {r : List String × Bool} (hr : r.1.Perm start) :
    Keeps cost start (continueLoop (withCalls cost) maxPasses fuel passes r) fun r => r.1.Perm start := by
  unfold continueLoop
  split
  · exact hloop r.1 hr
  · exact Keeps.pure hr

theorem siftLoop_keeps (maxPasses : Nat) :
    ∀ fuel cur passes, cur.Perm start →
      Keeps cost start (siftLoop (withCalls cost) maxPasses fuel cur passes) fun r => r.1.Perm start
  | 0, _, _, hcur => Keeps.pure hcur
  | fuel + 1, cur, passes, hcur => by
    rw [siftLoop_succ]
    split
    · exact Keeps.pure hcur
    · exact (siftPass_keeps cost hcur).bind fun _ hr =>
        continueLoop_keeps cost (fun cur' h => siftLoop_keeps maxPasses fuel cur' (passes + 1) h) hr

theorem finishSearch_keeps {r : List String × Nat} (hr : r.1.Perm start) :
    Keeps cost start (finishSearch (withCalls cost) r) fun _ => True :=
  (evalOrder_keeps cost hr).bind fun _ _ => Keeps.get.bind fun _ _ => Keeps.pure trivial

theorem search_keeps (maxPasses : Nat) :
    Keeps cost start (search start (withCalls cost) maxPasses) fun _ => True := by
  rw [search_eq]
  exact (siftLoop_keeps cost maxPasses _ start 0 (List.Perm.refl _)).bind fun _ hr =>
    finishSearch_keeps cost hr

end Keeping

/-! ### Runs that compare given orders -/

theorem eraseDups_eraseDups_append (l l' : List String) :
    (l.eraseDups ++ l').eraseDups = (l ++ l').eraseDups := by
  rw [List.eraseDups_append, List.eraseDups_append, eraseDups_eq_self _ (nodup_eraseDups l)]
  congr 2
  simp only [List.removeAll, List.elem_eq_mem, List.mem_eraseDups]

theorem eraseDups_prefix_append (l l' : List String) : l.eraseDups <+: (l ++ l').eraseDups := by
  rw [List.eraseDups_append]
  exact List.prefix_append _ _

/-- Erasing repetitions commutes with a map that is injective on the list. -/
theorem eraseDups_map {α β : Type} [BEq α] [LawfulBEq α] [BEq β] [LawfulBEq β] {f : α → β} :
    ∀ {l : List α}, (∀ x ∈ l, ∀ y ∈ l, f x = f y → x = y) →
      (l.map f).eraseDups = l.eraseDups.map f
  | [], _ => rfl
  | a :: as, h => by
    -- the elements other than `a` are those whose image is not `f a`
    have hfilter : (as.map f).filter (fun b => !b == f a) = (as.filter fun b => !b == a).map f := by
      rw [List.filter_map]
      congr 1
      refine List.filter_congr fun x hx => ?_
      by_cases hxa : x = a
      · simp [hxa]
      · have hf : f x ≠ f a := fun hf => hxa (h x (List.mem_cons_of_mem a hx) a List.mem_cons_self hf)
        simp [hxa, hf]
    rw [List.map_cons, List.eraseDups_cons, List.eraseDups_cons, hfilter, List.map_cons,
      eraseDups_map fun x hx y hy => h x (List.mem_cons_of_mem a (List.mem_filter.1 hx).1) y
        (List.mem_cons_of_mem a (List.mem_filter.1 hy).1)]
termination_by l => l.length
decreasing_by exact Nat.lt_succ_of_le (List.length_filter_le _ _)

/-- What a run from the calls `calls` leaves, when it compares the orders `compared` and answers
as `V` says: an answer `d` satisfies `V d` for the calls left, and the keys called are those of
before and of the orders compared, without repetition; after a failure, the keys called are a
first part of these. -/
structure Outcome (calls : Calls ε) (compared : List (List String)) (V : δ → Calls ε → Prop)
    (res : (Except (List String × ε) δ × (Std.HashMap String Int × Nat)) × (σ × Calls ε)) :
    Prop where
  ok : ∀ d, res.1.1 = .ok d → V d res.2.2 ∧
    Calls.keys res.2.2 = (Calls.keys calls ++ compared.map memoKey).eraseDups
  error : ∀ f, res.1.1 = .error f →
    Calls.keys res.2.2 <+: (Calls.keys calls ++ compared.map memoKey).eraseDups

/-- A computation of sifting with the calls written down compares the orders `compared` and
answers as `V` says, under costs `A` of the permutations of `start`: run from a memory that
remembers the calls so far, when `A` agrees with the calls it leaves, it leaves an
`Outcome`. -/
def Compares (start : List String) (A : List String → Int)
    (x : SiftM (StateM (σ × Calls ε)) ε δ) (compared : List (List String))
    (V : δ → Calls ε → Prop) : Prop :=
  ∀ t s calls, Remembers start t calls → Agrees start A ((x.run.run t).run (s, calls)).2.2 →
    Outcome calls compared V ((x.run.run t).run (s, calls))

section Comparing

variable {start : List String} {A : List String → Int}

theorem Compares.mono {x : SiftM (StateM (σ × Calls ε)) ε δ} {c c' : List (List String)}
    {V V' : δ → Calls ε → Prop} (h : Compares start A x c V) (hc : c = c')
    (hV : ∀ d calls, V d calls → V' d calls) : Compares start A x c' V' := by
  subst hc
  intro t s calls hR hA
  have O := h t s calls hR hA
  exact ⟨fun d hd => ⟨hV _ _ (O.ok d hd).1, (O.ok d hd).2⟩, O.error⟩

theorem Compares.pure (v : δ) :
    Compares start A (Pure.pure v : SiftM (StateM (σ × Calls ε)) ε δ) [] fun d _ => d = v := by
  intro t s calls hR _
  rw [siftM_run_pure]
  refine ⟨fun d hd => ?_, fun f hf => (by cases hf)⟩
  cases hd
  rw [List.map_nil, List.append_nil, eraseDups_eq_self _ hR.nodup]
  exact ⟨rfl, rfl⟩

/-- The memory's counter is the number of calls. -/
theorem Compares.get_pure (g : Nat → δ) :
    Compares start A ((get : SiftM (StateM (σ × Calls ε)) ε (Std.HashMap String Int × Nat)) >>=
      fun t => Pure.pure (g t.2)) [] fun d calls => d = g calls.length := by
  intro t s calls hR _
  rw [siftM_run_bind_ok (siftM_run_get _ _), siftM_run_pure]
  refine ⟨fun d hd => ?_, fun f hf => (by cases hf)⟩
  cases hd
  rw [List.map_nil, List.append_nil, eraseDups_eq_self _ hR.nodup, hR.count]
  exact ⟨rfl, rfl⟩

/-- Sequencing: a run that answers `v` and compares `c₁`, then a run of the continuation at `v`
comparing `c₂`, compare `c₁ ++ c₂`. The continuation keeps the memory at every answer `x` may
give, so that the costs agreeing with the calls of the whole agree with those of `x`. -/
theorem Compares.bind {x : SiftM (StateM (σ × Calls ε)) ε δ}
    {f : δ → SiftM (StateM (σ × Calls ε)) ε γ} {Q : δ → Prop} {R : γ → Prop}
    {c₁ c₂ : List (List String)} {v : δ} {W : γ → Calls ε → Prop}
    {cost : List String → StateM σ (Except ε Int)}
    (hxk : Keeps cost start x Q) (hfk : ∀ d, Q d → Keeps cost start (f d) R)
    (hx : Compares start A x c₁ fun d _ => d = v) (hf : Compares start A (f v) c₂ W) :
    Compares start A (x >>= f) (c₁ ++ c₂) W := by
  intro t s calls hR hA
  rcases hrun : (x.run.run t).run (s, calls) with ⟨⟨r, t₁⟩, s₁, calls₁⟩
  have K := hxk t s calls hR
  rw [hrun] at K
  cases r with
  | error e =>
    rw [siftM_run_bind_error hrun] at hA ⊢
    have O := hx t s calls hR (by rw [hrun]; exact hA)
    rw [hrun] at O
    refine ⟨fun d hd => (by cases hd), fun g hg => ?_⟩
    cases hg
    refine (O.error e rfl).trans ?_
    rw [List.map_append, ← List.append_assoc]
    exact eraseDups_prefix_append _ _
  | ok d =>
    rw [siftM_run_bind_ok hrun] at hA ⊢
    obtain ⟨hR₁, hQ⟩ := K.ok d rfl
    have K₂ := hfk d hQ t₁ s₁ calls₁ hR₁
    -- the calls of `x` are a first part of those of the whole, so `A` agrees with them
    have O := hx t s calls hR (by rw [hrun]; exact hA.of_prefix K₂.grows)
    rw [hrun] at O
    obtain ⟨rfl, hkeys₁⟩ := O.ok d rfl
    have O₂ := hf t₁ s₁ calls₁ hR₁ hA
    have hchain : (Calls.keys calls₁ ++ c₂.map memoKey).eraseDups =
        (Calls.keys calls ++ (c₁ ++ c₂).map memoKey).eraseDups := by
      rw [hkeys₁, eraseDups_eraseDups_append, List.map_append, List.append_assoc]
    exact ⟨fun e he => by rw [← hchain]; exact O₂.ok e he,
      fun g hg => by rw [← hchain]; exact O₂.error g hg⟩

variable (cost : List String → StateM σ (Except ε Int))

theorem evalOrder_compares {o : List String} (ho : o.Perm start) :
    Compares start A (evalOrder (withCalls cost) o) [o] fun c _ => c = A o := by
  intro t s calls hR hA
  rcases hrun : ((evalOrder (withCalls cost) o).run.run t).run (s, calls) with
    ⟨⟨r, t'⟩, s', calls'⟩
  rw [hrun] at hA
  obtain ⟨hkeys, -, hok, -⟩ := evalOrder_remembers cost hR ho hrun
  have hkeys' : Calls.keys calls' = (Calls.keys calls ++ [o].map memoKey).eraseDups := by
    rw [hkeys, List.map_cons, List.map_nil]
  refine ⟨fun c hc => ?_, fun _ _ => hkeys' ▸ List.prefix_refl _⟩
  -- the answer is that of a call under the order's key, which `A` agrees with
  obtain ⟨-, p, hp, hk, hpc⟩ := hok c hc
  exact ⟨(hA p hp c hpc o ho hk.symm).symm, hkeys'⟩

/-- One comparison compares the current order and its swap at `i`, and adopts the swap as
`Order.adoptAt` does, noting whether it did. -/
theorem compareStep_compares {d : List String × Bool} (hd : d.1.Perm start) (i : Nat) :
    Compares start A (compareStep (withCalls cost) d i) [d.1, swapAt d.1 i]
      fun r _ => r = (adoptAt A d.1 i, d.2 || decide (A (swapAt d.1 i) < A d.1)) := by
  have hswap : (swapAt d.1 i).Perm start := (swapAt_perm d.1 i).trans hd
  refine ((evalOrder_compares cost hd).bind (evalOrder_keeps cost hd)
    (fun _ _ => (evalOrder_keeps cost hswap).bind fun _ _ =>
      (Keeps.pure trivial : Keeps cost start _ fun _ => True))
    ((evalOrder_compares cost hswap).bind (evalOrder_keeps cost hswap)
      (fun _ _ => (Keeps.pure trivial : Keeps cost start _ fun _ => True))
      (Compares.pure _))).mono rfl fun r _ hr => ?_
  rw [hr, adoptAt]
  by_cases hlt : A (swapAt d.1 i) < A d.1
  · simp [hlt]
  · simp [hlt]

/-- A step that adopts a swap makes the rest of the pass end away from the order it left. -/
theorem foldl_adoptAt_ne_of_lt {o : List String} {i : Nat} (hlt : A (swapAt o i) < A o)
    (is : List Nat) : is.foldl (adoptAt A) (adoptAt A o i) ≠ o := by
  have hadopt : adoptAt A o i = swapAt o i := if_pos hlt
  intro heq
  rcases foldl_adoptAt_eq_or_lt is (adoptAt A o i) with h | h
  · rw [h, hadopt] at heq
    rw [heq] at hlt
    exact lt_irrefl _ hlt
  · rw [heq, hadopt] at h
    exact lt_asymm h hlt

theorem foldlM_compareStep_compares :
    ∀ (is : List Nat) (d : List String × Bool), d.1.Perm start →
      Compares start A (is.foldlM (compareStep (withCalls cost)) d) (comparedAt A is d.1)
        fun r _ => r = (is.foldl (adoptAt A) d.1, d.2 || decide (is.foldl (adoptAt A) d.1 ≠ d.1))
  | [], d, _ => by
    rw [List.foldlM_nil]
    exact (Compares.pure d).mono rfl fun r _ hr => by simp [hr]
  | i :: is, d, hd => by
    rw [List.foldlM_cons]
    have hd' : (adoptAt A d.1 i).Perm start := (adoptAt_perm d.1 i).trans hd
    refine ((compareStep_compares cost hd i).bind (compareStep_keeps cost hd i)
      (fun d' hd'' => foldlM_compareStep_keeps cost is d' hd'')
      (foldlM_compareStep_compares is _ hd')).mono rfl fun r _ hr => ?_
    rw [hr, List.foldl_cons]
    -- the flag: an adopted swap at `i` leaves the pass away from the order it started with
    by_cases hlt : A (swapAt d.1 i) < A d.1
    · have hne := foldl_adoptAt_ne_of_lt hlt is
      simp [hlt, hne]
    · have hadopt : adoptAt A d.1 i = d.1 := if_neg hlt
      simp [hlt, hadopt]

/-- A pass compares the orders of `Order.passCompared` and answers `Order.pass`, with whether it
moved. -/
theorem siftPass_compares {cur : List String} (hcur : cur.Perm start) :
    Compares start A (siftPass (withCalls cost) cur) (passCompared A cur)
      fun r _ => r = (pass A cur, decide (pass A cur ≠ cur)) := by
  rw [siftPass_eq]
  exact (foldlM_compareStep_compares cost _ (cur, false) hcur).mono rfl fun r _ hr => by
    rw [hr, Bool.false_or]
    rfl

theorem factorial_eq (n : Nat) : factorial n = n.factorial := by
  induction n with
  | zero => rfl
  | succ n ih => rw [factorial, ih, Nat.factorial_succ]

/-- The fuel of sifting covers every search: no more passes than permutations. -/
theorem passesOf_le_fuel (maxPasses : Nat) :
    passesOf A maxPasses start ≤ factorial start.length + 1 :=
  calc passesOf A maxPasses start ≤ start.permutations.toFinset.card := passesOf_le_card
    _ ≤ start.permutations.length := List.toFinset_card_le _
    _ = factorial start.length := by rw [List.length_permutations, factorial_eq]
    _ ≤ factorial start.length + 1 := Nat.le_succ _

/-- After pass `p`, the loop goes on as the search does: it stops at the last pass, or makes the
next one. -/
theorem continueLoop_compares (maxPasses fuel p : Nat) (hlt : p < passesOf A maxPasses start)
    (hloop : (pass A)^[p + 1] start ≠ (pass A)^[p] start →
      Compares start A (siftLoop (withCalls cost) maxPasses fuel ((pass A)^[p + 1] start) (p + 1))
        ((List.range' (p + 1) (passesOf A maxPasses start - (p + 1))).flatMap fun j =>
          passCompared A ((pass A)^[j] start))
        fun r _ => r = ((pass A)^[passesOf A maxPasses start] start, passesOf A maxPasses start)) :
    Compares start A (continueLoop (withCalls cost) maxPasses fuel p
        (pass A ((pass A)^[p] start), decide (pass A ((pass A)^[p] start) ≠ (pass A)^[p] start)))
      ((List.range' (p + 1) (passesOf A maxPasses start - (p + 1))).flatMap fun j =>
        passCompared A ((pass A)^[j] start))
      fun r _ => r = ((pass A)^[passesOf A maxPasses start] start, passesOf A maxPasses start) := by
  have hsucc : pass A ((pass A)^[p] start) = (pass A)^[p + 1] start :=
    (Function.iterate_succ_apply' _ _ _).symm
  rw [hsucc]
  unfold continueLoop
  by_cases hmove : (pass A)^[p + 1] start = (pass A)^[p] start
  · -- the pass adopted no swap, so it was the last
    have hlast : p + 1 = passesOf A maxPasses start := by
      by_contra hne
      exact @iterate_pass_ne A maxPasses start p (by omega) hmove
    rw [if_neg (by simp [hmove]), ← hlast]
    exact (Compares.pure _).mono (by simp) fun _ _ h => h
  · rw [if_pos (decide_eq_true hmove)]
    exact hloop hmove

/-- The loop from the order current before pass `p` makes the passes up to `Order.passesOf`: it
compares the orders of each of them, and answers the order they leave with their number. It has
fuel left for the passes still to make; at the last pass it stops because the passes allowed are
made, or it has already stopped after a pass that adopted no swap. -/
theorem siftLoop_compares (maxPasses : Nat) :
    ∀ fuel p, p ≤ passesOf A maxPasses start →
      (p = passesOf A maxPasses start → 0 < maxPasses ∧ p = maxPasses) →
      passesOf A maxPasses start ≤ p + fuel →
      Compares start A (siftLoop (withCalls cost) maxPasses fuel ((pass A)^[p] start) p)
        ((List.range' p (passesOf A maxPasses start - p)).flatMap fun j =>
          passCompared A ((pass A)^[j] start))
        fun r _ => r = ((pass A)^[passesOf A maxPasses start] start, passesOf A maxPasses start)
  | 0, p, hp, _, hfuel => by
    obtain rfl : p = passesOf A maxPasses start := by omega
    exact (Compares.pure _).mono (by simp) fun _ _ h => h
  | fuel + 1, p, hp, hstop, hfuel => by
    rw [siftLoop_succ]
    rcases Nat.lt_or_ge p (passesOf A maxPasses start) with hlt | hge
    · -- a pass is made: the passes allowed are not all made yet
      have hmore : ¬(maxPasses > 0 ∧ p ≥ maxPasses) := fun h => by
        have : passesOf A maxPasses start ≤ maxPasses := passesOf_le h.1
        omega
      rw [if_neg hmore]
      have hperm : ((pass A)^[p] start).Perm start := iterate_pass_perm p
      -- the next pass is the last only when the search stops for the passes allowed
      have hnext := continueLoop_compares cost maxPasses fuel p hlt fun hgo =>
        siftLoop_compares maxPasses fuel (p + 1) (by omega) (fun hP => by
          have hstops : Stops A maxPasses start (passesOf A maxPasses start) := passesOf_stops
          rw [← hP] at hstops
          rcases hstops.2 with hm | heq
          · exact hm
          · exact absurd (by simpa using heq) hgo) (by omega)
      have hsplit : passCompared A ((pass A)^[p] start) ++
          (List.range' (p + 1) (passesOf A maxPasses start - (p + 1))).flatMap
            (fun j => passCompared A ((pass A)^[j] start)) =
          (List.range' p (passesOf A maxPasses start - p)).flatMap
            fun j => passCompared A ((pass A)^[j] start) := by
        rw [show passesOf A maxPasses start - p = passesOf A maxPasses start - (p + 1) + 1 by omega,
          List.range'_succ, List.flatMap_cons]
      exact ((siftPass_compares cost hperm).bind (siftPass_keeps cost hperm)
        (fun _ hr => continueLoop_keeps cost
          (fun cur' h => siftLoop_keeps cost maxPasses fuel cur' (p + 1) h) hr)
        hnext).mono hsplit fun _ _ h => h
    · -- the last pass is made: the loop stops for the passes allowed
      obtain rfl : p = passesOf A maxPasses start := le_antisymm hp hge
      obtain ⟨hm, heq⟩ := hstop rfl
      rw [if_pos ⟨hm, heq.ge⟩]
      exact (Compares.pure _).mono (by simp) fun _ _ h => h

/-- The end of a search compares the order the passes leave, and answers it with its cost, the
number of passes and the number of calls. -/
theorem finishSearch_compares {o : List String} (ho : o.Perm start) (q : Nat) :
    Compares start A (finishSearch (withCalls cost) (o, q)) [o]
      fun r calls => r = ⟨o, A o, q, calls.length⟩ :=
  ((evalOrder_compares cost ho).bind (evalOrder_keeps cost ho)
    (fun _ _ => Keeps.get.bind fun _ _ => (Keeps.pure trivial : Keeps cost start _ fun _ => True))
    (Compares.get_pure fun n => (⟨o, A o, q, n⟩ : SiftResult))).mono (List.append_nil _) fun _ _ h => h

/-- The search compares the orders of `Order.searchCompared`, and answers the order its passes
leave, with that order's cost, the number of passes and the number of calls. -/
theorem search_compares (maxPasses : Nat) :
    Compares start A (search start (withCalls cost) maxPasses) (searchCompared A maxPasses start)
      fun r calls => r = ⟨(pass A)^[passesOf A maxPasses start] start,
        A ((pass A)^[passesOf A maxPasses start] start), passesOf A maxPasses start,
        calls.length⟩ := by
  rw [search_eq]
  -- the loop starts before the first pass, with fuel for all of them
  refine ((siftLoop_compares cost maxPasses (factorial start.length + 1) 0 (Nat.zero_le _)
      (fun h => by exact absurd h.symm passesOf_pos.ne')
      (by simpa using passesOf_le_fuel maxPasses)).bind
    (siftLoop_keeps cost maxPasses _ start 0 (List.Perm.refl _))
    (fun _ hr => finishSearch_keeps cost hr)
    (finishSearch_compares cost (iterate_pass_perm _) _)).mono ?_ fun _ _ h => h
  rw [Nat.sub_zero, searchCompared, List.range_eq_range']

end Comparing

/-- Sifting answers what the search with the calls written down answers, from the empty memory
and no calls, and the calls written down by sifting are that search's. -/
theorem sift_eq_search (start : List String) (cost : List String → StateM σ (Except ε Int))
    (maxPasses : Nat) (s : σ) :
    ((sift start cost maxPasses).run s).1 =
        (((search start (withCalls cost) maxPasses).run.run ({}, 0)).run (s, [])).1.1 ∧
      ((sift start (withCalls cost) maxPasses).run (s, [])).2.2 =
        (((search start (withCalls cost) maxPasses).run.run ({}, 0)).run (s, [])).2.2 := by
  obtain ⟨new, h⟩ := sift_withCalls start cost maxPasses s []
  rw [sift_run] at h
  exact ⟨(congrArg (fun p => p.1) h).symm, by rw [sift_run]⟩

/-- What sifting does, with its calls written down: it is the search from the empty memory and no
calls; that run keeps the memory, and under any costs that agree with its calls it compares the
orders of `Order.searchCompared`, answering the order its passes leave, that order's cost, the
number of passes and the number of calls. -/
theorem sift_runs_search (start : List String) (cost : List String → StateM σ (Except ε Int))
    (maxPasses : Nat) (s : σ) :
    ∃ res : (Except (List String × ε) SiftResult × (Std.HashMap String Int × Nat)) ×
        (σ × Calls ε),
      ((sift start cost maxPasses).run s).1 = res.1.1 ∧
      ((sift start (withCalls cost) maxPasses).run (s, [])).2.2 = res.2.2 ∧
      Kept cost start [] (fun _ => True) res ∧
      ∀ A, Agrees start A res.2.2 → Outcome [] (searchCompared A maxPasses start)
        (fun r calls => r = ⟨(pass A)^[passesOf A maxPasses start] start,
          A ((pass A)^[passesOf A maxPasses start] start), passesOf A maxPasses start,
          calls.length⟩) res := by
  obtain ⟨hres, hcalls⟩ := sift_eq_search start cost maxPasses s
  exact ⟨((search start (withCalls cost) maxPasses).run.run ({}, 0)).run (s, []), hres, hcalls,
    search_keeps cost maxPasses ({}, 0) s [] (remembers_empty start),
    fun A hA => search_compares cost maxPasses ({}, 0) s [] (remembers_empty start) hA⟩

end Order

end DecisionDiagrams
