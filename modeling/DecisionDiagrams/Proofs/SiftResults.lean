/-
What sifting answers, and how often it calls its cost function.

Sifting is the search of `Order.passesOf` passes under the costs its calls answered
(`Order.sift_runs_search`). From that:

* `Order.sift_terminates` — with a cost function that never fails and no limit on the passes,
  sifting answers, after at most as many passes as the start order has distinct permutations,
  an order that a further pass would leave as it is; the orders it makes current, from the start
  order through each adopted swap, cost strictly less each time under the remembered costs, so
  none is current twice.
* `Order.sift_finds_local_minimum` — with a cost function that answers fixed costs, on a start
  order whose names hold no NUL, sifting answers a cheaper permutation of the start order with
  its cost, and an order no exchange of neighbours makes cheaper when the last pass adopted
  nothing; a failed call of the cost function ends sifting with that failure. Automatic
  ordering by sifting costs no more than the frequency order (`Diagram.autoOrder_within_frequency`).
* `Order.sift_calls_each_order_once` — on a start order whose names hold no NUL, the cost
  function is called once for each order the run compares, in the order they are first
  compared, and the count of evaluations is the number of calls.

Names that hold NUL break the last two. The memory keys an order by its names joined with NUL,
so two orders can share a key, and sifting then takes the cost of one for the other without a
call (`Order.sift_shares_key`).
-/
import DecisionDiagrams.Proofs.AutoOrders

namespace DecisionDiagrams

namespace Order

variable {σ ε : Type}

/-- Sifting with a cost function that never fails and no limit on the passes answers. Under the
costs its calls answered, it makes the passes of `Order.pass` from the start order, at most as
many as the start order has distinct permutations, and ends on an order that a further pass
leaves as it is. The orders it makes current, from the start order through each adopted swap,
cost strictly less each time, so none is current twice. -/
theorem sift_terminates (start : List String) (cost : List String → StateM σ (Except ε Int))
    (hc : ∀ o s, ∃ c, ((cost o).run s).1 = .ok c) (s : σ) :
    ∃ r, ((sift start cost 0).run s).1 = .ok r ∧ r.passes ≤ start.permutations.toFinset.card ∧
      ∃ calls, ((sift start (withCalls cost) 0).run (s, [])).2.2 = calls ∧
        r.order = (pass (loggedCost calls))^[r.passes] start ∧
        pass (loggedCost calls) r.order = r.order ∧
        r.order ∈ currentOrders (loggedCost calls) start r.passes ∧
        (currentOrders (loggedCost calls) start r.passes).Pairwise
          fun a b => loggedCost calls b < loggedCost calls a := by
  obtain ⟨⟨⟨res, t⟩, s', calls⟩, hres, hcalls, K, O⟩ := sift_runs_search start cost 0 s
  obtain ⟨r, hr⟩ := K.answers (fun _ h => by cases h) fun o s' _ => hc o s'
  -- the remembered costs agree with the calls, whose keys are distinct
  have hA : Agrees start (loggedCost calls) calls := agrees_loggedCost K.nodup
  obtain ⟨rfl, -⟩ := (O _ hA).ok r hr
  -- without a limit the search stops on a pass that adopts no swap
  have hlast : (pass (loggedCost calls))^[passesOf (loggedCost calls) 0 start] start =
      (pass (loggedCost calls))^[passesOf (loggedCost calls) 0 start - 1] start :=
    iterate_passesOf fun h => absurd h.1 (Nat.lt_irrefl 0)
  exact ⟨_, hres.trans hr, passesOf_le_card, calls, hcalls, rfl,
    pass_iterate_eq passesOf_pos hlast, (iterate_mem_currentOrders _).1,
    pairwise_currentOrders _⟩

/-- Costs of orders of `a` and `b` that favour `a b`. -/
def sortingCost (o : List String) : StateM Unit (Except String Int) :=
  pure (.ok (if o = ["a", "b"] then 0 else 1))

/-- Sifting two names, with the order `a b` the only cheap one. -/
theorem sift_terminates_of_two :
    (∀ o s, ∃ c, ((sortingCost o).run s).1 = .ok c) ∧
    ∃ r, ((sift ["b", "a"] sortingCost 0).run ()).1 = .ok r ∧
      r.passes ≤ (["b", "a"] : List String).permutations.toFinset.card ∧
      ∃ calls, ((sift ["b", "a"] (withCalls sortingCost) 0).run ((), [])).2.2 = calls ∧
        r.order = (pass (loggedCost calls))^[r.passes] ["b", "a"] ∧
        pass (loggedCost calls) r.order = r.order ∧
        r.order ∈ currentOrders (loggedCost calls) ["b", "a"] r.passes ∧
        (currentOrders (loggedCost calls) ["b", "a"] r.passes).Pairwise
          fun a b => loggedCost calls b < loggedCost calls a :=
  ⟨fun _ _ => ⟨_, rfl⟩, sift_terminates ["b", "a"] _ (fun _ _ => ⟨_, rfl⟩) ()⟩

/-- Sifting a start order whose names hold no NUL, with a cost function that answers fixed costs
`G`: it answers a permutation of the start order with its cost, no more than the start order's,
after at least one pass and at most the passes allowed; when the last pass adopted no swap,
which it always does without a limit, no exchange of two neighbours makes the order cheaper.
With any cost function, a call that fails ends sifting with a failure that holds the order and
the cost function's failure. Automatic ordering by sifting, on a diagram made from a text without
a node limit, answers and installs a permutation of the variables whose cost, the size of its
build, is no more than the measure of the frequency order. -/
theorem sift_finds_local_minimum (start : List String) (hnul : ∀ x ∈ start, '\x00' ∉ x.toList)
    (cost : List String → StateM σ (Except ε Int)) (maxPasses : Nat) (s : σ) :
    (∀ G : List String → Int, (∀ o s', ((cost o).run s').1 = .ok (G o)) →
      ∃ r, ((sift start cost maxPasses).run s).1 = .ok r ∧ r.order.Perm start ∧
        r.cost = G r.order ∧ r.cost ≤ G start ∧ 1 ≤ r.passes ∧
        (0 < maxPasses → r.passes ≤ maxPasses) ∧
        (maxPasses = 0 ∨ (pass G)^[r.passes - 1] start = r.order →
          ∀ i, i + 1 < r.order.length → r.cost ≤ G (swapAt r.order i))) ∧
    (∀ p ∈ ((sift start (withCalls cost) maxPasses).run (s, [])).2.2, ∀ e, p.2 = .error e →
      ((sift start cost maxPasses).run s).1 = .error (p.1, e)) ∧
    ∀ (text : String) (limits : Limits) (order : Option (List String)) (d : Diagram),
      limits.maxNodes = 0 → Diagram.create text limits order = .ok d → ∀ k : Kind,
        ∃ r n, ((Diagram.autoOrder k "ls" maxPasses).run d).1 = .ok r ∧
          ((Diagram.measure k (frequency d.formula d.vars)).run d).1 = .ok n ∧ r.cost ≤ n ∧
          r.order.Perm d.vars ∧ ((Diagram.autoOrder k "ls" maxPasses).run d).2.order = r.order ∧
          r.cost = Int.ofNat (Diagram.size ((Diagram.autoOrder k "ls" maxPasses).run d).2 k) := by
  refine ⟨fun G hG => sift_fixed_costs start hnul cost maxPasses s G fun o s' _ => hG o s',
    fun p hp e he => ?_,
    fun _ _ _ _ hlim h k => Diagram.autoOrder_within_frequency hlim h k maxPasses⟩
  obtain ⟨res, hres, hcalls, K, -⟩ := sift_runs_search start cost maxPasses s
  rw [hcalls] at hp
  rw [hres]
  exact K.error_of_call hp he

/-- Sifting `b a` with the order `a b` the only cheap one, and no limit on the passes. -/
theorem sift_finds_local_minimum_of_two :
    (∀ x ∈ ["b", "a"], '\x00' ∉ x.toList) ∧
    (∀ G : List String → Int, (∀ o s', ((sortingCost o).run s').1 = .ok (G o)) →
      ∃ r, ((sift ["b", "a"] sortingCost 0).run ()).1 = .ok r ∧ r.order.Perm ["b", "a"] ∧
        r.cost = G r.order ∧ r.cost ≤ G ["b", "a"] ∧ 1 ≤ r.passes ∧
        (0 < 0 → r.passes ≤ 0) ∧
        (0 = 0 ∨ (pass G)^[r.passes - 1] ["b", "a"] = r.order →
          ∀ i, i + 1 < r.order.length → r.cost ≤ G (swapAt r.order i))) ∧
    (∀ p ∈ ((sift ["b", "a"] (withCalls sortingCost) 0).run ((), [])).2.2,
      ∀ e, p.2 = .error e →
        ((sift ["b", "a"] sortingCost 0).run ()).1 = .error (p.1, e)) ∧
    ∀ (text : String) (limits : Limits) (order : Option (List String)) (d : Diagram),
      limits.maxNodes = 0 → Diagram.create text limits order = .ok d → ∀ k : Kind,
        ∃ r n, ((Diagram.autoOrder k "ls" 0).run d).1 = .ok r ∧
          ((Diagram.measure k (frequency d.formula d.vars)).run d).1 = .ok n ∧ r.cost ≤ n ∧
          r.order.Perm d.vars ∧ ((Diagram.autoOrder k "ls" 0).run d).2.order = r.order ∧
          r.cost = Int.ofNat (Diagram.size ((Diagram.autoOrder k "ls" 0).run d).2 k) := by
  have hnul : ∀ x ∈ ["b", "a"], '\x00' ∉ x.toList := by decide
  exact ⟨hnul, sift_finds_local_minimum ["b", "a"] hnul _ 0 ()⟩

/-- Costs of the orders of `a` and `a\x00a`: `5` for the start order, `3` for the other. -/
def sharedKeyCost (o : List String) : StateM Unit (Except String Int) :=
  pure (.ok (if o = ["a", "a\x00a"] then 5 else 3))

/-- The two orders of `a` and `a\x00a` share their key. -/
theorem memoKey_shared : memoKey ["a\x00a", "a"] = memoKey ["a", "a\x00a"] := by decide

/-- The search for `a` and `a\x00a`: its one comparison calls the cost function for the start
order, then answers the other order from memory under the shared key, and the pass adopts
nothing. -/
theorem search_shared_key :
    ((search ["a", "a\x00a"] (withCalls sharedKeyCost) 0).run.run ({}, 0)).run ((), []) =
      ((.ok ⟨["a", "a\x00a"], 5, 1, 1⟩,
        (({} : Std.HashMap String Int).insert (memoKey ["a", "a\x00a"]) 5, 0 + 1)),
        ((), [(["a", "a\x00a"], .ok 5)])) := by
  -- the memory after the one call, on the start order
  have hmiss : ({} : Std.HashMap String Int)[memoKey ["a", "a\x00a"]]? = none :=
    Std.HashMap.getElem?_empty
  have hhit : (({} : Std.HashMap String Int).insert (memoKey ["a", "a\x00a"]) 5)[
      memoKey ["a", "a\x00a"]]? = some 5 := Std.HashMap.getElem?_insert_self
  -- the other order shares the key, so it is answered from memory
  have hhit' : (({} : Std.HashMap String Int).insert (memoKey ["a", "a\x00a"]) 5)[
      memoKey ["a\x00a", "a"]]? = some 5 := by
    rw [memoKey_shared]
    exact hhit
  have hcall : ((evalOrder (withCalls sharedKeyCost) ["a", "a\x00a"]).run.run ({}, 0)).run
      ((), []) = ((.ok 5, (({} : Std.HashMap String Int).insert (memoKey ["a", "a\x00a"]) 5,
        0 + 1)), ((), [(["a", "a\x00a"], .ok 5)])) :=
    evalOrder_run_of_ok _ 0 hmiss rfl
  have hstep : ((compareStep (withCalls sharedKeyCost) (["a", "a\x00a"], false) 0).run.run
      ({}, 0)).run ((), []) = ((.ok (["a", "a\x00a"], false),
        (({} : Std.HashMap String Int).insert (memoKey ["a", "a\x00a"]) 5, 0 + 1)),
        ((), [(["a", "a\x00a"], .ok 5)])) := by
    rw [compareStep, siftM_run_bind_ok hcall,
      show swapAt ["a", "a\x00a"] 0 = ["a\x00a", "a"] from rfl,
      siftM_run_bind_ok (evalOrder_run_of_mem _ _ hhit'), siftM_run_pure]
    rfl
  have hloop : ((siftLoop (withCalls sharedKeyCost) 0 (factorial ["a", "a\x00a"].length + 1)
      ["a", "a\x00a"] 0).run.run ({}, 0)).run ((), []) = ((.ok (["a", "a\x00a"], 1),
        (({} : Std.HashMap String Int).insert (memoKey ["a", "a\x00a"]) 5, 0 + 1)),
        ((), [(["a", "a\x00a"], .ok 5)])) := by
    rw [siftLoop_succ, if_neg (by decide), siftPass_eq,
      show List.range (["a", "a\x00a"].length - 1) = [0] from rfl, List.foldlM_cons,
      siftM_run_bind_ok (siftM_run_bind_ok hstep), continueLoop, if_neg (by decide),
      siftM_run_pure]
  have hfinish : ((finishSearch (withCalls sharedKeyCost) (["a", "a\x00a"], 1)).run.run
      (({} : Std.HashMap String Int).insert (memoKey ["a", "a\x00a"]) 5, 0 + 1)).run
      ((), [(["a", "a\x00a"], .ok 5)]) = ((.ok ⟨["a", "a\x00a"], 5, 1, 1⟩,
        (({} : Std.HashMap String Int).insert (memoKey ["a", "a\x00a"]) 5, 0 + 1)),
        ((), [(["a", "a\x00a"], .ok 5)])) := by
    rw [finishSearch, siftM_run_bind_ok (evalOrder_run_of_mem _ _ hhit),
      siftM_run_bind_ok (siftM_run_get _ _), siftM_run_pure]
  rw [search_eq, siftM_run_bind_ok hloop, hfinish]

/-- Sifting `a` and `a\x00a` without a limit misses the cheaper order: the other order shares
the start order's key and is taken to cost what the start order costs. Sifting answers the start
order at cost `5` after one pass that adopted nothing, though exchanging its two names gives an
order of cost `3`. -/
theorem sift_shares_key :
    ((sift ["a", "a\x00a"] sharedKeyCost 0).run ()).1 = .ok ⟨["a", "a\x00a"], 5, 1, 1⟩ ∧
      ((sharedKeyCost (swapAt ["a", "a\x00a"] 0)).run ()).1 = .ok 3 := by
  refine ⟨?_, rfl⟩
  rw [(sift_eq_search _ _ _ _).1, search_shared_key]

/-- On a start order whose names hold no NUL, the cost function is called once for each order
sifting compares, under the costs its calls answered: in the order they are first compared, and
never twice for one order. When sifting answers, its count of evaluations is the number of
calls; when it fails, the calls were those of a first part of the orders compared. -/
theorem sift_calls_each_order_once (start : List String) (hnul : ∀ x ∈ start, '\x00' ∉ x.toList)
    (cost : List String → StateM σ (Except ε Int)) (maxPasses : Nat) (s : σ) :
    ∃ calls, ((sift start (withCalls cost) maxPasses).run (s, [])).2.2 = calls ∧
      (calls.map Prod.fst).Nodup ∧
      (∀ r, ((sift start cost maxPasses).run s).1 = .ok r →
        calls.map Prod.fst = (searchCompared (loggedCost calls) maxPasses start).eraseDups ∧
        r.evaluations = calls.length) ∧
      ∀ f, ((sift start cost maxPasses).run s).1 = .error f →
        calls.map Prod.fst <+: (searchCompared (loggedCost calls) maxPasses start).eraseDups := by
  obtain ⟨⟨⟨res, t⟩, s', calls⟩, hres, hcalls, K, O⟩ := sift_runs_search start cost maxPasses s
  have hnodup : (Calls.keys calls).Nodup := K.nodup
  have O' := O _ (agrees_loggedCost hnodup : Agrees start (loggedCost calls) calls)
  -- the orders called and the orders compared are permutations of the start order, which
  -- their keys tell apart
  have hcalled : ∀ o ∈ calls.map Prod.fst, o.Perm start := fun o ho => by
    obtain ⟨p, hp, rfl⟩ := List.mem_map.1 ho
    rcases K.new p hp with hin | hnew
    · cases hin
    · exact hnew.1
  have hcompared : ∀ o ∈ (searchCompared (loggedCost calls) maxPasses start).eraseDups,
      o.Perm start := fun o ho => perm_of_mem_searchCompared (List.mem_eraseDups.1 ho)
  have hkeys : Calls.keys calls = (calls.map Prod.fst).map memoKey := by
    rw [Calls.keys, List.map_map]
    rfl
  have hmap : ((searchCompared (loggedCost calls) maxPasses start).map memoKey).eraseDups =
      (searchCompared (loggedCost calls) maxPasses start).eraseDups.map memoKey :=
    eraseDups_map fun x hx y hy =>
      memoKey_inj_of_perm hnul (perm_of_mem_searchCompared hx) (perm_of_mem_searchCompared hy)
  refine ⟨calls, hcalls, ?_, fun r hr => ?_, fun f hf => ?_⟩
  · rw [hkeys] at hnodup
    exact hnodup.of_map memoKey
  · rw [hres] at hr
    obtain ⟨rfl, hk⟩ := O'.ok r hr
    refine ⟨map_memoKey_inj hnul hcalled hcompared ?_, rfl⟩
    rw [Calls.keys_nil, List.nil_append, hmap] at hk
    rw [← hkeys, hk]
  · rw [hres] at hf
    have hk := O'.error f hf
    -- the keys called are a first part of the keys compared, so the orders are too
    rw [Calls.keys_nil, List.nil_append, hmap, hkeys, List.prefix_iff_eq_take,
      List.length_map, ← List.map_take] at hk
    rw [List.prefix_iff_eq_take]
    exact map_memoKey_inj hnul hcalled (fun o ho => hcompared o (List.mem_of_mem_take ho)) hk

/-- Sifting `b a` with the order `a b` the only cheap one, and no limit on the passes. -/
theorem sift_calls_each_order_once_of_two :
    (∀ x ∈ ["b", "a"], '\x00' ∉ x.toList) ∧
    ∃ calls, ((sift ["b", "a"] (withCalls sortingCost) 0).run ((), [])).2.2 = calls ∧
      (calls.map Prod.fst).Nodup ∧
      (∀ r, ((sift ["b", "a"] sortingCost 0).run ()).1 = .ok r →
        calls.map Prod.fst = (searchCompared (loggedCost calls) 0 ["b", "a"]).eraseDups ∧
        r.evaluations = calls.length) ∧
      ∀ f, ((sift ["b", "a"] sortingCost 0).run ()).1 = .error f →
        calls.map Prod.fst <+: (searchCompared (loggedCost calls) 0 ["b", "a"]).eraseDups := by
  have hnul : ∀ x ∈ ["b", "a"], '\x00' ∉ x.toList := by decide
  exact ⟨hnul, sift_calls_each_order_once ["b", "a"] hnul _ 0 ()⟩

/-- Sifting `a` and `a\x00a` calls the cost function once, for the start order, though it
compares the other order as well: the two share their key. -/
theorem sift_skips_shared_key :
    ((sift ["a", "a\x00a"] (withCalls sharedKeyCost) 0).run ((), [])).2.2 =
        [(["a", "a\x00a"], .ok 5)] ∧
      ["a\x00a", "a"] ∈ searchCompared (loggedCost ([(["a", "a\x00a"], .ok 5)] : Calls String)) 0
        ["a", "a\x00a"] := by
  refine ⟨by rw [(sift_eq_search _ _ _ _).2, search_shared_key], ?_⟩
  -- the first pass compares the start order and its exchange
  have hP : 0 < passesOf (loggedCost ([(["a", "a\x00a"], .ok 5)] : Calls String)) 0
      ["a", "a\x00a"] :=
    passesOf_pos
  simp only [searchCompared, List.mem_append, List.mem_flatMap, List.mem_range]
  exact .inl ⟨0, hP, List.mem_cons_of_mem _ List.mem_cons_self⟩

end Order

end DecisionDiagrams
