/-
The memory of a sifting run.

Sifting asks the cost function for the cost of an order only when the order's key, its names
joined by NUL, has not been asked before: the run's memory maps the keys asked to their costs,
and its counter counts the calls. To speak of the calls themselves, `Order.withCalls` writes
each call down, with its order and its answer, beside the caller's state. Writing the calls down
changes nothing that sifting computes (`Order.sift_withCalls`).

* `Order.Remembers` — the memory and the counter hold exactly the answered calls, at most one
  for each key, all of them on permutations of the start order.
* `Order.evalOrder_remembers` — an evaluation calls the cost function only for a key not asked
  yet, keeps the invariant when it answers, and answers the cost of the call under its key.
* `Order.Agrees` — costs that agree with the answers of the calls; `Order.loggedCost`, the
  answers themselves, agree with them.
* `Order.memoKey_inj` — orders of one length whose names hold no NUL have distinct keys.
* `Order.Simulates`, `Order.search_simulates` — two cost functions that answer alike from
  related caller states make searches that answer alike and leave related states.
-/
import Mathlib
import DecisionDiagrams.Proofs.StateEffects
import DecisionDiagrams.Proofs.ManualOrder

namespace DecisionDiagrams

namespace Order

variable {σ ε α β : Type}

/-! ### Running the sifter over a state -/

/-- The key under which sifting remembers the cost of an order. -/
def memoKey (o : List String) : String := "\x00".intercalate o

theorem siftM_run_pure (a : α) (t : Std.HashMap String Int × Nat) (s : σ) :
    (((pure a : SiftM (StateM σ) ε α).run.run t).run s) = ((.ok a, t), s) := rfl

theorem siftM_run_get (t : Std.HashMap String Int × Nat) (s : σ) :
    (((get : SiftM (StateM σ) ε (Std.HashMap String Int × Nat)).run.run t).run s) =
      ((.ok t, t), s) := rfl

theorem siftM_run_lift (x : StateM σ β) (t : Std.HashMap String Int × Nat) (s : σ) :
    (((liftM (liftM x : StateT (Std.HashMap String Int × Nat) (StateM σ) β) :
      SiftM (StateM σ) ε β).run.run t).run s) = ((.ok (x.run s).1, t), (x.run s).2) := rfl

theorem siftM_run_bind_ok {x : SiftM (StateM σ) ε α} {f : α → SiftM (StateM σ) ε β}
    {t t' : Std.HashMap String Int × Nat} {s s' : σ} {a : α}
    (h : (x.run.run t).run s = ((.ok a, t'), s')) :
    ((x >>= f).run.run t).run s = ((f a).run.run t').run s' := by
  rw [siftM_run_bind, h]

theorem siftM_run_bind_error {x : SiftM (StateM σ) ε α} {f : α → SiftM (StateM σ) ε β}
    {t t' : Std.HashMap String Int × Nat} {s s' : σ} {e : List String × ε}
    (h : (x.run.run t).run s = ((.error e, t'), s')) :
    ((x >>= f).run.run t).run s = ((.error e, t'), s') := by
  rw [siftM_run_bind, h]

section Evaluation

variable (cost : List String → StateM σ (Except ε Int)) {o : List String}
  {memo : Std.HashMap String Int} (n : Nat) {s s' : σ}

/-- An order whose key is remembered is answered from memory. -/
theorem evalOrder_run_of_mem {c : Int} (h : memo[memoKey o]? = some c) :
    ((evalOrder cost o).run.run (memo, n)).run s = ((.ok c, (memo, n)), s) := by
  unfold evalOrder
  rw [siftM_run_bind_ok (siftM_run_get _ _)]
  simp only [memoKey] at h
  simp only [h]
  rfl

/-- An order whose key is new is asked of the cost function; an answer is remembered and
counted. -/
theorem evalOrder_run_of_ok {c : Int} (h : memo[memoKey o]? = none)
    (hc : (cost o).run s = (.ok c, s')) :
    ((evalOrder cost o).run.run (memo, n)).run s =
      ((.ok c, (memo.insert (memoKey o) c, n + 1)), s') := by
  unfold evalOrder
  rw [siftM_run_bind_ok (siftM_run_get _ _)]
  simp only [memoKey] at h
  simp only [h]
  rw [siftM_run_bind_ok (by rw [siftM_run_lift, hc])]
  rfl

/-- A failure of the cost function ends the evaluation with the order and the failure, and
nothing is remembered. -/
theorem evalOrder_run_of_error {e : ε} (h : memo[memoKey o]? = none)
    (hc : (cost o).run s = (.error e, s')) :
    ((evalOrder cost o).run.run (memo, n)).run s = ((.error (o, e), (memo, n)), s') := by
  unfold evalOrder
  rw [siftM_run_bind_ok (siftM_run_get _ _)]
  simp only [memoKey] at h
  simp only [h]
  rw [siftM_run_bind_ok (by rw [siftM_run_lift, hc])]
  rfl

end Evaluation

/-! ### The calls of a cost function -/

/-- The calls made so far, each with its order and its answer. -/
abbrev Calls (ε : Type) := List (List String × Except ε Int)

/-- The keys of the orders called, in the order of the calls. -/
def Calls.keys (calls : Calls ε) : List String :=
  calls.map fun p => memoKey p.1

@[simp] theorem Calls.keys_nil : Calls.keys ([] : Calls ε) = [] := rfl

@[simp] theorem Calls.keys_append (calls calls' : Calls ε) :
    Calls.keys (calls ++ calls') = Calls.keys calls ++ Calls.keys calls' :=
  List.map_append

@[simp] theorem Calls.keys_singleton (o : List String) (r : Except ε Int) :
    Calls.keys [(o, r)] = [memoKey o] := rfl

/-- A cost function that also writes each of its calls down, with the order and the answer,
beside the caller's state. -/
def withCalls (cost : List String → StateM σ (Except ε Int)) (o : List String) :
    StateM (σ × Calls ε) (Except ε Int) :=
  fun p => (((cost o).run p.1).1, ((cost o).run p.1).2, p.2 ++ [(o, ((cost o).run p.1).1)])

theorem withCalls_run (cost : List String → StateM σ (Except ε Int)) (o : List String) (s : σ)
    (calls : Calls ε) :
    (withCalls cost o).run (s, calls) =
      (((cost o).run s).1, ((cost o).run s).2, calls ++ [(o, ((cost o).run s).1)]) := rfl

/-! ### What the memory holds -/

/-- The memory `t` of a run holds the calls made so far, all of them answered: one call for each
key remembered, with the answer as the key's cost, and a counter of the calls. Every order called
is a permutation of the start order. -/
structure Remembers (start : List String) (t : Std.HashMap String Int × Nat) (calls : Calls ε) :
    Prop where
  perm : ∀ p ∈ calls, p.1.Perm start
  answered : ∀ p ∈ calls, ∃ c, p.2 = .ok c
  nodup : (Calls.keys calls).Nodup
  count : t.2 = calls.length
  mem : ∀ k, k ∈ t.1 ↔ k ∈ Calls.keys calls
  cost : ∀ p ∈ calls, ∀ c, p.2 = .ok c → t.1[memoKey p.1]? = some c

theorem remembers_empty (start : List String) :
    Remembers start (({} : Std.HashMap String Int), 0) ([] : Calls ε) where
  perm := by simp
  answered := by simp
  nodup := by simp
  count := rfl
  mem := by simp
  cost := by simp

/-- A remembered key is the key of a call, whose answer is the remembered cost. -/
theorem Remembers.call_of_mem {start : List String} {t : Std.HashMap String Int × Nat}
    {calls : Calls ε} (hR : Remembers start t calls) {k : String} {c : Int}
    (h : t.1[k]? = some c) : ∃ p ∈ calls, memoKey p.1 = k ∧ p.2 = .ok c := by
  have hk : k ∈ Calls.keys calls :=
    (hR.mem k).1 (Std.HashMap.mem_iff_isSome_getElem?.2 (by simp [h]))
  obtain ⟨p, hp, rfl⟩ := List.mem_map.1 hk
  obtain ⟨c', hc'⟩ := hR.answered p hp
  rw [hR.cost p hp c' hc', Option.some.injEq] at h
  exact ⟨p, hp, rfl, h ▸ hc'⟩

/-- Remembering the answer of a call under a new key. -/
theorem Remembers.insert {start o : List String} {memo : Std.HashMap String Int} {n : Nat}
    {calls : Calls ε} (hR : Remembers start (memo, n) calls) (ho : o.Perm start)
    (hk : memoKey o ∉ Calls.keys calls) (c : Int) :
    Remembers start (memo.insert (memoKey o) c, n + 1) (calls ++ [(o, .ok c)]) where
  perm p hp := by
    rcases List.mem_append.1 hp with hp | hp
    · exact hR.perm p hp
    · rw [List.mem_singleton.1 hp]
      exact ho
  answered p hp := by
    rcases List.mem_append.1 hp with hp | hp
    · exact hR.answered p hp
    · exact ⟨c, by rw [List.mem_singleton.1 hp]⟩
  nodup := by
    rw [Calls.keys_append, Calls.keys_singleton]
    exact hR.nodup.append (List.nodup_singleton _)
      (List.disjoint_singleton.2 hk)
  count := by simpa using hR.count
  mem k := by
    rw [Std.HashMap.mem_insert, hR.mem k, Calls.keys_append, Calls.keys_singleton]
    simp only [beq_iff_eq, List.mem_append, List.mem_singleton]
    rw [or_comm, eq_comm]
  cost p hp c' hc' := by
    rcases List.mem_append.1 hp with hp | hp
    · have hne : memoKey o ≠ memoKey p.1 := fun h => hk (h ▸ List.mem_map_of_mem hp)
      rw [Std.HashMap.getElem?_insert, if_neg (by simpa using hne)]
      exact hR.cost p hp c' hc'
    · rw [List.mem_singleton.1 hp] at hc' ⊢
      cases hc'
      simp

/-- Erasing repetitions after a list without any: an element already there adds nothing, a new
one comes last. -/
theorem eraseDups_append_singleton {l : List String} (h : l.Nodup) (k : String) :
    (l ++ [k]).eraseDups = if k ∈ l then l else l ++ [k] := by
  rw [List.eraseDups_append, eraseDups_eq_self l h]
  by_cases hk : k ∈ l <;> simp [List.removeAll, hk, List.eraseDups_cons]

/-- An evaluation of a permutation of the start order calls the cost function only for a key not
asked yet, and then once: the keys called become those of before with the order's key after
them, without repetition. When it answers, the memory remembers the calls, and the answer is that of a call
under the order's key; when it fails, the failure is the cost function's on this order, and the
failing call, on a key not asked before, is the last one. -/
theorem evalOrder_remembers (cost : List String → StateM σ (Except ε Int))
    {start o : List String} {t t' : Std.HashMap String Int × Nat} {s s' : σ}
    {calls calls' : Calls ε} {r : Except (List String × ε) Int}
    (hR : Remembers start t calls) (ho : o.Perm start)
    (h : ((evalOrder (withCalls cost) o).run.run t).run (s, calls) = ((r, t'), (s', calls'))) :
    Calls.keys calls' = (Calls.keys calls ++ [memoKey o]).eraseDups ∧
      (calls' = calls ∨ calls' = calls ++ [(o, ((cost o).run s).1)]) ∧
      (∀ c, r = .ok c →
        Remembers start t' calls' ∧ ∃ p ∈ calls', memoKey p.1 = memoKey o ∧ p.2 = .ok c) ∧
      (∀ f, r = .error f → f.1 = o ∧ ((cost o).run s).1 = .error f.2 ∧
        memoKey o ∉ Calls.keys calls ∧ calls' = calls ++ [(o, .error f.2)]) := by
  obtain ⟨memo, n⟩ := t
  cases hm : memo[memoKey o]? with
  | some c =>
    -- answered from memory: nothing is called
    rw [evalOrder_run_of_mem _ _ hm] at h
    cases h
    have hk : memoKey o ∈ Calls.keys calls :=
      (hR.mem _).1 (Std.HashMap.mem_iff_isSome_getElem?.2 (by simp [hm]))
    refine ⟨by rw [eraseDups_append_singleton hR.nodup, if_pos hk], .inl rfl,
      fun c' hc' => ?_, fun f hf => (by cases hf)⟩
    cases hc'
    exact ⟨hR, hR.call_of_mem hm⟩
  | none =>
    have hk : memoKey o ∉ Calls.keys calls := fun hk => by
      have := Std.HashMap.mem_iff_isSome_getElem?.1 ((hR.mem _).2 hk)
      simp [hm] at this
    have hkeys : (Calls.keys calls ++ [memoKey o]).eraseDups = Calls.keys calls ++ [memoKey o] := by
      rw [eraseDups_append_singleton hR.nodup, if_neg hk]
    rcases hc : (cost o).run s with ⟨r₀, s₀⟩
    cases r₀ with
    | ok c =>
      rw [evalOrder_run_of_ok _ _ hm (by rw [withCalls_run, hc])] at h
      cases h
      refine ⟨by simp [hkeys], .inr rfl, fun c' hc' => ?_, fun f hf => (by cases hf)⟩
      cases hc'
      exact ⟨hR.insert ho hk c, (o, .ok c), by simp, rfl, rfl⟩
    | error e =>
      rw [evalOrder_run_of_error _ _ hm (by rw [withCalls_run, hc])] at h
      cases h
      refine ⟨by simp [hkeys], .inr rfl, fun c' hc' => (by cases hc'), fun f hf => ?_⟩
      cases hf
      exact ⟨rfl, rfl, hk, rfl⟩

/-! ### Costs that agree with the calls -/

/-- Costs `A` agree with the answers of the calls: a permutation of the start order with the key
of an answered call costs that call's answer. -/
def Agrees (start : List String) (A : List String → Int) (calls : Calls ε) : Prop :=
  ∀ p ∈ calls, ∀ c, p.2 = .ok c → ∀ o, o.Perm start → memoKey o = memoKey p.1 → A o = c

theorem Agrees.of_prefix {start : List String} {A : List String → Int} {calls calls' : Calls ε}
    (h : Agrees start A calls') (hp : calls <+: calls') : Agrees start A calls :=
  fun p hp' => h p (hp.subset hp')

/-- The cost of an order as the calls answered it: the answer of the first call under the
order's key, and `0` when there is none. -/
def loggedCost (calls : Calls ε) (o : List String) : Int :=
  ((calls.find? fun p => memoKey p.1 == memoKey o).bind fun p => p.2.toOption).getD 0

/-- When no key was called twice, the answers agree with the calls. -/
theorem agrees_loggedCost {start : List String} {calls : Calls ε}
    (h : (Calls.keys calls).Nodup) : Agrees start (loggedCost calls) calls := by
  intro p hp c hc o _ hk
  have hsome : (calls.find? fun q => memoKey q.1 == memoKey o).isSome :=
    List.find?_isSome.2 ⟨p, hp, by simp [hk]⟩
  obtain ⟨q, hq⟩ := Option.isSome_iff_exists.1 hsome
  have hqk : memoKey q.1 = memoKey o := by simpa using List.find?_some hq
  -- the keys are distinct, so the first call under the key is `p`
  have hqp : q = p := List.inj_on_of_nodup_map h (List.mem_of_find?_eq_some hq) hp (hqk.trans hk)
  simp only [loggedCost, hq, hqp, hc, Option.bind_some]
  rfl

/-- Orders of one length whose names hold no NUL have distinct keys. -/
theorem memoKey_inj {o₁ o₂ : List String} (h₁ : ∀ x ∈ o₁, '\x00' ∉ x.toList)
    (h₂ : ∀ x ∈ o₂, '\x00' ∉ x.toList) (hl : o₁.length = o₂.length)
    (h : memoKey o₁ = memoKey o₂) : o₁ = o₂ := by
  by_cases he : o₁ = []
  · subst he
    exact (List.length_eq_zero_iff.1 hl.symm).symm
  · have he₂ : o₂ ≠ [] := fun h => he (List.length_eq_zero_iff.1 (by rw [hl, h]; rfl))
    -- splitting the key at its NULs gives the names back
    have k₁ := String.toList_split_intercalate h₁
    have k₂ := String.toList_split_intercalate h₂
    rw [if_neg he] at k₁
    rw [if_neg he₂] at k₂
    rw [← k₁, ← k₂]
    exact congrArg (fun k => (k.split '\x00').toList.map (·.copy)) h

/-- On the permutations of a start order whose names hold no NUL, keys are distinct. -/
theorem memoKey_inj_of_perm {start o₁ o₂ : List String} (hnul : ∀ x ∈ start, '\x00' ∉ x.toList)
    (h₁ : o₁.Perm start) (h₂ : o₂.Perm start) (h : memoKey o₁ = memoKey o₂) : o₁ = o₂ :=
  memoKey_inj (fun x hx => hnul x (h₁.subset hx)) (fun x hx => hnul x (h₂.subset hx))
    (h₁.length_eq.trans h₂.length_eq.symm) h

/-- Lists of permutations of a start order whose names hold no NUL are told apart by their
keys. -/
theorem map_memoKey_inj {start : List String} (hnul : ∀ x ∈ start, '\x00' ∉ x.toList)
    {l₁ l₂ : List (List String)} (h₁ : ∀ o ∈ l₁, o.Perm start) (h₂ : ∀ o ∈ l₂, o.Perm start)
    (h : l₁.map memoKey = l₂.map memoKey) : l₁ = l₂ := by
  induction l₁ generalizing l₂ with
  | nil =>
    cases l₂ with
    | nil => rfl
    | cons => cases h
  | cons o₁ l₁ ih =>
    cases l₂ with
    | nil => cases h
    | cons o₂ l₂ =>
      rw [List.map_cons, List.map_cons, List.cons.injEq] at h
      rw [memoKey_inj_of_perm hnul (h₁ o₁ List.mem_cons_self) (h₂ o₂ List.mem_cons_self) h.1,
        ih (fun o ho => h₁ o (List.mem_cons_of_mem _ ho))
          (fun o ho => h₂ o (List.mem_cons_of_mem _ ho)) h.2]

/-! ### Sifting over related states -/

section Simulation

variable {σ' : Type} (R : σ' → σ → Prop)

/-- A computation of the sifter over states `σ'` does what one over states `σ` does, from states
related by `R`: the same answer and memory, and related states. -/
def Simulates (x : SiftM (StateM σ') ε α) (y : SiftM (StateM σ) ε α) : Prop :=
  ∀ t s' s, R s' s → ((x.run.run t).run s').1 = ((y.run.run t).run s).1 ∧
    R ((x.run.run t).run s').2 ((y.run.run t).run s).2

variable {R}

theorem Simulates.pure (a : α) :
    Simulates R (Pure.pure a : SiftM (StateM σ') ε α) (Pure.pure a) :=
  fun _ _ _ h => ⟨rfl, h⟩

theorem Simulates.get :
    Simulates R (get : SiftM (StateM σ') ε (Std.HashMap String Int × Nat)) get :=
  fun _ _ _ h => ⟨rfl, h⟩

theorem Simulates.bind {x : SiftM (StateM σ') ε α} {y : SiftM (StateM σ) ε α}
    {f : α → SiftM (StateM σ') ε β} {g : α → SiftM (StateM σ) ε β}
    (hxy : Simulates R x y) (hfg : ∀ a, Simulates R (f a) (g a)) :
    Simulates R (x >>= f) (y >>= g) := by
  intro t s' s hR
  obtain ⟨hres, hR'⟩ := hxy t s' s hR
  rcases hx : (x.run.run t).run s' with ⟨⟨r, t'⟩, u'⟩
  rcases hy : (y.run.run t).run s with ⟨⟨r₂, t₂⟩, u⟩
  rw [hx, hy] at hres hR'
  obtain ⟨rfl, rfl⟩ := Prod.mk.inj hres
  cases r with
  | ok a => rw [siftM_run_bind_ok hx, siftM_run_bind_ok hy]; exact hfg a t' u' u hR'
  | error e => rw [siftM_run_bind_error hx, siftM_run_bind_error hy]; exact ⟨rfl, hR'⟩

variable {cost' : List String → StateM σ' (Except ε Int)} {cost : List String → StateM σ (Except ε Int)}
  (hcost : ∀ o s' s, R s' s → ((cost' o).run s').1 = ((cost o).run s).1 ∧
    R ((cost' o).run s').2 ((cost o).run s).2)
include hcost

/-- Two cost functions that answer alike from related states evaluate alike: a remembered order
is answered from memory, a new one by both cost functions with one answer. -/
theorem evalOrder_simulates (o : List String) : Simulates R (evalOrder cost' o) (evalOrder cost o) := by
  rintro ⟨memo, n⟩ s' s hR
  cases hm : memo[memoKey o]? with
  | some c =>
    rw [evalOrder_run_of_mem _ _ hm, evalOrder_run_of_mem _ _ hm]
    exact ⟨rfl, hR⟩
  | none =>
    obtain ⟨hans, hR'⟩ := hcost o s' s hR
    rcases hc' : (cost' o).run s' with ⟨r, u'⟩
    rcases hc : (cost o).run s with ⟨r₂, u⟩
    rw [hc', hc] at hans hR'
    obtain rfl : r = r₂ := hans
    cases r with
    | ok c =>
      rw [evalOrder_run_of_ok _ _ hm hc', evalOrder_run_of_ok _ _ hm hc]
      exact ⟨rfl, hR'⟩
    | error e =>
      rw [evalOrder_run_of_error _ _ hm hc', evalOrder_run_of_error _ _ hm hc]
      exact ⟨rfl, hR'⟩

omit hcost in
theorem foldlM_simulates {γ δ : Type} {f : δ → γ → SiftM (StateM σ') ε δ}
    {g : δ → γ → SiftM (StateM σ) ε δ} (h : ∀ d a, Simulates R (f d a) (g d a)) :
    ∀ (l : List γ) (init : δ), Simulates R (l.foldlM f init) (l.foldlM g init)
  | [], init => Simulates.pure init
  | a :: l, init => by
    rw [List.foldlM_cons, List.foldlM_cons]
    exact (h init a).bind fun d => foldlM_simulates h l d

theorem siftPass_simulates (cur : List String) :
    Simulates R (siftPass cost' cur) (siftPass cost cur) := by
  unfold siftPass
  refine foldlM_simulates (fun d i => ?_) _ _
  obtain ⟨cur, improved⟩ := d
  exact (evalOrder_simulates hcost cur).bind fun _ =>
    (evalOrder_simulates hcost _).bind fun _ => Simulates.pure _

theorem siftLoop_simulates (maxPasses : Nat) :
    ∀ fuel cur passes,
      Simulates R (siftLoop cost' maxPasses fuel cur passes) (siftLoop cost maxPasses fuel cur passes)
  | 0, _, _ => Simulates.pure _
  | fuel + 1, cur, passes => by
    rw [siftLoop, siftLoop]
    split
    · exact Simulates.pure _
    · refine (siftPass_simulates hcost cur).bind fun r => ?_
      obtain ⟨next, improved⟩ := r
      dsimp only
      split
      · exact siftLoop_simulates maxPasses fuel next (passes + 1)
      · exact Simulates.pure _

end Simulation

/-- The search that sifting runs from an empty memory: the passes, then the cost of the order
they leave. -/
def search {m : Type → Type} [Monad m] (start : List String) (cost : List String → m (Except ε Int))
    (maxPasses : Nat) : SiftM m ε SiftResult := do
  let r ← siftLoop cost maxPasses (factorial start.length + 1) start 0
  let c ← evalOrder cost r.1
  let t ← get
  pure ⟨r.1, c, r.2, t.2⟩

theorem sift_run (start : List String) (cost : List String → StateM σ (Except ε Int))
    (maxPasses : Nat) (s : σ) :
    (sift start cost maxPasses).run s =
      ((((search start cost maxPasses).run.run ({}, 0)).run s).1.1,
        (((search start cost maxPasses).run.run ({}, 0)).run s).2) := rfl

theorem search_simulates {σ' : Type} {R : σ' → σ → Prop}
    {cost' : List String → StateM σ' (Except ε Int)} {cost : List String → StateM σ (Except ε Int)}
    (hcost : ∀ o s' s, R s' s → ((cost' o).run s').1 = ((cost o).run s).1 ∧
      R ((cost' o).run s').2 ((cost o).run s).2) (start : List String) (maxPasses : Nat) :
    Simulates R (search start cost' maxPasses) (search start cost maxPasses) :=
  (siftLoop_simulates hcost maxPasses _ start 0).bind fun r =>
    (evalOrder_simulates hcost r.1).bind fun _ => Simulates.get.bind fun _ => Simulates.pure _

/-- Writing the calls down changes nothing that sifting computes: the answer and the caller's
state are those of sifting with the cost function alone, and the calls are added to those
written down. -/
theorem sift_withCalls (start : List String) (cost : List String → StateM σ (Except ε Int))
    (maxPasses : Nat) (s : σ) (calls : Calls ε) :
    ∃ new, (sift start (withCalls cost) maxPasses).run (s, calls) =
      (((sift start cost maxPasses).run s).1, ((sift start cost maxPasses).run s).2, calls ++ new) := by
  -- the caller's state is the first part, and the calls only grow
  have hcost : ∀ o (p : σ × Calls ε) s, (p.1 = s ∧ calls <+: p.2) →
      ((withCalls cost o).run p).1 = ((cost o).run s).1 ∧
        (((withCalls cost o).run p).2.1 = ((cost o).run s).2 ∧ calls <+: ((withCalls cost o).run p).2.2) := by
    rintro o ⟨s', l⟩ s ⟨rfl, hl⟩
    exact ⟨rfl, rfl, hl.trans (List.prefix_append _ _)⟩
  obtain ⟨hres, hs, ⟨new, hnew⟩⟩ := search_simulates hcost start maxPasses ({}, 0) (s, calls) s
    ⟨rfl, List.prefix_refl _⟩
  rw [sift_run, sift_run]
  refine ⟨new, Prod.ext ?_ (Prod.ext hs hnew.symm)⟩
  exact (congrArg Prod.fst hres :)

end Order

end DecisionDiagrams
