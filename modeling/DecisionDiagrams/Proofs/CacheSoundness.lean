/-
The operation caches never change what an operation answers or builds.

An entry of a cache is a key and a result, tagged with the computation it belongs to: negation
(tag `5`) and the five binary operators (their numbers) share one cache; the restrictions have
the other, tagged with a number for the level and the value. A lookup answers the stored result
when the slot holds the key and the tag, whatever slot the key was sent to.

* `Kernel.CacheSound` — every entry holds the answer that `find`, the recursion that only looks
  nodes up, gives for its key and tag. Fresh caches hold no key at all.
* `cacheSound_tableInvariant`, `negMemo_sound`, `applyMemo_sound`, `restrictMemo_sound` — node
  creation keeps the invariant, and each cache that has it answers only what `find` answers
  and stores only such answers.
* `reachable_cacheSound` — every reachable table is structured and its caches are sound.
* `Kernel.negateUncached`, `Kernel.applyUncached`, `Kernel.restrictUncached` — the three
  operations with caches that never answer and keep nothing.
* `caches_transparent` — on a reachable table each of the three operations answers as the
  operation without caches does on any table that agrees with it but for the caches and the
  counters, and the two leave tables that agree.
-/
import DecisionDiagrams.Proofs.KernelSteps

namespace DecisionDiagrams

namespace Kernel

/-! ### Sound entries -/

/-- The number of a restriction in the restriction cache: odd for `false`, even for `true`. -/
def restrictId (level : Nat) (val : Bool) : Nat :=
  2 * level + 1 + if val then 1 else 0

theorem restrictId_inj {l l' : Nat} {v v' : Bool} (h : restrictId l v = restrictId l' v') :
    l = l' ∧ v = v' := by
  unfold restrictId at h
  cases v <;> cases v' <;> simp only [if_true, if_false, Bool.false_eq_true] at h <;>
    first | exact ⟨by omega, rfl⟩ | omega

theorem Operator.code_lt (op : Operator) : op.code < 5 := by
  cases op <;> decide

theorem Operator.code_inj {op op' : Operator} (h : op.code = op'.code) : op = op' := by
  cases op <;> cases op' <;> first | rfl | cases h

/-- An entry tagged as a negation holds the negation of its key. -/
def NotEntryOk (k : Kernel) (e : CacheEntry) : Prop :=
  ∀ n : Nat, e.a = n → e.c = 5 → n < k.nodes.size ∧ negRec.find k n = some e.res

/-- An entry tagged with an operator holds the operator applied to its two keys. -/
def ApplyEntryOk (k : Kernel) (e : CacheEntry) : Prop :=
  ∀ (op : Operator) (l r : Nat), e.a = l → e.b = r → e.c = op.code →
    l < k.nodes.size ∧ r < k.nodes.size ∧ (applyRec op).find k (l, r) = some e.res

/-- An entry tagged with a restriction holds the restriction of its key. -/
def RestrictEntryOk (k : Kernel) (e : CacheEntry) : Prop :=
  ∀ (level : Nat) (val : Bool) (n : Nat), e.a = n → e.c = restrictId level val →
    n < k.nodes.size ∧ (restrictRec (wrap32 level).toNat val).find k n = some e.res

/-- Every entry of both caches holds the answer for its key and tag. -/
structure CacheSound (k : Kernel) : Prop where
  apply : ∀ e ∈ k.applyCache, NotEntryOk k e ∧ ApplyEntryOk k e
  restrict : ∀ e ∈ k.restrictCache, RestrictEntryOk k e

section Mono

variable {k k' : Kernel} (hs : Structured k) (hext : Extends k k')
include hs hext

theorem NotEntryOk.mono {e : CacheEntry} (h : NotEntryOk k e) : NotEntryOk k' e := by
  intro n ha hc
  obtain ⟨hn, hf⟩ := h n ha hc
  exact ⟨Nat.lt_of_lt_of_le hn hext.size_le, negRec.find_mono hs hext n _ hn hf⟩

theorem ApplyEntryOk.mono {e : CacheEntry} (h : ApplyEntryOk k e) : ApplyEntryOk k' e := by
  intro op l r ha hb hc
  obtain ⟨hl, hr, hf⟩ := h op l r ha hb hc
  exact ⟨Nat.lt_of_lt_of_le hl hext.size_le, Nat.lt_of_lt_of_le hr hext.size_le,
    (applyRec op).find_mono hs hext (l, r) _ ⟨hl, hr⟩ hf⟩

theorem RestrictEntryOk.mono {e : CacheEntry} (h : RestrictEntryOk k e) :
    RestrictEntryOk k' e := by
  intro level val n ha hc
  obtain ⟨hn, hf⟩ := h level val n ha hc
  exact ⟨Nat.lt_of_lt_of_le hn hext.size_le,
    (restrictRec (wrap32 level).toNat val).find_mono hs hext n _ hn hf⟩

/-- Sound caches stay sound as the table grows. -/
theorem CacheSound.mono (hc : CacheSound k) (ha : k'.applyCache = k.applyCache)
    (hr : k'.restrictCache = k.restrictCache) : CacheSound k' where
  apply e he := by
    rw [ha] at he
    exact ⟨(hc.apply e he).1.mono hs hext, (hc.apply e he).2.mono hs hext⟩
  restrict e he := by
    rw [hr] at he
    exact (hc.restrict e he).mono hs hext

end Mono

/-- A fresh slot has no key. -/
theorem empty_entryOk (k : Kernel) :
    NotEntryOk k CacheEntry.empty ∧ ApplyEntryOk k CacheEntry.empty ∧
      RestrictEntryOk k CacheEntry.empty := by
  refine ⟨fun n ha _ => ?_, fun op l r ha _ _ => ?_, fun level val n ha _ => ?_⟩ <;>
    simp only [CacheEntry.empty] at ha <;> omega

/-- Fresh caches are sound. -/
theorem cacheSound_table {k : Kernel} {a r : Nat} (ha : k.applyCache = CacheEntry.table a)
    (hr : k.restrictCache = CacheEntry.table r) : CacheSound k where
  apply e he := by
    rw [ha, CacheEntry.table, Array.mem_replicate] at he
    rw [he.2]
    exact ⟨(empty_entryOk k).1, (empty_entryOk k).2.1⟩
  restrict e he := by
    rw [hr, CacheEntry.table, Array.mem_replicate] at he
    rw [he.2]
    exact (empty_entryOk k).2.2

theorem cacheSound_resetCaches (k : Kernel) : CacheSound k.resetCaches :=
  cacheSound_table rfl rfl

/-- A slot whose key is a node is an entry of the cache. -/
theorem slot_mem {t : Array CacheEntry} {i : Nat} {n : Nat} (h : (slot t i).a = n) :
    slot t i ∈ t := by
  unfold slot at h ⊢
  cases hi : t[i]? with
  | none =>
    rw [hi] at h
    simp only [Option.getD_none, CacheEntry.empty] at h
    omega
  | some e => exact Array.mem_of_getElem? hi

/-! ### The recursions keep the caches sound -/

/-- Node creation leaves the caches as they were, or replaces both by fresh ones. -/
theorem node_caches (level : Nat) (lo hi : Option Nat) (k : Kernel) :
    ((node level lo hi k).2.applyCache = k.applyCache ∧
      (node level lo hi k).2.restrictCache = k.restrictCache) ∨
    ∃ n, (node level lo hi k).2.applyCache = CacheEntry.table n ∧
      (node level lo hi k).2.restrictCache = CacheEntry.table n := by
  rcases lo with _ | a
  · obtain ⟨f, hf⟩ := node_none level none hi k (.inl rfl)
    rw [hf]
    exact .inl ⟨rfl, rfl⟩
  rcases hi with _ | b
  · obtain ⟨f, hf⟩ := node_none level (some a) none k (.inr rfl)
    rw [hf]
    exact .inl ⟨rfl, rfl⟩
  cases hl : k.lookupNode level a b with
  | some v =>
    obtain ⟨f, hf⟩ := node_of_lookupNode hl
    rw [hf]
    exact .inl ⟨rfl, rfl⟩
  | none =>
    obtain ⟨hab, hu⟩ := lookupNode_eq_none hl
    obtain ⟨f, hf⟩ := node_fresh k hab hu
    rw [hf]
    split
    · exact .inl ⟨rfl, rfl⟩
    · -- a new node may grow the caches, which makes fresh ones
      exact growCaches_caches _

/-- Counting, recording faults and node creation keep the caches sound. -/
theorem cacheSound_tableInvariant : TableInvariant CacheSound fun _ _ _ _ => True where
  count _ hc hs := hc.mono hs (.of_eq rfl rfl) rfl rfl
  record _ hc hs := hc.mono hs (.of_eq rfl rfl) rfl rfl
  node level lo hi hc hs _ _ _ := by
    rcases node_caches level lo hi _ with ⟨ha, hr⟩ | ⟨n, ha, hr⟩
    · exact hc.mono hs (node_extends level lo hi _) ha hr
    · exact cacheSound_table ha hr

/-- An entry stored into a slot: what the cache holds afterwards is that entry or an old one. -/
theorem mem_of_mem_store {t : Array CacheEntry} {i : Nat} {e new : CacheEntry}
    (he : e ∈ t.setIfInBounds i new) : e ∈ t ∨ e = new :=
  Array.mem_or_eq_of_mem_setIfInBounds he

theorem negMemo_sound : negMemo.Sound CacheSound where
  read {k n v} hc _ _ h := by
    simp only [negMemo] at h
    split at h
    · rename_i hkey
      cases h
      have hmem := slot_mem hkey.1
      exact ((hc.apply _ hmem).1 n hkey.1 hkey.2).2
    · cases h
  write {k n v} hc hs hn hf _ := by
    -- the new entry is a negation entry; its tag is no operator's number
    have hext : Extends k (negMemo.write n v k) := .of_eq rfl rfl
    refine ⟨fun e he => ?_, fun e he => (hc.restrict e he).mono hs hext⟩
    rcases mem_of_mem_store he with he | rfl
    · exact ⟨(hc.apply e he).1.mono hs hext, (hc.apply e he).2.mono hs hext⟩
    · refine ⟨fun n' ha _ => ?_, fun op l r _ _ hcode => ?_⟩
      · have : n' = n := by
          simp only at ha
          omega
        subst this
        exact ⟨hn, negRec.find_mono hs hext _ _ hn hf⟩
      · have := Operator.code_lt op
        simp only at hcode
        omega

theorem applyMemo_sound (op : Operator) : (applyMemo op).Sound CacheSound where
  read {k x v} hc _ _ h := by
    simp only [applyMemo] at h
    split at h
    · rename_i hkey
      cases h
      have hmem := slot_mem hkey.1
      exact ((hc.apply _ hmem).2 op x.1 x.2 hkey.1 hkey.2.1 hkey.2.2).2.2
    · cases h
  write {k x v} hc hs hx hf _ := by
    -- the new entry is tagged with `op`, which no other operator and no negation shares
    have hext : Extends k ((applyMemo op).write x v k) := .of_eq rfl rfl
    refine ⟨fun e he => ?_, fun e he => (hc.restrict e he).mono hs hext⟩
    rcases mem_of_mem_store he with he | rfl
    · exact ⟨(hc.apply e he).1.mono hs hext, (hc.apply e he).2.mono hs hext⟩
    · refine ⟨fun n _ hcode => ?_, fun op' l r ha hb hcode => ?_⟩
      · have := Operator.code_lt op
        simp only at hcode
        omega
      · have hop : op' = op := Operator.code_inj (by simp only at hcode; omega)
        have hl : l = x.1 := by
          simp only at ha
          omega
        have hr : r = x.2 := by
          simp only at hb
          omega
        subst hop hl hr
        exact ⟨hx.1, hx.2, (applyRec _).find_mono hs hext x _ hx hf⟩

theorem restrictMemo_sound (level : Nat) (val : Bool) :
    (restrictMemo (wrap32 level).toNat val (restrictId level val)).Sound CacheSound where
  read {k n v} hc _ _ h := by
    simp only [restrictMemo] at h
    split at h
    · rename_i hkey
      cases h
      have hmem := slot_mem hkey.1
      exact ((hc.restrict _ hmem) level val n hkey.1 hkey.2).2
    · cases h
  write {k n v} hc hs hn hf _ := by
    -- the tag of the new entry names this level and value only
    have hext : Extends k ((restrictMemo (wrap32 level).toNat val (restrictId level val)).write
      n v k) := .of_eq rfl rfl
    refine ⟨fun e he => ?_, fun e he => ?_⟩
    · exact ⟨(hc.apply e he).1.mono hs hext, (hc.apply e he).2.mono hs hext⟩
    rcases mem_of_mem_store he with he | rfl
    · exact (hc.restrict e he).mono hs hext
    · intro level' val' n' ha hid
      have hn' : n' = n := by
        simp only at ha
        omega
      obtain ⟨rfl, rfl⟩ := restrictId_inj (by simp only at hid; omega : restrictId level val =
        restrictId level' val')
      subst hn'
      exact ⟨hn, (restrictRec _ _).find_mono hs hext _ _ hn hf⟩

/-! ### Every reachable table has sound caches -/

theorem record_cacheSound {k : Kernel} (hs : Structured k) (hc : CacheSound k) (f : Fault) :
    Structured (k.record f) ∧ CacheSound (k.record f) :=
  ⟨hs.of_eq _ rfl rfl rfl, cacheSound_tableInvariant.record f hc hs⟩

theorem setVarnum_cacheSound (num : Int) {k : Kernel} (hs : Structured k) (hc : CacheSound k) :
    Structured ((setVarnum num).run k).2 ∧ CacheSound ((setVarnum num).run k).2 := by
  -- the literals, the number of variables and the terminals' level are no part of an entry
  obtain ⟨hc', hs'⟩ := setVarnum_invariant cacheSound_tableInvariant (fun _ _ _ _ _ => trivial)
    (fun _ hc hs => hc.mono hs (.of_eq rfl rfl) rfl rfl)
    (fun n hc hs => hc.mono hs (extends_setTerminals n _) rfl rfl)
    (fun _ hc hs => hc.mono hs (.of_eq rfl rfl) rfl rfl) num hc hs
  exact ⟨hs', hc'⟩

/-- The tags of a restriction of a natural level, as `restrict` writes them. -/
theorem restrictMemo_sound_of_nonneg (level : Int) (val : Bool) (h : 0 ≤ level) :
    (restrictMemo (wrap32 level).toNat val
      (2 * level.toNat + 1 + if val then 1 else 0)).Sound CacheSound := by
  have hm := restrictMemo_sound level.toNat val
  rwa [Int.toNat_of_nonneg h] at hm

/-- One operation keeps the shape of the table and the soundness of its caches. -/
theorem perform_cacheSound (op : Op) {k : Kernel} (hs : Structured k) (hc : CacheSound k) :
    Structured (perform op k) ∧ CacheSound (perform op k) := by
  rcases perform_cases op k with ⟨fs, h⟩ | ⟨num, rfl⟩ | ⟨n, rfl⟩ | ⟨l, r, o, rfl⟩ |
    ⟨n, level, val, rfl⟩
  · rw [h]
    exact ⟨hs.of_eq _ rfl rfl rfl, hc.mono hs (.of_eq rfl rfl) rfl rfl⟩
  · exact setVarnum_cacheSound num hs hc
  · obtain ⟨hc', hs'⟩ := negate_invariant cacheSound_tableInvariant negMemo_sound
      (negMemo.guarded_true _) n hc hs
    exact ⟨hs', hc'⟩
  · obtain ⟨hc', hs'⟩ := apply_invariant cacheSound_tableInvariant applyMemo_sound
      (fun o => (applyMemo o).guarded_true _) l r o hc hs
    exact ⟨hs', hc'⟩
  · obtain ⟨hc', hs'⟩ := restrict_invariant cacheSound_tableInvariant restrictMemo_sound_of_nonneg
      (fun _ _ _ => (restrictMemo _ _ _).guarded_true _) n level val hc hs
    exact ⟨hs', hc'⟩

theorem create_cacheSound {v : Int} {limits : Limits} {k : Kernel}
    (h : create v limits = .ok k) : Structured k ∧ CacheSound k := by
  have hs₀ : Structured (blank limits).resetCaches := (Structured.blank limits).of_eq _ rfl rfl rfl
  have hk := setVarnum_cacheSound v hs₀ (cacheSound_resetCaches _)
  rwa [create_ok h] at hk

/-- Every reachable table is structured and its caches are sound. -/
theorem reachable_cacheSound {k : Kernel} (h : Reachable k) : Structured k ∧ CacheSound k := by
  induction h with
  | create h => exact create_cacheSound h
  | step op _ ih => exact perform_cacheSound op ih.1 ih.2

/-! ### The operations without caches -/

/-- Negation with a cache that never answers and keeps nothing. -/
def negateUncached (n : Int) : KernelM Int := do
  if !(← checkRef n) then
    modify (record (.wrongOperand .not n))
    return -1
  answer (← modifyGet (negMemo.free.go n.toNat))

/-- A binary operator with a cache that never answers and keeps nothing. -/
def applyUncached (l r op : Int) : KernelM Int := do
  if !(← checkRef l) then
    modify (record (.wrongLeft op l))
    return -1
  if !(← checkRef r) then
    modify (record (.wrongRight op r))
    return -1
  match Operator.ofCode? op with
  | none =>
    modify (record (.unsupportedOperator op))
    return -1
  | some o => answer (← modifyGet ((applyMemo o).free.go (l.toNat, r.toNat)))

/-- Restriction with a cache that never answers and keeps nothing. -/
def restrictUncached (n level : Int) (val : Bool) : KernelM Int := do
  if !(← checkRef n) then
    modify (record (.wrongOperand .restrict n))
    return -1
  if level < 0 ∨ wrap32 level ≥ (← get).varnum then
    modify (record (.unknownVariable level .restrict))
    return -1
  if wrap32 level < 0 then return ← answer (some n.toNat)
  let id := 2 * level.toNat + 1 + (if val then 1 else 0)
  answer (← modifyGet ((restrictMemo (wrap32 level).toNat val id).free.go n.toNat))

theorem negateUncached_run (n : Int) (k : Kernel) : (negateUncached n).run k =
    if n < 0 ∨ n ≥ k.nodes.size then
      (-1, (k.record (.illegalReference n)).record (.wrongOperand .not n))
    else
      let p := negMemo.free.go n.toNat k
      (answer p.1).run p.2 := by
  by_cases hn : n < 0 ∨ n ≥ k.nodes.size
  · rw [if_pos hn, negateUncached, checkRef_bind_of_bad hn]
    rfl
  · rw [if_neg hn, negateUncached, checkRef_bind_of_ok hn]
    rfl

theorem applyUncached_run (l r op : Int) (k : Kernel) : (applyUncached l r op).run k =
    if l < 0 ∨ l ≥ k.nodes.size then
      (-1, (k.record (.illegalReference l)).record (.wrongLeft op l))
    else if r < 0 ∨ r ≥ k.nodes.size then
      (-1, (k.record (.illegalReference r)).record (.wrongRight op r))
    else
      match Operator.ofCode? op with
      | none => (-1, k.record (.unsupportedOperator op))
      | some o =>
        let p := (applyMemo o).free.go (l.toNat, r.toNat) k
        (answer p.1).run p.2 := by
  by_cases hl : l < 0 ∨ l ≥ k.nodes.size
  · rw [if_pos hl, applyUncached, checkRef_bind_of_bad hl]
    rfl
  rw [if_neg hl, applyUncached, checkRef_bind_of_ok hl]
  by_cases hr : r < 0 ∨ r ≥ k.nodes.size
  · rw [if_pos hr]
    simp only [Bool.not_true, Bool.false_eq_true, if_false, checkRef_bind_of_bad hr]
    rfl
  rw [if_neg hr]
  simp only [Bool.not_true, Bool.false_eq_true, if_false, checkRef_bind_of_ok hr]
  cases Operator.ofCode? op <;> rfl

theorem restrictUncached_run (n level : Int) (val : Bool) (k : Kernel) :
    (restrictUncached n level val).run k =
      if n < 0 ∨ n ≥ k.nodes.size then
        (-1, (k.record (.illegalReference n)).record (.wrongOperand .restrict n))
      else if level < 0 ∨ wrap32 level ≥ k.varnum then
        (-1, k.record (.unknownVariable level .restrict))
      else if wrap32 level < 0 then (answer (some n.toNat)).run k
      else
        let p := (restrictMemo (wrap32 level).toNat val
          (2 * level.toNat + 1 + if val then 1 else 0)).free.go n.toNat k
        (answer p.1).run p.2 := by
  by_cases hn : n < 0 ∨ n ≥ k.nodes.size
  · rw [if_pos hn, restrictUncached, checkRef_bind_of_bad hn]
    rfl
  rw [if_neg hn, restrictUncached, checkRef_bind_of_ok hn]
  simp only [Bool.not_true, Bool.false_eq_true, if_false, StateT.run_bind, StateT.run_get,
    pure_bind]
  split
  · rfl
  · split <;> rfl

/-! ### The caches change nothing -/

/-- Two runs that give the same answer and leave tables that agree. -/
def Agree {α : Type} (p q : α × Kernel) : Prop :=
  p.1 = q.1 ∧ SameTable p.2 q.2

/-- The answer depends only on the result and the faults. -/
theorem answer_agree {r r' : Option Nat} {k k' : Kernel} (hr : r = r') (h : SameTable k k') :
    Agree ((answer r).run k) ((answer r').run k') := by
  subst hr
  rw [answer_run, answer_run, h.faults]
  cases r with
  | some n => exact ⟨rfl, h⟩
  | none =>
    dsimp only
    split
    · exact ⟨rfl, h.record _⟩
    · exact ⟨rfl, h⟩

section Transparent

variable {kc kf : Kernel} (hs : Structured kc) (hc : CacheSound kc) (hsame : SameTable kc kf)
include hs hc hsame

theorem negate_transparent (n : Int) : Agree ((negate n).run kc) ((negateUncached n).run kf) := by
  rw [negate_run, negateUncached_run, ← hsame.nodes]
  split
  · exact ⟨rfl, (hsame.record _).record _⟩
  · rw [negateNode_run]
    obtain ⟨h₁, h₂⟩ := negMemo.go_refines cacheSound_tableInvariant negMemo_sound
      (negMemo.guarded_true _) n.toNat kc kf hc hs hsame (show n.toNat < kc.nodes.size by omega)
    exact answer_agree h₁ h₂

theorem apply_transparent (l r op : Int) :
    Agree ((apply l r op).run kc) ((applyUncached l r op).run kf) := by
  rw [apply_run, applyUncached_run, ← hsame.nodes]
  split
  · exact ⟨rfl, (hsame.record _).record _⟩
  split
  · exact ⟨rfl, (hsame.record _).record _⟩
  cases Operator.ofCode? op with
  | none => exact ⟨rfl, hsame.record _⟩
  | some o =>
    dsimp only
    rw [applyNodes_run]
    obtain ⟨h₁, h₂⟩ := (applyMemo o).go_refines cacheSound_tableInvariant (applyMemo_sound o)
      ((applyMemo o).guarded_true _) (l.toNat, r.toNat) kc kf hc hs hsame
      (show l.toNat < kc.nodes.size ∧ r.toNat < kc.nodes.size by omega)
    exact answer_agree h₁ h₂

theorem restrict_transparent (n level : Int) (val : Bool) :
    Agree ((restrict n level val).run kc) ((restrictUncached n level val).run kf) := by
  rw [restrict_run, restrictUncached_run, ← hsame.nodes, ← hsame.varnum]
  split
  · exact ⟨rfl, (hsame.record _).record _⟩
  split
  · exact ⟨rfl, hsame.record _⟩
  split
  · exact answer_agree rfl hsame
  have hm := restrictMemo_sound_of_nonneg level val (by omega)
  dsimp only
  rw [restrictNode_run]
  obtain ⟨h₁, h₂⟩ := (restrictMemo _ _ _).go_refines cacheSound_tableInvariant hm
    ((restrictMemo _ _ _).guarded_true _) n.toNat kc kf hc hs hsame
    (show n.toNat < kc.nodes.size by omega)
  exact answer_agree h₁ h₂

end Transparent

/-- The caches of `kc` are transparent with respect to a table `kf` that agrees with it: they
hold only answers the recursion gives, and negation, the binary operators and restriction each
give the same answer, the same nodes in the same order, the same faults and the same variables
as the same operation without caches run on `kf`. -/
structure CachesTransparent (kc kf : Kernel) : Prop where
  sound : CacheSound kc
  negate : ∀ n, Agree ((negate n).run kc) ((negateUncached n).run kf)
  apply : ∀ l r op, Agree ((apply l r op).run kc) ((applyUncached l r op).run kf)
  restrict : ∀ n level val,
    Agree ((restrict n level val).run kc) ((restrictUncached n level val).run kf)

/-- The operation caches never change a result: on every reachable table they are transparent
with respect to every table that agrees with it but for its caches, their sizes and the
counters. -/
theorem caches_transparent {kc kf : Kernel} (hr : Reachable kc) (hsame : SameTable kc kf) :
    CachesTransparent kc kf := by
  obtain ⟨hs, hc⟩ := reachable_cacheSound hr
  exact ⟨hc, negate_transparent hs hc hsame, apply_transparent hs hc hsame,
    restrict_transparent hs hc hsame⟩

/-- After two variables are declared in a new table, emptying its caches changes no result. -/
theorem caches_transparent_emptied :
    Reachable (perform (.setVarnum 2) ((setVarnum 0).run (blank ⟨0, 3, 0⟩).resetCaches).2) ∧
      SameTable (perform (.setVarnum 2) ((setVarnum 0).run (blank ⟨0, 3, 0⟩).resetCaches).2)
        { perform (.setVarnum 2) ((setVarnum 0).run (blank ⟨0, 3, 0⟩).resetCaches).2 with
          applyCache := #[], restrictCache := #[] } ∧
      CachesTransparent
        (perform (.setVarnum 2) ((setVarnum 0).run (blank ⟨0, 3, 0⟩).resetCaches).2)
        { perform (.setVarnum 2) ((setVarnum 0).run (blank ⟨0, 3, 0⟩).resetCaches).2 with
          applyCache := #[], restrictCache := #[] } := by
  have hr : Reachable
      (perform (.setVarnum 2) ((setVarnum 0).run (blank ⟨0, 3, 0⟩).resetCaches).2) :=
    .step _ (.create (show create 0 ⟨0, 3, 0⟩ =
      .ok ((setVarnum 0).run (blank ⟨0, 3, 0⟩).resetCaches).2 from rfl))
  have hsame : SameTable
      (perform (.setVarnum 2) ((setVarnum 0).run (blank ⟨0, 3, 0⟩).resetCaches).2)
      { perform (.setVarnum 2) ((setVarnum 0).run (blank ⟨0, 3, 0⟩).resetCaches).2 with
        applyCache := #[], restrictCache := #[] } :=
    ⟨rfl, rfl, rfl, rfl, rfl, rfl, rfl⟩
  exact ⟨hr, hsame, caches_transparent hr hsame⟩

end Kernel

end DecisionDiagrams
