/-
Negation, the binary operators and restriction are one memoised recursion.

Each of them answers some arguments at once (a terminal, equal operands, a node above the
restricted level) and builds the others from two smaller arguments with `Kernel.node`, after a
cache lookup and before a cache store. `Kernel.Recursion` is that shape, with the laws each
operation meets; `Kernel.Memo` adds the cache. The caches only save work:

* `Memo.go` — the recursion as a function of the table; `negateNode_run`, `applyNodes_run` and
  `restrictNode_run` show that the operations of the model are its three instances.
* `Recursion.find` — the answer of the recursion when the table already holds every node it
  needs. `Memo.free` is the recursion whose cache never answers and never keeps anything.
* `Memo.go_invariant` — a run keeps the shape of the table, only adds to it, and afterwards its
  answer is found without building: `find` gives it.
* `Memo.free_go_of_find` — on an argument that `find` answers, the run without cache builds
  nothing and gives that answer.
* `Memo.go_refines` — when every answer the cache holds is the one `find` gives, the run with
  the cache and the run without it answer the same and leave the same table.
-/
import DecisionDiagrams.Proofs.KernelTable

namespace DecisionDiagrams

namespace Kernel

@[simp] theorem count_entry (k : Kernel) (f : Counters → Counters) (n : Nat) :
    (k.count f).entry n = k.entry n := rfl
@[simp] theorem count_level (k : Kernel) (f : Counters → Counters) (n : Nat) :
    (k.count f).level n = k.level n := rfl
@[simp] theorem count_lowOf (k : Kernel) (f : Counters → Counters) (n : Nat) :
    (k.count f).lowOf n = k.lowOf n := rfl
@[simp] theorem count_highOf (k : Kernel) (f : Counters → Counters) (n : Nat) :
    (k.count f).highOf n = k.highOf n := rfl

/-- The shape of a recursion over the node table. `base` answers the arguments that need no
recursion; for the others, `split` gives the level of the node to build and the arguments of its
two children. `inRange` says which arguments name nodes of a table; the laws say that the
recursion reads only nodes of the table and descends to smaller arguments. -/
structure Recursion (κ : Type) where
  base : Kernel → κ → Option Nat
  split : Kernel → κ → Nat × κ × κ
  measure : κ → Nat
  split_lt : ∀ k x, base k x = none →
    measure (split k x).2.1 < measure x ∧ measure (split k x).2.2 < measure x
  inRange : Kernel → κ → Prop
  inRange_mono : ∀ {k k' : Kernel} (x : κ), Extends k k' → inRange k x → inRange k' x
  base_stable : ∀ {k k' : Kernel} (x : κ), Extends k k' → inRange k x → base k' x = base k x
  split_stable : ∀ {k k' : Kernel} (x : κ), Extends k k' → inRange k x → base k x = none →
    split k' x = split k x
  base_lt : ∀ {k : Kernel} (x : κ) (v : Nat), Structured k → inRange k x → base k x = some v →
    v < k.nodes.size
  split_inRange : ∀ {k : Kernel} (x : κ), Structured k → inRange k x → base k x = none →
    inRange k (split k x).2.1 ∧ inRange k (split k x).2.2

/-- A recursion with its cache: `read` is the cached answer, `write` stores one, and `fault` is
recorded when no node could be built. Storing changes the caches only. -/
structure Memo (κ : Type) extends Recursion κ where
  read : κ → Kernel → Option Nat
  write : κ → Nat → Kernel → Kernel
  fault : κ → Fault
  write_eq : ∀ x v k, ∃ a r, write x v k = { k with applyCache := a, restrictCache := r }

namespace Recursion

variable {κ : Type} (R : Recursion κ)

/-- The answer of the recursion when the table holds every node it needs: the children's
answers are found first, then the node of their triple is looked up. -/
def find (k : Kernel) (x : κ) : Option Nat :=
  match h : R.base k x with
  | some v => some v
  | none =>
    have := R.split_lt k x h
    match find k (R.split k x).2.1, find k (R.split k x).2.2 with
    | some a, some b => k.lookupNode (R.split k x).1 a b
    | _, _ => none
termination_by R.measure x

theorem find_base {k : Kernel} {x : κ} {v : Nat} (h : R.base k x = some v) :
    R.find k x = some v := by
  rw [find]
  split <;> simp_all

/-- A found answer that needs recursion: both children are found and their triple is known. -/
theorem find_split {k : Kernel} {x : κ} {v : Nat} (h : R.base k x = none)
    (hv : R.find k x = some v) :
    ∃ a b, R.find k (R.split k x).2.1 = some a ∧ R.find k (R.split k x).2.2 = some b ∧
      k.lookupNode (R.split k x).1 a b = some v := by
  rw [find] at hv
  split at hv
  · simp_all
  · split at hv
    · exact ⟨_, _, ‹_›, ‹_›, hv⟩
    · cases hv

theorem find_of_split {k : Kernel} {x : κ} {a b v : Nat} (h : R.base k x = none)
    (ha : R.find k (R.split k x).2.1 = some a) (hb : R.find k (R.split k x).2.2 = some b)
    (hv : k.lookupNode (R.split k x).1 a b = some v) : R.find k x = some v := by
  rw [find]
  split
  · simp_all
  · rw [ha, hb]
    exact hv

/-- Found answers stay found as the table grows. -/
theorem find_mono {k k' : Kernel} (hs : Structured k) (hext : Extends k k') :
    ∀ (x : κ) (v : Nat), R.inRange k x → R.find k x = some v → R.find k' x = some v := by
  intro x
  induction h : R.measure x using Nat.strongRecOn generalizing x with
  | ind n ih =>
  intro v hx hv
  cases hb : R.base k x with
  | some w =>
    rw [R.find_base hb] at hv
    rw [R.find_base ((R.base_stable x hext hx).trans hb), hv]
  | none =>
    obtain ⟨a, b, ha, hb', hab⟩ := R.find_split hb hv
    have hlt := R.split_lt k x hb
    have hr := R.split_inRange x hs hx hb
    have hsplit := R.split_stable x hext hx hb
    -- the children are found in the larger table by induction, and their triple is still known
    have ha' : R.find k' (R.split k' x).2.1 = some a := by
      rw [hsplit]
      exact ih _ (h ▸ hlt.1) _ rfl a hr.1 ha
    have hb'' : R.find k' (R.split k' x).2.2 = some b := by
      rw [hsplit]
      exact ih _ (h ▸ hlt.2) _ rfl b hr.2 hb'
    have hab' : k'.lookupNode (R.split k' x).1 a b = some v := by
      rw [hsplit]
      exact hext.lookupNode hab
    exact R.find_of_split ((R.base_stable x hext hx).trans hb) ha' hb'' hab'

/-- Found answers are nodes of the table. -/
theorem find_lt {k : Kernel} (hs : Structured k) :
    ∀ (x : κ) (v : Nat), R.inRange k x → R.find k x = some v → v < k.nodes.size := by
  intro x
  induction h : R.measure x using Nat.strongRecOn generalizing x with
  | ind n ih =>
  intro v hx hv
  cases hb : R.base k x with
  | some w =>
    rw [R.find_base hb] at hv
    cases hv
    exact R.base_lt x _ hs hx hb
  | none =>
    obtain ⟨a, b, ha, _, hab⟩ := R.find_split hb hv
    have hlt := R.split_lt k x hb
    have hr := R.split_inRange x hs hx hb
    rcases lookupNode_eq_some.1 hab with ⟨-, rfl⟩ | ⟨-, hu⟩
    · exact ih _ (h ▸ hlt.1) _ rfl _ hr.1 ha
    · exact ((hs.unique _ _).1 hu).2.1

end Recursion

namespace Memo

variable {κ : Type} (m : Memo κ)

/-- The cache lookup, which counts a hit or a miss. -/
def lookup (x : κ) (k : Kernel) : Option Nat × Kernel :=
  match m.read x k with
  | some v => (some v, k.count fun c => { c with opHit := c.opHit + 1 })
  | none => (none, k.count fun c => { c with opMiss := c.opMiss + 1 })

/-- The cache store of an answer; no answer records the fault instead. -/
def store (x : κ) : Option Nat → Kernel → Option Nat × Kernel
  | none, k => (none, k.record (m.fault x))
  | some v, k => (some v, m.write x v k)

/-- The memoised recursion: a base answer, else the cached one, else the node built from the
answers for the two children, which is then stored. -/
def go (x : κ) (k : Kernel) : Option Nat × Kernel :=
  match h : m.base k x with
  | some v => (some v, k)
  | none =>
    have := m.split_lt k x h
    match m.lookup x k with
    | (some v, k₁) => (some v, k₁)
    | (none, k₁) =>
      let s := m.split k x
      let p := go s.2.1 k₁
      let q := go s.2.2 p.2
      let r := node s.1 p.1 q.1 q.2
      m.store x r.1 r.2
termination_by m.measure x

/-- The same recursion with a cache that never answers and never keeps anything. -/
def free : Memo κ :=
  { m with read := fun _ _ => none, write := fun _ _ k => k,
           write_eq := fun _ _ k => ⟨k.applyCache, k.restrictCache, rfl⟩ }

theorem go_base {x : κ} {k : Kernel} {v : Nat} (h : m.base k x = some v) :
    m.go x k = (some v, k) := by
  rw [go]
  split <;> simp_all

theorem go_split {x : κ} {k : Kernel} (h : m.base k x = none) : m.go x k =
    match m.lookup x k with
    | (some v, k₁) => (some v, k₁)
    | (none, k₁) =>
      let s := m.split k x
      let p := m.go s.2.1 k₁
      let q := m.go s.2.2 p.2
      let r := node s.1 p.1 q.1 q.2
      m.store x r.1 r.2 := by
  rw [go]
  split
  · simp_all
  · rfl

theorem lookup_hit {x : κ} {k : Kernel} {v : Nat} (h : m.read x k = some v) :
    m.lookup x k = (some v, k.count fun c => { c with opHit := c.opHit + 1 }) := by
  simp [lookup, h]

theorem lookup_miss {x : κ} {k : Kernel} (h : m.read x k = none) :
    m.lookup x k = (none, k.count fun c => { c with opMiss := c.opMiss + 1 }) := by
  simp [lookup, h]

theorem write_sameTable (x : κ) (v : Nat) (k : Kernel) : SameTable (m.write x v k) k := by
  obtain ⟨a, r, h⟩ := m.write_eq x v k
  rw [h]
  exact ⟨rfl, rfl, rfl, rfl, rfl, rfl, rfl⟩

@[simp] theorem free_toRecursion : m.free.toRecursion = m.toRecursion := rfl
@[simp] theorem free_read (x : κ) (k : Kernel) : m.free.read x k = none := rfl
@[simp] theorem free_write (x : κ) (v : Nat) (k : Kernel) : m.free.write x v k = k := rfl
@[simp] theorem free_fault (x : κ) : m.free.fault x = m.fault x := rfl

/-- A node creation answers a node only when both children are nodes. -/
theorem node_some {level : Nat} {lo hi : Option Nat} {k : Kernel} {v : Nat}
    (h : (node level lo hi k).1 = some v) : ∃ a b, lo = some a ∧ hi = some b := by
  rcases lo with _ | a
  · obtain ⟨f, hf⟩ := node_none level none hi k (.inl rfl)
    rw [hf] at h
    cases h
  rcases hi with _ | b
  · obtain ⟨f, hf⟩ := node_none level (some a) none k (.inr rfl)
    rw [hf] at h
    cases h
  exact ⟨a, b, rfl, rfl⟩

end Memo

/-- A property of tables that counting, recording a fault and creating a node from nodes of the
table keep; node creation only when the level and the two children meet the guard `G`. -/
structure TableInvariant (I : Kernel → Prop) (G : Kernel → Nat → Nat → Nat → Prop) : Prop where
  count : ∀ {k : Kernel} (f : Counters → Counters), I k → Structured k → I (k.count f)
  record : ∀ {k : Kernel} (f : Fault), I k → Structured k → I (k.record f)
  node : ∀ {k : Kernel} (level : Nat) (lo hi : Option Nat), I k → Structured k →
    (∀ a, lo = some a → a < k.nodes.size) → (∀ b, hi = some b → b < k.nodes.size) →
    (∀ a b, lo = some a → hi = some b → G k level a b) → I (node level lo hi k).2

/-- The nodes a recursion asks for meet the guard `G` on tables with `I`: a split asks for the
node of its level over the answers found for its two children. -/
def Recursion.Guarded {κ : Type} (R : Recursion κ) (I : Kernel → Prop)
    (G : Kernel → Nat → Nat → Nat → Prop) : Prop :=
  ∀ {k : Kernel} {x : κ} {a b : Nat}, I k → Structured k → R.inRange k x → R.base k x = none →
    R.find k (R.split k x).2.1 = some a → R.find k (R.split k x).2.2 = some b →
    G k (R.split k x).1 a b

theorem Recursion.guarded_true {κ : Type} (R : Recursion κ) (I : Kernel → Prop) :
    R.Guarded I fun _ _ _ _ => True :=
  fun _ _ _ _ _ _ => trivial

/-- A cache that keeps `I` and answers only what `find` answers. -/
structure Memo.Sound {κ : Type} (m : Memo κ) (I : Kernel → Prop) : Prop where
  read : ∀ {k : Kernel} {x : κ} {v : Nat}, I k → Structured k → m.inRange k x →
    m.read x k = some v → m.find k x = some v
  write : ∀ {k : Kernel} {x : κ} {v : Nat}, I k → Structured k → m.inRange k x →
    m.find k x = some v → v < k.nodes.size → I (m.write x v k)

namespace Memo

variable {κ : Type} (m : Memo κ)

/-- The cache that never answers is sound for every invariant. -/
theorem free_sound (I : Kernel → Prop) : m.free.Sound I where
  read _ _ _ h := by simp at h
  write h _ _ _ _ := by simpa using h

/-- A run keeps the invariant and the shape of the table and only adds to it; its answer is a
node that is afterwards found without building. -/
theorem go_invariant {I : Kernel → Prop} {G : Kernel → Nat → Nat → Nat → Prop}
    (hI : TableInvariant I G) (hm : m.Sound I) (hg : m.Guarded I G) :
    ∀ (x : κ) (k : Kernel), I k → Structured k → m.inRange k x →
      I (m.go x k).2 ∧ Structured (m.go x k).2 ∧ Extends k (m.go x k).2 ∧
        ∀ v, (m.go x k).1 = some v →
          m.find (m.go x k).2 x = some v ∧ v < (m.go x k).2.nodes.size := by
  intro x
  induction h : m.measure x using Nat.strongRecOn generalizing x with
  | ind n ih =>
  intro k hIk hs hx
  cases hb : m.base k x with
  | some w =>
    rw [m.go_base hb]
    refine ⟨hIk, hs, .refl k, ?_⟩
    rintro v hv
    cases hv
    exact ⟨m.find_base hb, m.base_lt x _ hs hx hb⟩
  | none =>
  rw [m.go_split hb]
  have hlt := m.split_lt k x hb
  have hr := m.split_inRange x hs hx hb
  cases hread : m.read x k with
  | some w =>
    -- a cache hit: nothing but a counter changes, and the cached answer is found
    rw [m.lookup_hit hread]
    simp only
    have hext : Extends k (k.count fun c => { c with opHit := c.opHit + 1 }) :=
      .of_sameTable (SameTable.count k _).symm
    refine ⟨hI.count _ hIk hs, hs.of_sameTable (SameTable.count k _).symm, hext, ?_⟩
    rintro v hv
    cases hv
    have hf := hm.read hIk hs hx hread
    exact ⟨m.find_mono hs hext x _ hx hf, m.find_lt hs x _ hx hf⟩
  | none =>
  rw [m.lookup_miss hread]
  simp only
  -- the two children, then the node of their triple, then the store
  generalize hk₁ : (k.count fun c => { c with opMiss := c.opMiss + 1 }) = k₁
  have hsame₁ : SameTable k₁ k := hk₁ ▸ SameTable.count k _
  have hext₁ : Extends k k₁ := .of_sameTable hsame₁.symm
  obtain ⟨hIp, hsp, hextp, hvp⟩ := ih _ (h ▸ hlt.1) (m.split k x).2.1 rfl k₁
    (hk₁ ▸ hI.count _ hIk hs) (hs.of_sameTable hsame₁.symm) (m.inRange_mono _ hext₁ hr.1)
  generalize hp : m.go (m.split k x).2.1 k₁ = p at hIp hsp hextp hvp
  obtain ⟨hIq, hsq, hextq, hvq⟩ := ih _ (h ▸ hlt.2) (m.split k x).2.2 rfl p.2 hIp hsp
    (m.inRange_mono _ (hext₁.trans hextp) hr.2)
  generalize hq : m.go (m.split k x).2.2 p.2 = q at hIq hsq hextq hvq
  have hlo : ∀ a, p.1 = some a → a < q.2.nodes.size := fun a ha =>
    Nat.lt_of_lt_of_le (hvp a ha).2 hextq.size_le
  have hhi : ∀ b, q.1 = some b → b < q.2.nodes.size := fun b hb' => (hvq b hb').2
  have hextq' : Extends k q.2 := (hext₁.trans hextp).trans hextq
  have hsplitq : m.split q.2 x = m.split k x := m.split_stable x hextq' hx hb
  -- the node is asked for over the answers of the two children, so it meets the guard
  have hguard : ∀ a b, p.1 = some a → q.1 = some b → G q.2 (m.split k x).1 a b := by
    intro a b ha hb'
    have hfa : m.find q.2 (m.split q.2 x).2.1 = some a := by
      rw [hsplitq]
      exact m.find_mono hsp hextq _ _ (m.inRange_mono _ (hext₁.trans hextp) hr.1) (hvp a ha).1
    have hfb : m.find q.2 (m.split q.2 x).2.2 = some b := by
      rw [hsplitq]
      exact (hvq b hb').1
    have := hg hIq hsq (m.inRange_mono _ hextq' hx) ((m.base_stable x hextq' hx).trans hb) hfa hfb
    rwa [hsplitq] at this
  have hIr := hI.node (m.split k x).1 p.1 q.1 hIq hsq hlo hhi hguard
  have hsr := node_structured hsq (m.split k x).1 hlo hhi
  have hextr := node_extends (m.split k x).1 p.1 q.1 q.2
  have hext : Extends k (node (m.split k x).1 p.1 q.1 q.2).2 :=
    ((hext₁.trans hextp).trans hextq).trans hextr
  generalize hr' : node (m.split k x).1 p.1 q.1 q.2 = r at hIr hsr hextr hext
  -- what the node creation answers is found in the table it leaves
  have hsplit : m.split r.2 x = m.split k x := m.split_stable x hext hx hb
  have hfound : ∀ v, r.1 = some v → m.find r.2 x = some v ∧ v < r.2.nodes.size := by
    intro v hv
    obtain ⟨a, b, ha, hb'⟩ := node_some (hr' ▸ hv)
    rw [ha, hb'] at hr'
    obtain ⟨hnode, hlt'⟩ := lookupNode_node hsq (hlo a ha) (hr' ▸ hv)
    rw [hr'] at hnode hlt'
    have hfa : m.find r.2 (m.split r.2 x).2.1 = some a := by
      rw [hsplit]
      exact m.find_mono hsp (hextq.trans hextr) _ _
        (m.inRange_mono _ (hext₁.trans hextp) hr.1) (hvp a ha).1
    have hfb : m.find r.2 (m.split r.2 x).2.2 = some b := by
      rw [hsplit]
      exact m.find_mono hsq hextr _ _
        (m.inRange_mono _ ((hext₁.trans hextp).trans hextq) hr.2) (hvq b hb').1
    have hn : r.2.lookupNode (m.split r.2 x).1 a b = some v := by
      rw [hsplit]
      exact hnode
    exact ⟨m.find_of_split ((m.base_stable x hext hx).trans hb) hfa hfb hn, hlt'⟩
  rcases r with ⟨_ | v, k₄⟩
  · simp only [store]
    refine ⟨hI.record _ hIr hsr, hsr.of_eq _ rfl rfl rfl, hext.trans (.of_eq rfl rfl), ?_⟩
    rintro v hv
    cases hv
  · simp only [store]
    obtain ⟨hfv, hvlt⟩ := hfound v rfl
    have hsame := m.write_sameTable x v k₄
    refine ⟨hm.write hIr hsr (m.inRange_mono _ hext hx) hfv hvlt, hsr.of_sameTable hsame.symm,
      hext.trans (.of_sameTable hsame.symm), ?_⟩
    rintro w hw
    cases hw
    exact ⟨m.find_mono hsr (.of_sameTable hsame.symm) x _ (m.inRange_mono _ hext hx) hfv,
      by rw [hsame.nodes]; exact hvlt⟩

/-- Without a cache, an argument that `find` answers is answered so, and nothing is built. -/
theorem free_go_of_find : ∀ (x : κ) (k : Kernel) (v : Nat), Structured k → m.inRange k x →
    m.find k x = some v → (m.free.go x k).1 = some v ∧ SameTable (m.free.go x k).2 k := by
  intro x
  induction h : m.measure x using Nat.strongRecOn generalizing x with
  | ind n ih =>
  intro k v hs hx hv
  cases hb : m.base k x with
  | some w =>
    rw [m.find_base hb] at hv
    cases hv
    rw [m.free.go_base hb]
    exact ⟨rfl, .refl k⟩
  | none =>
  obtain ⟨a, b, ha, hb', hab⟩ := m.find_split hb hv
  have hlt := m.split_lt k x hb
  have hr := m.split_inRange x hs hx hb
  rw [m.free.go_split hb, m.free.lookup_miss (m.free_read x k)]
  simp only [free_toRecursion]
  -- both children are found in tables that differ from `k` only in counters
  generalize hk₁ : (k.count fun c => { c with opMiss := c.opMiss + 1 }) = k₁
  have hsame₁ : SameTable k₁ k := hk₁ ▸ SameTable.count k _
  obtain ⟨hpa, hsamep⟩ := ih _ (h ▸ hlt.1) (m.split k x).2.1 rfl k₁ a
    (hs.of_sameTable hsame₁.symm) (m.inRange_mono _ (.of_sameTable hsame₁.symm) hr.1)
    (m.find_mono hs (.of_sameTable hsame₁.symm) _ _ hr.1 ha)
  generalize m.free.go (m.split k x).2.1 k₁ = p at hpa hsamep
  have hsamep' : SameTable p.2 k := hsamep.trans hsame₁
  obtain ⟨hqb, hsameq⟩ := ih _ (h ▸ hlt.2) (m.split k x).2.2 rfl p.2 b
    (hs.of_sameTable hsamep'.symm) (m.inRange_mono _ (.of_sameTable hsamep'.symm) hr.2)
    (m.find_mono hs (.of_sameTable hsamep'.symm) _ _ hr.2 hb')
  generalize m.free.go (m.split k x).2.2 p.2 = q at hqb hsameq
  have hsameq' : SameTable q.2 k := hsameq.trans hsamep'
  -- their triple is known, so the node creation only looks it up
  obtain ⟨f, hf⟩ := node_of_lookupNode ((lookupNode_sameTable hsameq' _ a b).trans hab)
  rw [hpa, hqb, hf]
  exact ⟨rfl, (SameTable.count _ f).trans hsameq'⟩

/-- With a sound cache, the run with the cache and the run without it give the same answer and
leave the same table, from any two tables that agree. -/
theorem go_refines {I : Kernel → Prop} {G : Kernel → Nat → Nat → Nat → Prop}
    (hI : TableInvariant I G) (hm : m.Sound I) (hg : m.Guarded I G) :
    ∀ (x : κ) (kc kf : Kernel), I kc → Structured kc → SameTable kc kf → m.inRange kc x →
      (m.go x kc).1 = (m.free.go x kf).1 ∧ SameTable (m.go x kc).2 (m.free.go x kf).2 := by
  intro x
  induction h : m.measure x using Nat.strongRecOn generalizing x with
  | ind n ih =>
  intro kc kf hIc hs hsame hx
  have hext : Extends kc kf := .of_sameTable hsame
  have hbf : m.free.base kf x = m.base kc x := m.base_stable x hext hx
  cases hb : m.base kc x with
  | some w =>
    rw [m.go_base hb, m.free.go_base (hbf.trans hb)]
    exact ⟨rfl, hsame⟩
  | none =>
  have hlt := m.split_lt kc x hb
  have hr := m.split_inRange x hs hx hb
  have hsplit : m.free.split kf x = m.split kc x := m.split_stable x hext hx hb
  rw [m.go_split hb]
  cases hread : m.read x kc with
  | some w =>
    -- a hit: the cached answer is found, so the run without cache builds nothing
    rw [m.lookup_hit hread]
    simp only
    have hf := m.find_mono hs hext x w hx (hm.read hIc hs hx hread)
    obtain ⟨hw, hsamef⟩ := m.free_go_of_find x kf w (hs.of_sameTable hsame)
      (m.inRange_mono x hext hx) hf
    rw [hw]
    exact ⟨rfl, (SameTable.count kc _).trans (hsame.trans hsamef.symm)⟩
  | none =>
  -- a miss: both runs make the same calls on tables that agree
  rw [m.lookup_miss hread, m.free.go_split (hbf.trans hb), m.free.lookup_miss (m.free_read x kf)]
  simp only [hsplit]
  have hsame₁ : SameTable (kc.count fun c => { c with opMiss := c.opMiss + 1 })
      (kf.count fun c => { c with opMiss := c.opMiss + 1 }) :=
    (SameTable.count kc _).trans (hsame.trans (SameTable.count kf _).symm)
  have hext₁ : Extends kc (kc.count fun c => { c with opMiss := c.opMiss + 1 }) :=
    .of_sameTable (SameTable.count kc _).symm
  have hIc₁ := hI.count (fun c => { c with opMiss := c.opMiss + 1 }) hIc hs
  have hs₁ : Structured (kc.count fun c => { c with opMiss := c.opMiss + 1 }) :=
    hs.of_sameTable (SameTable.count kc _).symm
  obtain ⟨hp1, hp2⟩ := ih _ (h ▸ hlt.1) (m.split kc x).2.1 rfl _ _ hIc₁ hs₁ hsame₁
    (m.inRange_mono _ hext₁ hr.1)
  obtain ⟨hIp, hsp, hextp, -⟩ := m.go_invariant hI hm hg (m.split kc x).2.1 _ hIc₁ hs₁
    (m.inRange_mono _ hext₁ hr.1)
  obtain ⟨hq1, hq2⟩ := ih _ (h ▸ hlt.2) (m.split kc x).2.2 rfl _ _ hIp hsp hp2
    (m.inRange_mono _ (hext₁.trans hextp) hr.2)
  obtain ⟨hn1, hn2⟩ := node_sameTable hq2 (m.split kc x).1
    (m.go (m.split kc x).2.1 (kc.count fun c => { c with opMiss := c.opMiss + 1 })).1
    (m.go (m.split kc x).2.2
      (m.go (m.split kc x).2.1 (kc.count fun c => { c with opMiss := c.opMiss + 1 })).2).1
  rw [← hp1, ← hq1]
  generalize node _ _ _ _ = rc at hn1 hn2
  generalize node _ _ _ _ = rf at hn1 hn2
  obtain ⟨rc, kc'⟩ := rc
  obtain ⟨rf, kf'⟩ := rf
  simp only at hn1 hn2
  subst hn1
  cases rc with
  | none => exact ⟨rfl, hn2.record _⟩
  | some v => exact ⟨rfl, (m.write_sameTable x v kc').trans hn2⟩

end Memo

/-! ### The three recursions of the table -/

/-- A recursion that answers every terminal at once splits only internal nodes. -/
theorem two_le_of_ite_none {n a : Nat} {b : Option Nat}
    (h : (if n < 2 then some a else b) = none) : 2 ≤ n := by
  refine Nat.le_of_not_lt fun hn => ?_
  rw [if_pos hn] at h
  cases h

/-- Negation answers the terminals at once, by swapping them. -/
def negBase (n : Nat) : Option Nat :=
  if n < 2 then some (1 - n) else none

/-- The level and the two children of a node: how negation and restriction split it. -/
def nodeSplit (k : Kernel) (n : Nat) : Nat × Nat × Nat :=
  (k.level n, k.lowOf n, k.highOf n)

theorem nodeSplit_lt (k : Kernel) {n : Nat} (h2 : 2 ≤ n) :
    (nodeSplit k n).2.1 < n ∧ (nodeSplit k n).2.2 < n :=
  ⟨lowOf_lt k n (by omega), highOf_lt k n (by omega)⟩

/-- Splitting an internal node reads only that node, which a larger table keeps. -/
theorem nodeSplit_stable {k k' : Kernel} (hext : Extends k k') {n : Nat} (h2 : 2 ≤ n)
    (hn : n < k.nodes.size) : nodeSplit k' n = nodeSplit k n := by
  simp only [nodeSplit, hext.level h2 hn, hext.lowOf h2 hn, hext.highOf h2 hn]

theorem nodeSplit_lt_size (k : Kernel) {n : Nat} (h2 : 2 ≤ n) (hn : n < k.nodes.size) :
    (nodeSplit k n).2.1 < k.nodes.size ∧ (nodeSplit k n).2.2 < k.nodes.size :=
  ⟨lowOf_lt_size _ h2 hn, highOf_lt_size _ h2 hn⟩

theorem lt_size_of_extends {k k' : Kernel} (n : Nat) (hext : Extends k k')
    (hn : n < k.nodes.size) : n < k'.nodes.size :=
  Nat.lt_of_lt_of_le hn hext.size_le

theorem negBase_lt {k : Kernel} (n v : Nat) (hs : Structured k) (_ : n < k.nodes.size)
    (h : negBase n = some v) : v < k.nodes.size := by
  have := hs.two_le
  unfold negBase at h
  split at h
  · cases h
    omega
  · cases h

/-- Negation: a terminal is swapped, a node is rebuilt from the negations of its children. -/
def negRec : Recursion Nat where
  base _ := negBase
  split := nodeSplit
  measure n := n
  split_lt k _ h := nodeSplit_lt k (two_le_of_ite_none h)
  inRange k n := n < k.nodes.size
  inRange_mono := lt_size_of_extends
  base_stable _ _ _ := rfl
  split_stable _ hext hn h := nodeSplit_stable hext (two_le_of_ite_none h) hn
  base_lt := negBase_lt
  split_inRange _ _ hn h := nodeSplit_lt_size _ (two_le_of_ite_none h) hn

/-- What a shortcut of an operator answers: one of its arguments or a terminal. -/
theorem Operator.shortcut_eq {op : Operator} {l r v : Nat} (h : op.shortcut l r = some v) :
    v = l ∨ v = r ∨ v = 0 ∨ v = 1 := by
  cases op <;> simp only [Operator.shortcut] at h <;> grind

theorem Operator.onTerminals_le (op : Operator) (l r : Nat) : op.onTerminals l r ≤ 1 := by
  unfold Operator.onTerminals
  split <;> omega

/-- A binary operator answers at once by a shortcut, or on two terminals. -/
def applyBase (op : Operator) (x : Nat × Nat) : Option Nat :=
  match op.shortcut x.1 x.2 with
  | some v => some v
  | none => if x.1 < 2 ∧ x.2 < 2 then some (op.onTerminals x.1 x.2) else none

/-- The operand with the smaller level is split, or both when their levels are equal; a
terminal is never split. -/
def applySplit (k : Kernel) (x : Nat × Nat) : Nat × (Nat × Nat) × (Nat × Nat) :=
  if 2 ≤ x.1 ∧ 2 ≤ x.2 ∧ k.level x.1 = k.level x.2 then
    (k.level x.1, (k.lowOf x.1, k.lowOf x.2), (k.highOf x.1, k.highOf x.2))
  else if 2 ≤ x.1 ∧ (x.2 < 2 ∨ k.level x.1 < k.level x.2) then
    (k.level x.1, (k.lowOf x.1, x.2), (k.highOf x.1, x.2))
  else (k.level x.2, (x.1, k.lowOf x.2), (x.1, k.highOf x.2))

theorem applyBase_eq_some {op : Operator} {x : Nat × Nat} {v : Nat} :
    applyBase op x = some v ↔ op.shortcut x.1 x.2 = some v ∨
      op.shortcut x.1 x.2 = none ∧ x.1 < 2 ∧ x.2 < 2 ∧ v = op.onTerminals x.1 x.2 := by
  unfold applyBase
  cases hs : op.shortcut x.1 x.2 with
  | some w => simp
  | none =>
    simp only [reduceCtorEq, false_or, true_and]
    by_cases ht : x.1 < 2 ∧ x.2 < 2
    · rw [if_pos ht, Option.some.injEq]
      exact ⟨fun h => ⟨ht.1, ht.2, h.symm⟩, fun h => h.2.2.symm⟩
    · rw [if_neg ht]
      exact ⟨(fun h => by cases h), fun h => absurd ⟨h.1, h.2.1⟩ ht⟩

/-- An operator answers at once one of its operands or a terminal. -/
theorem applyBase_answer {op : Operator} {x : Nat × Nat} {v : Nat} (h : applyBase op x = some v) :
    v = x.1 ∨ v = x.2 ∨ v < 2 := by
  rcases applyBase_eq_some.1 h with hs | ⟨-, -, -, rfl⟩
  · rcases Operator.shortcut_eq hs with h | h | h | h <;> omega
  · have := Operator.onTerminals_le op x.1 x.2
    omega

/-- The three ways a pair that is not two terminals is split: both operands at their common
level, the left one alone when it lies lower, or the right one alone. -/
theorem applySplit_cases (k : Kernel) {x : Nat × Nat} (ht : ¬ (x.1 < 2 ∧ x.2 < 2)) :
    2 ≤ x.1 ∧ 2 ≤ x.2 ∧ k.level x.1 = k.level x.2 ∧
        applySplit k x = (k.level x.1, (k.lowOf x.1, k.lowOf x.2), (k.highOf x.1, k.highOf x.2)) ∨
      2 ≤ x.1 ∧ (x.2 < 2 ∨ k.level x.1 < k.level x.2) ∧
        applySplit k x = (k.level x.1, (k.lowOf x.1, x.2), (k.highOf x.1, x.2)) ∨
      2 ≤ x.2 ∧ (x.1 < 2 ∨ k.level x.2 < k.level x.1) ∧
        applySplit k x = (k.level x.2, (x.1, k.lowOf x.2), (x.1, k.highOf x.2)) := by
  unfold applySplit
  split
  · next h => exact .inl ⟨h.1, h.2.1, h.2.2, rfl⟩
  · next h =>
    split
    · next h' => exact .inr (.inl ⟨h'.1, h'.2, rfl⟩)
    · next h' => exact .inr (.inr ⟨by omega, by omega, rfl⟩)

theorem applyBase_none {op : Operator} {x : Nat × Nat} (h : applyBase op x = none) :
    ¬ (x.1 < 2 ∧ x.2 < 2) := by
  intro ht
  cases hs : op.shortcut x.1 x.2 with
  | some w => exact absurd (applyBase_eq_some.2 (.inl hs)) (by rw [h]; simp)
  | none => exact absurd (applyBase_eq_some.2 (.inr ⟨hs, ht.1, ht.2, rfl⟩)) (by rw [h]; simp)

theorem applySplit_lt (k : Kernel) {x : Nat × Nat} (ht : ¬ (x.1 < 2 ∧ x.2 < 2)) :
    (applySplit k x).2.1.1 + (applySplit k x).2.1.2 < x.1 + x.2 ∧
      (applySplit k x).2.2.1 + (applySplit k x).2.2.2 < x.1 + x.2 := by
  -- every operand that is split is internal, and its children lie below it
  rcases applySplit_cases k ht with ⟨h1, h2, -, hsp⟩ | ⟨h1, -, hsp⟩ | ⟨h2, -, hsp⟩ <;>
    rw [hsp] <;> dsimp only
  · have := lowOf_lt k x.1 (by omega)
    have := lowOf_lt k x.2 (by omega)
    have := highOf_lt k x.1 (by omega)
    have := highOf_lt k x.2 (by omega)
    omega
  · have := lowOf_lt k x.1 (by omega)
    have := highOf_lt k x.1 (by omega)
    omega
  · have := lowOf_lt k x.2 (by omega)
    have := highOf_lt k x.2 (by omega)
    omega

theorem pair_lt_size_of_extends {k k' : Kernel} (x : Nat × Nat) (hext : Extends k k')
    (hx : x.1 < k.nodes.size ∧ x.2 < k.nodes.size) :
    x.1 < k'.nodes.size ∧ x.2 < k'.nodes.size :=
  ⟨lt_size_of_extends _ hext hx.1, lt_size_of_extends _ hext hx.2⟩

/-- Splitting reads the levels and children of internal operands only. -/
theorem applySplit_stable {k k' : Kernel} (hext : Extends k k') {x : Nat × Nat}
    (ht : ¬ (x.1 < 2 ∧ x.2 < 2)) (hx : x.1 < k.nodes.size ∧ x.2 < k.nodes.size) :
    applySplit k' x = applySplit k x := by
  obtain ⟨l, r⟩ := x
  obtain ⟨hl, hr⟩ := hx
  dsimp only at hl hr ht ⊢
  unfold applySplit
  -- a terminal operand is never split, so only the levels of internal operands are read
  by_cases h2l : 2 ≤ l <;> by_cases h2r : 2 ≤ r
  · simp only [hext.level h2l hl, hext.level h2r hr, hext.lowOf h2l hl, hext.lowOf h2r hr,
      hext.highOf h2l hl, hext.highOf h2r hr]
  · have hr2 : r < 2 := by omega
    simp only [h2r, hr2, true_or, and_true, and_false, false_and, if_false, if_true, h2l,
      hext.level h2l hl, hext.lowOf h2l hl, hext.highOf h2l hl]
  · simp only [h2l, false_and, if_false, hext.level h2r hr, hext.lowOf h2r hr,
      hext.highOf h2r hr]
  · omega

theorem applySplit_lt_size (k : Kernel) {x : Nat × Nat} (ht : ¬ (x.1 < 2 ∧ x.2 < 2))
    (hx : x.1 < k.nodes.size ∧ x.2 < k.nodes.size) :
    ((applySplit k x).2.1.1 < k.nodes.size ∧ (applySplit k x).2.1.2 < k.nodes.size) ∧
      ((applySplit k x).2.2.1 < k.nodes.size ∧ (applySplit k x).2.2.2 < k.nodes.size) := by
  obtain ⟨hl, hr⟩ := hx
  rcases applySplit_cases k ht with ⟨h1, h2, -, hsp⟩ | ⟨h1, -, hsp⟩ | ⟨h2, -, hsp⟩ <;> rw [hsp]
  · exact ⟨⟨lowOf_lt_size _ h1 hl, lowOf_lt_size _ h2 hr⟩,
      ⟨highOf_lt_size _ h1 hl, highOf_lt_size _ h2 hr⟩⟩
  · exact ⟨⟨lowOf_lt_size _ h1 hl, hr⟩, ⟨highOf_lt_size _ h1 hl, hr⟩⟩
  · exact ⟨⟨hl, lowOf_lt_size _ h2 hr⟩, ⟨hl, highOf_lt_size _ h2 hr⟩⟩

theorem applyBase_lt (op : Operator) {k : Kernel} (x : Nat × Nat) (v : Nat) (hs : Structured k)
    (_ : x.1 < k.nodes.size ∧ x.2 < k.nodes.size) (h : applyBase op x = some v) :
    v < k.nodes.size := by
  have := hs.two_le
  rcases applyBase_answer h with rfl | rfl | hv <;> omega

/-- A binary operator: a shortcut or two terminals answer at once; otherwise the operands are
split as `applySplit` says. -/
def applyRec (op : Operator) : Recursion (Nat × Nat) where
  base _ := applyBase op
  split := applySplit
  measure x := x.1 + x.2
  split_lt k _ h := applySplit_lt k (applyBase_none h)
  inRange k x := x.1 < k.nodes.size ∧ x.2 < k.nodes.size
  inRange_mono := pair_lt_size_of_extends
  base_stable _ _ _ := rfl
  split_stable _ hext hx h := applySplit_stable hext (applyBase_none h) hx
  base_lt := applyBase_lt op
  split_inRange _ _ hx h := applySplit_lt_size _ (applyBase_none h) hx

/-- Restriction of level `lvl` to `val` answers at once on terminals and on nodes above the
level, which it keeps, and on a node at the level, which it replaces by one child. -/
def restrictBase (lvl : Nat) (val : Bool) (k : Kernel) (n : Nat) : Option Nat :=
  if n < 2 then some n
  else if (k.entry n).level > lvl then some n
  else if (k.entry n).level = lvl then some (if val then (k.entry n).high else (k.entry n).low)
  else none

/-- Restriction answers at once a terminal or a node above the level as it is, and a node at the
level by the child the value selects. -/
theorem restrictBase_eq_some {lvl : Nat} {val : Bool} {k : Kernel} {n v : Nat} :
    restrictBase lvl val k n = some v ↔ v = n ∧ (n < 2 ∨ k.level n > lvl) ∨
      2 ≤ n ∧ k.level n = lvl ∧ v = if val then (k.entry n).high else (k.entry n).low := by
  unfold restrictBase Kernel.level
  split
  · next h => simp only [Option.some.injEq]; omega
  · next h =>
    split
    · next hg => simp only [Option.some.injEq]; omega
    · next hg =>
      split
      · next he => simp only [Option.some.injEq]; omega
      · next he => simp only [reduceCtorEq, false_iff]; omega

/-- Restriction splits the nodes below the level only. -/
theorem restrictBase_eq_none {lvl : Nat} {val : Bool} {k : Kernel} {n : Nat} :
    restrictBase lvl val k n = none ↔ 2 ≤ n ∧ k.level n < lvl := by
  unfold restrictBase Kernel.level
  split
  · next h => simp only [reduceCtorEq, false_iff]; omega
  · next h =>
    split
    · next hg => simp only [reduceCtorEq, false_iff]; omega
    · next hg =>
      split
      · next he => simp only [reduceCtorEq, false_iff]; omega
      · next he => simp only [true_iff]; omega

theorem restrictBase_stable (lvl : Nat) (val : Bool) {k k' : Kernel} (n : Nat)
    (hext : Extends k k') (hn : n < k.nodes.size) :
    restrictBase lvl val k' n = restrictBase lvl val k n := by
  unfold restrictBase
  by_cases h2 : n < 2
  · simp only [h2, if_true]
  · simp only [h2, if_false, hext.entry n (by omega) hn]

theorem restrictBase_lt (lvl : Nat) (val : Bool) {k : Kernel} (n v : Nat) (hs : Structured k)
    (hn : n < k.nodes.size) (h : restrictBase lvl val k n = some v) : v < k.nodes.size := by
  rcases restrictBase_eq_some.1 h with ⟨rfl, -⟩ | ⟨h2, -, rfl⟩
  · exact hn
  · have hc := hs.children n h2 hn
    split <;> omega

/-- Restriction of level `lvl` to `val`: a node below the level is rebuilt from its children. -/
def restrictRec (lvl : Nat) (val : Bool) : Recursion Nat where
  base := restrictBase lvl val
  split := nodeSplit
  measure n := n
  split_lt k _ h := nodeSplit_lt k (two_le_of_ite_none h)
  inRange k n := n < k.nodes.size
  inRange_mono := lt_size_of_extends
  base_stable := restrictBase_stable lvl val
  split_stable _ hext hn h := nodeSplit_stable hext (two_le_of_ite_none h) hn
  base_lt := restrictBase_lt lvl val
  split_inRange _ _ hn h := nodeSplit_lt_size _ (two_le_of_ite_none h) hn

/-- Negation with its entries in the cache shared with the binary operators, tagged `5`. -/
def negMemo : Memo Nat :=
  { negRec with
    read := fun n k =>
      let e := slot k.applyCache (n % k.applyCache.size)
      if e.a = n ∧ e.c = 5 then some e.res else none
    write := fun n v k =>
      { k with applyCache := k.applyCache.setIfInBounds (n % k.applyCache.size) ⟨v, n, -1, 5⟩ }
    fault := fun _ => .notFailed
    write_eq := fun _ _ _ => ⟨_, _, rfl⟩ }

/-- A binary operator with its entries tagged by the operator's number. -/
def applyMemo (op : Operator) : Memo (Nat × Nat) :=
  { applyRec op with
    read := fun x k =>
      let e := slot k.applyCache (tripleSlot x.1 x.2 op.code k.applyCache.size)
      if e.a = x.1 ∧ e.b = x.2 ∧ e.c = op.code then some e.res else none
    write := fun x v k =>
      let i := tripleSlot x.1 x.2 op.code k.applyCache.size
      { k with applyCache := k.applyCache.setIfInBounds i ⟨v, x.1, x.2, op.code⟩ }
    fault := fun x => .applyFailed x.1 x.2 op
    write_eq := fun _ _ _ => ⟨_, _, rfl⟩ }

/-- A restriction with its entries tagged by `id`, the number of the restriction. -/
def restrictMemo (lvl : Nat) (val : Bool) (id : Nat) : Memo Nat :=
  { restrictRec lvl val with
    read := fun n k =>
      let e := slot k.restrictCache (pairSlot n id k.restrictCache.size)
      if e.a = n ∧ e.c = id then some e.res else none
    write := fun n v k =>
      let i := pairSlot n id k.restrictCache.size
      { k with restrictCache := k.restrictCache.setIfInBounds i ⟨v, n, 0, id⟩ }
    fault := fun _ => .restrictFailed
    write_eq := fun _ _ _ => ⟨_, _, rfl⟩ }

/-! ### The operations of the model are the three recursions -/

theorem lookupNot_eq (n : Nat) (k : Kernel) : lookupNot n k = negMemo.lookup n k := by
  simp only [lookupNot, Memo.lookup, negMemo]
  split <;> rfl

theorem storeNot_eq (n : Nat) (r : Option Nat) : storeNot n r = negMemo.store n r := by
  funext k
  cases r <;> rfl

theorem negateNode_run (n : Nat) (k : Kernel) : (negateNode n).run k = negMemo.go n k := by
  induction n using Nat.strongRecOn generalizing k with
  | ind n ih =>
  rw [negateNode]
  by_cases h : n < 2
  · have hb : negMemo.base k n = some (1 - n) := if_pos h
    rw [dif_pos h, negMemo.go_base hb]
    rfl
  · have hb : negMemo.base k n = none := if_neg h
    rw [dif_neg h, negMemo.go_split hb]
    simp only [StateT.run_bind, StateT.run_modifyGet, lookupNot_eq]
    rcases hl : negMemo.lookup n k with ⟨_ | v, k₁⟩
    · have hk : k₁ = k.count fun c => { c with opMiss := c.opMiss + 1 } := by
        simp only [Memo.lookup] at hl
        split at hl <;> simp_all
      -- the model reads the table again after the lookup, which only counted a miss
      simp only [pure_bind, StateT.run_get, StateT.run_bind, ih _ (lowOf_lt k₁ n (by omega)),
        ih _ (highOf_lt k₁ n (by omega)), storeNot_eq, makeNode, StateT.run_modifyGet]
      subst hk
      rfl
    · rfl

theorem lookupApply_eq (op : Operator) (l r : Nat) (k : Kernel) :
    lookupApply op l r k = (applyMemo op).lookup (l, r) k := by
  simp only [lookupApply, Memo.lookup, applyMemo]
  split <;> rfl

theorem storeApply_eq (op : Operator) (l r : Nat) (v : Option Nat) :
    storeApply op l r v = (applyMemo op).store (l, r) v := by
  funext k
  cases v <;> rfl

theorem applyNodes_run (op : Operator) (l r : Nat) (k : Kernel) :
    (applyNodes op l r).run k = (applyMemo op).go (l, r) k := by
  induction h : l + r using Nat.strongRecOn generalizing l r k with
  | ind n ih =>
  subst h
  rw [applyNodes]
  cases hs : op.shortcut l r with
  | some v =>
    have hb : (applyMemo op).base k (l, r) = some v := by
      show (match op.shortcut l r with | some v => some v | none => _) = _
      rw [hs]
    rw [(applyMemo op).go_base hb]
    rfl
  | none =>
  by_cases ht : l < 2 ∧ r < 2
  · have hb : (applyMemo op).base k (l, r) = some (op.onTerminals l r) := by
      show (match op.shortcut l r with | some v => some v | none => _) = _
      rw [hs]
      exact if_pos ht
    rw [dif_pos ht, (applyMemo op).go_base hb]
    rfl
  have hb : (applyMemo op).base k (l, r) = none := by
    show (match op.shortcut l r with | some v => some v | none => _) = _
    rw [hs]
    exact if_neg ht
  rw [dif_neg ht, (applyMemo op).go_split hb]
  simp only [StateT.run_bind, StateT.run_modifyGet, lookupApply_eq]
  rcases hl : (applyMemo op).lookup (l, r) k with ⟨_ | v, k₁⟩
  · have hk : k₁ = k.count fun c => { c with opMiss := c.opMiss + 1 } := by
      simp only [Memo.lookup] at hl
      split at hl <;> simp_all
    subst hk
    have hlt := (applyMemo op).split_lt k (l, r) hb
    simp only [pure_bind, StateT.run_get, StateT.run_bind, count_level, count_lowOf,
      count_highOf]
    -- the three ways of splitting, in the order the model tests them
    by_cases h1 : 2 ≤ l ∧ 2 ≤ r ∧ k.level l = k.level r
    · have hsp : (applyMemo op).split k (l, r) =
          (k.level l, (k.lowOf l, k.lowOf r), (k.highOf l, k.highOf r)) := by
        dsimp only [applyMemo, applyRec, applySplit]
        rw [if_pos h1]
      rw [hsp] at hlt ⊢
      simp only [dif_pos h1, StateT.run_bind, ih _ hlt.1 _ _ _ rfl, ih _ hlt.2 _ _ _ rfl,
        storeApply_eq, makeNode, StateT.run_modifyGet]
      rfl
    by_cases h2 : 2 ≤ l ∧ (r < 2 ∨ k.level l < k.level r)
    · have hsp : (applyMemo op).split k (l, r) = (k.level l, (k.lowOf l, r), (k.highOf l, r)) := by
        dsimp only [applyMemo, applyRec, applySplit]
        rw [if_neg h1, if_pos h2]
      rw [hsp] at hlt ⊢
      simp only [dif_neg h1, dif_pos h2, StateT.run_bind, ih _ hlt.1 _ _ _ rfl,
        ih _ hlt.2 _ _ _ rfl, storeApply_eq, makeNode, StateT.run_modifyGet]
      rfl
    · have hsp : (applyMemo op).split k (l, r) = (k.level r, (l, k.lowOf r), (l, k.highOf r)) := by
        dsimp only [applyMemo, applyRec, applySplit]
        rw [if_neg h1, if_neg h2]
      rw [hsp] at hlt ⊢
      simp only [dif_neg h1, dif_neg h2, StateT.run_bind, ih _ hlt.1 _ _ _ rfl,
        ih _ hlt.2 _ _ _ rfl, storeApply_eq, makeNode, StateT.run_modifyGet]
      rfl
  · rfl

theorem lookupRestrict_eq (lvl : Nat) (val : Bool) (id n : Nat) (k : Kernel) :
    lookupRestrict id n k = (restrictMemo lvl val id).lookup n k := by
  simp only [lookupRestrict, Memo.lookup, restrictMemo]
  split <;> rfl

theorem storeRestrict_eq (lvl : Nat) (val : Bool) (id n : Nat) (r : Option Nat) :
    storeRestrict id n r = (restrictMemo lvl val id).store n r := by
  funext k
  cases r <;> rfl

theorem restrictNode_run (lvl : Nat) (val : Bool) (id n : Nat) (k : Kernel) :
    (restrictNode lvl val id n).run k = (restrictMemo lvl val id).go n k := by
  induction n using Nat.strongRecOn generalizing k with
  | ind n ih =>
  rw [restrictNode]
  by_cases h0 : n < 2
  · have hb : (restrictMemo lvl val id).base k n = some n := if_pos h0
    rw [(restrictMemo lvl val id).go_base hb]
    simp only [StateT.run_bind, StateT.run_get, pure_bind, dif_pos h0]
    rfl
  by_cases h1 : (k.entry n).level > lvl
  · have hb : (restrictMemo lvl val id).base k n = some n := by
      show (if n < 2 then _ else _) = _
      rw [if_neg h0, if_pos h1]
    rw [(restrictMemo lvl val id).go_base hb]
    simp only [StateT.run_bind, StateT.run_get, pure_bind, dif_neg h0, if_pos h1]
    rfl
  by_cases h2 : (k.entry n).level = lvl
  · have hb : (restrictMemo lvl val id).base k n =
        some (if val then (k.entry n).high else (k.entry n).low) := by
      show (if n < 2 then _ else _) = _
      rw [if_neg h0, if_neg h1, if_pos h2]
    rw [(restrictMemo lvl val id).go_base hb]
    simp only [StateT.run_bind, StateT.run_get, pure_bind, dif_neg h0, if_neg h1, if_pos h2]
    rfl
  have hb : (restrictMemo lvl val id).base k n = none := by
    show (if n < 2 then _ else _) = _
    rw [if_neg h0, if_neg h1, if_neg h2]
  rw [(restrictMemo lvl val id).go_split hb]
  simp only [StateT.run_bind, StateT.run_get, pure_bind, dif_neg h0, if_neg h1, if_neg h2,
    StateT.run_modifyGet, lookupRestrict_eq lvl val]
  rcases hl : (restrictMemo lvl val id).lookup n k with ⟨_ | v, k₁⟩
  · have hk : k₁ = k.count fun c => { c with opMiss := c.opMiss + 1 } := by
      simp only [Memo.lookup] at hl
      split at hl <;> simp_all
    subst hk
    simp only [pure_bind, StateT.run_bind, ih _ (lowOf_lt k n (by omega)),
      ih _ (highOf_lt k n (by omega)), storeRestrict_eq lvl val, makeNode, StateT.run_modifyGet]
    rfl
  · rfl

end Kernel

end DecisionDiagrams
