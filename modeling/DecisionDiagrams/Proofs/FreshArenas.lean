/-
Arenas as builds leave them.

A build allocates its nodes in an arena of its own and links them to their children. Whatever
the engine answers, each node of the arena a build leaves carries its own id, is not marked,
and has children that are nodes of the same arena, and the root it answers is a node of the
arena. The reduced build takes its links from the first phase, whose nodes lead one level down
and whose lists of levels hold exactly the nodes of each level: so every child has its
representative when its parent is reduced.

* `Diagram.Guarded` — a computation beside the engine that leaves, from every state with one
  property and whatever the engine, an answer and a state with another; its rules follow the
  monad.
* `Arena.Linked`, `Arena.Fresh` — arenas whose nodes carry their ids and link inside, and the
  arenas builds leave, which also have no node marked.
* `Diagram.decisionTree_fresh`, `Diagram.reducedDiagram_fresh`, `Diagram.runBuild_fresh` — the
  two builds.
-/
import DecisionDiagrams.Proofs.ReducedDiagrams

namespace DecisionDiagrams

namespace Diagram

/-! ### Computations beside the engine -/

section Guarded

variable {σ α β : Type}

/-- From every state with `P`, whatever the engine, the computation answers and leaves a state
that satisfy `Q` together. -/
def Guarded (P : σ → Prop) (m : StateT σ EngineM α) (Q : α → σ → Prop) : Prop :=
  ∀ s e, P s → Q ((m.run s).run e).1.1 ((m.run s).run e).1.2

namespace Guarded

variable {P P' : σ → Prop} {Q : α → σ → Prop} {m : StateT σ EngineM α}

theorem pure {v : α} (h : ∀ s, P s → Q v s) : Guarded P (Pure.pure v) Q :=
  fun s _ hs => h s hs

theorem bind {f : α → StateT σ EngineM β} {R : β → σ → Prop} (hm : Guarded P m Q)
    (hf : ∀ v, Guarded (Q v) (f v) R) : Guarded P (m >>= f) R :=
  fun s e hs => hf _ _ _ (hm s e hs)

theorem get : Guarded P (MonadState.get : StateT σ EngineM σ) fun v s => P s ∧ v = s :=
  fun _ _ hs => ⟨hs, rfl⟩

theorem modify {f : σ → σ} {R : PUnit → σ → Prop} (h : ∀ s, P s → R () (f s)) :
    Guarded P (modify f : StateT σ EngineM PUnit) R :=
  fun s _ hs => h s hs

theorem modifyGet {f : σ → α × σ} (h : ∀ s, P s → Q (f s).1 (f s).2) :
    Guarded P (modifyGet f : StateT σ EngineM α) Q :=
  fun s _ hs => h s hs

/-- A call on the engine leaves the state beside it, and answers what it answers on every
engine. -/
theorem lift {m : EngineM α} {T : α → Prop} (h : ∀ e, T (m.run e).1) :
    Guarded P (StateT.lift m : StateT σ EngineM α) fun v s => P s ∧ T v :=
  fun _ e hs => ⟨hs, h e⟩

theorem set {s' : σ} {R : PUnit → σ → Prop} (h : ∀ s, P s → R () s') :
    Guarded P (MonadStateOf.set s' : StateT σ EngineM PUnit) R :=
  fun s _ hs => h s hs

theorem mono {S : α → σ → Prop} (hm : Guarded P m Q) (h : ∀ v s, Q v s → S v s) :
    Guarded P m S :=
  fun s e hs => h _ _ (hm s e hs)

theorem pre (hm : Guarded P m Q) (h : ∀ s, P' s → P s) : Guarded P' m Q :=
  fun s e hs => hm s e (h s hs)

/-- A proof for each state the computation may start from, which it may then name. -/
theorem of_state (h : ∀ s₀, P s₀ → Guarded (· = s₀) m Q) : Guarded P m Q :=
  fun s e hs => h s hs s e rfl

/-- A fold whose every step keeps an invariant of the accumulator and the state keeps it. -/
theorem foldlM {δ : Type} {f : δ → α → StateT σ EngineM δ} {I : δ → σ → Prop} :
    ∀ (xs : List α), (∀ x ∈ xs, ∀ acc, Guarded (I acc) (f acc x) I) →
      ∀ acc, Guarded (I acc) (xs.foldlM f acc) I
  | [], _, _ => .pure fun _ h => h
  | x :: xs, h, acc => by
    rw [List.foldlM_cons]
    exact .bind (h x List.mem_cons_self acc) fun acc' =>
      foldlM xs (fun y hy => h y (List.mem_cons_of_mem x hy)) acc'

end Guarded

end Guarded

end Diagram

namespace Arena

/-! ### Fresh arenas -/

/-- An arena whose nodes carry their ids and whose children are nodes of the arena. -/
structure Linked (a : Arena) : Prop where
  ids : ∀ j n, a.at? j = some n → n.id = j
  closed : ∀ p c, a.ParentOf p c → (a.at? c).isSome

/-- An arena as a build leaves it: linked, and no node marked. -/
structure Fresh (a : Arena) : Prop extends a.Linked where
  unmarked : ∀ j n, a.at? j = some n → n.highlight = false

variable {a a' : Arena}

theorem isSome_at?_iff {c : Nat} : (a.at? c).isSome ↔ a.base ≤ c ∧ c < a.next := by
  constructor
  · intro h
    obtain ⟨n, hn⟩ := Option.isSome_iff_exists.1 h
    exact lt_next_of_at? hn
  · rintro ⟨hb, hn⟩
    rw [at?_of_ge_base hb]
    exact Option.isSome_iff_exists.2 ⟨_, Array.getElem?_eq_getElem (by unfold next at hn; omega)⟩

theorem Keeps.isSome (h : a.Keeps a') {c : Nat} (hc : (a.at? c).isSome) : (a'.at? c).isSome := by
  rw [isSome_at?_iff] at hc ⊢
  have := h.next
  rw [h.base]
  omega

theorem fresh_empty (base : Nat) : (⟨base, #[]⟩ : Arena).Fresh := by
  have none_at : ∀ j, (⟨base, #[]⟩ : Arena).at? j = none := fun j => by simp [at?]
  refine ⟨⟨fun j n h => ?_, fun p c hpc => ?_⟩, fun j n h => ?_⟩
  · simp [none_at] at h
  · obtain ⟨n, h, -⟩ := hpc
    simp [none_at] at h
  · simp [none_at] at h

namespace Fresh

variable (h : a.Fresh)
include h

/-- A new node that is not marked and whose children are nodes of the arena keeps it fresh. -/
theorem alloc {n : DNode} (hn : n.highlight = false)
    (hc : ∀ c, n.low = some c ∨ n.high = some c → (a.at? c).isSome) : (a.alloc n).2.Fresh := by
  have hk := keeps_alloc n a
  refine ⟨⟨fun j m hm => ?_, fun p c ⟨m, hm, hpc⟩ => ?_⟩, fun j m hm => ?_⟩ <;>
    rw [at?_alloc] at hm <;> split at hm
  · cases hm; simp_all
  · exact h.ids j m hm
  · cases hm; exact hk.isSome (hc c hpc)
  · exact hk.isSome (h.closed p c ⟨m, hm, hpc⟩)
  · cases hm; exact hn
  · exact h.unmarked j m hm

theorem terminal (v : Bool) (L : Nat) : (a.terminal v L).2.Fresh :=
  h.alloc rfl fun c hc => by simp [DNode.terminal] at hc

/-- Linking a node to two nodes of the arena keeps it fresh. -/
theorem link (id : Nat) {lo hi : Nat} (hlo : (a.at? lo).isSome) (hhi : (a.at? hi).isSome) :
    (a.modifyNode id fun m => { m with low := some lo, high := some hi }).Fresh := by
  have hk := keeps_modifyNode id (f := fun m => { m with low := some lo, high := some hi })
    (fun _ => ⟨rfl, rfl, rfl⟩) a
  refine ⟨⟨fun j m hm => ?_, fun p c ⟨m, hm, hpc⟩ => ?_⟩, fun j m hm => ?_⟩ <;>
    rw [at?_modifyNode] at hm <;> split at hm
  · obtain ⟨m', hm', rfl⟩ := Option.map_eq_some_iff.1 hm
    exact h.ids j m' hm'
  · exact h.ids j m hm
  · obtain ⟨m', -, rfl⟩ := Option.map_eq_some_iff.1 hm
    rcases hpc with hpc | hpc <;> cases hpc
    · exact hk.isSome hlo
    · exact hk.isSome hhi
  · exact hk.isSome (h.closed p c ⟨m, hm, hpc⟩)
  · obtain ⟨m', hm', rfl⟩ := Option.map_eq_some_iff.1 hm
    exact h.unmarked j m' hm'
  · exact h.unmarked j m hm

end Fresh

end Arena

namespace Diagram

open Arena

/-! ### The tree build -/

/-- The root node of a build: the terminal of a constant residual when the order is empty, and
otherwise a node testing the order's first variable; either holds the formula's residual and
text. -/
theorem rootNode_eq_ok {d : Diagram} {order : List String} {root : DNode} :
    rootNode d order = .ok root ↔
      (order = [] ∧ ∃ v, residualOf d.root = .const v ∧ root = .terminal v d.expression 0) ∨
      ∃ v rest, order = v :: rest ∧ root = .internal v (residualOf d.root) d.expression 0 := by
  unfold rootNode
  rcases order with _ | ⟨v, rest⟩
  · cases residualOf d.root <;> simp [eq_comm]
  · simp [eq_comm]

/-- The root node of a build is not marked and not linked yet, and stands at level `0`, which is
above the last level when it is not a terminal. -/
theorem rootNode_unlinked {d : Diagram} {order : List String} {root : DNode}
    (h : rootNode d order = .ok root) :
    root.highlight = false ∧ root.low = none ∧ root.high = none ∧ root.level = 0 ∧
      (root.isTerminal = false → 0 < order.length) := by
  rcases rootNode_eq_ok.1 h with ⟨-, v, -, rfl⟩ | ⟨v, rest, rfl, rfl⟩
  · exact ⟨rfl, rfl, rfl, rfl, fun h => by cases h⟩
  · exact ⟨rfl, rfl, rfl, rfl, fun _ => by simp⟩

section Tree

variable {order : List String} {ts : Terminals}

/-- The node of the tree build for a residual: the terminal of a constant, or a new node at the
arena's next id; every other answer is a failure, and only the new node changes the arena. -/
theorem treeChild_cases (a : Arena) (r : Residual) (L : Nat) :
    Guarded (· = a) (treeChild order ts r L) fun res a' =>
      (a' = a ∧ ∀ c, res = .ok c → ∃ v, r = .const v ∧ c = if v then ts.yes else ts.no) ∨
      ∃ v text, order[L]? = some v ∧ a' = (a.alloc (.internal v r text L)).2 ∧ res = .ok a.next := by
  unfold treeChild
  cases r with
  | const v => exact .pure fun a' h => .inl ⟨h, fun c hc => ⟨v, rfl, by cases hc; rfl⟩⟩
  | expr x =>
    refine .bind (.lift (T := fun _ => True) fun _ => trivial) fun t => ?_
    rcases t with f | text
    · exact .pure fun a' h => .inl ⟨h.1, fun c hc => by cases hc⟩
    cases hv : order[L]? with
    | none => exact .pure fun a' h => .inl ⟨h.1, fun c hc => by cases hc⟩
    | some v =>
      refine .bind (.modifyGet (Q := fun id a' => a' = (a.alloc (.internal v (.expr x) text L)).2 ∧
        id = a.next) fun a' h => by rw [h.1]; exact ⟨rfl, rfl⟩) fun id => .pure ?_
      rintro a' ⟨rfl, rfl⟩
      exact .inr ⟨v, text, rfl, rfl, rfl⟩

/-- The node of the tree build for a residual is a terminal of the arena or a new node. -/
theorem treeChild_fresh {a : Arena} (ha : a.Fresh) (hy : (a.at? ts.yes).isSome)
    (hn : (a.at? ts.no).isSome) (r : Residual) (L : Nat) :
    Guarded (· = a) (treeChild order ts r L)
      fun res a' => a'.Fresh ∧ a.Keeps a' ∧ ∀ c, res = .ok c → (a'.at? c).isSome := by
  refine (treeChild_cases a r L).mono fun res a' h => ?_
  rcases h with ⟨rfl, hc⟩ | ⟨v, text, -, rfl, rfl⟩
  · refine ⟨ha, .refl a', fun c hres => ?_⟩
    obtain ⟨b, -, rfl⟩ := hc c hres
    cases b
    · exact hn
    · exact hy
  · refine ⟨ha.alloc rfl fun c hc => ?_, keeps_alloc _ a, fun c hc => ?_⟩
    · simp [DNode.internal] at hc
    · cases hc
      simp [at?_alloc]

/-- Expanding a node of the tree build, and then the nodes made below it, keeps the arena fresh.
The induction is on the fuel; the nodes made for the two cofactors are nodes of the arena when
the node is linked to them, and expanding them only adds nodes. -/
theorem expandTree_fresh : ∀ (fuel id : Nat) (a : Arena), a.Fresh → (a.at? ts.yes).isSome →
    (a.at? ts.no).isSome →
    Guarded (· = a) (expandTree order ts fuel id) fun _ a' => a'.Fresh ∧ a.Keeps a'
  | 0, _, a, ha, _, _ => .pure fun _ h => by rw [h]; exact ⟨ha, .refl a⟩
  | fuel + 1, id, a, ha, hy, hn => by
    -- the expansions below keep every arena that holds the terminals and keeps `a`
    have below : ∀ c, Guarded (fun a' => a'.Fresh ∧ a.Keeps a') (expandTree order ts fuel c)
        fun _ a' => a'.Fresh ∧ a.Keeps a' := fun c =>
      .of_state fun a₁ h₁ => (expandTree_fresh fuel c a₁ h₁.1 (h₁.2.isSome hy)
        (h₁.2.isSome hn)).mono fun _ _ h => ⟨h.1, h₁.2.trans h.2⟩
    rw [expandTree]
    refine .bind .get fun s => ?_
    split
    case h_2 => exact .pure fun a' h => by rw [h.1]; exact ⟨ha, .refl a⟩
    rename_i n _
    refine .bind (.lift (T := fun _ => True) fun _ => trivial) fun t => ?_
    rcases t with f | ⟨hr, lr⟩
    · exact .pure fun a' h => by rw [h.1.1]; exact ⟨ha, .refl a⟩
    -- the node of the high cofactor, then the node of the low one
    refine .bind (.of_state fun a₁ h₁ => (treeChild_fresh ha hy hn hr _).pre
      fun s hs => hs.trans h₁.1.1) fun t => ?_
    rcases t with f | hi
    · exact .pure fun a' h => ⟨h.1, h.2.1⟩
    refine .bind (Q := fun res a' => a'.Fresh ∧ a.Keeps a' ∧ (a'.at? hi).isSome ∧
      ∀ c, res = .ok c → (a'.at? c).isSome) (.of_state fun a₂ h₂ =>
        (treeChild_fresh h₂.1 (h₂.2.1.isSome hy) (h₂.2.1.isSome hn) lr _).mono
          fun _ a₃ h₃ => ⟨h₃.1, h₂.2.1.trans h₃.2.1, h₃.2.1.isSome (h₂.2.2 hi rfl), h₃.2.2⟩)
      fun t => ?_
    rcases t with f | lo
    · exact .pure fun a' h => ⟨h.1, h.2.1⟩
    -- link the node, then expand the children that are not terminals
    refine .bind (.modify (R := fun _ a' => a'.Fresh ∧ a.Keeps a') fun a₃ h₃ =>
      ⟨h₃.1.link id (h₃.2.2.2 lo rfl) h₃.2.2.1, h₃.2.1.trans (keeps_modifyNode id
        (f := fun m => { m with low := some lo, high := some hi }) (fun _ => ⟨rfl, rfl, rfl⟩) a₃)⟩)
      fun _ => ?_
    dsimp only
    split
    · refine .bind (below lo) fun r => ?_
      split
      · exact .pure fun _ h => h
      · split
        · exact .bind (below hi) fun _ => by split <;> exact .pure fun _ h => h
        · exact .pure fun _ h => h
    · split
      · exact .bind (below hi) fun _ => by split <;> exact .pure fun _ h => h
      · exact .pure fun _ h => h

/-- The arena the tree build starts from: the true terminal at `base`, the false one after it. -/
def treeTerminals (order : List String) (base : Nat) : Arena :=
  (Arena.terminal false order.length (Arena.terminal true order.length ⟨base, #[]⟩).2).2

@[simp] theorem treeTerminals_next (order : List String) (base : Nat) :
    (treeTerminals order base).next = base + 2 := rfl

/-- The tree build, step by step: the two terminals at `base` and `base + 1`; then the terminal
of a constant root, or the root at `base + 2`, expanded with fuel for every level. -/
theorem decisionTree_guarded {d : Diagram} {base : Nat} {Q : Except Failure Nat → Arena → Prop}
    (fail : ∀ f, rootNode d order = .error f → Q (.error f) (treeTerminals order base))
    (leaf : ∀ root, rootNode d order = .ok root → root.isTerminal = true →
      Q (.ok (if root.terminalValue then base else base + 1)) (treeTerminals order base))
    (grow : ∀ root, rootNode d order = .ok root → root.isTerminal = false →
      Guarded (· = ((treeTerminals order base).alloc root).2)
        (expandTree order ⟨base, base + 1⟩ (order.length + 1) (base + 2))
        fun t a => Q (t.map fun _ => base + 2) a) :
    Guarded (· = ⟨base, #[]⟩) (decisionTree d order) Q := by
  unfold decisionTree
  refine .bind (.modifyGet (Q := fun yes a => a = (Arena.terminal true order.length ⟨base, #[]⟩).2 ∧
    yes = base) fun a h => by subst h; exact ⟨rfl, rfl⟩) fun yes => ?_
  refine .bind (.modifyGet (Q := fun no a => a = treeTerminals order base ∧ yes = base ∧
    no = base + 1) fun a h => by obtain ⟨rfl, rfl⟩ := h; exact ⟨rfl, rfl, rfl⟩) fun no => ?_
  split
  · next f hroot => exact .pure fun a h => by rw [h.1]; exact fail f hroot
  next root hroot =>
  split
  · next hterm => exact .pure fun a h => by obtain ⟨rfl, rfl, rfl⟩ := h; exact leaf root hroot hterm
  next hterm =>
  refine .bind (.modifyGet (Q := fun rid a => a = ((treeTerminals order base).alloc root).2 ∧
    rid = base + 2 ∧ yes = base ∧ no = base + 1) fun a h => by obtain ⟨rfl, h⟩ := h; exact ⟨rfl, rfl, h⟩)
    fun rid => .of_state fun a h => ?_
  obtain ⟨rfl, rfl, rfl, rfl⟩ := h
  refine .bind (grow root hroot (Bool.eq_false_iff.2 hterm)) fun t => ?_
  rcases t with f | u <;> exact .pure fun a h => h

/-- A tree build leaves a fresh arena from its base, and answers a node of it. -/
theorem decisionTree_fresh (d : Diagram) (order : List String) (base : Nat) :
    Guarded (· = ⟨base, #[]⟩) (decisionTree d order)
      fun res a => a.Fresh ∧ a.base = base ∧ ∀ root, res = .ok root → (a.at? root).isSome := by
  have h₂ : (treeTerminals order base).Fresh :=
    ((fresh_empty base).terminal true _).terminal false _
  have hy : ((treeTerminals order base).at? base).isSome := by simp [treeTerminals, at?_terminals]
  have hn : ((treeTerminals order base).at? (base + 1)).isSome := by
    simp [treeTerminals, at?_terminals]
  refine decisionTree_guarded (fun _ _ => ⟨h₂, rfl, fun _ h => by cases h⟩)
    (fun _ _ _ => ⟨h₂, rfl, fun r hr => ?_⟩) fun root hroot _ => ?_
  · cases hr
    split
    · exact hy
    · exact hn
  -- the root is expanded in the arena of the terminals and the root
  obtain ⟨hmark, hlow, hhigh, -⟩ := rootNode_unlinked hroot
  have hk := keeps_alloc root (treeTerminals order base)
  refine (expandTree_fresh _ _ _ (h₂.alloc hmark fun c hc => ?_) (hk.isSome hy)
    (hk.isSome hn)).mono fun t a h => ⟨h.1, h.2.base, fun r hr => ?_⟩
  · simp [hlow, hhigh] at hc
  · rcases t with f | u <;> cases hr
    exact h.2.isSome (by simp [at?_alloc])

end Tree

/-! ### The first phase of the reduced build -/

namespace Layer

/-- The level of the node with an id. -/
def levelAt (l : Layer) (i : Nat) : Option Nat :=
  l.nodes[i]?.map (·.level)

theorem levelAt_lt {l : Layer} {i k : Nat} (h : l.levelAt i = some k) : i < l.nodes.size := by
  unfold levelAt at h
  by_contra hi
  rw [Array.getElem?_eq_none (by omega)] at h
  cases h

theorem levelAt_eq_some {l : Layer} {i k : Nat} :
    l.levelAt i = some k ↔ ∃ m : DNode, l.nodes[i]? = some m ∧ m.level = k :=
  Option.map_eq_some_iff

theorem levelAt_push (l : Layer) (n : DNode) (seen : Std.HashMap (String × Nat) Nat) (i : Nat) :
    ({ nodes := l.nodes.push n, seen := seen } : Layer).levelAt i =
      if i = l.nodes.size then some n.level else l.levelAt i := by
  unfold levelAt
  rw [Array.getElem?_push]
  split <;> rfl

theorem levelAt_modify (l : Layer) (id : Nat) {f : DNode → DNode} (hf : ∀ m, (f m).level = m.level)
    (i : Nat) : ({ l with nodes := l.nodes.modify id f } : Layer).levelAt i = l.levelAt i := by
  unfold levelAt
  rw [Array.getElem?_modify]
  split
  · cases l.nodes[i]? <;> simp [hf]
  · rfl

/-- A later state of the first phase: each node keeps its level, and the nodes added stand at
levels from `L` on. -/
structure Grows (L : Nat) (l l' : Layer) : Prop where
  keeps : ∀ i k, l.levelAt i = some k → l'.levelAt i = some k
  adds : ∀ i k, l.levelAt i = none → l'.levelAt i = some k → L ≤ k

theorem Grows.refl (L : Nat) (l : Layer) : Grows L l l :=
  ⟨fun _ _ h => h, fun _ _ h h' => by rw [h] at h'; cases h'⟩

theorem Grows.trans {L L' : Nat} {l l₁ l₂ : Layer} (h₁ : Grows L l l₁) (h₂ : Grows L' l₁ l₂)
    (hL : L ≤ L') : Grows L l l₂ := by
  refine ⟨fun i k h => h₂.keeps i k (h₁.keeps i k h), fun i k h h' => ?_⟩
  cases h₁' : l₁.levelAt i with
  | none => exact Nat.le_trans hL (h₂.adds i k h₁' h')
  | some k₁ =>
    have := h₂.keeps i k₁ h₁'
    rw [h'] at this
    cases this
    exact h₁.adds i k h h₁'

variable (order : List String)

/-- The first phase as it keeps its nodes: the two terminals and more, none marked; past the
terminals each node stands above the last level and its children are terminals or nodes one
level down; the table of texts finds nodes past the terminals at the level it is asked for. -/
structure Tiered (l : Layer) : Prop where
  two_le : 2 ≤ l.nodes.size
  unmarked : ∀ (i : Nat) (m : DNode), l.nodes[i]? = some m → m.highlight = false
  level_lt : ∀ (i : Nat) (m : DNode), 2 ≤ i → l.nodes[i]? = some m → m.level < order.length
  children : ∀ (i : Nat) (m : DNode) (c : Nat), 2 ≤ i → l.nodes[i]? = some m →
    (m.low = some c ∨ m.high = some c) → c < 2 ∨ (2 ≤ c ∧ l.levelAt c = some (m.level + 1))
  seen : ∀ (t : String) (L i : Nat), l.seen[(t, L)]? = some i → 2 ≤ i ∧ l.levelAt i = some L

variable {order}

/-- The first phase with a new node for a text at a level, found by its text from then on. -/
def withNode (l : Layer) (v : String) (r : Residual) (text : String) (L : Nat) : Layer :=
  { nodes := l.nodes.push { DNode.internal v r text L with id := l.nodes.size },
    seen := l.seen.insert (text, L) l.nodes.size }

/-- A new node for a text at a level above the last keeps the first phase tiered. -/
theorem Tiered.push {l : Layer} (hl : l.Tiered order) (v : String) (r : Residual) (text : String)
    {L : Nat} (hL : L < order.length) : (l.withNode v r text L).Tiered order := by
  unfold withNode
  refine ⟨?_, fun i m hm => ?_, fun i m hi hm => ?_, fun i m c hi hm hc => ?_, fun t L' i h => ?_⟩
  · simp only [Array.size_push]
    exact Nat.le_succ_of_le hl.two_le
  all_goals try rw [Array.getElem?_push] at hm
  all_goals try split at hm
  · cases hm; rfl
  · exact hl.unmarked i m hm
  · cases hm; exact hL
  · exact hl.level_lt i m hi hm
  · cases hm; rcases hc with hc | hc <;> cases hc
  · rw [levelAt_push]
    rcases hl.children i m c hi hm hc with hc' | ⟨h2, hc'⟩
    · exact .inl hc'
    · exact .inr ⟨h2, by rw [if_neg (Nat.ne_of_lt (levelAt_lt hc')), hc']⟩
  · rw [Std.HashMap.getElem?_insert] at h
    rw [levelAt_push]
    split at h
    · cases h
      rename_i heq
      obtain ⟨-, rfl⟩ := Prod.mk.inj (beq_iff_eq.1 heq)
      exact ⟨hl.two_le, by rw [if_pos rfl]; rfl⟩
    · obtain ⟨h2, hi⟩ := hl.seen t L' i h
      exact ⟨h2, by rw [if_neg (Nat.ne_of_lt (levelAt_lt hi)), hi]⟩

/-- Linking a node past the terminals to terminals or nodes one level down keeps the first
phase tiered. -/
theorem Tiered.link {l : Layer} (hl : l.Tiered order) (id lo hi : Nat)
    (hc : ∀ m : DNode, l.nodes[id]? = some m → ∀ c, (c = lo ∨ c = hi) →
      c < 2 ∨ (2 ≤ c ∧ l.levelAt c = some (m.level + 1))) :
    ({ l with nodes := l.nodes.modify id fun m => { m with low := some lo, high := some hi } } :
      Layer).Tiered order := by
  have hlev := levelAt_modify l id (f := fun m => { m with low := some lo, high := some hi })
    fun _ => rfl
  refine ⟨by simpa using hl.two_le, fun i m hm => ?_, fun i m hi' hm => ?_,
    fun i m c hi' hm hmc => ?_, fun t L i h => ?_⟩
  all_goals try (rw [Array.getElem?_modify] at hm; split at hm)
  · obtain ⟨m', hm', rfl⟩ := Option.map_eq_some_iff.1 hm
    exact hl.unmarked i m' hm'
  · exact hl.unmarked i m hm
  · obtain ⟨m', hm', rfl⟩ := Option.map_eq_some_iff.1 hm
    exact hl.level_lt i m' hi' hm'
  · exact hl.level_lt i m hi' hm
  · obtain ⟨m', hm', rfl⟩ := Option.map_eq_some_iff.1 hm
    rename_i hid
    subst hid
    rw [hlev]
    rcases hmc with hmc | hmc <;> cases hmc
    · exact hc m' hm' lo (.inl rfl)
    · exact hc m' hm' hi (.inr rfl)
  · rw [hlev]
    exact hl.children i m c hi' hm hmc
  · rw [hlev]
    exact hl.seen t L i h

theorem Tiered.level_lt' {l : Layer} (hl : l.Tiered order) {i k : Nat} (hi : 2 ≤ i)
    (h : l.levelAt i = some k) : k < order.length := by
  obtain ⟨m, hm, rfl⟩ := levelAt_eq_some.1 h
  exact hl.level_lt i m hi hm

/-- The first phase while it expands the nodes `ids` of level `L`: every node past the terminals
is at most one level further down, those of level `L` are `ids`, and those of the next level
are the nodes `found` so far. -/
structure Wave (L : Nat) (ids found : List Nat) (l : Layer) : Prop where
  le : ∀ i k, 2 ≤ i → l.levelAt i = some k → k ≤ L + 1
  current : ∀ i, 2 ≤ i → l.levelAt i = some L → i ∈ ids
  next : ∀ i, 2 ≤ i → l.levelAt i = some (L + 1) → i ∈ found
  ids_at : ∀ i ∈ ids, 2 ≤ i ∧ l.levelAt i = some L
  found_at : ∀ i ∈ found, 2 ≤ i ∧ l.levelAt i = some (L + 1)

theorem Wave.of_levelAt {L : Nat} {ids found : List Nat} {l l' : Layer} (hw : Wave L ids found l)
    (h : ∀ i, l'.levelAt i = l.levelAt i) : Wave L ids found l' := by
  refine ⟨fun i k hi hk => ?_, fun i hi hk => ?_, fun i hi hk => ?_, fun i hi => ?_,
    fun i hi => ?_⟩
  · exact hw.le i k hi (by rwa [h] at hk)
  · exact hw.current i hi (by rwa [h] at hk)
  · exact hw.next i hi (by rwa [h] at hk)
  · rw [h]
    exact hw.ids_at i hi
  · rw [h]
    exact hw.found_at i hi

/-- A node made for a cofactor of a node of level `L` joins the nodes found, when it is new. -/
theorem Wave.child {L : Nat} {ids found : List Nat} {l l' : Layer} (hw : Wave L ids found l)
    (hg : Grows (L + 1) l l') {res : Except Failure (Nat × Bool)}
    (hnew : ∀ i k, l.levelAt i = none → l'.levelAt i = some k → res = .ok (i, true))
    (hres : ∀ c new, res = .ok (c, new) →
      (c < 2 ∧ new = false) ∨ (2 ≤ c ∧ l'.levelAt c = some (L + 1)))
    {c : Nat} {new : Bool} (h : res = .ok (c, new)) :
    Wave L ids (if new then found ++ [c] else found) l' := by
  have hsub : ∀ i ∈ found, i ∈ (if new then found ++ [c] else found) := fun i hi => by
    split <;> simp [hi]
  -- a node of `l'` that `l` does not have is the new node answered
  have fresh : ∀ i k, l.levelAt i = none → l'.levelAt i = some k →
      i = c ∧ new = true ∧ 2 ≤ i ∧ k = L + 1 := by
    intro i k h₀ h₁
    have := hnew i k h₀ h₁
    rw [h] at this
    obtain ⟨rfl, rfl⟩ := Prod.mk.inj (Except.ok.inj this)
    rcases hres c true h with ⟨-, hf⟩ | ⟨h2, hl⟩
    · cases hf
    · rw [h₁] at hl
      exact ⟨rfl, rfl, h2, Option.some.inj hl⟩
  refine ⟨fun i k hi hk => ?_, fun i hi hk => ?_, fun i hi hk => ?_, fun i hi => ?_,
    fun i hi => ?_⟩
  · cases h₀ : l.levelAt i with
    | none => exact Nat.le_of_eq (fresh i k h₀ hk).2.2.2
    | some k₀ =>
      rw [hg.keeps i k₀ h₀] at hk
      cases hk
      exact hw.le i k hi h₀
  · cases h₀ : l.levelAt i with
    | none => exact absurd (fresh i L h₀ hk).2.2.2 (by omega)
    | some k₀ =>
      rw [hg.keeps i k₀ h₀] at hk
      cases hk
      exact hw.current i hi h₀
  · cases h₀ : l.levelAt i with
    | none =>
      obtain ⟨rfl, rfl, -⟩ := fresh i _ h₀ hk
      simp
    | some k₀ =>
      rw [hg.keeps i k₀ h₀] at hk
      cases hk
      exact hsub i (hw.next i hi h₀)
  · obtain ⟨h2, hk⟩ := hw.ids_at i hi
    exact ⟨h2, hg.keeps i L hk⟩
  · cases new
    · rw [if_neg Bool.false_ne_true] at hi
      obtain ⟨h2, hk⟩ := hw.found_at i hi
      exact ⟨h2, hg.keeps i _ hk⟩
    · rw [if_pos rfl] at hi
      rcases List.mem_append.1 hi with hi | hi
      · obtain ⟨h2, hk⟩ := hw.found_at i hi
        exact ⟨h2, hg.keeps i _ hk⟩
      · rw [List.mem_singleton.1 hi]
        rcases hres c true h with ⟨-, hf⟩ | hc
        · cases hf
        · exact hc

/-- Once a level is expanded, the nodes found are the nodes of the next level. -/
theorem Wave.advance {L : Nat} {ids next : List Nat} {l : Layer} (hw : Wave L ids next l) :
    Wave (L + 1) next [] l := by
  refine ⟨fun i k hi hk => Nat.le_succ_of_le (hw.le i k hi hk), fun i hi hk => hw.next i hi hk,
    fun i hi hk => ?_, fun i hi => hw.found_at i hi, fun i hi => by cases hi⟩
  have := hw.le i _ hi hk
  omega

/-- Lists of levels from `L` on: the `k`-th holds exactly the nodes past the terminals at level
`L + k`. -/
def Complete (L : Nat) (levels : List (List Nat)) (l : Layer) : Prop :=
  ∀ k i, i ∈ levels.getD k [] ↔ 2 ≤ i ∧ l.levelAt i = some (L + k)

/-- The nodes of a level, before the lists of the levels below it. -/
theorem Complete.tail {L : Nat} {ids : List Nat} {rest : List (List Nat)} {l : Layer}
    (hc : Complete L (ids :: rest) l) : Complete (L + 1) rest l := by
  intro k i
  rw [← List.getD_cons_succ (x := ids), hc (k + 1) i, show L + (k + 1) = L + 1 + k by omega]

theorem Complete.cons {L : Nat} {ids next : List Nat} {rest : List (List Nat)} {l₁ l₂ : Layer}
    (hw : Wave L ids next l₁) (hg : Grows (L + 2) l₁ l₂) (hc : Complete (L + 1) rest l₂) :
    Complete L (ids :: rest) l₂ := by
  intro k i
  cases k with
  | zero =>
    refine ⟨fun hi => ?_, fun ⟨hi, hk⟩ => ?_⟩
    · obtain ⟨h2, hk⟩ := hw.ids_at i hi
      exact ⟨h2, hg.keeps i L hk⟩
    · -- a node of level `L` was there before the levels below were expanded
      cases h₁ : l₁.levelAt i with
      | none => exact absurd (hg.adds i L h₁ hk) (by omega)
      | some k₁ =>
        rw [hg.keeps i k₁ h₁] at hk
        cases hk
        exact hw.current i hi h₁
  | succ k =>
    rw [List.getD_cons_succ, hc k i, show L + 1 + k = L + (k + 1) by omega]

end Layer

open Layer

section Layers

variable {order : List String}

/-- A law of the nodes of the first phase, by their index: every node the phase adds obeys it at
the index it is given, and linking a node to children keeps it. -/
structure NodeLaw (p : Nat → DNode → Prop) : Prop where
  new : ∀ i v r text L, p i { DNode.internal v r text L with id := i }
  link : ∀ i m lo hi, p i m → p i { m with low := some lo, high := some hi }

/-- Every node of the first phase obeys `p`. -/
def Layer.Obeys (p : Nat → DNode → Prop) (l : Layer) : Prop :=
  ∀ (i : Nat) (m : DNode), l.nodes[i]? = some m → p i m

section Obeys

variable {p : Nat → DNode → Prop}

theorem layerChild_obeys (hp : NodeLaw p) (r : Residual) (L : Nat) :
    Guarded (Layer.Obeys p) (layerChild order r L) fun _ l => l.Obeys p := by
  unfold layerChild
  cases r with
  | const v => exact .pure fun _ h => h
  | expr x =>
    refine .bind (.lift (T := fun _ => True) fun _ => trivial) fun t => ?_
    rcases t with f | text
    · exact .pure fun _ h => h.1
    cases order[L]? with
    | none => exact .pure fun _ h => h.1
    | some v =>
      refine .bind .get fun s => ?_
      cases s.seen[(text, L)]? with
      | some i => exact .pure fun _ h => h.1.1
      | none =>
        refine .bind .get fun _ => .bind (.modify (R := fun _ l => l.Obeys p) fun l h => ?_)
          fun _ => .pure fun _ h => h
        obtain ⟨⟨⟨hl, -⟩, rfl⟩, rfl⟩ := h
        -- the new node is pushed at the index it is given
        intro i m hm
        rw [Array.getElem?_push] at hm
        split at hm
        · next hi =>
          cases hm
          rw [hi]
          exact hp.new _ _ _ _ _
        · exact hl i m hm

theorem expandNode_obeys (hp : NodeLaw p) (acc : Except Failure (List Nat)) (id : Nat) :
    Guarded (Layer.Obeys p) (expandNode order acc id) fun _ l => l.Obeys p := by
  unfold expandNode
  cases acc with
  | error f => exact .pure fun _ h => h
  | ok found =>
  refine .bind .get fun s => ?_
  split
  case h_2 => exact .pure fun _ h => h.1
  refine .bind (.lift (T := fun _ => True) fun _ => trivial) fun t => ?_
  rcases t with f | ⟨hr, lr⟩
  · exact .pure fun _ h => h.1.1
  refine .bind ((layerChild_obeys hp hr _).pre fun _ h => h.1.1) fun t => ?_
  rcases t with f | ⟨hi, newHi⟩
  · exact .pure fun _ h => h
  refine .bind (layerChild_obeys hp lr _) fun t => ?_
  rcases t with f | ⟨lo, newLo⟩
  · exact .pure fun _ h => h
  -- the link changes children only
  refine .bind (.modify (R := fun _ l => l.Obeys p) fun l h => ?_) fun _ => .pure fun _ h => h
  intro i m hm
  rw [Array.getElem?_modify] at hm
  split at hm
  · obtain ⟨m', hm', rfl⟩ := Option.map_eq_some_iff.1 hm
    exact hp.link i m' lo hi (h i m' hm')
  · exact h i m hm

/-- The first phase keeps every law of its nodes. -/
theorem expandLayers_obeys (hp : NodeLaw p) : ∀ (fuel : Nat) (ids : List Nat),
    Guarded (Layer.Obeys p) (expandLayers order fuel ids) fun _ l => l.Obeys p
  | 0, _ => .pure fun _ h => h
  | fuel + 1, ids => by
    unfold expandLayers
    split
    · exact .pure fun _ h => h
    refine .bind (Guarded.foldlM (I := fun _ (l : Layer) => l.Obeys p) ids
      (fun _ _ acc => expandNode_obeys hp acc _) _) fun t => ?_
    rcases t with f | next
    · exact .pure fun _ h => h
    refine .bind (expandLayers_obeys hp fuel next) fun t => ?_
    rcases t with f | rest <;> exact .pure fun _ h => h

end Obeys

/-- The node of the first phase for a cofactor at level `L`: a terminal, a node of the level
found by its text, or a new node of the level, which it reports. -/
theorem layerChild_tiered {l : Layer} (hl : l.Tiered order) (r : Residual) (L : Nat) :
    Guarded (· = l) (layerChild order r L) fun res l' => l'.Tiered order ∧ Grows L l l' ∧
      (∀ i k, l.levelAt i = none → l'.levelAt i = some k → res = .ok (i, true)) ∧
      ∀ c new, res = .ok (c, new) → (c < 2 ∧ new = false) ∨ (2 ≤ c ∧ l'.levelAt c = some L) := by
  -- the cases that leave the first phase as it is
  have same : ∀ res : Except Failure (Nat × Bool), (∀ c new, res = .ok (c, new) →
      (c < 2 ∧ new = false) ∨ (2 ≤ c ∧ l.levelAt c = some L)) → ∀ l', l' = l →
      l'.Tiered order ∧ Grows L l l' ∧
      (∀ i k, l.levelAt i = none → l'.levelAt i = some k → res = .ok (i, true)) ∧
      ∀ c new, res = .ok (c, new) → (c < 2 ∧ new = false) ∨ (2 ≤ c ∧ l'.levelAt c = some L) := by
    rintro res hres l' rfl
    refine ⟨hl, Grows.refl L l', fun i k h h' => ?_, hres⟩
    rw [h] at h'
    cases h'
  unfold layerChild
  cases r with
  | const v =>
    exact .pure fun l' h => same _ (fun c new hc => by cases hc; left; cases v <;> simp) l' h
  | expr x =>
    refine .bind (.lift (T := fun _ => True) fun _ => trivial) fun t => ?_
    rcases t with f | text
    · exact .pure fun l' h => same _ (fun _ _ h => by cases h) l' h.1
    cases hv : order[L]? with
    | none => exact .pure fun l' h => same _ (fun _ _ h => by cases h) l' h.1
    | some v =>
      refine .bind .get fun s => ?_
      cases hs : s.seen[(text, L)]? with
      | some i =>
        refine .pure fun l' h => same _ (fun c new hc => ?_) l' h.1.1
        cases hc
        obtain ⟨⟨rfl, -⟩, rfl⟩ := h
        exact .inr (hl.seen text L i hs)
      | none =>
        have hL : L < order.length := (List.getElem?_eq_some_iff.1 hv).1
        refine .bind .get fun s₂ => ?_
        refine .bind (.modify (R := fun _ l' => l' = l.withNode v (.expr x) text L ∧ s₂ = l)
          fun l₁ h => ?_) fun _ => .pure ?_
        · obtain ⟨⟨⟨rfl, -⟩, -⟩, rfl⟩ := h
          exact ⟨rfl, rfl⟩
        · rintro l' ⟨rfl, rfl⟩
          refine ⟨hl.push v _ text hL, ⟨fun i k h => ?_, fun i k h h' => ?_⟩, fun i k h h' => ?_,
            fun c new hc => ?_⟩
          · rw [withNode, levelAt_push, if_neg (Nat.ne_of_lt (levelAt_lt h)), h]
          · rw [withNode, levelAt_push] at h'
            split at h'
            · cases h'; exact Nat.le_refl _
            · rw [h] at h'; cases h'
          · rw [withNode, levelAt_push] at h'
            split at h'
            · rename_i hi; rw [hi]
            · rw [h] at h'; cases h'
          · cases hc
            exact .inr ⟨hl.two_le, by rw [withNode, levelAt_push, if_pos rfl]; rfl⟩

/-- The node made for a cofactor of a node of level `L` while the level is expanded. -/
theorem layerChild_wave {L : Nat} {ids found : List Nat} {l : Layer} (hl : l.Tiered order)
    (hw : Wave L ids found l) (r : Residual) :
    Guarded (· = l) (layerChild order r (L + 1)) fun res l' => l'.Tiered order ∧
      Grows (L + 1) l l' ∧ ∀ c new, res = .ok (c, new) →
        Wave L ids (if new then found ++ [c] else found) l' ∧
          (c < 2 ∨ (2 ≤ c ∧ l'.levelAt c = some (L + 1))) :=
  (layerChild_tiered hl r (L + 1)).mono fun _ _ h => ⟨h.1, h.2.1, fun c new hc =>
    ⟨hw.child h.2.1 h.2.2.1 h.2.2.2 hc, (h.2.2.2 c new hc).imp And.left id⟩⟩

variable (order) in
/-- The first phase while the nodes `ids` of level `L` are expanded from `l₀`: tiered, grown from
`l₀` by nodes of the next level only, and in the wave of the nodes found so far unless an
expansion failed. -/
def Sweeping (L : Nat) (ids : List Nat) (l₀ : Layer) (acc : Except Failure (List Nat))
    (l : Layer) : Prop :=
  l.Tiered order ∧ Grows (L + 1) l₀ l ∧ ∀ found, acc = .ok found → Wave L ids found l

/-- Expanding a node of the level keeps the sweep: the node is linked to terminals or to nodes of
the next level, and the new ones join the nodes found. -/
theorem expandNode_sweeping {L : Nat} {ids : List Nat} {l₀ : Layer} {id : Nat} (hid : id ∈ ids)
    (acc : Except Failure (List Nat)) :
    Guarded (Sweeping order L ids l₀ acc) (expandNode order acc id) (Sweeping order L ids l₀) := by
  unfold expandNode
  cases acc with
  | error f => exact .pure fun _ h => h
  | ok found =>
  refine .bind .get fun s => ?_
  split
  case h_2 => exact .pure fun _ h => h.1
  rename_i n hn
  refine .bind (.lift (T := fun _ => True) fun _ => trivial) fun t => ?_
  rcases t with f | ⟨hr, lr⟩
  · exact .pure fun _ h => ⟨h.1.1.1, h.1.1.2.1, fun _ h => by cases h⟩
  refine .of_state fun l₁ h₁ => ?_
  obtain ⟨⟨⟨hT₁, hG₁, hW₁⟩, rfl⟩, -⟩ := h₁
  -- the node expanded is of level `L`
  have hlev : n.level = L := by
    have := (hW₁ found rfl).ids_at id hid
    rw [levelAt, hn] at this
    exact Option.some.inj this.2
  rw [hlev]
  refine .bind (layerChild_wave hT₁ (hW₁ found rfl) hr) fun t => ?_
  rcases t with f | ⟨hi, newHi⟩
  · exact .pure fun _ h => ⟨h.1, hG₁.trans h.2.1 (Nat.le_refl _), fun _ h => by cases h⟩
  refine .bind (.of_state fun l₂ h₂ => (layerChild_wave h₂.1 (h₂.2.2 hi newHi rfl).1 lr).mono
    (S := fun res l₃ => l₃.Tiered order ∧ Grows (L + 1) s l₃ ∧
      (hi < 2 ∨ (2 ≤ hi ∧ l₃.levelAt hi = some (L + 1))) ∧ ∀ lo newLo, res = .ok (lo, newLo) →
        Wave L ids (if newLo then (if newHi then found ++ [hi] else found) ++ [lo]
          else if newHi then found ++ [hi] else found) l₃ ∧
        (lo < 2 ∨ (2 ≤ lo ∧ l₃.levelAt lo = some (L + 1))))
    fun _ l₃ h₃ => ⟨h₃.1, h₂.2.1.trans h₃.2.1 (Nat.le_refl _),
      (h₂.2.2 hi newHi rfl).2.imp (fun h => h) fun h => ⟨h.1, h₃.2.1.keeps hi _ h.2⟩, h₃.2.2⟩)
    fun t => ?_
  rcases t with f | ⟨lo, newLo⟩
  · exact .pure fun _ h => ⟨h.1, hG₁.trans h.2.1 (Nat.le_refl _), fun _ h => by cases h⟩
  -- link the node to its two children
  refine .bind (.modify (R := fun _ l₄ => Sweeping order L ids l₀ (.ok
      (if newLo then (if newHi then found ++ [hi] else found) ++ [lo]
        else if newHi then found ++ [hi] else found)) l₄) fun l₃ h₃ => ?_) fun _ => .pure ?_
  · obtain ⟨hT₃, hG₃, hhi, hlo⟩ := h₃
    obtain ⟨hW₃, hlo⟩ := hlo lo newLo rfl
    have hmod := levelAt_modify l₃ id (f := fun m => { m with low := some lo, high := some hi })
      fun _ => rfl
    have hlev₃ : l₃.levelAt id = some L := hG₃.keeps id L ((hW₁ found rfl).ids_at id hid).2
    refine ⟨hT₃.link id lo hi fun m hm c hc => ?_, ?_, fun _ h => ?_⟩
    · simp only [levelAt, hm, Option.map_some, Option.some.injEq] at hlev₃
      rw [hlev₃]
      rcases hc with rfl | rfl
      · exact hlo
      · exact hhi
    · exact hG₁.trans (⟨fun i k h => by rw [hmod]; exact hG₃.keeps i k h,
        fun i k h h' => by rw [hmod] at h'; exact hG₃.adds i k h h'⟩) (Nat.le_refl _)
    · cases h
      exact hW₃.of_levelAt hmod
  · exact fun _ h => h

/-- Expanding the nodes of a level keeps the sweep. -/
theorem expandLayer_sweeping {L : Nat} {ids : List Nat} {l₀ : Layer} :
    Guarded (Sweeping order L ids l₀ (.ok [])) (expandLayer order ids) (Sweeping order L ids l₀) :=
  Guarded.foldlM ids (fun _ hid acc => expandNode_sweeping hid acc) _

/-- Expanding level after level from the nodes `ids` of level `L`, with fuel for the levels
down to the last, leaves the first phase tiered with the nodes of the later levels only added,
and answers the lists of exactly the nodes of each level from `L` on. The induction is on the
fuel. -/
theorem expandLayers_complete : ∀ (fuel L : Nat) (ids : List Nat) (l : Layer), l.Tiered order →
    Wave L ids [] l → order.length ≤ L + fuel →
    Guarded (· = l) (expandLayers order fuel ids) fun res l' => l'.Tiered order ∧
      Grows (L + 1) l l' ∧ ∀ levels, res = .ok levels → Complete L levels l'
  | 0, L, ids, l, hl, _, hfuel => by
    refine .pure fun l' h => ?_
    subst h
    refine ⟨hl, .refl _ l', fun levels h k i => ?_⟩
    cases h
    -- no node stands at the last level or below it
    refine ⟨fun hi => by simp at hi, fun ⟨hi, hk⟩ => ?_⟩
    have := hl.level_lt' hi hk
    omega
  | fuel + 1, L, ids, l, hl, hw, hfuel => by
    unfold expandLayers
    split
    · refine .pure fun l' h => ?_
      subst h
      refine ⟨hl, .refl _ l', fun levels h k i => ?_⟩
      cases h
      rename_i hempty
      rw [List.isEmpty_iff] at hempty
      subst hempty
      -- no node is left at this level, nor one further down
      refine ⟨fun hi => by simp at hi, fun ⟨hi, hk⟩ => ?_⟩
      have hle := hw.le i _ hi hk
      rcases Nat.lt_or_ge k 1 with hk₀ | hk₁
      · cases hw.current i hi (by rwa [show L + k = L by omega] at hk)
      · cases hw.next i hi (by rwa [show L + k = L + 1 by omega] at hk)
    refine .bind (expandLayer_sweeping.pre fun l' h => by
      subst h; exact ⟨hl, .refl _ l', fun _ h => by cases h; exact hw⟩) fun t => ?_
    rcases t with f | next
    · exact .pure fun _ h => ⟨h.1, h.2.1, fun _ h => by cases h⟩
    refine .of_state fun l₁ h₁ => ?_
    obtain ⟨hT₁, hG₁, hW₁⟩ := h₁
    have hW := hW₁ next rfl
    refine .bind (expandLayers_complete fuel (L + 1) next l₁ hT₁ hW.advance (by omega)) fun t => ?_
    rcases t with f | rest
    · exact .pure fun _ h => ⟨h.1, hG₁.trans h.2.1 (by omega), fun _ h => by cases h⟩
    · exact .pure fun _ h => ⟨h.1, hG₁.trans h.2.1 (by omega), fun _ h' => by
        cases h'; exact Complete.cons hW h.2.1 (h.2.2 rest rfl)⟩

end Layers

/-! ### The second phase of the reduced build -/

section Reduce

variable {order : List String} {P : Layer}

/-- The state of the second phase as it keeps it: a fresh arena, and representatives and table
entries that are nodes of it. -/
structure Anchored (s : ReduceState) : Prop where
  fresh : s.2.2.Fresh
  reps : ∀ (i r : Nat), s.1[i]? = some r → (s.2.2.at? r).isSome
  table : ∀ (key : String × Nat × Nat) (r : Nat), s.2.1[key]? = some r → (s.2.2.at? r).isSome

/-- A child that has a representative is linked to a node of the arena. -/
theorem Anchored.repChild {s : ReduceState} (hs : Anchored s) {c : Option Nat}
    (hc : c.getD 0 ∈ s.1) : (s.2.2.at? (repChild s.1 c)).isSome := by
  obtain ⟨r, hr⟩ := Option.isSome_iff_exists.1 (Std.HashMap.mem_iff_isSome_getElem?.1 hc)
  rw [Diagram.repChild, Std.HashMap.getD_eq_getD_getElem?, hr, Option.getD_some]
  exact hs.reps _ r hr

theorem Anchored.keep {rep : Std.HashMap Nat Nat} {uniq : Std.HashMap (String × Nat × Nat) Nat}
    {a a' : Arena} (hs : Anchored (rep, uniq, a)) (ha : a'.Fresh) (hk : a.Keeps a') :
    Anchored (rep, uniq, a') :=
  ⟨ha, fun i r h => hk.isSome (hs.reps i r h), fun key r h => hk.isSome (hs.table key r h)⟩

theorem Anchored.insert {rep : Std.HashMap Nat Nat} {uniq : Std.HashMap (String × Nat × Nat) Nat}
    {a : Arena} (hs : Anchored (rep, uniq, a)) (id : Nat) {r : Nat} (hr : (a.at? r).isSome) :
    Anchored (rep.insert id r, uniq, a) := by
  refine ⟨hs.fresh, fun i r' h => ?_, hs.table⟩
  rw [Std.HashMap.getElem?_insert] at h
  split at h
  · cases h
    exact hr
  · exact hs.reps i r' h

/-- A new node, not marked and linked to nodes of the arena, becomes the representative of a
node of the first phase and is recorded in the table. -/
theorem Anchored.alloc {rep : Std.HashMap Nat Nat} {uniq : Std.HashMap (String × Nat × Nat) Nat}
    {a : Arena} (hs : Anchored (rep, uniq, a)) {n : DNode} (hn : n.highlight = false)
    (hc : ∀ c, n.low = some c ∨ n.high = some c → (a.at? c).isSome) (id : Nat)
    (key : String × Nat × Nat) :
    Anchored (rep.insert id a.next, uniq.insert key a.next, (a.alloc n).2) := by
  have hk := keeps_alloc n a
  have hnew : ((a.alloc n).2.at? a.next).isSome := by simp [at?_alloc]
  refine ⟨hs.fresh.alloc hn hc, fun i r h => ?_, fun key' r h => ?_⟩
  · rw [Std.HashMap.getElem?_insert] at h
    split at h
    · cases h
      exact hnew
    · exact hk.isSome (hs.reps i r h)
  · rw [Std.HashMap.getElem?_insert] at h
    split at h
    · cases h
      exact hnew
    · exact hk.isSome (hs.table key' r h)

/-- A step of the second phase keeps its state anchored, keeps the arena and the nodes with a
representative, and gives the node of the first phase one, when the children of the node have
representatives. -/
theorem ReduceStep.anchored {id : Nat} {s s' : ReduceState} (h : ReduceStep P id s s')
    (hs : Anchored s) (hmark : ∀ m : DNode, P.nodes[id]? = some m → m.highlight = false)
    (hc : ∀ m : DNode, P.nodes[id]? = some m → m.low.getD 0 ∈ s.1 ∧ m.high.getD 0 ∈ s.1) :
    Anchored s' ∧ s.2.2.Keeps s'.2.2 ∧ (∀ i ∈ s.1, i ∈ s'.1) ∧
      ∀ m : DNode, P.nodes[id]? = some m → id ∈ s'.1 := by
  have hins : ∀ (rep : Std.HashMap Nat Nat) r, ∀ i ∈ rep, i ∈ rep.insert id r := fun _ _ i hi =>
    Std.HashMap.mem_insert.2 (.inr hi)
  have hself : ∀ (rep : Std.HashMap Nat Nat) r, id ∈ rep.insert id r := fun _ _ =>
    Std.HashMap.mem_insert.2 (.inl (beq_self_eq_true id))
  cases h with
  | missing hn => exact ⟨hs, .refl _, fun _ h => h, fun m hm => by rw [hn] at hm; cases hm⟩
  | collapse hn _ =>
    exact ⟨hs.insert id (hs.repChild (hc _ hn).1), .refl _, hins _ _, fun _ _ => hself _ _⟩
  | share hn _ hu =>
    exact ⟨hs.insert id (hs.table _ _ hu), .refl _, hins _ _, fun _ _ => hself _ _⟩
  | fresh hn _ _ =>
    -- the new node is linked to the representatives of the children
    refine ⟨?_, keeps_alloc _ _, hins _ _, fun _ _ => hself _ _⟩
    refine hs.alloc ?_ (fun c hc' => ?_) id _
    · exact (hmark _ hn :)
    rcases hc' with hc' | hc' <;> cases hc'
    · exact hs.repChild (hc _ hn).1
    · exact hs.repChild (hc _ hn).2

/-- The second phase on a level whose children all have representatives keeps its state
anchored, and gives every node of the level a representative. -/
theorem reduceLevel_anchored
    (hmark : ∀ (i : Nat) (m : DNode), P.nodes[i]? = some m → m.highlight = false) :
    ∀ (ids : List Nat) (s : ReduceState), Anchored s →
      (∀ i ∈ ids, ∀ m : DNode, P.nodes[i]? = some m → m.low.getD 0 ∈ s.1 ∧ m.high.getD 0 ∈ s.1) →
      Anchored (reduceLevel P ids s.1 s.2.1 s.2.2) ∧
        s.2.2.Keeps (reduceLevel P ids s.1 s.2.1 s.2.2).2.2 ∧
        (∀ i ∈ s.1, i ∈ (reduceLevel P ids s.1 s.2.1 s.2.2).1) ∧
        ∀ i ∈ ids, ∀ m : DNode, P.nodes[i]? = some m → i ∈ (reduceLevel P ids s.1 s.2.1 s.2.2).1
  | [], _, hs, _ => ⟨hs, .refl _, fun _ h => h, fun _ h => by cases h⟩
  | id :: ids, s, hs, hc => by
    obtain ⟨s₁, hstep, heq⟩ : ∃ s₁, ReduceStep P id s s₁ ∧
        reduceLevel P (id :: ids) s.1 s.2.1 s.2.2 = reduceLevel P ids s₁.1 s₁.2.1 s₁.2.2 :=
      reduceLevel_cons ids s.1 s.2.1 s.2.2
    obtain ⟨hs₁, hk₁, hsub₁, hid₁⟩ := hstep.anchored hs (hmark id) (hc id List.mem_cons_self)
    -- the representatives only grow, so the children of the other nodes keep theirs
    obtain ⟨hs₂, hk₂, hsub₂, hids₂⟩ := reduceLevel_anchored hmark ids s₁ hs₁
      fun i hi m hm => (hc i (List.mem_cons_of_mem id hi) m hm).imp (hsub₁ _) (hsub₁ _)
    rw [heq]
    refine ⟨hs₂, hk₁.trans hk₂, fun i hi => hsub₂ i (hsub₁ i hi), fun i hi m hm => ?_⟩
    rcases List.mem_cons.1 hi with rfl | hi
    · exact hsub₂ _ (hid₁ m hm)
    · exact hids₂ i hi m hm

/-- The children of a node of a level of the first phase are terminals or nodes of the next
level: when these have representatives, both children of the node have one. -/
theorem children_represented (hP : P.Tiered order) {L : Nat} {ids : List Nat}
    {rest : List (List Nat)} (hc : Complete L (ids :: rest) P) {rep : Std.HashMap Nat Nat}
    (h0 : 0 ∈ rep) (h1 : 1 ∈ rep) (hfirst : ∀ i ∈ rest.getD 0 [], i ∈ rep) :
    ∀ i ∈ ids, ∀ m : DNode, P.nodes[i]? = some m → m.low.getD 0 ∈ rep ∧ m.high.getD 0 ∈ rep := by
  intro i hi m hm
  -- a node of level `L`: its children are terminals or nodes of level `L + 1`
  obtain ⟨h2, hlev⟩ := (hc 0 i).1 hi
  obtain ⟨m', hm', rfl⟩ := levelAt_eq_some.1 hlev
  rw [hm] at hm'
  cases hm'
  have child : ∀ c : Option Nat, (∀ c', c = some c' → m.low = some c' ∨ m.high = some c') →
      c.getD 0 ∈ rep := by
    intro c hc'
    cases c with
    | none => exact h0
    | some c =>
      rcases hP.children i m c h2 hm (hc' c rfl) with hlt | ⟨h2c, hlc⟩
      · rcases c with _ | _ | c
        · exact h0
        · exact h1
        · omega
      · exact hfirst c ((hc.tail 0 c).2 ⟨h2c, by rw [hlc]⟩)
  exact ⟨child m.low fun _ h => .inl h, child m.high fun _ h => .inr h⟩

/-- The second phase over the levels, from the last up: the state stays anchored, keeps the
terminals' representatives, and gives every node of the first level one. The induction is on
the levels; the children of a node of a level are terminals or nodes of the next level, which
were given their representatives first. -/
theorem foldr_reduceLevel_anchored {F : ReduceState → List Nat → ReduceState}
    (hF : ∀ s ids, F s ids = reduceLevel P ids s.1 s.2.1 s.2.2) (hP : P.Tiered order) :
    ∀ (levels : List (List Nat)) (L : Nat) (s : ReduceState), Complete L levels P → Anchored s →
      0 ∈ s.1 → 1 ∈ s.1 →
      Anchored (levels.foldr (fun ids s => F s ids) s) ∧
        s.2.2.Keeps (levels.foldr (fun ids s => F s ids) s).2.2 ∧
        0 ∈ (levels.foldr (fun ids s => F s ids) s).1 ∧
        1 ∈ (levels.foldr (fun ids s => F s ids) s).1 ∧
        ∀ i ∈ levels.getD 0 [], i ∈ (levels.foldr (fun ids s => F s ids) s).1
  | [], _, s, _, hs, h0, h1 => ⟨hs, .refl _, h0, h1, fun _ h => by simp at h⟩
  | ids :: rest, L, s, hc, hs, h0, h1 => by
    obtain ⟨hs₁, hk₁, h0₁, h1₁, hfirst⟩ :=
      foldr_reduceLevel_anchored hF hP rest (L + 1) s hc.tail hs h0 h1
    rw [List.foldr_cons, hF]
    obtain ⟨hs₂, hk₂, hsub₂, hids₂⟩ := reduceLevel_anchored hP.unmarked ids _ hs₁
      (children_represented hP hc h0₁ h1₁ hfirst)
    refine ⟨hs₂, hk₁.trans hk₂, hsub₂ 0 h0₁, hsub₂ 1 h1₁, fun i hi => ?_⟩
    obtain ⟨h2, hlev⟩ := (hc 0 i).1 hi
    obtain ⟨m, hm, -⟩ := levelAt_eq_some.1 hlev
    exact hids₂ i hi m hm

end Reduce

/-! ### The two builds -/

/-- The first phase as the reduced build starts it: the two terminals, and the root as node `2`,
found by its text at level `0`. -/
def startLayer (order : List String) (root : DNode) : Layer :=
  { nodes := #[{ DNode.terminal true "True" order.length with id := 0 },
      { DNode.terminal false "False" order.length with id := 1 }, { root with id := 2 }],
    seen := ({} : Std.HashMap (String × Nat) Nat).insert (root.text, 0) 2 }

/-- The first phase starts tiered, in the wave of its root. -/
theorem startLayer_tiered {order : List String} {root : DNode} (hmark : root.highlight = false)
    (hlow : root.low = none) (hhigh : root.high = none) (hlev : root.level = 0)
    (hord : 0 < order.length) :
    (startLayer order root).Tiered order ∧ Wave 0 [2] [] (startLayer order root) := by
  -- past the terminals there is the root only
  have only : ∀ i (m : DNode), 2 ≤ i → (startLayer order root).nodes[i]? = some m →
      i = 2 ∧ m = { root with id := 2 } := by
    intro i m hi hm
    rcases i with _ | _ | _ | i
    · omega
    · omega
    · simp only [startLayer, List.getElem?_toArray, List.getElem?_cons_succ,
        List.getElem?_cons_zero, Option.some.injEq] at hm
      exact ⟨rfl, hm.symm⟩
    · simp [startLayer] at hm
  have level_two : (startLayer order root).levelAt 2 = some 0 := by
    simp [startLayer, levelAt, hlev]
  have levels : ∀ i k, 2 ≤ i → (startLayer order root).levelAt i = some k → i = 2 ∧ k = 0 := by
    intro i k hi h
    obtain ⟨m, hm, rfl⟩ := levelAt_eq_some.1 h
    obtain ⟨rfl, rfl⟩ := only i m hi hm
    exact ⟨rfl, hlev⟩
  refine ⟨⟨by simp [startLayer], fun i m hm => ?_, fun i m hi hm => ?_,
    fun i m c hi hm hc => ?_, fun t L i h => ?_⟩, ⟨fun i k hi hk => ?_, fun i hi hk => ?_,
    fun i hi hk => ?_, fun i hi => ?_, fun i hi => by cases hi⟩⟩
  · rcases i with _ | _ | _ | i <;> simp [startLayer] at hm
    · rw [← hm]; rfl
    · rw [← hm]; rfl
    · rw [← hm]; exact hmark
  · obtain ⟨rfl, rfl⟩ := only i m hi hm
    rw [hlev]
    exact hord
  · obtain ⟨rfl, rfl⟩ := only i m hi hm
    simp [hlow, hhigh] at hc
  · rw [startLayer, Std.HashMap.getElem?_insert] at h
    split at h
    · cases h
      rename_i heq
      obtain ⟨-, rfl⟩ := Prod.mk.inj (beq_iff_eq.1 heq)
      exact ⟨Nat.le_refl 2, level_two⟩
    · simp at h
  · rw [(levels i k hi hk).2]
    omega
  · rw [(levels i 0 hi hk).1]
    exact List.mem_singleton_self 2
  · have := (levels i _ hi hk).2
    omega
  · rw [List.mem_singleton.1 hi]
    exact ⟨Nat.le_refl 2, level_two⟩

/-- The reduced build, step by step: the terminal of a constant root alone; else the first phase
from the root, described by a property `T` of its outcome that holds whatever the engine, and
when it succeeds, its levels reduced from the last up, from the terminals at `base` and
`base + 1`. -/
theorem reducedDiagram_guarded {d : Diagram} {order : List String} {base : Nat}
    {Q : Except Failure Nat → Arena → Prop} (T : Except Failure (List (List Nat)) × Layer → Prop)
    (fail : ∀ f, rootNode d order = .error f → Q (.error f) ⟨base, #[]⟩)
    (leaf : ∀ root, rootNode d order = .ok root → root.isTerminal = true →
      Q (.ok base) (Arena.terminal root.terminalValue order.length ⟨base, #[]⟩).2)
    (first : ∀ root, rootNode d order = .ok root → root.isTerminal = false → ∀ e,
      T (((expandLayers order (order.length + 1) [2]).run (startLayer order root)).run e).1)
    (stop : ∀ f layer, T (.error f, layer) → Q (.error f) ⟨base, #[]⟩)
    (reduce : ∀ levels layer, T (.ok levels, layer) → ∀ s : ReduceState,
      s = levels.reverse.foldl (fun s ids => reduceLevel layer ids s.1 s.2.1 s.2.2)
        (((∅ : Std.HashMap Nat Nat).insert 0 base).insert 1 (base + 1), ∅,
          treeTerminals order base) →
      Q (.ok (s.1.getD 2 0)) s.2.2) :
    Guarded (· = ⟨base, #[]⟩) (reducedDiagram d order) Q := by
  unfold reducedDiagram
  split
  · next f hroot => exact .pure fun a h => by rw [h]; exact fail f hroot
  next root hroot =>
  split
  · next hterm =>
    refine .bind (.modifyGet (Q := fun r a => a = (Arena.terminal root.terminalValue order.length
      ⟨base, #[]⟩).2 ∧ r = base) fun a h => by subst h; exact ⟨rfl, rfl⟩) fun r => .pure ?_
    rintro a ⟨rfl, rfl⟩
    exact leaf root hroot hterm
  next hterm =>
  refine .bind (.lift (T := T) (first root hroot (Bool.eq_false_iff.2 hterm))) fun p => ?_
  rcases p with ⟨f | levels, layer⟩
  · exact .pure fun a h => by rw [h.1]; exact stop f layer h.2
  refine .of_state fun a₀ h₀ => ?_
  obtain ⟨rfl, hT⟩ := h₀
  dsimp only
  -- the second phase, from the two terminals
  refine .bind (.modifyGet (Q := fun yes a => a = (Arena.terminal true order.length
    ⟨base, #[]⟩).2 ∧ yes = base) fun a h => by subst h; exact ⟨rfl, rfl⟩) fun yes => ?_
  refine .bind (.modifyGet (Q := fun no a => a = treeTerminals order base ∧ yes = base ∧
    no = base + 1) fun a h => by obtain ⟨rfl, h⟩ := h; exact ⟨rfl, h, rfl⟩) fun no => ?_
  refine .bind .get fun a => .of_state fun s h => ?_
  obtain ⟨⟨rfl, rfl, rfl⟩, rfl⟩ := h
  exact .bind (.set (R := fun _ a => a = _) fun _ _ => rfl) fun _ => .pure fun a h => by
    rw [h]; exact reduce levels layer hT _ rfl

/-- A reduced build leaves a fresh arena from its base, and answers a node of it. -/
theorem reducedDiagram_fresh (d : Diagram) (order : List String) (base : Nat) :
    Guarded (· = ⟨base, #[]⟩) (reducedDiagram d order)
      fun res a => a.Fresh ∧ a.base = base ∧ ∀ root, res = .ok root → (a.at? root).isSome := by
  -- the first phase, whatever the engine, answers the lists of the nodes of each level
  refine reducedDiagram_guarded (fun p => ∀ levels, p.1 = .ok levels → p.2.Tiered order ∧
    Complete 0 levels p.2 ∧ p.2.levelAt 2 = some 0)
    (fun _ _ => ⟨fresh_empty base, rfl, fun _ h => by cases h⟩)
    (fun _ _ _ => ⟨(fresh_empty base).terminal _ _, rfl, fun _ h => by
      cases h; simp [Arena.terminal, at?_alloc, Arena.next]⟩)
    (fun root hroot hterm e levels hl => ?_)
    (fun _ _ _ => ⟨fresh_empty base, rfl, fun _ h => by cases h⟩) fun levels layer hlayer s hs => ?_
  · obtain ⟨hmark, hlow, hhigh, hlev, hord⟩ := rootNode_unlinked hroot
    obtain ⟨hT, hW⟩ := startLayer_tiered hmark hlow hhigh hlev (hord hterm)
    have h := expandLayers_complete (order.length + 1) 0 [2] _ hT hW (by omega) _ e rfl
    exact ⟨h.1, h.2.2 levels hl, h.2.1.keeps 2 0 (hW.ids_at 2 (List.mem_singleton_self 2)).2⟩
  obtain ⟨hT, hC, h2⟩ := hlayer levels rfl
  -- the levels are reduced from the last up
  rw [List.foldl_reverse] at hs
  subst hs
  have hstart : Anchored (((∅ : Std.HashMap Nat Nat).insert 0 base).insert 1 (base + 1), ∅,
      treeTerminals order base) := by
    refine ⟨((fresh_empty base).terminal true _).terminal false _, fun i r h => ?_,
      fun key r h => by simp at h⟩
    simp only [Std.HashMap.getElem?_insert, Std.HashMap.getElem?_empty] at h
    split at h
    · cases h
      simp [treeTerminals, at?_terminals]
    · split at h
      · cases h
        simp [treeTerminals, at?_terminals]
      · cases h
  obtain ⟨hs, hk, -, -, hfirst⟩ := foldr_reduceLevel_anchored (F := fun s ids =>
    reduceLevel layer ids s.1 s.2.1 s.2.2) (fun _ _ => rfl) hT levels 0 _ hC hstart
    (by simp) (by simp)
  refine ⟨hs.fresh, hk.base, fun r hr => ?_⟩
  cases hr
  exact hs.repChild (c := some 2) (hfirst 2 ((hC 0 2).2 ⟨Nat.le_refl 2, h2⟩))

/-- Either build leaves, whatever the engine, a fresh arena from its base, and answers a node of
it. -/
theorem runBuild_fresh (d : Diagram) (k : Kind) (order : List String) (base : Nat) (e : Engine) :
    ((runBuild d k order base).run e).1.2.Fresh ∧ ((runBuild d k order base).run e).1.2.base = base ∧
      ∀ root, ((runBuild d k order base).run e).1.1 = .ok root →
        (((runBuild d k order base).run e).1.2.at? root).isSome := by
  cases k
  · exact decisionTree_fresh d order base _ e rfl
  · exact reducedDiagram_fresh d order base _ e rfl

end Diagram

end DecisionDiagrams
