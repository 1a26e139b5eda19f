/-
The first phase of a reduced build.

The first phase numbers its nodes from 0, the true terminal 0 and the false one 1, and expands
them level by level: a node's residual is expanded on the variable of its level, and each
cofactor becomes the terminal of its value when it is a constant, the node already made for its
text at the next level when there is one, and a new node otherwise. Seen as an arena from id 0
the nodes grow as in a tree build, and the table of texts makes each cofactor one node. On a
faithful engine whose names are variables of an order without repetitions the phase succeeds,
every node is settled with its internal children one level down, and the lists it answers hold,
for each level, exactly the nodes of that level.

* `Diagram.LayerArena` — the nodes during the phase, with the table of texts.
* `Diagram.layerChild_run` — the node for a cofactor: its terminal, the node of its text, or a
  new node.
* `Diagram.expandLayer_run` — expanding the nodes of a level settles them and finds the nodes of
  the next.
* `Diagram.expandLayers_run` — the whole phase.
-/
import DecisionDiagrams.Proofs.ExpandingArenas

namespace DecisionDiagrams

namespace Diagram

open Engine Arena

namespace Layer

/-- The nodes of the first phase as an arena from id 0. -/
def arena (l : Layer) : Arena :=
  ⟨0, l.nodes⟩

@[simp] theorem at?_arena (l : Layer) (i : Nat) : l.arena.at? i = l.nodes[i]? := by
  simp [arena, Arena.at?]

@[simp] theorem next_arena (l : Layer) : l.arena.next = l.nodes.size := by
  simp [arena, Arena.next]

theorem arena_push (l : Layer) (n : DNode) (seen : Std.HashMap (String × Nat) Nat) :
    ({ nodes := l.nodes.push { n with id := l.nodes.size }, seen := seen } : Layer).arena =
      (l.arena.alloc n).2 := by
  simp [arena, Arena.alloc, Arena.next]

theorem arena_modify (l : Layer) (id : Nat) (f : DNode → DNode) :
    ({ l with nodes := l.nodes.modify id f } : Layer).arena = l.arena.modifyNode id f := by
  simp [arena, Arena.modifyNode]

end Layer

variable (order : List String)

/-- The first phase during its expansion: its nodes are an arena during an expansion with the
true terminal at 0 and the false one at 1, and its table finds, for a text at a level below the
first, a node of that level whose residual the engine renders as that text. -/
structure LayerArena (l : Layer) (e : Engine) : Prop extends
    ExpandingArena order ⟨0, 1⟩ l.arena e where
  seen : ∀ t L i, l.seen[(t, L)]? = some i → ∃ n : DNode, l.nodes[i]? = some n ∧ n.level = L ∧
    (1 ≤ L → ∃ x, n.value = .expr x ∧ e.rendered[x]? = some t)

variable {order}

theorem LayerArena.later {l : Layer} {e e' : Engine} (hX : LayerArena order l e) (hs : Sound e)
    (hl : Later e e') : LayerArena order l e' := by
  refine ⟨hX.toExpandingArena.later hs hl, fun t L i hi => ?_⟩
  obtain ⟨n, hn, hlev, hx⟩ := hX.seen t L i hi
  exact ⟨n, hn, hlev, fun h1 => (hx h1).imp fun x hx => ⟨hx.1, hl.remembers x t hx.2⟩⟩

/-- A node of the first phase is a terminal only at 0 or 1. -/
theorem LayerArena.terminal_id {l : Layer} {e : Engine} (hX : LayerArena order l e) {i : Nat}
    {n : DNode} (hn : l.nodes[i]? = some n) (ht : n.isTerminal = true) : i = 0 ∨ i = 1 := by
  by_contra h
  rw [not_or] at h
  have := (hX.inner i n (by rw [Layer.at?_arena]; exact hn) h.1 h.2).1.1
  rw [ht] at this
  cases this

/-- An internal node of the first phase is neither terminal's. -/
theorem LayerArena.ne_terminals {l : Layer} {e : Engine} (hX : LayerArena order l e) {i : Nat}
    {n : DNode} (hn : l.nodes[i]? = some n) (ht : n.isTerminal = false) : i ≠ 0 ∧ i ≠ 1 := by
  have hterm : ∀ {b : Bool} {t : String} {j : Nat},
      l.arena.at? j = some { DNode.terminal b t order.length with id := j } → i ≠ j := by
    rintro b t j hj rfl
    rw [Layer.at?_arena, hn, Option.some.injEq] at hj
    rw [hj] at ht
    cases ht
  exact ⟨hterm hX.yes, hterm hX.no⟩

/-- An internal node of the first phase stands above the last level. -/
theorem LayerArena.level_lt {l : Layer} {e : Engine} (hX : LayerArena order l e) {i : Nat}
    {n : DNode} (hn : l.nodes[i]? = some n) (ht : n.isTerminal = false) : n.level < order.length := by
  obtain ⟨hy, hno⟩ := hX.ne_terminals hn ht
  obtain ⟨-, -, -, hlt⟩ := (hX.inner i n (by simpa using hn) hy hno).1.var_eq
  exact hlt

/-- Changing only the children of nodes, with the table kept, keeps the table's invariant. -/
theorem LayerArena.of_keeps {l l' : Layer} {e : Engine} (hX : LayerArena order l e)
    (hE : ExpandingArena order ⟨0, 1⟩ l'.arena e) (hk : l.arena.Keeps l'.arena)
    (hseen : l'.seen = l.seen) : LayerArena order l' e := by
  refine ⟨hE, fun t L i hi => ?_⟩
  rw [hseen] at hi
  obtain ⟨n, hn, hlev, hx⟩ := hX.seen t L i hi
  obtain ⟨n', hn', -, hval, hlev'⟩ := hk.node i n (by simpa using hn)
  exact ⟨n', by simpa using hn', hlev'.trans hlev, fun h1 => (hx h1).imp fun x hx =>
    ⟨hval.trans hx.1, hx.2⟩⟩

theorem Layer.lt_size {l : Layer} {i : Nat} {n : DNode} (h : l.nodes[i]? = some n) :
    i < l.nodes.size :=
  (Array.getElem?_eq_some_iff.1 h).1

theorem Layer.keeps_node {l l' : Layer} (hk : l.arena.Keeps l'.arena) {i : Nat} {n : DNode}
    (hn : l.nodes[i]? = some n) :
    ∃ n', l'.nodes[i]? = some n' ∧ n'.isTerminal = n.isTerminal ∧ n'.value = n.value ∧
      n'.level = n.level := by
  simpa using hk.isTerminal (j := i) (by simpa using hn)

/-! ### The node for a cofactor -/

/-- The node of the first phase for a residual at a level below the first: the terminal of its
value for a constant; for an expression, the node its text already has at that level, or else a
new node not yet expanded. An expression reads a variable, so it cannot stand at the last
level. -/
theorem layerChild_run {l : Layer} {e : Engine} (hX : LayerArena order l e) (hf : Faithful e)
    (hnames : ∀ y ∈ e.names.toList, y ∈ order) {r : Residual} (hr : r.Valid e) {L : Nat}
    (hfree : r.Free e order L) (h1 : 1 ≤ L) :
    ∃ c isNew l' e', ((layerChild order r L).run l).run e = ((.ok (c, isNew), l'), e') ∧
      Faithful e' ∧ Later e e' ∧ e'.names = e.names ∧ LayerArena order l' e' ∧
      l.arena.Keeps l'.arena ∧ (∀ j < l.nodes.size, l'.nodes[j]? = l.nodes[j]?) ∧
      l'.nodes.size = l.nodes.size + (if isNew then 1 else 0) ∧
      ∃ m, l'.nodes[c]? = some m ∧ m.value = r ∧ (m.isTerminal = true → c = 0 ∨ c = 1) ∧
        (m.isTerminal = false → m.level = L) ∧
        (isNew = true → c = l.nodes.size ∧ m.isTerminal = false ∧ m.low = none) ∧
        (isNew = false → c < l.nodes.size) := by
  have hsize : 2 ≤ l.nodes.size := by
    have := (lt_next_of_at? hX.no).2
    simp only [Layer.next_arena] at this
    omega
  cases r with
  | const b =>
    refine ⟨if b then 0 else 1, false, l, e, rfl, hf, .refl e, rfl, hX, .refl _, fun _ _ => rfl,
      rfl, ?_⟩
    cases b
    · exact ⟨_, by simpa using hX.no, rfl, fun _ => .inr rfl, fun h => Bool.noConfusion h,
        fun h => Bool.noConfusion h, fun _ => by simp; omega⟩
    · exact ⟨_, by simpa using hX.yes, rfl, fun _ => .inl rfl, fun h => Bool.noConfusion h,
        fun h => Bool.noConfusion h, fun _ => by simp; omega⟩
  | expr x =>
    obtain ⟨s, e₁, hrun, hf₁, hl₁, hn₁, hrend⟩ := render_residual hf hr
    -- an expression reads a variable, so it stands above the last level
    have hLN : L < order.length := hfree.lt_length hf.sound hnames hr
    obtain ⟨v, hv⟩ : ∃ v, order[L]? = some v := ⟨order[L], List.getElem?_eq_getElem hLN⟩
    have hX₁ := hX.later hf.sound hl₁
    rcases hseen : l.seen[(s, L)]? with _ | i
    · -- a new text at this level: a new node, recorded in the table
      have hop : (DNode.internal v (.expr x) s L).Opened e₁ order :=
        ⟨rfl, hv.symm, hr.later hl₁, hfree.later hf.sound hl₁ hr⟩
      obtain ⟨hE, -, -⟩ := hX₁.toExpandingArena.alloc hop ⟨rfl, rfl⟩
      refine ⟨l.nodes.size, true,
        ({ nodes := l.nodes.push { DNode.internal v (.expr x) s L with id := l.nodes.size },
           seen := l.seen.insert (s, L) l.nodes.size } : Layer),
        e₁, ?_, hf₁, hl₁, hn₁, ⟨?_, ?_⟩, ?_, fun j hj => ?_, by simp, ?_⟩
      · rw [layerChild, build_bind, build_lift, hrun]
        simp only [hv, build_bind, build_get, hseen, build_modify]
        rfl
      · rw [Layer.arena_push]
        exact hE
      · intro t L' j hj
        rw [Std.HashMap.getElem?_insert] at hj
        by_cases hk : ((s, L) == (t, L')) = true
        · rw [if_pos hk, Option.some.injEq] at hj
          obtain ⟨rfl, rfl⟩ := Prod.mk.inj (beq_iff_eq.1 hk)
          subst hj
          exact ⟨{ DNode.internal v (.expr x) s L with id := l.nodes.size }, by simp, rfl,
            fun _ => ⟨x, rfl, hrend⟩⟩
        · rw [if_neg hk] at hj
          obtain ⟨n, hn, hlev, hx⟩ := hX₁.seen t L' j hj
          have hj : j < l.nodes.size := by simpa using (lt_next_of_at? (a := l.arena) (by simpa using hn)).2
          exact ⟨n, by rw [Array.getElem?_push, if_neg (Nat.ne_of_lt hj)]; exact hn, hlev, hx⟩
      · rw [Layer.arena_push]
        exact keeps_alloc _ _
      · exact (Array.getElem?_push_lt hj).trans (Array.getElem?_eq_getElem hj).symm
      · refine ⟨{ DNode.internal v (.expr x) s L with id := l.nodes.size }, by simp, rfl, fun h => Bool.noConfusion h, fun _ => rfl,
          fun _ => ⟨rfl, rfl, rfl⟩, fun h => Bool.noConfusion h⟩
    · -- a text already seen at this level: its node holds this very expression
      obtain ⟨n, hn, hlev, hx⟩ := hX₁.seen s L i hseen
      obtain ⟨y, hy, hyr⟩ := hx h1
      have hxy : x = y := hf₁.eq_of_rendered hrend hyr
      subst hxy
      refine ⟨i, false, l, e₁, ?_, hf₁, hl₁, hn₁, hX₁, .refl _, fun _ _ => rfl, rfl, n, hn, hy,
        hX.terminal_id hn, fun _ => hlev, fun h => Bool.noConfusion h,
        fun _ => by simpa using (lt_next_of_at? (a := l.arena) (by simpa using hn)).2⟩
      rw [layerChild, build_bind, build_lift, hrun]
      simp only [hv, build_bind, build_get, hseen]
      rfl

/-! ### Expanding a node -/

/-- The new nodes of the next level that expanding a node adds to those found, high first. -/
private theorem mem_found_children {found : List Nat} {hi lo i : Nat} {newHi newLo : Bool} :
    i ∈ (if newLo then (if newHi then found ++ [hi] else found) ++ [lo] else
      if newHi then found ++ [hi] else found) ↔
      i ∈ found ∨ newHi = true ∧ i = hi ∨ newLo = true ∧ i = lo := by
  cases newHi <;> cases newLo <;> simp

/-- Expanding an internal node of the first phase links it to its two cofactors' nodes. It
changes no other node made before, and every node it makes is a node of the next level, not yet
expanded, and is added to those found. -/
theorem expandNode_run (hnodup : order.Nodup) {l : Layer} {e : Engine} (hX : LayerArena order l e)
    (hf : Faithful e) (hnames : ∀ y ∈ e.names.toList, y ∈ order) {id : Nat} {n : DNode}
    (hn : l.nodes[id]? = some n) (hnt : n.isTerminal = false) (found : List Nat) :
    ∃ found' l' e', ((expandNode order (.ok found) id).run l).run e = ((.ok found', l'), e') ∧
      Faithful e' ∧ Later e e' ∧ e'.names = e.names ∧ LayerArena order l' e' ∧
      l.arena.Keeps l'.arena ∧ (∃ m, l'.nodes[id]? = some m ∧ m.low ≠ none) ∧
      (∀ j < l.nodes.size, j ≠ id → l'.nodes[j]? = l.nodes[j]?) ∧
      (∀ j m, l.nodes.size ≤ j → l'.nodes[j]? = some m →
        m.isTerminal = false ∧ m.level = n.level + 1 ∧ m.low = none ∧ j ∈ found') ∧
      (∀ j ∈ found, j ∈ found') ∧ ∀ j ∈ found', j ∈ found ∨ l.nodes.size ≤ j ∧ j < l'.nodes.size := by
  obtain ⟨hy, hno⟩ := hX.ne_terminals hn hnt
  have hop := (hX.inner id n (by simpa using hn) hy hno).1
  obtain ⟨v, hv, hov, hLN⟩ := hop.var_eq
  -- the two cofactors, and a node one level down for each
  obtain ⟨hr, lr, e₁, hexp, hf₁, hl₁, hn₁, hrv, lrv, hsem⟩ := expand_run hf hop.2.2.1 v
  have hnames₁ : ∀ y ∈ e₁.names.toList, y ∈ order := hn₁ ▸ hnames
  obtain ⟨hi, newHi, l₁, e₂, hc₁, hf₂, hl₂, hn₂, hX₁, hk₁, hfr₁, hsz₁, mh, hmh, hmhv, -, hmhl,
    hmhn, hmho⟩ := layerChild_run (hX.later hf.sound hl₁) hf₁ hnames₁ hrv
      (hop.2.2.2.cofactor hnodup hov fun σ => (hsem σ).1) (by omega)
  obtain ⟨lo, newLo, l₂, e₃, hc₂, hf₃, hl₃, hn₃, hX₂, hk₂, hfr₂, hsz₂, ml, hml, hmlv, -, hmll,
    hmln, hmlo⟩ := layerChild_run hX₁ hf₂ (hn₂ ▸ hnames₁) (lrv.later hl₂)
      ((hop.2.2.2.cofactor hnodup hov fun σ => (hsem σ).2).later hf₁.sound hl₂ lrv) (by omega)
  have hle₁ : l.nodes.size ≤ l₁.nodes.size := by rw [hsz₁]; exact Nat.le_add_right _ _
  have hle₂ : l₁.nodes.size ≤ l₂.nodes.size := by rw [hsz₂]; exact Nat.le_add_right _ _
  have hidl := Layer.lt_size hn
  have hn₂' : l₂.nodes[id]? = some n := by rw [hfr₂ id (by omega), hfr₁ id hidl, hn]
  have hmh₂ : l₂.nodes[hi]? = some mh := by rw [hfr₂ hi (Layer.lt_size hmh), hmh]
  -- link the node to both children
  have hl₁₃ := hl₂.trans hl₃
  have hn₂a : l₂.arena.at? id = some n := by simpa using hn₂'
  obtain ⟨hE₃, -, -⟩ := hX₂.toExpandingArena.link hn₂a hy hno hv
    (childOf_of_holds hf.sound hf₁.sound (hl₁.trans hl₁₃) hl₁₃ hop.2.2.1 (by simpa using hml)
      hmlv lrv (fun σ => (hsem σ).2) fun ht => (hmll ht).symm)
    (childOf_of_holds hf.sound hf₁.sound (hl₁.trans hl₁₃) hl₁₃ hop.2.2.1 (by simpa using hmh₂)
      hmhv hrv (fun σ => (hsem σ).1) fun ht => (hmhl ht).symm)
  set l₃ : Layer := { l₂ with nodes := l₂.nodes.modify id fun m =>
    { m with low := some lo, high := some hi } } with hl₃def
  have hk₃ : l₂.arena.Keeps l₃.arena := by
    rw [hl₃def, Layer.arena_modify]
    exact keeps_modifyNode id (f := fun m => { m with low := some lo, high := some hi })
      (fun _ => ⟨rfl, rfl, rfl⟩) _
  have hfr₃ : ∀ j, j ≠ id → l₃.nodes[j]? = l₂.nodes[j]? := fun j hj => by
    rw [← Layer.at?_arena, ← Layer.at?_arena, hl₃def, Layer.arena_modify, at?_modifyNode, if_neg hj]
  have hsz₃ : l₃.nodes.size = l₂.nodes.size := Array.size_modify
  -- a node past the old ones is the high child or the low child, and new
  have hnew : ∀ j, l.nodes.size ≤ j → j < l₃.nodes.size →
      newHi = true ∧ j = hi ∨ newLo = true ∧ j = lo := by
    intro j hj hj'
    rw [hsz₃] at hj'
    cases newHi <;> cases newLo <;> simp only [if_true, Bool.false_eq_true, if_false] at hsz₁ hsz₂
    · omega
    · exact .inr ⟨rfl, by have := (hmln rfl).1; omega⟩
    · exact .inl ⟨rfl, by have := (hmhn rfl).1; omega⟩
    · by_cases hj₁ : j < l₁.nodes.size
      · exact .inl ⟨rfl, by have := (hmhn rfl).1; omega⟩
      · exact .inr ⟨rfl, by have := (hmln rfl).1; omega⟩
  refine ⟨if newLo then (if newHi then found ++ [hi] else found) ++ [lo] else
    if newHi then found ++ [hi] else found, l₃, e₃, ?_, hf₃, hl₁.trans hl₁₃, by rw [hn₃, hn₂, hn₁],
    hX₂.of_keeps (by rw [hl₃def, Layer.arena_modify]; exact hE₃) hk₃ rfl,
    hk₁.trans (hk₂.trans hk₃), ?_, fun j hj hjid => ?_, fun j m hj hm => ?_,
    fun j hj => mem_found_children.2 (.inl hj), fun j hj => ?_⟩
  · rw [expandNode, build_bind, build_get]
    simp only [hn, hv, Option.getD_some, build_bind, build_lift, hexp, hc₁, hc₂, build_modify]
    rfl
  · refine ⟨{ n with low := some lo, high := some hi }, ?_, Option.some_ne_none lo⟩
    rw [← Layer.at?_arena, hl₃def, Layer.arena_modify, at?_modifyNode, if_pos rfl,
      Layer.at?_arena, hn₂', Option.map_some]
  · rw [hfr₃ j hjid, hfr₂ j (by omega), hfr₁ j hj]
  · rcases hnew j hj (Layer.lt_size hm) with ⟨hnh, rfl⟩ | ⟨hnl, rfl⟩
    · obtain ⟨m', hm', ht', -, hlev'⟩ := Layer.keeps_node (hk₂.trans hk₃) hmh
      obtain ⟨-, hmt, hmlow⟩ := hmhn hnh
      rw [hm, Option.some.injEq] at hm'
      subst hm'
      refine ⟨ht'.trans hmt, hlev'.trans (hmhl hmt), ?_, mem_found_children.2 (.inr (.inl ⟨hnh, rfl⟩))⟩
      rw [hfr₃ _ (by omega), hfr₂ _ (Layer.lt_size hmh), hmh, Option.some.injEq] at hm
      rw [← hm]
      exact hmlow
    · obtain ⟨-, hmt, hmlow⟩ := hmln hnl
      have hlo : j ≠ id := by omega
      rw [hfr₃ _ hlo, hml, Option.some.injEq] at hm
      subst hm
      exact ⟨hmt, hmll hmt, hmlow, mem_found_children.2 (.inr (.inr ⟨hnl, rfl⟩))⟩
  · rcases mem_found_children.1 hj with h | ⟨hnh, rfl⟩ | ⟨hnl, rfl⟩
    · exact .inl h
    · have := (hmhn hnh).1
      exact .inr ⟨by omega, by rw [hsz₃]; exact Layer.lt_size hmh₂⟩
    · have := (hmln hnl).1
      exact .inr ⟨by omega, by rw [hsz₃]; exact Layer.lt_size hml⟩

/-! ### Expanding a level -/

variable (order) in
/-- The first phase before it expands level `L`: the nodes at level `L` and past it are those of
`ids`, all at `L`, and they are the only nodes not yet expanded. -/
structure LayerStart (L : Nat) (ids : List Nat) (l : Layer) (e : Engine) : Prop where
  arena : LayerArena order l e
  mem_ids : ∀ i ∈ ids, ∃ n : DNode, l.nodes[i]? = some n ∧ n.isTerminal = false ∧ n.level = L
  deep : ∀ (i : Nat) (n : DNode), l.nodes[i]? = some n → n.isTerminal = false → L ≤ n.level →
    n.level = L ∧ i ∈ ids
  pending : ∀ (i : Nat) (n : DNode), l.nodes[i]? = some n → n.isTerminal = false → n.low = none → i ∈ ids

variable (order) in
/-- The first phase while it expands the nodes `ids` of level `L`, with `rest` still to come and
`found` the new nodes of the next level so far: the nodes at level `L` are those of `ids`, a node
past level `L` is at `L + 1` and found, and a node waits to be expanded only if it is still to
come or was found. -/
structure Expanding (L : Nat) (ids rest found : List Nat) (l : Layer) (e : Engine) : Prop where
  arena : LayerArena order l e
  mem_ids : ∀ i ∈ ids, ∃ n : DNode, l.nodes[i]? = some n ∧ n.isTerminal = false ∧ n.level = L
  current : ∀ (i : Nat) (n : DNode), l.nodes[i]? = some n → n.isTerminal = false → n.level = L → i ∈ ids
  mem_found : ∀ i ∈ found, ∃ n : DNode, l.nodes[i]? = some n ∧ n.isTerminal = false ∧
    n.level = L + 1
  deep : ∀ (i : Nat) (n : DNode), l.nodes[i]? = some n → n.isTerminal = false → L < n.level →
    n.level = L + 1 ∧ i ∈ found
  pending : ∀ (i : Nat) (n : DNode), l.nodes[i]? = some n → n.isTerminal = false → n.low = none →
    i ∈ rest ∨ i ∈ found

section Expand

variable {L : Nat} {ids : List Nat}

theorem LayerStart.expanding {l : Layer} {e : Engine} (hS : LayerStart order L ids l e) :
    Expanding order L ids ids [] l e := by
  refine ⟨hS.arena, hS.mem_ids, fun i n hn ht hL => (hS.deep i n hn ht hL.ge).2, fun _ h => (List.not_mem_nil h).elim,
    fun i n hn ht hL => ?_, fun i n hn ht hlow => .inl (hS.pending i n hn ht hlow)⟩
  have := (hS.deep i n hn ht hL.le).1
  omega

/-- A level whose nodes are all expanded leaves the nodes it found to be the next level. -/
theorem Expanding.next {found : List Nat} {l : Layer} {e : Engine}
    (hE : Expanding order L ids [] found l e) : LayerStart order (L + 1) found l e := by
  refine ⟨hE.arena, hE.mem_found, fun i n hn ht hL => hE.deep i n hn ht (by omega), fun i n hn ht hlow => ?_⟩
  rcases hE.pending i n hn ht hlow with h | h
  · exact (List.not_mem_nil h).elim
  · exact h

/-- Expanding the next node of a level keeps the invariant of the level, and the nodes it makes
are one level down. -/
theorem Expanding.step (hnodup : order.Nodup) {rest found : List Nat} {id : Nat}
    {l : Layer} {e : Engine} (hE : Expanding order L ids (id :: rest) found l e) (hid : id ∈ ids)
    (hf : Faithful e) (hnames : ∀ y ∈ e.names.toList, y ∈ order) :
    ∃ found' l' e', ((expandNode order (.ok found) id).run l).run e = ((.ok found', l'), e') ∧
      Expanding order L ids rest found' l' e' ∧ Faithful e' ∧ Later e e' ∧ e'.names = e.names ∧
      l.arena.Keeps l'.arena ∧
      ∀ i n, l'.nodes[i]? = some n → n.isTerminal = false → n.level ≤ L → i < l.nodes.size := by
  obtain ⟨n, hn, hnt, rfl⟩ := hE.mem_ids id hid
  obtain ⟨found', l', e', hrun, hf', hl', hn', hX', hk, ⟨m, hm, hml⟩, hfr, hnew, hsub, hfound⟩ :=
    expandNode_run hnodup hE.arena hf hnames hn hnt found
  -- a node made before keeps whether it is a terminal and its level
  have hold : ∀ i m', l'.nodes[i]? = some m' → i < l.nodes.size →
      ∃ m₀, l.nodes[i]? = some m₀ ∧ m'.isTerminal = m₀.isTerminal ∧ m'.level = m₀.level := by
    intro i m' hm' hi
    obtain ⟨m'', hm'', ht, -, hlev⟩ := Layer.keeps_node hk (Array.getElem?_eq_getElem hi)
    rw [hm', Option.some.injEq] at hm''
    subst hm''
    exact ⟨_, Array.getElem?_eq_getElem hi, ht, hlev⟩
  refine ⟨found', l', e', hrun, ⟨hX', fun i hi => ?_, fun i m' hm' ht hL => ?_, fun i hi => ?_,
    fun i m' hm' ht hL => ?_, fun i m' hm' ht hlow => ?_⟩, hf', hl', hn', hk,
    fun i m' hm' ht hL => ?_⟩
  · -- the nodes of the level stay at the level
    obtain ⟨n₀, hn₀, ht₀, hl₀⟩ := hE.mem_ids i hi
    obtain ⟨n', hn', ht', -, hlev'⟩ := Layer.keeps_node hk hn₀
    exact ⟨n', hn', ht'.trans ht₀, hlev'.trans hl₀⟩
  · by_cases hi : i < l.nodes.size
    · obtain ⟨m₀, hm₀, ht₀, hl₀⟩ := hold i m' hm' hi
      exact hE.current i m₀ hm₀ (ht₀ ▸ ht) (hl₀ ▸ hL)
    · have := (hnew i m' (by omega) hm').2.1
      omega
  · rcases hfound i hi with h | ⟨hi₁, hi₂⟩
    · obtain ⟨n₀, hn₀, ht₀, hl₀⟩ := hE.mem_found i h
      obtain ⟨n', hn', ht', -, hlev'⟩ := Layer.keeps_node hk hn₀
      exact ⟨n', hn', ht'.trans ht₀, hlev'.trans hl₀⟩
    · obtain ⟨ht', hlev', -⟩ := hnew i _ hi₁ (Array.getElem?_eq_getElem hi₂)
      exact ⟨_, Array.getElem?_eq_getElem hi₂, ht', hlev'⟩
  · by_cases hi : i < l.nodes.size
    · obtain ⟨m₀, hm₀, ht₀, hl₀⟩ := hold i m' hm' hi
      obtain ⟨hlev, hmem⟩ := hE.deep i m₀ hm₀ (ht₀ ▸ ht) (hl₀ ▸ hL)
      exact ⟨hl₀.trans hlev, hsub i hmem⟩
    · obtain ⟨-, hlev, -, hmem⟩ := hnew i m' (by omega) hm'
      exact ⟨hlev, hmem⟩
  · -- the node expanded is linked; the others made before wait as they did
    by_cases hi : i < l.nodes.size
    · by_cases hid' : i = id
      · subst hid'
        rw [hm, Option.some.injEq] at hm'
        exact absurd (hm' ▸ hlow) hml
      · rw [hfr i hi hid'] at hm'
        rcases hE.pending i m' hm' ht hlow with h | h
        · exact .inl ((List.mem_cons.1 h).resolve_left hid')
        · exact .inr (hsub i h)
    · exact .inr (hnew i m' (by omega) hm').2.2.2
  · by_contra hi
    have := (hnew i m' (by omega) hm').2.1
    omega

/-- Expanding the nodes still to come at a level expands them all; the nodes made on the way are
one level down. The induction is on the nodes still to come. -/
theorem Expanding.foldlM_run (hnodup : order.Nodup) :
    ∀ (rest found : List Nat) (l : Layer) (e : Engine), (∀ i ∈ rest, i ∈ ids) →
      Expanding order L ids rest found l e → Faithful e → (∀ y ∈ e.names.toList, y ∈ order) →
      ∃ found' l' e', ((rest.foldlM (expandNode order) (.ok found)).run l).run e =
        ((.ok found', l'), e') ∧ Expanding order L ids [] found' l' e' ∧ Faithful e' ∧
        Later e e' ∧ e'.names = e.names ∧ l.arena.Keeps l'.arena ∧
        ∀ i n, l'.nodes[i]? = some n → n.isTerminal = false → n.level ≤ L → i < l.nodes.size
  | [], found, l, e, _, hE, hf, _ =>
    ⟨found, l, e, rfl, hE, hf, .refl e, rfl, .refl _, fun _ _ hn _ _ => Layer.lt_size hn⟩
  | id :: rest, found, l, e, hids, hE, hf, hnames => by
    obtain ⟨found₁, l₁, e₁, hrun₁, hE₁, hf₁, hl₁, hn₁, hk₁, hold₁⟩ :=
      hE.step hnodup (hids id List.mem_cons_self) hf hnames
    obtain ⟨found₂, l₂, e₂, hrun₂, hE₂, hf₂, hl₂, hn₂, hk₂, hold₂⟩ :=
      Expanding.foldlM_run hnodup rest found₁ l₁ e₁ (fun i hi => hids i (List.mem_cons_of_mem id hi))
        hE₁ hf₁ (hn₁ ▸ hnames)
    refine ⟨found₂, l₂, e₂, ?_, hE₂, hf₂, hl₁.trans hl₂, hn₂.trans hn₁, hk₁.trans hk₂,
      fun i n hn ht hL => ?_⟩
    · rw [List.foldlM_cons, build_bind, hrun₁]
      exact hrun₂
    · -- a node at the level or above was made before both steps
      have hi₁ := hold₂ i n hn ht hL
      obtain ⟨n₁, hn₁', ht₁, -, hl₁'⟩ := Layer.keeps_node hk₂ (Array.getElem?_eq_getElem hi₁)
      rw [hn, Option.some.injEq] at hn₁'
      subst hn₁'
      exact hold₁ i _ (Array.getElem?_eq_getElem hi₁) (ht₁ ▸ ht) (hl₁' ▸ hL)

/-- Expanding the nodes of a level expands each of them; the nodes it finds are the nodes of the
next level, and the only ones left to expand. -/
theorem expandLayer_run (hnodup : order.Nodup) {l : Layer} {e : Engine}
    (hS : LayerStart order L ids l e) (hf : Faithful e) (hnames : ∀ y ∈ e.names.toList, y ∈ order) :
    ∃ found l' e', ((expandLayer order ids).run l).run e = ((.ok found, l'), e') ∧
      Expanding order L ids [] found l' e' ∧ Faithful e' ∧ Later e e' ∧ e'.names = e.names ∧
      l.arena.Keeps l'.arena ∧
      ∀ i n, l'.nodes[i]? = some n → n.isTerminal = false → n.level ≤ L → i < l.nodes.size :=
  Expanding.foldlM_run hnodup ids [] l e (fun _ h => h) hS.expanding hf hnames

/-! ### The levels -/

/-- With no node at a level, no node waits to be expanded and no node is at that level or past
it. -/
theorem LayerStart.nil {l : Layer} {e : Engine} (hS : LayerStart order L [] l e) :
    (∀ (i : Nat) (n : DNode), l.nodes[i]? = some n → n.isTerminal = false → n.low ≠ none) ∧
      ∀ (i : Nat) (n : DNode), l.nodes[i]? = some n → n.isTerminal = false → ¬ L ≤ n.level :=
  ⟨fun i n hn ht hlow => List.not_mem_nil (hS.pending i n hn ht hlow),
    fun i n hn ht hL => List.not_mem_nil (hS.deep i n hn ht hL).2⟩

/-- Expanding level after level, with fuel for every level left, expands every node; it answers,
for each level from `L` on, the list of the nodes at that level, and makes no node above `L`.
The induction is on the fuel, one level at a time. -/
theorem expandLayers_run (hnodup : order.Nodup) :
    ∀ fuel L (ids : List Nat) (l : Layer) (e : Engine), LayerStart order L ids l e → Faithful e →
      (∀ y ∈ e.names.toList, y ∈ order) → order.length + 1 ≤ fuel + L →
      ∃ levels l' e', ((expandLayers order fuel ids).run l).run e = ((.ok levels, l'), e') ∧
        Faithful e' ∧ Later e e' ∧ e'.names = e.names ∧ LayerArena order l' e' ∧
        l.arena.Keeps l'.arena ∧
        (∀ (i : Nat) (n : DNode), l'.nodes[i]? = some n → n.isTerminal = false → n.low ≠ none) ∧
        (∀ j, ∀ i ∈ levels.getD j [], ∃ n : DNode, l'.nodes[i]? = some n ∧
          n.isTerminal = false ∧ n.level = L + j) ∧
        (∀ (i : Nat) (n : DNode), l'.nodes[i]? = some n → n.isTerminal = false → L ≤ n.level →
          i ∈ levels.getD (n.level - L) []) ∧
        ∀ (i : Nat) (n : DNode), l'.nodes[i]? = some n → n.isTerminal = false → n.level < L →
          i < l.nodes.size := by
  -- at a level with no node the phase stops, and has expanded everything
  have hdone : ∀ L (l : Layer) (e : Engine), LayerStart order L [] l e → Faithful e →
      Faithful e ∧ Later e e ∧ e.names = e.names ∧ LayerArena order l e ∧ l.arena.Keeps l.arena ∧
      (∀ (i : Nat) (n : DNode), l.nodes[i]? = some n → n.isTerminal = false → n.low ≠ none) ∧
      (∀ j, ∀ i ∈ ([] : List (List Nat)).getD j [], ∃ n : DNode, l.nodes[i]? = some n ∧
        n.isTerminal = false ∧ n.level = L + j) ∧
      (∀ (i : Nat) (n : DNode), l.nodes[i]? = some n → n.isTerminal = false → L ≤ n.level →
        i ∈ ([] : List (List Nat)).getD (n.level - L) []) ∧
      ∀ (i : Nat) (n : DNode), l.nodes[i]? = some n → n.isTerminal = false → n.level < L →
        i < l.nodes.size := fun L l e hS hf =>
    ⟨hf, .refl e, rfl, hS.arena, .refl _, hS.nil.1, fun j i hi => by simp at hi,
      fun i n hn ht hL => absurd hL (hS.nil.2 i n hn ht), fun i _ hn _ _ => Layer.lt_size hn⟩
  intro fuel
  induction fuel with
  | zero =>
    intro L ids l e hS hf hnames hfuel
    -- without fuel the level has no node: each node stands above the last level
    obtain rfl : ids = [] := by
      cases ids with
      | nil => rfl
      | cons i _ =>
        obtain ⟨n, hn, ht, hL⟩ := hS.mem_ids i List.mem_cons_self
        have := hS.arena.level_lt hn ht
        omega
    exact ⟨[], l, e, rfl, hdone L l e hS hf⟩
  | succ fuel ih =>
    intro L ids l e hS hf hnames hfuel
    cases ids with
    | nil => exact ⟨[], l, e, rfl, hdone L l e hS hf⟩
    | cons id rest =>
      obtain ⟨found, l₁, e₁, hrun₁, hE₁, hf₁, hl₁, hn₁, hk₁, hold₁⟩ :=
        expandLayer_run hnodup hS hf hnames
      obtain ⟨levels, l₂, e₂, hrun₂, hf₂, hl₂, hn₂, hX₂, hk₂, hpend₂, hlev₂, hcomp₂, hold₂⟩ :=
        ih (L + 1) found l₁ e₁ hE₁.next hf₁ (hn₁ ▸ hnames) (by omega)
      -- a node of `l₂` above the next level is a node of `l₁` with its level
      have hback : ∀ (i : Nat) (n : DNode), l₂.nodes[i]? = some n → n.isTerminal = false → n.level ≤ L →
          ∃ n₁, l₁.nodes[i]? = some n₁ ∧ n₁.isTerminal = false ∧ n₁.level = n.level := by
        intro i n hn ht hL
        have hi₁ := hold₂ i n hn ht (by omega)
        obtain ⟨n₁, hn₁', ht₁, -, hl₁'⟩ := Layer.keeps_node hk₂ (Array.getElem?_eq_getElem hi₁)
        rw [hn, Option.some.injEq] at hn₁'
        subst hn₁'
        exact ⟨_, Array.getElem?_eq_getElem hi₁, ht₁ ▸ ht, hl₁'.symm⟩
      refine ⟨(id :: rest) :: levels, l₂, e₂, ?_, hf₂, hl₁.trans hl₂, hn₂.trans hn₁, hX₂,
        hk₁.trans hk₂, hpend₂, fun j => ?_, fun i n hn ht hL => ?_, fun i n hn ht hL => ?_⟩
      · rw [expandLayers, if_neg (by simp), build_bind, hrun₁]
        dsimp only
        rw [build_bind, hrun₂]
        rfl
      · cases j with
        | zero =>
          intro i hi
          obtain ⟨n, hn, ht, hL⟩ := hE₁.mem_ids i hi
          obtain ⟨n', hn', ht', -, hl'⟩ := Layer.keeps_node hk₂ hn
          exact ⟨n', hn', ht'.trans ht, hl'.trans hL⟩
        | succ j =>
          intro i hi
          obtain ⟨n, hn, ht, hL⟩ := hlev₂ j i hi
          exact ⟨n, hn, ht, by omega⟩
      · by_cases hLe : n.level = L
        · obtain ⟨n₁, hn₁', ht₁, hl₁'⟩ := hback i n hn ht (by omega)
          rw [hLe, Nat.sub_self, List.getD_cons_zero]
          exact hE₁.current i n₁ hn₁' ht₁ (hl₁'.trans hLe)
        · have hmem := hcomp₂ i n hn ht (by omega)
          rw [show n.level - L = n.level - (L + 1) + 1 by omega, List.getD_cons_succ]
          exact hmem
      · obtain ⟨n₁, hn₁', ht₁, hl₁'⟩ := hback i n hn ht (by omega)
        exact hold₁ i n₁ hn₁' ht₁ (by omega)

end Expand

end Diagram

end DecisionDiagrams
