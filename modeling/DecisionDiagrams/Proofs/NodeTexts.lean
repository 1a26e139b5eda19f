/-
The texts of a build's nodes.

Every node of a build carries a text: the formula's for the root, the rendering of its residual
for a node made from a residual, and the name of its value for a terminal. The engine remembers
each text it renders and keeps remembering it, so at the end of a build every node's text is
what rendering the node's expression answers on the engine the build leaves, without changing
it. With what the builds compute, the text of every node reached from the root renders an
expression whose truth values are those of the subdiagram below the node, and the root's text is
the formula's, even when the reduced build puts a child of the formula's node in its place.

* `Engine.TextOf` — the text an engine gives an expression: the constants' names, or the text it
  remembers.
* `Engine.render_text` — rendering keeps the remembered texts, and answers the text it then
  gives the expression.
* `Diagram.Tracked` — a computation beside the engine that leaves, from every state and engine
  with a property, a state and engine with another.
* `Diagram.runBuild_labelled` — every node a build leaves carries the text of its expression.
* `Diagram.node_texts_render_subdiagrams` — the texts of a build describe its subdiagrams.
-/
import DecisionDiagrams.Proofs.DiagramBuilds
import DecisionDiagrams.Proofs.FreshArenas
import DecisionDiagrams.Proofs.EngineFailures
import DecisionDiagrams.Proofs.DiagramIdentifiers

namespace DecisionDiagrams

namespace Engine

/-! ### Remembered texts -/

/-- The text engine `e` gives expression `x`: the constants are named, and any other expression
has the text the engine remembers for it. -/
def TextOf (e : Engine) (x : Nat) (s : String) : Prop :=
  if x = 1 then s = "True" else if x = 0 then s = "False" else e.rendered[x]? = some s

/-- The later engine remembers every text the earlier one does. -/
def KeepsTexts (e e' : Engine) : Prop :=
  ∀ (x : Nat) (s : String), e.rendered[x]? = some s → e'.rendered[x]? = some s

theorem KeepsTexts.refl (e : Engine) : KeepsTexts e e :=
  fun _ _ h => h

theorem KeepsTexts.trans {e₁ e₂ e₃ : Engine} (h : KeepsTexts e₁ e₂) (h' : KeepsTexts e₂ e₃) :
    KeepsTexts e₁ e₃ :=
  fun x s hx => h' x s (h x s hx)

theorem KeepsTexts.of_eq {e e' : Engine} (h : e'.rendered = e.rendered) : KeepsTexts e e' :=
  fun x s hx => by rw [h]; exact hx

variable {e e' : Engine} {x : Nat} {s s' : String}

theorem TextOf.keeps (h : KeepsTexts e e') (hx : e.TextOf x s) : e'.TextOf x s := by
  unfold TextOf at hx ⊢
  split_ifs at hx ⊢
  · exact hx
  · exact hx
  · exact h x s hx

/-- An engine gives an expression one text. -/
theorem TextOf.unique (h : e.TextOf x s) (h' : e.TextOf x s') : s = s' := by
  unfold TextOf at h h'
  split_ifs at h h'
  · rw [h, h']
  · rw [h, h']
  · rw [h] at h'
    exact Option.some.inj h'

/-- Rendering an expression answers the text the engine gives it, and changes nothing. -/
theorem TextOf.render_run (h : e.TextOf x s) : (render x).run e = (.ok s, e) := by
  unfold TextOf at h
  by_cases h1 : x = 1
  · subst h1
    rw [if_pos rfl] at h
    rw [h]
    rfl
  by_cases h0 : x = 0
  · subst h0
    rw [if_neg h1, if_pos rfl] at h
    rw [h]
    rfl
  rw [if_neg h1, if_neg h0] at h
  exact render_run_of_rendered h1 h0 h

/-- From `e`, `m` keeps the remembered texts and answers a text only once it remembers it for
`x`. -/
def StoresAt (x : Nat) (m : EngineM (Except Failure String)) (e : Engine) : Prop :=
  KeepsTexts e (m.run e).2 ∧ ∀ s, (m.run e).1 = .ok s → (m.run e).2.rendered[x]? = some s

namespace StoresAt

theorem error (f : Failure) : StoresAt x (Pure.pure (.error f)) e :=
  ⟨.refl e, fun _ h => by cases h⟩

/-- A first step that changes only the table, before one that stores. -/
theorem bind {α : Type} {m : EngineM α} {f : α → EngineM (Except Failure String)} (hm : Frames m)
    (hf : ∀ a e', e'.rendered = e.rendered → StoresAt x (f a) e') : StoresAt x (m >>= f) e := by
  obtain ⟨hk, hs⟩ := hf (m.run e).1 (m.run e).2 (hm e).rendered
  exact ⟨(KeepsTexts.of_eq (hm e).rendered).trans hk, hs⟩

theorem get_bind {f : Engine → EngineM (Except Failure String)} (hf : StoresAt x (f e) e) :
    StoresAt x (MonadState.get >>= f) e :=
  hf

/-- Storing a text for an expression the engine has none for, and answering it. -/
theorem store (hm : e.rendered[x]? = none) (s : String) :
    StoresAt x (modify (fun e : Engine => { e with rendered := e.rendered.insert x s }) >>=
      fun _ => Pure.pure (Except.ok s)) e := by
  refine ⟨fun y t hy => ?_, fun s' h => ?_⟩
  · have hxy : x ≠ y := fun hxy => by rw [hxy, hy] at hm; cases hm
    show (e.rendered.insert x s)[y]? = some t
    rw [Std.HashMap.getElem?_insert, if_neg (by simpa using hxy)]
    exact hy
  · cases h
    exact Std.HashMap.getElem?_insert_self

end StoresAt

/-- Rendering an expression with no remembered text stores the text it answers: every step
before the last changes only the table. -/
theorem render_stores (h1 : x ≠ 1) (h0 : x ≠ 0) (hm : e.rendered[x]? = none) :
    StoresAt x (render x) e := by
  unfold render
  rw [if_neg h1, if_neg h0]
  refine .get_bind ?_
  simp only [hm]
  refine .bind (fun e => (cover_clears x false e).1) fun r e₁ he₁ => ?_
  rcases r with fs | dnf
  · exact .error _
  refine .bind (frames_onKernel (Kernel.negate_keepsShape x)) fun neg e₂ he₂ => ?_
  refine .bind (fun e => (takeFaults_clears e).1) fun r e₃ he₃ => ?_
  rcases r with _ | fs
  · refine .bind (fun e => (cover_clears _ true e).1) fun r e₄ he₄ => ?_
    rcases r with fs | cnf
    · exact .error _
    · exact .store (by rw [he₄, he₃, he₂, he₁, hm]) _
  · exact .error _

/-- Rendering keeps the texts the engine remembers, and answers the text the engine it leaves
gives the expression. -/
theorem render_text (x : Nat) (e : Engine) :
    KeepsTexts e ((render x).run e).2 ∧
      ∀ s, ((render x).run e).1 = .ok s → ((render x).run e).2.TextOf x s := by
  -- an expression the engine gives a text already: rendering answers it and changes nothing
  have known : ∀ s, e.TextOf x s → KeepsTexts e ((render x).run e).2 ∧
      ∀ s', ((render x).run e).1 = .ok s' → ((render x).run e).2.TextOf x s' := by
    intro s hs
    rw [hs.render_run]
    exact ⟨.refl e, fun s' h => by cases h; exact hs⟩
  by_cases h1 : x = 1
  · exact known "True" (by simp [TextOf, h1])
  by_cases h0 : x = 0
  · exact known "False" (by simp [TextOf, h0])
  rcases hm : e.rendered[x]? with _ | s
  · obtain ⟨hk, hs⟩ := render_stores h1 h0 hm
    exact ⟨hk, fun s h => by simpa [TextOf, h1, h0] using hs s h⟩
  · exact known s (by simp [TextOf, h1, h0, hm])

end Engine

/-! ### Labelled nodes -/

open Engine

/-- A node carries the text the engine gives its expression. -/
def DNode.Labelled (e : Engine) (n : DNode) : Prop :=
  e.TextOf n.value.node n.text

/-- Every node of the arena carries the text the engine gives its expression. -/
def Arena.Labelled (a : Arena) (e : Engine) : Prop :=
  ∀ j n, a.at? j = some n → n.Labelled e

variable {e e' : Engine}

theorem DNode.Labelled.keeps {n : DNode} (h : KeepsTexts e e') (hn : n.Labelled e) :
    n.Labelled e' :=
  TextOf.keeps h hn

/-- A terminal is named by its value. -/
theorem DNode.labelled_terminal (v : Bool) (L : Nat) :
    (DNode.terminal v (if v then "True" else "False") L).Labelled e := by
  cases v <;> simp [DNode.Labelled, DNode.terminal, TextOf, Residual.node]

namespace Arena

variable {a : Arena}

theorem labelled_empty (base : Nat) : (⟨base, #[]⟩ : Arena).Labelled e := by
  intro j n h
  simp [at?] at h

theorem Labelled.keeps (h : KeepsTexts e e') (ha : a.Labelled e) : a.Labelled e' :=
  fun j n hn => (ha j n hn).keeps h

theorem Labelled.alloc (ha : a.Labelled e) {n : DNode} (hn : n.Labelled e) :
    (a.alloc n).2.Labelled e := by
  intro j m hm
  rw [at?_alloc] at hm
  split at hm
  · cases hm
    exact hn
  · exact ha j m hm

/-- Changing a node in a way that keeps the text of labelled nodes keeps the arena labelled. -/
theorem Labelled.modifyNode (ha : a.Labelled e) (i : Nat) {f : DNode → DNode}
    (hf : ∀ m, m.Labelled e → (f m).Labelled e) : (a.modifyNode i f).Labelled e := by
  intro j m hm
  rw [at?_modifyNode] at hm
  split at hm
  · obtain ⟨m', hm', rfl⟩ := Option.map_eq_some_iff.1 hm
    exact hf m' (ha j m' hm')
  · exact ha j m hm

end Arena

namespace Diagram

open Engine

/-- Expanding a residual changes only the table. -/
theorem expand_frames (r : Residual) (v : String) : Frames (expand r v) := by
  rw [expand_eq]
  refine .bind (fun e => (substitute_tidy _ _ _ e).1) fun hi => ?_
  rcases hi with f | hi
  · exact .pure _
  · refine .bind (fun e => (substitute_tidy _ _ _ e).1) fun lo => ?_
    rcases lo with f | lo
    · exact .pure _
    · exact .pure _

/-- The node a residual stands for is the expression it was read from. -/
theorem node_residualOf (x : Nat) : (residualOf x).node = x := by
  unfold residualOf isConstant
  split_ifs with h1 h0
  · rw [h1]
    rfl
  · rw [h0]
    rfl
  · rfl

/-- The root of a build holds the formula's residual and carries its text. -/
theorem rootNode_text {d : Diagram} {order : List String} {root : DNode}
    (h : rootNode d order = .ok root) : root.value = residualOf d.root ∧ root.text = d.expression := by
  rcases rootNode_eq_ok.1 h with ⟨-, v, hr, rfl⟩ | ⟨v, rest, -, rfl⟩
  · exact ⟨hr.symm, rfl⟩
  · exact ⟨rfl, rfl⟩

/-! ### Computations beside the engine -/

section Tracked

variable {σ α β : Type}

/-- From every state and engine in `P`, `m` answers, and leaves a state and an engine, in `Q`. -/
def Tracked (P : σ → Engine → Prop) (m : StateT σ EngineM α) (Q : α → σ → Engine → Prop) :
    Prop :=
  ∀ s e, P s e → Q ((m.run s).run e).1.1 ((m.run s).run e).1.2 ((m.run s).run e).2

namespace Tracked

variable {P P' : σ → Engine → Prop} {Q : α → σ → Engine → Prop} {m : StateT σ EngineM α}

theorem pure {v : α} (h : ∀ s e, P s e → Q v s e) : Tracked P (Pure.pure v) Q :=
  fun s e hs => h s e hs

theorem bind {f : α → StateT σ EngineM β} {R : β → σ → Engine → Prop} (hm : Tracked P m Q)
    (hf : ∀ v, Tracked (Q v) (f v) R) : Tracked P (m >>= f) R :=
  fun s e hs => hf _ _ _ (hm s e hs)

theorem get : Tracked P (MonadState.get : StateT σ EngineM σ) fun v s e => P s e ∧ v = s :=
  fun _ _ hs => ⟨hs, rfl⟩

theorem modify {f : σ → σ} {R : PUnit → σ → Engine → Prop} (h : ∀ s e, P s e → R () (f s) e) :
    Tracked P (modify f : StateT σ EngineM PUnit) R :=
  fun s e hs => h s e hs

theorem modifyGet {f : σ → α × σ} (h : ∀ s e, P s e → Q (f s).1 (f s).2 e) :
    Tracked P (modifyGet f : StateT σ EngineM α) Q :=
  fun s e hs => h s e hs

/-- A call on the engine leaves the state beside it. -/
theorem lift {x : EngineM α} (h : ∀ s e, P s e → Q (x.run e).1 s (x.run e).2) :
    Tracked P (StateT.lift x : StateT σ EngineM α) Q :=
  fun s e hs => h s e hs

theorem set {s' : σ} {R : PUnit → σ → Engine → Prop} (h : ∀ s e, P s e → R () s' e) :
    Tracked P (MonadStateOf.set s' : StateT σ EngineM PUnit) R :=
  fun s e hs => h s e hs

theorem mono {S : α → σ → Engine → Prop} (hm : Tracked P m Q) (h : ∀ v s e, Q v s e → S v s e) :
    Tracked P m S :=
  fun s e hs => h _ _ _ (hm s e hs)

theorem pre (hm : Tracked P m Q) (h : ∀ s e, P' s e → P s e) : Tracked P' m Q :=
  fun s e hs => hm s e (h s e hs)

/-- A fold whose every step keeps an invariant of the accumulator, the state and the engine
keeps it. -/
theorem foldlM {δ : Type} {f : δ → α → StateT σ EngineM δ} {I : δ → σ → Engine → Prop} :
    ∀ (xs : List α), (∀ x ∈ xs, ∀ acc, Tracked (I acc) (f acc x) I) →
      ∀ acc, Tracked (I acc) (xs.foldlM f acc) I
  | [], _, _ => .pure fun _ _ h => h
  | x :: xs, h, acc => by
    rw [List.foldlM_cons]
    exact .bind (h x List.mem_cons_self acc) fun acc' =>
      foldlM xs (fun y hy => h y (List.mem_cons_of_mem x hy)) acc'

end Tracked

end Tracked

/-- The root of a build carries the formula's text, which the engine gives the formula's node. -/
theorem rootNode_labelled {d : Diagram} {order : List String} {root : DNode} {e : Engine}
    (h : rootNode d order = .ok root) (he : e.TextOf d.root d.expression) : root.Labelled e := by
  obtain ⟨hv, ht⟩ := rootNode_text h
  unfold DNode.Labelled
  rw [hv, ht, node_residualOf]
  exact he

/-! ### The tree build -/

section Tree

variable {order : List String} {ts : Terminals}

/-- A node made for a residual carries the text just rendered for it. -/
theorem treeChild_labelled (r : Residual) (L : Nat) :
    Tracked (fun a e => a.Labelled e) (treeChild order ts r L) fun _ a e => a.Labelled e := by
  unfold treeChild
  cases r with
  | const v => exact .pure fun _ _ h => h
  | expr x =>
    refine .bind (.lift (Q := fun t a e => a.Labelled e ∧ ∀ s, t = .ok s → e.TextOf x s)
      fun a e ha => ?_) fun t => ?_
    · obtain ⟨hk, hs⟩ := render_text x e
      exact ⟨ha.keeps hk, hs⟩
    rcases t with f | text
    · exact .pure fun _ _ h => h.1
    cases order[L]? with
    | none => exact .pure fun _ _ h => h.1
    | some v =>
      exact .bind (.modifyGet (Q := fun _ a e => a.Labelled e) fun a e h =>
        h.1.alloc (n := .internal v (.expr x) text L) (h.2 text rfl)) fun _ => .pure fun _ _ h => h

/-- Expanding a node of the tree build, and the nodes made below it, keeps the arena labelled.
The induction is on the fuel; expanding changes only the table, and linking a node keeps its
text. -/
theorem expandTree_labelled : ∀ (fuel i : Nat),
    Tracked (fun a e => a.Labelled e) (expandTree order ts fuel i) fun _ a e => a.Labelled e
  | 0, _ => .pure fun _ _ h => h
  | fuel + 1, i => by
    rw [expandTree]
    refine .bind .get fun a => ?_
    split
    case h_2 => exact .pure fun _ _ h => h.1
    refine .bind (.lift (Q := fun _ a e => a.Labelled e) fun a e h =>
      h.1.keeps (KeepsTexts.of_eq (expand_frames _ _ e).rendered)) fun t => ?_
    rcases t with f | ⟨hr, lr⟩
    · exact .pure fun _ _ h => h
    refine .bind (treeChild_labelled hr _) fun t => ?_
    rcases t with f | hi
    · exact .pure fun _ _ h => h
    refine .bind (treeChild_labelled lr _) fun t => ?_
    rcases t with f | lo
    · exact .pure fun _ _ h => h
    refine .bind (.modify (R := fun _ a e => a.Labelled e) fun a e h =>
      h.modifyNode i (f := fun m => { m with low := some lo, high := some hi }) fun _ hm => hm)
      fun _ => ?_
    dsimp only
    split
    · refine .bind (expandTree_labelled fuel lo) fun r => ?_
      split
      · exact .pure fun _ _ h => h
      · split
        · exact .bind (expandTree_labelled fuel hi) fun _ => by
            split <;> exact .pure fun _ _ h => h
        · exact .pure fun _ _ h => h
    · split
      · exact .bind (expandTree_labelled fuel hi) fun _ => by split <;> exact .pure fun _ _ h => h
      · exact .pure fun _ _ h => h

theorem decisionTree_labelled (d : Diagram) (order : List String) :
    Tracked (fun a e => a.Labelled e ∧ e.TextOf d.root d.expression) (decisionTree d order)
      fun _ a e => a.Labelled e := by
  unfold decisionTree
  refine .bind (.modifyGet (Q := fun _ a e => a.Labelled e ∧ e.TextOf d.root d.expression)
    fun a e h => ⟨h.1.alloc (DNode.labelled_terminal true _), h.2⟩) fun yes => ?_
  refine .bind (.modifyGet (Q := fun _ a e => a.Labelled e ∧ e.TextOf d.root d.expression)
    fun a e h => ⟨h.1.alloc (DNode.labelled_terminal false _), h.2⟩) fun no => ?_
  split
  · exact .pure fun _ _ h => h.1
  rename_i root hroot
  split
  · exact .pure fun _ _ h => h.1
  -- the root carries the formula's text, and the tree grows below it
  refine .bind (.modifyGet (Q := fun _ a e => a.Labelled e) fun a e h =>
    h.1.alloc (rootNode_labelled hroot h.2)) fun rid => ?_
  refine .bind (expandTree_labelled _ rid) fun r => ?_
  split <;> exact .pure fun _ _ h => h

end Tree

/-! ### The reduced build -/

/-- Every node of the first phase carries the text the engine gives its expression. -/
def Layer.Labelled (l : Layer) (e : Engine) : Prop :=
  ∀ (i : Nat) (n : DNode), l.nodes[i]? = some n → n.Labelled e

theorem Layer.Labelled.keeps {l : Layer} {e e' : Engine} (h : KeepsTexts e e') (hl : l.Labelled e) :
    l.Labelled e' :=
  fun i n hn => (hl i n hn).keeps h

/-- The first phase starts labelled: two terminals and the root. -/
theorem startLayer_labelled {order : List String} {root : DNode} {e : Engine}
    (h : root.Labelled e) : (startLayer order root).Labelled e := by
  intro i n hn
  rcases i with _ | _ | _ | i <;> simp [startLayer] at hn <;> rw [← hn]
  · exact DNode.labelled_terminal true order.length
  · exact DNode.labelled_terminal false order.length
  · exact h

section Layers

variable {order : List String} (e₀ : Engine)

/-- A node of the first phase made for a residual carries the text just rendered for it; the
engine keeps the texts it remembered. -/
theorem layerChild_labelled (r : Residual) (L : Nat) :
    Tracked (fun l e => l.Labelled e ∧ KeepsTexts e₀ e) (layerChild order r L)
      fun _ l e => l.Labelled e ∧ KeepsTexts e₀ e := by
  unfold layerChild
  cases r with
  | const v => exact .pure fun _ _ h => h
  | expr x =>
    refine .bind (.lift (Q := fun t l e => (l.Labelled e ∧ KeepsTexts e₀ e) ∧
      ∀ s, t = .ok s → e.TextOf x s) fun l e h => ?_) fun t => ?_
    · obtain ⟨hk, hs⟩ := render_text x e
      exact ⟨⟨h.1.keeps hk, h.2.trans hk⟩, hs⟩
    rcases t with f | text
    · exact .pure fun _ _ h => h.1
    cases order[L]? with
    | none => exact .pure fun _ _ h => h.1
    | some v =>
      refine .bind .get fun l₀ => ?_
      split
      · exact .pure fun _ _ h => h.1.1
      refine .bind .get fun l₁ => ?_
      refine .bind (.modify (R := fun _ l e => l.Labelled e ∧ KeepsTexts e₀ e) fun l e h =>
        ⟨fun i n hn => ?_, h.1.1.1.2⟩) fun _ => .pure fun _ _ h => h
      -- the new node is the last one
      rw [Array.getElem?_push] at hn
      split at hn
      · cases hn
        exact h.1.1.2 text rfl
      · exact h.1.1.1.1 i n hn

theorem expandNode_labelled (acc : Except Failure (List Nat)) (i : Nat) :
    Tracked (fun l e => l.Labelled e ∧ KeepsTexts e₀ e) (expandNode order acc i)
      fun _ l e => l.Labelled e ∧ KeepsTexts e₀ e := by
  unfold expandNode
  rcases acc with f | found
  · exact .pure fun _ _ h => h
  refine .bind .get fun l₀ => ?_
  split
  case h_2 => exact .pure fun _ _ h => h.1
  -- expanding changes only the table
  refine .bind (.lift (Q := fun _ l e => l.Labelled e ∧ KeepsTexts e₀ e) fun l e h =>
    have hk := KeepsTexts.of_eq (expand_frames _ _ e).rendered
    ⟨h.1.1.keeps hk, h.1.2.trans hk⟩) fun t => ?_
  rcases t with f | ⟨hr, lr⟩
  · exact .pure fun _ _ h => h
  refine .bind (layerChild_labelled e₀ hr _) fun t => ?_
  rcases t with f | ⟨high, newHigh⟩
  · exact .pure fun _ _ h => h
  refine .bind (layerChild_labelled e₀ lr _) fun t => ?_
  rcases t with f | ⟨low, newLow⟩
  · exact .pure fun _ _ h => h
  refine .bind (.modify (R := fun _ l e => l.Labelled e ∧ KeepsTexts e₀ e) fun l e h =>
    ⟨fun j m hm => ?_, h.2⟩) fun _ => .pure fun _ _ h => h
  -- linking a node keeps its text
  rw [Array.getElem?_modify] at hm
  split at hm
  · obtain ⟨m', hm', rfl⟩ := Option.map_eq_some_iff.1 hm
    exact h.1 j m' hm'
  · exact h.1 j m hm

theorem expandLayers_labelled : ∀ (fuel : Nat) (ids : List Nat),
    Tracked (fun l e => l.Labelled e ∧ KeepsTexts e₀ e) (expandLayers order fuel ids)
      fun _ l e => l.Labelled e ∧ KeepsTexts e₀ e
  | 0, _ => .pure fun _ _ h => h
  | fuel + 1, ids => by
    rw [expandLayers]
    split
    · exact .pure fun _ _ h => h
    refine .bind (Tracked.foldlM (I := fun _ (l : Layer) e => l.Labelled e ∧ KeepsTexts e₀ e) ids
      (fun i _ acc => expandNode_labelled e₀ acc i) _) fun t => ?_
    rcases t with f | next
    · exact .pure fun _ _ h => h
    refine .bind (expandLayers_labelled fuel next) fun t => ?_
    rcases t with f | rest <;> exact .pure fun _ _ h => h

end Layers

section Reduce

variable {P : Layer} {e : Engine} (hP : P.Labelled e)
include hP

/-- A node the second phase makes is a node of the first phase linked to representatives. -/
theorem ReduceStep.labelled {id : Nat} {s s' : ReduceState} (h : ReduceStep P id s s')
    (hs : s.2.2.Labelled e) : s'.2.2.Labelled e := by
  cases h with
  | missing _ => exact hs
  | collapse _ _ => exact hs
  | share _ _ _ => exact hs
  | fresh hn _ _ => exact hs.alloc (hP _ _ hn :)

theorem foldr_reduceLevel_labelled {F : ReduceState → List Nat → ReduceState}
    (hF : ∀ s ids, F s ids = reduceLevel P ids s.1 s.2.1 s.2.2) :
    ∀ (levels : List (List Nat)) (s : ReduceState), s.2.2.Labelled e →
      (levels.foldr (fun ids s => F s ids) s).2.2.Labelled e
  | [], _, hs => hs
  | ids :: rest, s, hs => by
    rw [List.foldr_cons, hF]
    exact reduceLevel_keeps ids _ (fun _ _ _ _ h hs => h.labelled hP hs)
      (foldr_reduceLevel_labelled hF rest s hs)

end Reduce

theorem reducedDiagram_labelled (d : Diagram) (order : List String) :
    Tracked (fun a e => a.Labelled e ∧ e.TextOf d.root d.expression) (reducedDiagram d order)
      fun _ a e => a.Labelled e := by
  unfold reducedDiagram
  split
  · exact .pure fun _ _ h => h.1
  rename_i root hroot
  split
  · exact .bind (.modifyGet (Q := fun _ a e => a.Labelled e) fun a e h =>
      h.1.alloc (DNode.labelled_terminal _ _)) fun _ => .pure fun _ _ h => h
  -- the first phase, from the terminals and the root, changes only the engine
  refine .bind (.lift (Q := fun p a e => a.Labelled e ∧ p.2.Labelled e) fun a e h => ?_)
    fun p => ?_
  · obtain ⟨hl, hk⟩ := expandLayers_labelled e (order.length + 1) [2] _ e
      ⟨startLayer_labelled (rootNode_labelled hroot h.2), .refl e⟩
    exact ⟨h.1.keeps hk, hl⟩
  rcases p with ⟨f | levels, layer⟩
  · exact .pure fun _ _ h => h.1
  dsimp only
  refine .bind (.modifyGet (Q := fun _ a e => a.Labelled e ∧ layer.Labelled e) fun a e h =>
    ⟨h.1.alloc (DNode.labelled_terminal true _), h.2⟩) fun yes => ?_
  refine .bind (.modifyGet (Q := fun _ a e => a.Labelled e ∧ layer.Labelled e) fun a e h =>
    ⟨h.1.alloc (DNode.labelled_terminal false _), h.2⟩) fun no => ?_
  refine .bind .get fun a => ?_
  rw [List.foldl_reverse]
  -- the second phase makes its nodes from those of the first
  refine .bind (.set (R := fun _ a e => a.Labelled e) fun a' e h => ?_) fun _ =>
    .pure fun _ _ h => h
  obtain ⟨⟨ha, hl⟩, rfl⟩ := h
  exact foldr_reduceLevel_labelled hl (F := fun s ids => reduceLevel layer ids s.1 s.2.1 s.2.2)
    (fun _ _ => rfl) levels _ ha

/-- Every node a build leaves carries the text that the engine it leaves gives the node's
expression, when the engine it starts from gives the formula's node the formula's text. -/
theorem runBuild_labelled (d : Diagram) (k : Kind) (order : List String) (base : Nat) {e : Engine}
    (he : e.TextOf d.root d.expression) :
    ((runBuild d k order base).run e).1.2.Labelled ((runBuild d k order base).run e).2 := by
  cases k
  · exact decisionTree_labelled d order _ e ⟨Arena.labelled_empty base, he⟩
  · exact reducedDiagram_labelled d order _ e ⟨Arena.labelled_empty base, he⟩

/-! ### The texts of a made diagram's builds -/

/-- Taking an order keeps the engine, the formula's node and its text. -/
theorem setOrder_textOf {d d' : Diagram} {o : List String} (h : d.setOrder o = .ok d')
    (ht : d.engine.TextOf d.root d.expression) : d'.engine.TextOf d'.root d'.expression := by
  rcases setOrder_cases h with rfl | rfl <;> exact ht

/-- A diagram is made with the text its engine rendered for the formula's node. -/
theorem create_textOf {text : String} {limits : Limits} {order : Option (List String)}
    {d : Diagram} (h : create text limits order = .ok d) : d.engine.TextOf d.root d.expression := by
  obtain ⟨-, -, e₁, root, e₂, expression, -, -, -, hx, hd⟩ := create_eq_ok h
  have hf : (fresh text e₂ root expression).engine.TextOf root expression := by
    have h₁ := (render_text root e₁).2 expression (by rw [hx])
    rw [hx] at h₁
    exact h₁
  rcases hd with ⟨-, rfl⟩ | ⟨o, -, ho⟩
  · exact hf
  · exact setOrder_textOf ho hf

/-- The texts of a build describe its subdiagrams. For a diagram made from a formula text
without a node limit and any order it takes, a build of either kind succeeds; on the engine it
leaves, every node reached from the root carries the text that rendering its expression answers,
without changing the engine, and that expression has, under every assignment, the value that
the subdiagram below the node computes over the levels of the order. A terminal reached is named
by its value, and the root carries the formula's text, also when the reduced build stands a
child of the formula's node in its place. -/
theorem node_texts_render_subdiagrams {text : String} {limits : Limits}
    (hlim : limits.maxNodes = 0) {d₀ d : Diagram} (h₀ : create text limits none = .ok d₀)
    {o : List String} (ho : d₀.setOrder o = .ok d) (k : Kind) :
    ∃ b : Built, ((build k).run d).1 = .ok b.root ∧ ((build k).run d).2.built? k = some b ∧
      (∃ r, b.arena.at? b.root = some r ∧ r.text = d.expression) ∧
      ∀ i n, b.arena.graph.Reach b.root i → b.arena.at? i = some n →
        (render n.value.node).run ((build k).run d).2.engine =
            (.ok n.text, ((build k).run d).2.engine) ∧
          (∀ σ, b.arena.graph.eval o.length (orderLevels o σ) i =
            ((build k).run d).2.engine.value n.value.node σ) ∧
          (n.isTerminal = true → n.text = if n.terminalValue then "True" else "False") := by
  obtain ⟨f, -, -, -, -, -, hf, -⟩ := create_eq_ok h₀
  have hd := (create_made hlim h₀ hf).setOrder ho
  obtain ⟨-, -, hord⟩ := setOrder_ok ho
  subst hord
  have hc := hd.coherent
  obtain ⟨root, a, e, hrun, hfe, hl, -, hshape, r, hr, hval⟩ := runBuild_run hd.faithful hc.root
    (fun y hy => hc.perm.symm.subset (hc.names y hy)) (hc.perm.nodup_iff.2 hc.nodup) k d.next
  have hbuild := build_run_ok hrun
  have hengine : (install k a root (clearHighlight { d with engine := e })).engine = e := by
    cases k <;> rfl
  -- every node carries the text of its expression, the root's since the diagram was made
  have htext : d.engine.TextOf d.root d.expression := setOrder_textOf ho (create_textOf h₀)
  have hlab : a.Labelled e := by
    have h₁ := runBuild_labelled d k d.order d.next htext
    rw [hrun] at h₁
    exact h₁
  have hset : ∀ i, a.graph.Reach root i → a.Settled e d.order k.below i := fun i hi => by
    obtain ⟨m, hm⟩ := Arena.exists_of_reach (fun _ _ => hshape.settled) hr hi
    exact hshape.settled hm
  rw [hbuild, hengine]
  refine ⟨⟨a, root⟩, rfl, built?_install .., ⟨r, hr, ?_⟩, fun i n hi hn =>
    ⟨(hlab i n hn).render_run, fun σ => ?_, fun ht => ?_⟩⟩
  · -- the root has the formula's truth values, so by canonicity it stands for the formula's node
    obtain ⟨r', hr', hvalid, -⟩ := hset root .root
    rw [hr] at hr'
    cases hr'
    have hroot : d.root < e.kernel.nodes.size :=
      Nat.lt_of_lt_of_le hc.root hl.evolves.ext.size_le
    have heq : r.value.node = d.root :=
      hfe.sound.eq_of_value_eq (Residual.node_lt hfe.sound hvalid) hroot fun σ => by
        rw [← Residual.holds_eq_value, hval σ, value_evolves hd.faithful.sound hl.evolves hc.root σ]
    have hr₁ := hlab root r hr
    unfold DNode.Labelled at hr₁
    rw [heq] at hr₁
    exact hr₁.unique (htext.keeps hl.remembers)
  · rw [Arena.eval_of_settled (fun _ _ => Kind.lt_of_below) hset σ i n hi hn, Residual.holds_eq_value]
  · -- a terminal holds its value, whose node is named
    obtain ⟨n', hn', -, hterm, -⟩ := hset i hi
    rw [hn] at hn'
    cases hn'
    have hn₁ := hlab i n hn
    unfold DNode.Labelled at hn₁
    rw [(hterm ht).2] at hn₁
    cases hv : n.terminalValue <;> simpa [hv, TextOf, Residual.node] using hn₁

set_option maxRecDepth 100000 in
/-- The reduced build of the formula `a`, made without limits, for its own order. -/
theorem node_texts_render_subdiagrams_of_a :
    let d := fresh "a" ((render 2).run ((parseAndSimplify "a").run (created {})).2).2 2 "a"
    create "a" {} none = .ok d ∧ d.setOrder ["a"] = .ok d ∧
      ∃ b : Built, ((build .robdd).run d).1 = .ok b.root ∧
        ((build .robdd).run d).2.built? .robdd = some b ∧
        (∃ r, b.arena.at? b.root = some r ∧ r.text = d.expression) ∧
        ∀ i n, b.arena.graph.Reach b.root i → b.arena.at? i = some n →
          (render n.value.node).run ((build .robdd).run d).2.engine =
              (.ok n.text, ((build .robdd).run d).2.engine) ∧
            (∀ σ, b.arena.graph.eval ["a"].length (orderLevels ["a"] σ) i =
              ((build .robdd).run d).2.engine.value n.value.node σ) ∧
            (n.isTerminal = true → n.text = if n.terminalValue then "True" else "False") := by
  -- the closed facts first, outside the diagram's definition
  have hv : variablesOf "a" = ["a"] := by cbv
  have hc : checkOrder ["a"] ["a"] = .ok () := by cbv
  have h₀ : create "a" {} none =
      .ok (fresh "a" ((render 2).run ((parseAndSimplify "a").run (created {})).2).2 2 "a") := by
    cbv
  intro d
  have ho : d.setOrder ["a"] = .ok d := by
    have := setOrder_self (d := d) (by simp only [d, fresh, hv, hc])
    simpa only [d, fresh, hv] using this
  exact ⟨h₀, ho, node_texts_render_subdiagrams rfl h₀ ho .robdd⟩

end Diagram

end DecisionDiagrams
