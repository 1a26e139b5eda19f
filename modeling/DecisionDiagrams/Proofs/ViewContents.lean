/-
What the view and the edges of a build hold.

The view of a build lists the nodes its root reaches, each under its identifier: an internal node
under its id, a terminal under its value. It is a closed description of the build: each key names
one entry, the root is a key, an internal entry names its variable and two children that are
keys, and a terminal entry names neither. The edges of the build are the two links of each
internal entry, dashed to the low child and solid to the high one. This holds of every build of a
diagram reached by operations because its arena is whole: the keys of two nodes differ since
internal ids differ and a build holds one terminal of each value at most.

* `View.Closed` — a view closed under its links.
* `View.linkEdges` — the edges a view's entries name.
* `Diagram.closed_of_whole` — the view of a linked, whole arena from one of its nodes.
* `Diagram.view_closed` — the view of every build of a reachable diagram is closed, has one entry
  for each reachable node and the order and kind of the diagram, and the edges are those the view
  names.
-/
import DecisionDiagrams.Proofs.InstalledBuilds
import DecisionDiagrams.Proofs.BreadthFirstWalks

namespace DecisionDiagrams

open Relation

namespace View

/-- The keys of a view's entries. -/
def keys (v : View) : List String := v.nodes.map Prod.fst

/-- A view closed under its links: each key once, each entry under its own identifier, the root a
key, and each entry internal, with a variable and two children that are keys, or a terminal, keyed
by its value, with neither. -/
structure Closed (v : View) : Prop where
  nodup : v.keys.Nodup
  ids : ∀ key nv, (key, nv) ∈ v.nodes → nv.id = key
  root : v.root ∈ v.keys
  entries : ∀ key nv, (key, nv) ∈ v.nodes →
    (nv.var.isSome ∧ ∃ lo hi, nv.low = some lo ∧ nv.high = some hi ∧ lo ∈ v.keys ∧ hi ∈ v.keys) ∨
    (nv.var = none ∧ nv.low = none ∧ nv.high = none ∧
      (key = "terminal_true" ∨ key = "terminal_false"))

/-- The edges of an entry: dashed to its low child and solid to its high child. -/
def entryEdges (e : String × NodeView) : List Edge :=
  match e.2.low, e.2.high with
  | some lo, some hi => [⟨e.1, lo, "dashed"⟩, ⟨e.1, hi, "solid"⟩]
  | _, _ => []

/-- The edges a view's entries name. -/
def linkEdges (v : View) : List Edge :=
  v.nodes.flatMap entryEdges

/-- The edges of a closed view join keys. -/
theorem Closed.linkEdges_keys {v : View} (h : v.Closed) :
    ∀ e ∈ v.linkEdges, e.tail ∈ v.keys ∧ e.head ∈ v.keys := by
  intro e he
  obtain ⟨⟨key, nv⟩, hmem, he⟩ := List.mem_flatMap.1 he
  have hkey : key ∈ v.keys := List.mem_map_of_mem (f := Prod.fst) hmem
  rcases h.entries key nv hmem with ⟨-, lo, hi, hlo, hhi, hlok, hhik⟩ | ⟨-, hlo, -, -⟩
  · simp only [entryEdges, hlo, hhi, List.mem_cons, List.not_mem_nil, or_false] at he
    rcases he with rfl | rfl
    · exact ⟨hkey, hlok⟩
    · exact ⟨hkey, hhik⟩
  · simp [entryEdges, hlo] at he

end View

/-- Inserting under a new key adds the entry. -/
theorem insertByKey_perm {α : Type} (k : String) (v : α) :
    ∀ l : List (String × α), k ∉ l.map Prod.fst → (insertByKey k v l).Perm ((k, v) :: l)
  | [], _ => .refl _
  | (j, w) :: rest, h => by
    rw [insertByKey]
    split
    · exact .refl _
    · split
      · next hkj => exact absurd (by rw [hkj]; exact List.mem_cons_self) h
      · exact ((insertByKey_perm k v rest fun hm => h (List.mem_cons_of_mem _ hm)).cons _).trans
          (.swap _ _ _)

namespace DNode

/-- The identifiers of internal nodes differ as their ids do. -/
theorem nodeName_inj {i j : Nat} (h : "node_" ++ toString i = "node_" ++ toString j) : i = j := by
  have h' := congrArg String.toList h
  rw [String.toList_append, String.toList_append] at h'
  exact Nat.repr_inj.1 (String.toList_injective (List.append_cancel_left h'))

theorem nodeName_ne_terminal (i : Nat) (v : Bool) :
    "node_" ++ toString i ≠ if v then "terminal_true" else "terminal_false" := by
  intro h
  have h' := congrArg String.toList h
  cases v <;> simp at h'

/-- Two nodes of a linked arena in which terminals of one value are one node, with one
identifier, are one node. -/
theorem identifier_injective {a : Arena} (hl : a.Linked) (hw : a.Whole) {i j : Nat}
    {n m : DNode} (hn : a.at? i = some n) (hm : a.at? j = some m)
    (h : n.identifier = m.identifier) : i = j := by
  unfold identifier at h
  cases htn : n.isTerminal <;> cases htm : m.isTerminal <;> rw [htn, htm] at h
  · -- two internal nodes, named by their ids
    rw [← hl.ids i n hn, ← hl.ids j m hm]
    exact nodeName_inj h
  · exact absurd h (nodeName_ne_terminal _ _)
  · exact absurd h.symm (nodeName_ne_terminal _ _)
  · -- two terminals, named by their values
    refine hw.terminals i j n m hn hm htn htm ?_
    cases hv : n.terminalValue <;> cases hw' : m.terminalValue <;> rw [hv, hw'] at h <;>
      first | rfl | (simp at h)

end DNode

namespace Arena

/-- A node reached from a node of a linked arena is a node of it. -/
theorem Linked.reach_isSome {a : Arena} (hl : a.Linked) {r j : Nat} (hr : (a.at? r).isSome)
    (h : ReflTransGen a.ParentOf r j) : (a.at? j).isSome := by
  induction h with
  | refl => exact hr
  | tail _ hpc _ => exact hl.closed _ _ hpc

end Arena

namespace Diagram

open Arena

/-- One step of the view's fold: a node of the arena is inserted under its identifier. -/
def viewStep (a : Arena) (acc : List (String × NodeView)) (id : Nat) : List (String × NodeView) :=
  match a.at? id with
  | some n => insertByKey n.identifier (nodeView a n) acc
  | none => acc

/-- The entry of the view for an id of the arena. -/
def viewEntry (a : Arena) (id : Nat) : Option (String × NodeView) :=
  (a.at? id).map fun n => (n.identifier, nodeView a n)

/-- The edges of the node with an id: none for a terminal. -/
def nodeEdges (a : Arena) (id : Nat) : List Edge :=
  match a.at? id with
  | some n =>
    if n.isTerminal then []
    else [⟨n.identifier, a.identifierOf n.low, "dashed"⟩,
      ⟨n.identifier, a.identifierOf n.high, "solid"⟩]
  | none => []

/-- Folding ids whose identifiers differ into a view lists their entries, in some order. The
induction is on the ids with the entries so far generalised; each new key is not among them. -/
theorem foldl_viewStep_perm (a : Arena) : ∀ (ids : List Nat) (acc : List (String × NodeView)),
    ((ids.filterMap (viewEntry a) ++ acc).map Prod.fst).Nodup →
      (ids.foldl (viewStep a) acc).Perm (ids.filterMap (viewEntry a) ++ acc)
  | [], _, _ => .refl _
  | id :: ids, acc, h => by
    rw [List.foldl_cons]
    cases hn : a.at? id with
    | none =>
      have hstep : viewStep a acc id = acc := by rw [viewStep, hn]
      have hfm : (id :: ids).filterMap (viewEntry a) = ids.filterMap (viewEntry a) := by
        simp [viewEntry, hn]
      rw [hstep, hfm]
      rw [hfm] at h
      exact foldl_viewStep_perm a ids acc h
    | some n =>
      have hstep : viewStep a acc id = insertByKey n.identifier (nodeView a n) acc := by
        rw [viewStep, hn]
      have hfm : (id :: ids).filterMap (viewEntry a) =
          (n.identifier, nodeView a n) :: ids.filterMap (viewEntry a) := by
        simp [viewEntry, hn]
      rw [hstep, hfm]
      rw [hfm] at h
      have hnew : n.identifier ∉ acc.map Prod.fst := by
        simp only [List.cons_append, List.map_cons, List.nodup_cons, List.map_append,
          List.mem_append, not_or] at h
        exact h.1.2
      -- the insertion adds the entry, which stands before the others up to order
      have hins := ((insertByKey_perm n.identifier (nodeView a n) acc hnew).append_left
        (ids.filterMap (viewEntry a))).trans List.perm_middle
      exact (foldl_viewStep_perm a ids _ ((hins.map Prod.fst).nodup_iff.2 h)).trans hins

/-- The entries' edges are the edges of the nodes they list. -/
theorem flatMap_viewEntry (a : Arena) : ∀ ids : List Nat,
    (ids.filterMap (viewEntry a)).flatMap View.entryEdges = ids.flatMap (nodeEdges a)
  | [] => rfl
  | id :: ids => by
    cases hn : a.at? id with
    | none => simp [viewEntry, nodeEdges, hn, flatMap_viewEntry a ids]
    | some n =>
      cases ht : n.isTerminal <;>
        simp [viewEntry, nodeEdges, View.entryEdges, nodeView, hn, ht, flatMap_viewEntry a ids]

/-- The view of a linked, whole arena from one of its nodes is closed, lists each node the root
reaches once, and names exactly the edges of those nodes. -/
theorem closed_of_whole {a : Arena} (hl : a.Linked) (hw : a.Whole) {r : Nat}
    (hr : (a.at? r).isSome) (vars : List String) (type : String) :
    let v : View :=
      { nodes := (walkOrder a r).foldl (viewStep a) [], root := a.identifierOf (some r),
        vars := vars, type := type }
    v.Closed ∧ v.nodes.length = (walkOrder a r).length ∧
      v.linkEdges.Perm ((walkOrder a r).flatMap (nodeEdges a)) := by
  intro v
  obtain ⟨-, hmem⟩ := walkOrder_spec hl.closed hr
  -- the entries of the nodes reached, whose keys differ
  have hkeys : ((walkOrder a r).filterMap (viewEntry a)).map Prod.fst |>.Nodup := by
    rw [List.map_filterMap]
    refine (walkOrder_spec hl.closed hr).1.filterMap fun i j key hi hj => ?_
    obtain ⟨n, hn, rfl⟩ := Option.map_eq_some_iff.1 (Option.mem_def.1 hi)
    obtain ⟨m, hm, hnm⟩ := Option.map_eq_some_iff.1 (Option.mem_def.1 hj)
    obtain ⟨n, hn', rfl⟩ := Option.map_eq_some_iff.1 hn
    obtain ⟨m, hm', rfl⟩ := Option.map_eq_some_iff.1 hm
    exact DNode.identifier_injective hl hw hn' hm' hnm.symm
  have hperm : v.nodes.Perm ((walkOrder a r).filterMap (viewEntry a)) := by
    have h := foldl_viewStep_perm a (walkOrder a r) [] (by rwa [List.append_nil])
    rwa [List.append_nil] at h
  -- every node reached is a node of the arena, and its identifier a key
  have hnode : ∀ j, ReflTransGen a.ParentOf r j → ∃ n, a.at? j = some n ∧ n.identifier ∈ v.keys := by
    intro j hj
    obtain ⟨n, hn⟩ := Option.isSome_iff_exists.1 (hl.reach_isSome hr hj)
    refine ⟨n, hn, List.mem_map.2 ⟨(n.identifier, nodeView a n), hperm.symm.subset ?_, rfl⟩⟩
    exact List.mem_filterMap.2 ⟨j, (hmem j).2 hj, by simp [viewEntry, hn]⟩
  have hentry : ∀ key nv, (key, nv) ∈ v.nodes → ∃ j n, ReflTransGen a.ParentOf r j ∧
      a.at? j = some n ∧ key = n.identifier ∧ nv = nodeView a n := by
    intro key nv h
    obtain ⟨j, hj, he⟩ := List.mem_filterMap.1 (hperm.subset h)
    obtain ⟨n, hn, hkn⟩ := Option.map_eq_some_iff.1 he
    cases hkn
    exact ⟨j, n, (hmem j).1 hj, hn, rfl, rfl⟩
  -- a child of a node reached is named by a key
  have hchild : ∀ j n c, ReflTransGen a.ParentOf r j → a.at? j = some n →
      (n.low = some c ∨ n.high = some c) → a.identifierOf (some c) ∈ v.keys := by
    intro j n c hj hn hc
    obtain ⟨m, hm, hkey⟩ := hnode c (hj.tail ⟨n, hn, hc⟩)
    simpa [identifierOf, hm] using hkey
  refine ⟨⟨(hperm.map Prod.fst).nodup_iff.2 hkeys, fun key nv h => ?_, ?_,
    fun key nv h => ?_⟩, ?_, ?_⟩
  · obtain ⟨j, n, -, -, rfl, rfl⟩ := hentry key nv h
    rfl
  · obtain ⟨n, hn, hkey⟩ := hnode r .refl
    simpa [v, identifierOf, hn] using hkey
  · obtain ⟨j, n, hj, hn, rfl, rfl⟩ := hentry key nv h
    cases ht : n.isTerminal
    · -- an internal node has a variable and both children, which are reached
      obtain ⟨hlo, hhi⟩ := hw.tied j n hn ht
      obtain ⟨lo, hlo⟩ := Option.isSome_iff_exists.1 hlo
      obtain ⟨hi, hhi⟩ := Option.isSome_iff_exists.1 hhi
      refine .inl ⟨?_, a.identifierOf (some lo), a.identifierOf (some hi), ?_, ?_,
        hchild j n lo hj hn (.inl hlo), hchild j n hi hj hn (.inr hhi)⟩
      · have hv : n.var.isSome = true := by simpa [DNode.isTerminal] using ht
        simp [nodeView, ht, hv]
      · simp [nodeView, ht, hlo]
      · simp [nodeView, ht, hhi]
    · -- a terminal is keyed by its value
      refine .inr ⟨by simp [nodeView, ht], by simp [nodeView, ht], by simp [nodeView, ht], ?_⟩
      cases hv : n.terminalValue <;> simp [DNode.identifier, ht, hv]
  · rw [hperm.length_eq, List.filterMap_length_eq_length.2 fun j hj => ?_]
    simpa [viewEntry] using hl.reach_isSome hr ((hmem j).1 hj)
  · rw [← flatMap_viewEntry]
    exact hperm.flatMap_right _

/-- Numbering a build keeps its root and renumbers its arena. -/
theorem assignSteps_built {d : Diagram} {k : Kind} {b : Built} (hb : d.built? k = some b) :
    ∃ b' : Built, (assignSteps k).run d = (.ok (), d.setBuilt k (some b')) ∧ b'.root = b.root ∧
      Renumbered b'.arena b.arena := by
  rw [assignSteps_run, hb]
  dsimp only
  cases b.arena.at? b.root with
  | none => exact ⟨b, by rw [← hb, setBuilt_built?], rfl, .refl _⟩
  | some r =>
    dsimp only
    split
    · exact ⟨b, by rw [← hb, setBuilt_built?], rfl, .refl _⟩
    · exact ⟨_, rfl, rfl, numbered_renumbered b.arena b.root⟩

/-- The view of a build lists the nodes of its numbered arena, and the edges are those of its
nodes. -/
theorem view_run {d : Diagram} {k : Kind} {b : Built} (hb : d.built? k = some b) :
    ∃ b' : Built, b'.root = b.root ∧ Renumbered b'.arena b.arena ∧
      ((view k).run d).1 =
        .ok { nodes := (walkOrder b'.arena b'.root).foldl (viewStep b'.arena) [],
              root := b'.arena.identifierOf (some b'.root), vars := d.order, type := k.name } ∧
      ((edges k).run d).1 = .ok ((walkOrder b'.arena b'.root).flatMap (nodeEdges b'.arena)) := by
  obtain ⟨b', hrun, hroot, hren⟩ := assignSteps_built hb
  refine ⟨b', hroot, hren, ?_, ?_⟩
  · unfold view
    rw [StateT.run_bind, hrun]
    cases k <;> rfl
  · rw [← edges_assignSteps, hrun]
    cases k <;> rfl

/-- The view of every build of a reachable diagram is closed and complete: one entry for each node
the root reaches, each under its own identifier, the root a key, each internal entry with its
variable and two children that are keys and each terminal entry with neither; it carries the
diagram's order and the kind's name. The edges of the build are, up to order, the two edges of
each internal entry, dashed to its low child and solid to its high child, and they join keys. -/
theorem view_closed {d : Diagram} (hd : Reachable d) {k : Kind} (hb : (d.built? k).isSome) :
    ∃ v, ((view k).run d).1 = .ok v ∧ v.Closed ∧ v.nodes.length = d.size k ∧
      v.vars = d.order ∧ v.type = k.name ∧
      ∃ es, ((edges k).run d).1 = .ok es ∧ es.Perm v.linkEdges ∧
        ∀ e ∈ es, e.tail ∈ v.keys ∧ e.head ∈ v.keys := by
  obtain ⟨b, hb⟩ := Option.isSome_iff_exists.1 hb
  obtain ⟨b', hroot, hren, hview, hedges⟩ := view_run hb
  -- the numbered arena is the build's up to numbers: linked, whole, holding the root
  have hs : b.arena.Restyled b'.arena := (Restyled.of_renumbered hren).symm
  have hl := hs.linked (hd.numbered.linked k b hb)
  have hw := hs.whole (hd.whole hb)
  have hr : (b'.arena.at? b'.root).isSome := by
    rw [hroot]
    exact hs.isSome (hd.numbered.root k b hb)
  obtain ⟨hC, hlen, hE⟩ := closed_of_whole hl hw hr d.order k.name
  refine ⟨_, hview, hC, ?_, rfl, rfl, _, hedges, hE.symm,
    fun e he => hC.linkEdges_keys e (hE.symm.subset he)⟩
  rw [hlen, hren.walkOrder, hroot]
  simp only [Diagram.size, hb, reachableCount]

set_option maxRecDepth 100000 in
/-- The reduced build of the formula `a`, made without limits. -/
theorem view_closed_of_a :
    let d := (Action.op (.build .robdd)).next (fresh "a" ((Engine.render 2).run
      ((Engine.parseAndSimplify "a").run (Engine.created {})).2).2 2 "a")
    Reachable d ∧ (d.built? .robdd).isSome ∧
      ∃ v, ((view .robdd).run d).1 = .ok v ∧ v.Closed ∧ v.nodes.length = d.size .robdd ∧
        v.vars = d.order ∧ v.type = Kind.robdd.name ∧
        ∃ es, ((edges .robdd).run d).1 = .ok es ∧ es.Perm v.linkEdges ∧
          ∀ e ∈ es, e.tail ∈ v.keys ∧ e.head ∈ v.keys := by
  have h₀ : create "a" {} none = .ok (fresh "a" ((Engine.render 2).run
      ((Engine.parseAndSimplify "a").run (Engine.created {})).2).2 2 "a") := by
    cbv
  intro d
  have hd : Reachable d := .step _ (.create h₀)
  have hb : (d.built? .robdd).isSome := by
    dsimp only [d]
    cbv
  exact ⟨hd, hb, view_closed hd hb⟩

end Diagram

end DecisionDiagrams
