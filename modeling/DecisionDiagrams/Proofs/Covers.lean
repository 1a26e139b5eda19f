/-
Covers of an expression.

An expression of a sound engine reads the levels of the internal nodes it reaches; the names of
those levels are its support. Both covers that `render` can write are exact over the support: a
term of the cover holds, with its literals negated when asked, exactly where the expression is
true.

* `Engine.InSupport` — the names of the levels an expression depends on.
* `Engine.supportNames_run` — `supportNames` lists them once each and leaves the engine as it was.
* `Engine.primeCover_run` — the chosen prime implicants, read as terms over the support, cover
  the expression: an assignment satisfies a term exactly when its minterm is covered by the
  implicant, and the implicants chosen cover exactly the minterms of the expression.
* `Engine.pathCover_run` — the terms of the paths to true, less those that contain a shorter one,
  cover it as well.
* `Engine.cover_run` — hence the cover that `render` asks for, on either path.
-/
import DecisionDiagrams.Proofs.Canonicity
import DecisionDiagrams.Proofs.TruePaths
import DecisionDiagrams.Proofs.PrimeCover
import DecisionDiagrams.Proofs.NormalForms
import DecisionDiagrams.Proofs.SimplifierState

namespace DecisionDiagrams

namespace Kernel

/-- A later table reaches from a node of an earlier one exactly the nodes the earlier one
reaches. -/
theorem Reaches.extends_iff {k k' : Kernel} (hext : Extends k k') {x : Nat}
    (hx : x < k.nodes.size) {i : Nat} : Reaches k' x i ↔ Reaches k x i := by
  -- the nodes below `x` have the same children in both tables
  have same : ∀ j, j ≤ x → 2 ≤ j → k'.lowOf j = k.lowOf j ∧ k'.highOf j = k.highOf j :=
    fun j hj h2 => ⟨hext.lowOf h2 (Nat.lt_of_le_of_lt hj hx),
      hext.highOf h2 (Nat.lt_of_le_of_lt hj hx)⟩
  exact ⟨Reaches.of_children fun j hj h2 => (same j hj.le h2).imp Eq.symm Eq.symm,
    Reaches.of_children fun j hj h2 => same j hj.le h2⟩

end Kernel

namespace Engine

open Kernel

/-- Name `y` is in the support of expression `x`: it names the level of an internal node that `x`
reaches. -/
def InSupport (e : Engine) (x : Nat) (y : String) : Prop :=
  ∃ i, Reaches e.kernel x i ∧ 2 ≤ i ∧ e.names[e.kernel.level i]? = some y

theorem InSupport.mem_names {e : Engine} {x : Nat} {y : String} (h : e.InSupport x y) :
    y ∈ e.names.toList := by
  obtain ⟨i, -, -, hy⟩ := h
  exact Array.mem_toList_iff.2 (Array.mem_of_getElem? hy)

section Support

variable {e : Engine} (hs : Sound e)
include hs

/-- Internal nodes stand at levels that have names. -/
theorem Sound.level_lt_names {i : Nat} (h2 : 2 ≤ i) (hi : i < e.kernel.nodes.size) :
    e.kernel.level i < e.names.size := by
  have := hs.ordered.levels.below i h2 hi
  rw [hs.ordered.top] at this
  rw [hs.size]
  exact this

/-- A name of the support is declared at the level of a node the expression reaches. -/
theorem InSupport.exists_level {x : Nat} {y : String} (h : e.InSupport x y) :
    ∃ i, Reaches e.kernel x i ∧ 2 ≤ i ∧ e.levelOf y = e.kernel.level i := by
  obtain ⟨i, hi, h2, hy⟩ := h
  obtain ⟨hlt, hget⟩ := Array.getElem?_eq_some_iff.1 hy
  refine ⟨i, hi, h2, ?_⟩
  rw [levelOf, (level?_eq_some hs.nodup).2 ⟨hlt, hget⟩, Option.getD_some]

omit hs in
/-- A declared level keeps its name as the engine evolves. -/
theorem names_getElem?_evolves {e' : Engine} (hev : Evolves e e') {l : Nat}
    (hl : l < e.names.size) : e'.names[l]? = e.names[l]? := by
  have hl' : l < e.names.toList.length := by simpa using hl
  have hget := hev.names.getElem hl'
  simp only [Array.getElem_toList] at hget
  have hl'' : l < e'.names.size := by simpa using Nat.lt_of_lt_of_le hl' hev.names.length_le
  rw [Array.getElem?_eq_getElem hl'', Array.getElem?_eq_getElem hl, hget]

/-- The support of an expression stays as the engine evolves: its nodes and the names of their
levels are kept. -/
theorem InSupport.evolves {e' : Engine} (hev : Evolves e e') {x : Nat}
    (hx : x < e.kernel.nodes.size) {y : String} (h : e.InSupport x y) : e'.InSupport x y := by
  obtain ⟨i, hi, h2, hy⟩ := h
  have hil := Nat.lt_of_le_of_lt hi.le hx
  refine ⟨i, (Reaches.extends_iff hev.ext hx).2 hi, h2, ?_⟩
  rw [hev.ext.level h2 hil, names_getElem?_evolves hev (hs.level_lt_names h2 hil)]
  exact hy

/-- The support of an expression, as `supportNames` lists it: each name once, and the engine is
left as it was. -/
theorem supportNames_run {x : Nat} (hx : x < e.kernel.nodes.size) :
    ∃ L, (supportNames x).run e = (L, e) ∧ L.Nodup ∧ ∀ y, y ∈ L ↔ e.InSupport x y := by
  obtain ⟨Ls, hrun, hsorted, hmem⟩ := support_run hx
  -- every level listed is the level of an internal node, so it has a name
  have hlt : ∀ l ∈ Ls, l < e.names.size := by
    intro l hl
    obtain ⟨i, hi, h2, rfl⟩ := (hmem l).1 hl
    exact hs.level_lt_names h2 (Nat.lt_of_le_of_lt hi.le hx)
  have hname : ∀ l ∈ Ls, ∀ y, e.names[l]?.getD "" = y ↔ e.names[l]? = some y := by
    intro l hl y
    rw [Array.getElem?_eq_getElem (hlt l hl), Option.getD_some, Option.some.injEq]
  refine ⟨((Ls.map fun l => e.names[l]?.getD "").mergeSort fun a b => decide (a ≤ b)), ?_, ?_,
    fun y => ?_⟩
  · simp only [supportNames, run_bind, onKernel_run, hrun, run_get]
    rfl
  · refine (List.mergeSort_perm _ _).nodup_iff.2 (List.Nodup.map_on ?_ hsorted.nodup)
    intro a ha b hb hab
    rw [Array.getElem?_eq_getElem (hlt a ha), Array.getElem?_eq_getElem (hlt b hb)] at hab
    exact level_inj hs.nodup (hlt a ha) (hlt b hb) hab
  · rw [List.mem_mergeSort, List.mem_map]
    constructor
    · rintro ⟨l, hl, hy⟩
      obtain ⟨i, hi, h2, rfl⟩ := (hmem l).1 hl
      exact ⟨i, hi, h2, (hname _ hl y).1 hy⟩
    · rintro ⟨i, hi, h2, hy⟩
      have hl := (hmem _).2 ⟨i, hi, h2, rfl⟩
      exact ⟨_, hl, (hname _ hl y).2 hy⟩

end Support

/-! ### Prime covers -/

/-- The minterm of an assignment over a list of names: bit `i` is the value of the `i`-th. -/
def mintermOf (σ : String → Bool) : List String → Nat
  | [] => 0
  | x :: xs => Nat.bit (σ x) (mintermOf σ xs)

theorem mintermOf_lt (σ : String → Bool) : ∀ names, mintermOf σ names < 2 ^ names.length
  | [] => by simp [mintermOf]
  | x :: xs => Nat.bit_lt_two_pow_succ_iff.2 (mintermOf_lt σ xs)

theorem testBit_mintermOf (σ : String → Bool) :
    ∀ (names : List String) (i : Nat) (h : i < names.length),
      (mintermOf σ names).testBit i = σ names[i]
  | [], _, h => absurd h (Nat.not_lt_zero _)
  | x :: xs, 0, _ => Nat.testBit_bit_zero _ _
  | x :: xs, i + 1, h => by
    rw [mintermOf, Nat.testBit_bit_succ, testBit_mintermOf σ xs i (by simpa using h)]
    rfl

/-- In a list without repetition, the first entry with a given value is the one at its index. -/
theorem find?_zipIdx_of_nodup {lvls : List Nat} (hnd : lvls.Nodup) {j : Nat}
    (hj : j < lvls.length) {p : Nat × Nat → Bool} (hp : ∀ a i, p (a, i) = decide (a = lvls[j])) :
    lvls.zipIdx.find? p = some (lvls[j], j) := by
  have hmem : (lvls[j], j) ∈ lvls.zipIdx := List.mem_zipIdx_iff_getElem?.2 (by simp)
  obtain ⟨⟨a, i⟩, hfind⟩ : ∃ y, lvls.zipIdx.find? p = some y :=
    Option.isSome_iff_exists.1 (List.find?_isSome.2 ⟨_, hmem, by rw [hp]; simp⟩)
  have hpa := List.find?_some hfind
  have hai := List.mem_zipIdx_iff_getElem?.1 (List.mem_of_find?_eq_some hfind)
  rw [hp, decide_eq_true_eq] at hpa
  subst hpa
  have hai' : lvls[i]? = some lvls[j] := hai
  obtain ⟨hi, hget⟩ := List.getElem?_eq_some_iff.1 hai'
  rw [hfind, (hnd.getElem_inj_iff).1 hget]

/-- A literal of a cube holds, with the negation asked, exactly when its name has the value
the cube fixes. -/
theorem holds_cubeLiteral (σ : String → Bool) (x : String) (v negate : Bool) :
    ((Literal.holds σ ⟨x, (!v) != negate⟩ != negate) = true) ↔ σ x = v := by
  unfold Literal.holds
  dsimp only
  cases σ x <;> cases v <;> cases negate <;> decide

/-- A cube's term holds exactly where every name the cube fixes has the value it fixes. -/
theorem cubeTerm_holds (names : List String) (negate : Bool) (p : Cube) (σ : String → Bool) :
    (∀ l ∈ cubeTerm names negate p, (l.holds σ != negate) = true) ↔
      ∀ i (h : i < names.length), p.mask.testBit i = false → σ names[i] = p.val.testBit i := by
  unfold cubeTerm
  constructor
  · intro h i hi hmask
    refine (holds_cubeLiteral σ _ _ negate).1 (h _ (List.mem_filterMap.2 ⟨(names[i], i), ?_, ?_⟩))
    · exact List.mem_zipIdx_iff_getElem?.2 (by simp)
    · simp only [hmask, Bool.false_eq_true, ↓reduceIte]
  · intro h l hl
    obtain ⟨⟨x, i⟩, hxi, hf⟩ := List.mem_filterMap.1 hl
    have hget : names[i]? = some x := List.mem_zipIdx_iff_getElem?.1 hxi
    obtain ⟨hi, rfl⟩ := List.getElem?_eq_some_iff.1 hget
    dsimp only at hf
    split at hf
    · cases hf
    next hmask =>
      cases hf
      exact (holds_cubeLiteral σ _ _ negate).2 (h i hi (Bool.eq_false_iff.2 hmask))

theorem mem_cubeTerm_name {names : List String} {negate : Bool} {p : Cube} {l : Literal}
    (hl : l ∈ cubeTerm names negate p) : l.name ∈ names := by
  obtain ⟨⟨x, i⟩, hxi, hf⟩ := List.mem_filterMap.1 hl
  have hx := List.mem_of_getElem? (List.mem_zipIdx_iff_getElem?.1 hxi)
  dsimp only at hf
  split at hf
  · cases hf
  · cases hf
    exact hx

theorem mem_pathTerm_name {e : Engine} {names : List String} {negate : Bool} {prof : Array Int} {l : Literal}
    (hl : l ∈ pathTerm e names negate prof) : l.name ∈ names := by
  obtain ⟨y, hy, hf⟩ := List.mem_filterMap.1 hl
  split at hf
  · cases hf
    exact hy
  · cases hf
    exact hy
  · cases hf

/-- The chosen prime implicants of a list of minterms, read as terms over the names: an
assignment satisfies one of the terms exactly when its minterm is in the list. -/
theorem exists_cubeTerm_iff {names : List String} {ms : List Nat}
    (hms : ∀ m ∈ ms, m < 2 ^ names.length) (negate : Bool) (σ : String → Bool) :
    (∃ t ∈ (chooseCover (primeCubes names.length ms) ms).map (cubeTerm names negate),
      ∀ l ∈ t, (l.holds σ != negate) = true) ↔ mintermOf σ names ∈ ms := by
  rw [← chooseCover_covers hms (mintermOf_lt σ names)]
  simp only [List.mem_map]
  constructor
  · rintro ⟨_, ⟨p, hp, rfl⟩, ht⟩
    have hfit := (primeCubes_sound hms p (chooseCover_sound p hp)).fits
    refine ⟨p, hp, (Cube.covers_iff hfit (mintermOf_lt σ names)).2 fun i hi hmask => ?_⟩
    rw [testBit_mintermOf σ names i hi]
    exact (cubeTerm_holds names negate p σ).1 ht i hi hmask
  · rintro ⟨p, hp, hcov⟩
    have hfit := (primeCubes_sound hms p (chooseCover_sound p hp)).fits
    refine ⟨_, ⟨p, hp, rfl⟩, (cubeTerm_holds names negate p σ).2 fun i hi hmask => ?_⟩
    rw [← testBit_mintermOf σ names i hi]
    exact (Cube.covers_iff hfit (mintermOf_lt σ names)).1 hcov i hi hmask

section Covers

variable {e : Engine} (hs : Sound e)
include hs

theorem levelOf_eq_of_getElem? {l : Nat} {y : String} (h : e.names[l]? = some y) :
    e.levelOf y = l := by
  obtain ⟨hlt, hget⟩ := Array.getElem?_eq_some_iff.1 h
  rw [levelOf, (level?_eq_some hs.nodup).2 ⟨hlt, hget⟩, Option.getD_some]

/-- Distinct declared names stand at distinct levels. -/
theorem nodup_levelOf {names : List String} (hnd : names.Nodup)
    (hdecl : ∀ y ∈ names, y ∈ e.names.toList) : (names.map e.levelOf).Nodup := by
  refine List.Nodup.map_on (fun a ha b hb hab => ?_) hnd
  obtain ⟨hla, hga⟩ := levelOf_of_mem hs.nodup (hdecl a ha)
  obtain ⟨hlb, hgb⟩ := levelOf_of_mem hs.nodup (hdecl b hb)
  have ha' : e.names[e.levelOf a]? = some a := Array.getElem?_eq_some_iff.2 ⟨hla, hga⟩
  have hb' : e.names[e.levelOf b]? = some b := Array.getElem?_eq_some_iff.2 ⟨hlb, hgb⟩
  rw [hab, hb'] at ha'
  exact (Option.some.inj ha').symm

/-- An assignment of levels that gives the level of each name of the support the name's value
gives the expression the walk of the names' assignment. -/
theorem walk_of_support {x : Nat} (hx : x < e.kernel.nodes.size) {names : List String}
    (hnames : ∀ y, y ∈ names ↔ e.InSupport x y) (σ : String → Bool) {τ : Nat → Bool}
    (hτ : ∀ j (hj : j < names.length), τ (e.levelOf names[j]) = σ names[j]) :
    e.kernel.walk τ x = e.kernel.walk (e.levels σ) x := by
  refine walk_congr_reaches fun i hi h2 => ?_
  -- the name of the level, and where it stands among the names
  have hlt := hs.level_lt_names h2 (Nat.lt_of_le_of_lt hi.le hx)
  have hy : e.names[e.kernel.level i]? = some e.names[e.kernel.level i] :=
    Array.getElem?_eq_getElem hlt
  obtain ⟨j, hj, hjy⟩ := List.getElem_of_mem ((hnames _).2 ⟨i, hi, h2, hy⟩)
  calc τ (e.kernel.level i) = τ (e.levelOf e.names[e.kernel.level i]) := by
        rw [levelOf_eq_of_getElem? hs hy]
    _ = σ e.names[e.kernel.level i] := by rw [← hjy]; exact hτ j hj
    _ = e.levels σ (e.kernel.level i) := by rw [levels, hy, Option.getD_some]

/-- The prime cover over the support is exact. -/
theorem primeCover_run {x : Nat} (hx : x < e.kernel.nodes.size) {names : List String}
    (hnd : names.Nodup) (hnames : ∀ y, y ∈ names ↔ e.InSupport x y) (negate : Bool) :
    ∃ c, (primeCover x names negate).run e = (c, e) ∧
      (∀ σ, (∃ t ∈ c, ∀ l ∈ t, (l.holds σ != negate) = true) ↔ e.value x σ = true) ∧
      ∀ t ∈ c, ∀ l ∈ t, l.name ∈ names := by
  have hlvls : (names.map e.levelOf).Nodup :=
    nodup_levelOf hs hnd fun y hy => ((hnames y).1 hy).mem_names
  refine ⟨_, rfl, fun σ => ?_, fun t ht l hl => ?_⟩
  · rw [exists_cubeTerm_iff ?hms, List.mem_filter, List.mem_range, Nat.pow_eq, value, beq_iff_eq,
      beq_iff_eq, walk_of_support hs hx hnames σ ?hτ]
    · exact and_iff_right (mintermOf_lt σ names)
    case hms =>
      intro m hm
      rw [← Nat.pow_eq]
      exact List.mem_range.1 (List.mem_of_mem_filter hm)
    case hτ =>
      -- the first level equal to a name's level is at the name's index
      intro j hj
      have hj' : j < (names.map e.levelOf).length := by simpa using hj
      rw [find?_zipIdx_of_nodup hlvls hj' fun a i => by simp]
      simp [testBit_mintermOf σ names j hj]
  · obtain ⟨p, -, rfl⟩ := List.mem_map.1 ht
    exact mem_cubeTerm_name hl

/-! ### Path covers -/

/-- A path's term holds, with the negation asked, exactly where the assignment agrees with the
path: the path fixes only levels of the support, and each of them has a name in the list. -/
theorem pathTerm_holds {x : Nat} (hx : x < e.kernel.nodes.size) {names : List String}
    (hnames : ∀ y, y ∈ names ↔ e.InSupport x y) {prof : Array Int}
    (hfix : ∀ l v, Fixes prof l v → ∃ i, Reaches e.kernel x i ∧ 2 ≤ i ∧ e.kernel.level i = l)
    (negate : Bool) (σ : String → Bool) :
    (∀ l ∈ pathTerm e names negate prof, (l.holds σ != negate) = true) ↔
      Agrees (e.levels σ) prof := by
  constructor
  · intro h l v hf
    obtain ⟨i, hi, h2, rfl⟩ := hfix _ v hf
    have hlt := hs.level_lt_names h2 (Nat.lt_of_le_of_lt hi.le hx)
    have hy : e.names[e.kernel.level i]? = some e.names[e.kernel.level i] :=
      Array.getElem?_eq_getElem hlt
    have hmem := (hnames _).2 ⟨i, hi, h2, hy⟩
    have hlev := levelOf_eq_of_getElem? hs hy
    rw [levels, hy, Option.getD_some]
    -- the literal of the name at that level is in the term
    have hlit : (⟨e.names[e.kernel.level i], (!v) != negate⟩ : Literal) ∈
        pathTerm e names negate prof := by
      refine List.mem_filterMap.2 ⟨_, hmem, ?_⟩
      rw [hlev, hf]
      cases v <;> cases negate <;> rfl
    have := h _ hlit
    unfold Literal.holds at this
    cases v <;> cases negate <;> simpa using this
  · intro hagree l hl
    obtain ⟨y, hy, hf⟩ := List.mem_filterMap.1 hl
    have hdecl := ((hnames y).1 hy).mem_names
    split at hf
    next hz =>
      cases hf
      have hv := hagree _ false hz
      rw [levels_levelOf hs.nodup hdecl] at hv
      simp [Literal.holds, hv]
    next ho =>
      cases hf
      have hv := hagree _ true ho
      rw [levels_levelOf hs.nodup hdecl] at hv
      simp [Literal.holds, hv]
    next => cases hf

/-- The path cover over the support is exact. -/
theorem pathCover_run {x : Nat} (hx : x < e.kernel.nodes.size) {names : List String}
    (hnames : ∀ y, y ∈ names ↔ e.InSupport x y) (negate : Bool) :
    ∃ c, (pathCover x names negate).run e = (c, e) ∧
      (∀ σ, (∃ t ∈ c, ∀ l ∈ t, (l.holds σ != negate) = true) ↔ e.value x σ = true) ∧
      ∀ t ∈ c, ∀ l ∈ t, l.name ∈ names := by
  obtain ⟨P, hrun, hsem, hfix⟩ := allsat_collect hs.ordered (pathTerm e names negate) hx []
  refine ⟨dropSubsumed (P.map (pathTerm e names negate)), ?_, fun σ => ?_, fun t ht l hl => ?_⟩
  · simp only [pathCover, run_bind, run_get, onKernel_run, hrun, List.nil_append]
    rfl
  · have hdrop := Bool.eq_iff_iff.1
      (any_dropSubsumed (fun l => l.holds σ != negate) (P.map (pathTerm e names negate)))
    simp only [List.any_eq_true, List.all_eq_true] at hdrop
    rw [hdrop, value, beq_iff_eq, ← hsem]
    simp only [List.mem_map]
    constructor
    · rintro ⟨_, ⟨p, hp, rfl⟩, ht⟩
      exact ⟨p, hp, (pathTerm_holds hs hx hnames (hfix p hp) negate σ).1 ht⟩
    · rintro ⟨p, hp, hag⟩
      exact ⟨_, ⟨p, hp, rfl⟩, (pathTerm_holds hs hx hnames (hfix p hp) negate σ).2 hag⟩
  · obtain ⟨p, -, rfl⟩ := List.mem_map.1 (mem_of_mem_dropSubsumed ht)
    exact mem_pathTerm_name hl

/-- The cover that `render` asks for is exact on either path and names only the support; the
engine is left as it was. -/
theorem cover_run {x : Nat} (hx : x < e.kernel.nodes.size) (negate : Bool) :
    ∃ c, (cover x negate).run e = (.ok c, e) ∧
      (∀ σ, (∃ t ∈ c, ∀ l ∈ t, (l.holds σ != negate) = true) ↔ e.value x σ = true) ∧
      ∀ t ∈ c, ∀ l ∈ t, e.InSupport x l.name := by
  obtain ⟨L, hL, hnd, hmem⟩ := supportNames_run hs hx
  have hnone := takeFaults_of_nil hs.faults
  -- the cover's run is put in with `rw`: a `simp` through the projections of the run leaves the
  -- kernel to unfold the prime cover
  simp only [cover, run_bind, hL, hnone]
  by_cases hsmall : L.length ≤ primeLimit
  · obtain ⟨c, hc, hsem, hnames⟩ := primeCover_run hs hx hnd hmem negate
    refine ⟨c, ?_, hsem, fun t ht l hl => (hmem _).1 (hnames t ht l hl)⟩
    rw [if_pos hsmall, run_bind, hc]
    simp only [run_bind, hnone]
    rfl
  · obtain ⟨c, hc, hsem, hnames⟩ := pathCover_run hs hx hmem negate
    refine ⟨c, ?_, hsem, fun t ht l hl => (hmem _).1 (hnames t ht l hl)⟩
    rw [if_neg hsmall, run_bind, hc]
    simp only [run_bind, hnone]
    rfl

end Covers

end Engine

end DecisionDiagrams
