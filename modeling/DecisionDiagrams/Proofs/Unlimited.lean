/-
Tables without a node limit: the operations on nodes of the table do not fail.

Node creation fails only when the table is full, and a table without a limit never is. So the
memoised recursions answer every argument of the table without recording a fault, negation and
the binary operators on nodes of the table answer nodes, declaring variables up to the largest
number succeeds, and a formula whose names all have levels compiles without a fault.

* `Kernel.node_unlimited` — the node over two nodes is always made.
* `Kernel.Memo.go_unlimited` — a run of a recursion answers and records no fault.
* `Kernel.negate_unlimited`, `Kernel.apply_unlimited`, `Kernel.restrict_unlimited` — negation,
  the binary operators and restriction on nodes of the table record no fault.
* `Kernel.setVarnum_unlimited` — raising the number of variables up to the largest succeeds
  and records no fault.
* `Engine.compile_unlimited` — compiling a formula whose names have levels records no fault.
-/
import DecisionDiagrams.Proofs.Compilation

namespace DecisionDiagrams

namespace Kernel

/-- Without a node limit the node over two nodes is made, and nothing but the table grows. -/
theorem node_unlimited (level a b : Nat) {k : Kernel} (hlim : k.limits.maxNodes = 0) :
    ∃ v, (node level (some a) (some b) k).1 = some v ∧
      (node level (some a) (some b) k).2.faults = k.faults ∧
      (node level (some a) (some b) k).2.limits = k.limits := by
  cases hl : k.lookupNode level a b with
  | some v =>
    obtain ⟨f, hf⟩ := node_of_lookupNode hl
    rw [hf]
    exact ⟨v, rfl, rfl, rfl⟩
  | none =>
    obtain ⟨hab, hu⟩ := lookupNode_eq_none hl
    obtain ⟨f, hf⟩ := node_fresh k hab hu
    rw [if_neg (by omega)] at hf
    rw [hf]
    exact ⟨_, rfl, by simp [count], by simp [count]⟩

namespace Memo

variable {κ : Type} (m : Memo κ)

/-- Without a node limit a run of a recursion answers every argument of the table and records
no fault. -/
theorem go_unlimited {I : Kernel → Prop} {G : Kernel → Nat → Nat → Nat → Prop}
    (hI : TableInvariant I G) (hm : m.Sound I) (hg : m.Guarded I G) :
    ∀ (x : κ) (k : Kernel), I k → Structured k → m.inRange k x → k.limits.maxNodes = 0 →
      (∃ v, (m.go x k).1 = some v) ∧ (m.go x k).2.faults = k.faults ∧
        (m.go x k).2.limits = k.limits := by
  intro x
  induction h : m.measure x using Nat.strongRecOn generalizing x with
  | ind n ih =>
  intro k hIk hs hx hlim
  cases hb : m.base k x with
  | some w =>
    rw [m.go_base hb]
    exact ⟨⟨w, rfl⟩, rfl, rfl⟩
  | none =>
  rw [m.go_split hb]
  have hlt := m.split_lt k x hb
  have hr := m.split_inRange x hs hx hb
  cases hread : m.read x k with
  | some w =>
    rw [m.lookup_hit hread]
    exact ⟨⟨w, rfl⟩, rfl, rfl⟩
  | none =>
  rw [m.lookup_miss hread]
  simp only
  -- the two children, each answered by induction, then their node, then the store
  generalize hk₁ : (k.count fun c => { c with opMiss := c.opMiss + 1 }) = k₁
  have hsame₁ : SameTable k₁ k := hk₁ ▸ SameTable.count k _
  have hext₁ : Extends k k₁ := .of_sameTable hsame₁.symm
  have hI₁ : I k₁ := hk₁ ▸ hI.count _ hIk hs
  have hs₁ : Structured k₁ := hs.of_sameTable hsame₁.symm
  have hx₁ := m.inRange_mono _ hext₁ hr.1
  obtain ⟨hIp, hsp, hextp, -⟩ := m.go_invariant hI hm hg _ k₁ hI₁ hs₁ hx₁
  obtain ⟨⟨a, ha⟩, hfp, hlp⟩ := ih _ (h ▸ hlt.1) _ rfl k₁ hI₁ hs₁ hx₁ (hk₁ ▸ hlim)
  generalize hp : m.go (m.split k x).2.1 k₁ = p at hIp hsp hextp ha hfp hlp
  obtain ⟨⟨b, hb'⟩, hfq, hlq⟩ := ih _ (h ▸ hlt.2) _ rfl p.2 hIp hsp
    (m.inRange_mono _ (hext₁.trans hextp) hr.2) (by rw [hlp, ← hk₁]; exact hlim)
  generalize hq : m.go (m.split k x).2.2 p.2 = q at hfq hlq hb'
  have hlimq : q.2.limits.maxNodes = 0 := by rw [hlq, hlp, ← hk₁]; exact hlim
  obtain ⟨v, hv, hfv, hlv⟩ := node_unlimited (m.split k x).1 a b hlimq
  rw [ha, hb']
  generalize hr' : node (m.split k x).1 (some a) (some b) q.2 = r at hv hfv hlv
  obtain ⟨v', k₄⟩ := r
  cases hv
  obtain ⟨c₁, c₂, hw⟩ := m.write_eq x v k₄
  simp only [store, hw]
  refine ⟨⟨v, rfl⟩, ?_, ?_⟩
  · show k₄.faults = k.faults
    rw [hfv, hfq, hfp, ← hk₁]
    rfl
  · show k₄.limits = k.limits
    rw [hlv, hlq, hlp, ← hk₁]
    rfl

end Memo

/-- Without a node limit the negation of a node of the table records no fault. -/
theorem negate_unlimited {k : Kernel} (hs : Structured k) (hc : CacheSound k) (hf : k.faults = [])
    (hlim : k.limits.maxNodes = 0) {n : Nat} (hn : n < k.nodes.size) :
    ((negate n).run k).2.faults = [] := by
  rw [negate_run, if_neg (by omega)]
  dsimp only
  rw [negateNode_run, Int.toNat_natCast]
  obtain ⟨⟨v, hv⟩, hfv, -⟩ := negMemo.go_unlimited cacheSound_tableInvariant negMemo_sound
    (negMemo.guarded_true _) n k hc hs hn hlim
  rw [hv, answer_run]
  dsimp only
  rw [hfv, hf]

/-- Without a node limit an operator applied to two nodes of the table records no fault. -/
theorem apply_unlimited {k : Kernel} (hs : Structured k) (hc : CacheSound k) (hf : k.faults = [])
    (hlim : k.limits.maxNodes = 0) {l r : Nat} (hl : l < k.nodes.size) (hr : r < k.nodes.size)
    (o : Operator) : ((apply l r o.code).run k).2.faults = [] := by
  rw [apply_run, if_neg (by omega), if_neg (by omega), Operator.ofCode?_code]
  dsimp only
  rw [applyNodes_run, Int.toNat_natCast, Int.toNat_natCast]
  obtain ⟨⟨v, hv⟩, hfv, -⟩ := (applyMemo o).go_unlimited cacheSound_tableInvariant
    (applyMemo_sound o) ((applyMemo o).guarded_true _) (l, r) k hc hs ⟨hl, hr⟩ hlim
  rw [hv, answer_run]
  dsimp only
  rw [hfv, hf]

/-- Without a node limit restricting a node of the table at a level of a variable records no
fault. -/
theorem restrict_unlimited {k : Kernel} (hs : Structured k) (hc : CacheSound k)
    (hf : k.faults = []) (hlim : k.limits.maxNodes = 0) {n lvl : Nat} (hn : n < k.nodes.size)
    (hlvl : lvl < k.varnum) (hvar : (k.varnum : Int) ≤ maxVariables) (val : Bool) :
    ((restrict n lvl val).run k).2.faults = [] := by
  have hwrap : wrap32 (lvl : Int) = lvl := wrap32_of_le (Int.natCast_nonneg _) (by omega)
  rw [restrict_run, if_neg (by omega), if_neg (by omega), if_neg (by omega)]
  dsimp only
  have hm := restrictMemo_sound_of_nonneg lvl val (Int.natCast_nonneg _)
  rw [Int.toNat_natCast] at hm
  rw [restrictNode_run]
  simp only [Int.toNat_natCast]
  obtain ⟨⟨v, hv⟩, hfv, -⟩ := (restrictMemo _ val _).go_unlimited cacheSound_tableInvariant hm
    ((restrictMemo _ val _).guarded_true _) n k hc hs hn hlim
  rw [hv, answer_run]
  dsimp only
  rw [hfv, hf]

/-- Without a node limit the literals of every level are made. -/
theorem declareLevels_unlimited :
    ∀ (lvls : List Nat) (k : Kernel), k.limits.maxNodes = 0 →
      ((declareLevels lvls).run k).1 = true ∧ ((declareLevels lvls).run k).2.faults = k.faults ∧
        ((declareLevels lvls).run k).2.limits = k.limits
  | [], _, _ => ⟨rfl, rfl, rfl⟩
  | lvl :: rest, k, hlim => by
    rw [declareLevels_cons]
    obtain ⟨a, ha, hfa, hla⟩ := node_unlimited lvl 0 1 hlim
    obtain ⟨b, hb, hfb, hlb⟩ := node_unlimited lvl 1 0 (k := (node lvl (some 0) (some 1) k).2)
      (by rw [hla]; exact hlim)
    dsimp only
    rw [ha, hb]
    dsimp only
    obtain ⟨h1, h2, h3⟩ := declareLevels_unlimited rest
      { (node lvl (some 1) (some 0) (node lvl (some 0) (some 1) k).2).2 with
        varset := (node lvl (some 1) (some 0) (node lvl (some 0) (some 1) k).2).2.varset.push
          (a, b) } (by rw [show _ = _ from hlb, hla]; exact hlim)
    exact ⟨h1, by rw [h2]; exact hfb.trans hfa, by rw [h3]; exact hlb.trans hla⟩

/-- Without a node limit raising the number of variables up to the largest succeeds, and records
no fault. -/
theorem setVarnum_unlimited {k : Kernel} (hlim : k.limits.maxNodes = 0) {num : Int}
    (hge : (k.varnum : Int) ≤ wrap32 num) (hle : wrap32 num ≤ maxVariables) :
    ((setVarnum num).run k).1 = none ∧ ((setVarnum num).run k).2.faults = k.faults ∧
      ((setVarnum num).run k).2.limits = k.limits := by
  rw [setVarnum_run, if_neg (by omega)]
  dsimp only
  obtain ⟨hok, hfaults, hlimits⟩ :=
    declareLevels_unlimited _ (k.setTerminals (wrap32 num).toNat) hlim
  rw [if_pos hok]
  exact ⟨rfl, hfaults, hlimits⟩

end Kernel

namespace Engine

open Kernel

/-- Without a node limit a formula whose names all have levels of an ordered table compiles
without a fault. -/
theorem compile_unlimited (levelOf : String → Nat) (f : Formula) {k : Kernel} (hc : CacheSound k)
    (ho : Ordered k) (hf : k.faults = []) (hlim : k.limits.maxNodes = 0)
    (hvar : (k.varnum : Int) ≤ maxVariables) (hlev : ∀ x ∈ f.names, levelOf x < k.varnum) :
    ((compile levelOf f).run k).2.faults = [] := by
  induction f generalizing k with
  | var x =>
    rw [show compile levelOf (.var x) = ithvar (levelOf x) from rfl]
    have hx := hlev x (List.mem_singleton_self x)
    rw [ithvar_run, if_neg (by rw [wrap32_of_le (Int.natCast_nonneg _) (by omega)]; omega)]
    exact hf
  | not g ih =>
    cases g with
    | var x =>
      rw [show compile levelOf (Formula.var x).not = nithvar (levelOf x) from rfl]
      have hx := hlev x (List.mem_singleton_self x)
      rw [nithvar_run, if_neg (by rw [wrap32_of_le (Int.natCast_nonneg _) (by omega)]; omega)]
      exact hf
    | not g' =>
      have hb := compile_builds levelOf g'.not hc ho hvar hlev
      have hf₁ := ih hc ho hf hlim hvar hlev
      obtain ⟨v, hv, hvlt, -⟩ := hb.answers hf₁
      rw [compile_not_run levelOf rfl, hv]
      exact negate_unlimited hb.ordered.structured hb.sound hf₁
        (by rw [hb.grows.limits]; exact hlim) hvlt
    | bin op l r =>
      have hb := compile_builds levelOf (.bin op l r) hc ho hvar hlev
      have hf₁ := ih hc ho hf hlim hvar hlev
      obtain ⟨v, hv, hvlt, -⟩ := hb.answers hf₁
      rw [compile_not_run levelOf rfl, hv]
      exact negate_unlimited hb.ordered.structured hb.sound hf₁
        (by rw [hb.grows.limits]; exact hlim) hvlt
  | bin op l r ihl ihr =>
    have hlevl : ∀ x ∈ l.names, levelOf x < k.varnum := fun x hx =>
      hlev x (List.mem_append_left _ hx)
    have hbl := compile_builds levelOf l hc ho hvar hlevl
    have hfl := ihl hc ho hf hlim hvar hlevl
    obtain ⟨a, ha, halt, -⟩ := hbl.answers hfl
    have hvarl := hbl.grows.varnum
    have hlevr : ∀ x ∈ r.names, levelOf x < ((compile levelOf l).run k).2.varnum := fun x hx =>
      hvarl ▸ hlev x (List.mem_append_right _ hx)
    have hbr := compile_builds levelOf r hbl.sound hbl.ordered (by rw [hvarl]; exact hvar) hlevr
    have hfr := ihr hbl.sound hbl.ordered hfl (by rw [hbl.grows.limits]; exact hlim)
      (by rw [hvarl]; exact hvar) hlevr
    obtain ⟨b, hb, hblt, -⟩ := hbr.answers hfr
    rw [compile_bin_run]
    dsimp only
    rw [ha, hb]
    exact apply_unlimited hbr.ordered.structured hbr.sound hfr
      (by rw [hbr.grows.limits, hbl.grows.limits]; exact hlim)
      (Nat.lt_of_lt_of_le halt hbr.grows.ext.size_le) hblt _

end Engine

end DecisionDiagrams
