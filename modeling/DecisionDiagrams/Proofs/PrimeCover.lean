/-
Prime covers of a set of minterms.

A cube over `k` variables fixes variable `i` when bit `i` of its mask is clear, and then to bit
`i` of its value; it covers the minterms that agree with it on every fixed variable
(`Cube.covers_iff`). Merging two cubes that differ in one fixed variable frees it: the merged
cube covers what either covers and nothing else (`Cube.merge_covers`). Rounds of merging start
from the minterms themselves, so every cube they produce is an implicant, covering minterms of
the set only, and every minterm stays covered by some cube. The cover keeps its essential primes
and then takes primes greedily, each covering at least one minterm still uncovered.

* `Cube.Fits` — the cubes over `k` variables.
* `primeCubes_sound`, `primeCubes_complete` — the prime cubes cover exactly the minterms.
* `chooseCover_sound`, `chooseCover_complete` — the chosen cover is made of primes and covers
  every minterm that a prime covers; so `chooseCover_covers`: it covers exactly the minterms.
-/
import Mathlib
import DecisionDiagrams.Simplify.Cover

namespace DecisionDiagrams

/-! ### Bits -/

/-- Numbers with no common bit add up without carries. -/
theorem add_eq_xor_of_and_eq_zero : ∀ {x y : Nat}, x &&& y = 0 → x + y = x ^^^ y := by
  intro x
  induction x using Nat.strongRecOn with
  | ind x ih =>
  intro y h
  rcases Nat.eq_zero_or_pos x with rfl | hx
  · simp
  rw [← Nat.bit_bodd_div2 x, ← Nat.bit_bodd_div2 y] at h ⊢
  rw [Nat.land_bit] at h
  rw [Nat.xor_bit]
  have hb : (x.bodd && y.bodd) = false ∧ x.div2 &&& y.div2 = 0 := by
    rcases Nat.bit_eq_zero_iff.1 h with ⟨h1, h2⟩
    exact ⟨h2, h1⟩
  have hrec := ih x.div2 (by rw [Nat.div2_val]; omega) hb.2
  simp only [Nat.bit_val] at hrec ⊢
  cases hxb : x.bodd <;> cases hyb : y.bodd <;> simp_all <;> omega

/-- Taking away from `m` the bits it shares with `a` clears exactly those bits. -/
theorem testBit_sub_and (m a i : Nat) :
    (m - (m &&& a)).testBit i = (m.testBit i && !a.testBit i) := by
  have hdis : (m &&& a) &&& (m ^^^ (m &&& a)) = 0 :=
    Nat.eq_of_testBit_eq fun j => by
      simp only [Nat.testBit_and, Nat.testBit_xor, Nat.zero_testBit]
      cases m.testBit j <;> cases a.testBit j <;> rfl
  have hxor : (m &&& a) ^^^ (m ^^^ (m &&& a)) = m :=
    Nat.eq_of_testBit_eq fun j => by
      simp only [Nat.testBit_and, Nat.testBit_xor]
      cases m.testBit j <;> cases a.testBit j <;> rfl
  have hsum := add_eq_xor_of_and_eq_zero hdis
  rw [hxor] at hsum
  rw [show m - (m &&& a) = m ^^^ (m &&& a) by omega, Nat.testBit_xor, Nat.testBit_and]
  cases m.testBit i <;> cases a.testBit i <;> rfl

theorem testBit_of_lt_two_pow {m k i : Nat} (hm : m < 2 ^ k) (hi : k ≤ i) : m.testBit i = false :=
  Nat.testBit_lt_two_pow (Nat.lt_of_lt_of_le hm (Nat.pow_le_pow_right (by omega) hi))

theorem bitCount_eq_zero : ∀ {n : Nat}, bitCount n = 0 → n = 0 := by
  intro n
  induction n using Nat.strongRecOn with
  | ind n ih =>
  intro h
  rw [bitCount] at h
  split at h
  · assumption
  · have := ih (n / 2) (by omega) (by omega)
    omega

/-- A number with one set bit is a power of two. -/
theorem bitCount_eq_one : ∀ {n : Nat}, bitCount n = 1 → ∃ j, n = 2 ^ j := by
  intro n
  induction n using Nat.strongRecOn with
  | ind n ih =>
  intro h
  rw [bitCount] at h
  split at h
  · omega
  rename_i hn
  rcases Nat.mod_two_eq_zero_or_one n with h0 | h1
  · -- the lowest bit is clear: the set bit is one of `n / 2`
    obtain ⟨j, hj⟩ := ih (n / 2) (by omega) (by omega)
    exact ⟨j + 1, by rw [Nat.pow_succ]; omega⟩
  · -- the lowest bit is the set one
    have := bitCount_eq_zero (show bitCount (n / 2) = 0 by omega)
    exact ⟨0, by omega⟩

/-! ### Cubes -/

namespace Cube

/-- A cube over `k` variables: its value and mask below `2 ^ k`, and no value bit where the mask
frees the variable. -/
structure Fits (k : Nat) (p : Cube) : Prop where
  val_lt : p.val < 2 ^ k
  mask_lt : p.mask < 2 ^ k
  disjoint : p.val &&& p.mask = 0

theorem Fits.testBit_val {k : Nat} {p : Cube} (h : Fits k p) {i : Nat}
    (hm : p.mask.testBit i = true) : p.val.testBit i = false := by
  have := congrArg (·.testBit i) h.disjoint
  simp only [Nat.testBit_and, hm, Bool.and_true, Nat.zero_testBit] at this
  exact this

/-- A cube covers a minterm exactly when the minterm agrees with it on every fixed variable. -/
theorem covers_iff {k : Nat} {p : Cube} (hp : Fits k p) {m : Nat} (hm : m < 2 ^ k) :
    p.covers m ↔ ∀ i < k, p.mask.testBit i = false → m.testBit i = p.val.testBit i := by
  unfold covers
  rw [beq_iff_eq]
  constructor
  · intro h i _ hmask
    have := congrArg (·.testBit i) h
    simpa [testBit_sub_and, hmask] using this
  · intro h
    apply Nat.eq_of_testBit_eq
    intro i
    rw [testBit_sub_and]
    by_cases hi : i < k
    · cases hmask : p.mask.testBit i
      · rw [h i hi hmask]
        simp
      · simp [hp.testBit_val hmask]
    · rw [testBit_of_lt_two_pow hm (by omega), testBit_of_lt_two_pow hp.val_lt (by omega)]
      rfl

/-- What a successful merge is made of: two cubes with the same mask whose values differ in
one bit `j`, which the merged cube frees. -/
theorem merge?_eq_some {p q r : Cube} (h : p.merge? q = some r) :
    p.mask = q.mask ∧ ∃ j, p.val ^^^ q.val = 2 ^ j ∧
      r = ⟨p.val - (p.val &&& 2 ^ j), p.mask ||| 2 ^ j⟩ := by
  unfold merge? at h
  dsimp only at h
  split at h
  · rename_i hc
    obtain ⟨j, hj⟩ := bitCount_eq_one hc.2
    cases h
    exact ⟨hc.1, j, hj, by rw [hj]⟩
  · cases h

section Merge

variable {k : Nat} {p q r : Cube} (hp : Fits k p) (hq : Fits k q) (h : p.merge? q = some r)
include hp hq h

/-- The bits of a merge, for the bit `j` in which the two cubes differ. -/
theorem merge_bits : ∃ j < k, p.mask = q.mask ∧
    (∀ i, q.val.testBit i = (p.val.testBit i ^^ decide (j = i))) ∧
    (∀ i, r.val.testBit i = (p.val.testBit i && !decide (j = i))) ∧
    (∀ i, r.mask.testBit i = (p.mask.testBit i || decide (j = i))) := by
  obtain ⟨hmask, j, hj, rfl⟩ := merge?_eq_some h
  have hjk : j < k := by
    have := Nat.xor_lt_two_pow hp.val_lt hq.val_lt
    rw [hj] at this
    exact (Nat.pow_lt_pow_iff_right (by omega)).1 this
  refine ⟨j, hjk, hmask, fun i => ?_, fun i => ?_, fun i => ?_⟩
  · have := congrArg (·.testBit i) hj
    simp only [Nat.testBit_xor, Nat.testBit_two_pow] at this
    rw [← this]
    cases p.val.testBit i <;> cases q.val.testBit i <;> rfl
  · rw [testBit_sub_and, Nat.testBit_two_pow]
  · rw [Nat.testBit_or, Nat.testBit_two_pow]

theorem merge_fits : Fits k r := by
  obtain ⟨hmask, j, hj, rfl⟩ := merge?_eq_some h
  obtain ⟨j', hjk, -, -, hval, hmask'⟩ := merge_bits hp hq h
  refine ⟨?_, ?_, ?_⟩
  · exact Nat.lt_of_le_of_lt (Nat.sub_le _ _) hp.val_lt
  · refine Nat.lt_pow_two_of_testBit _ fun i hi => ?_
    rw [hmask', testBit_of_lt_two_pow hp.mask_lt hi]
    simp
    omega
  · apply Nat.eq_of_testBit_eq
    intro i
    rw [Nat.testBit_and, hval, hmask', Nat.zero_testBit]
    by_cases hji : j' = i
    · simp [hji]
    · have := hp.testBit_val (i := i)
      cases hm : p.mask.testBit i <;> simp_all

/-- A merged cube covers only what one of the two cubes covers. -/
theorem covers_of_merge {m : Nat} (hm : m < 2 ^ k) (hr : r.covers m) :
    p.covers m ∨ q.covers m := by
  obtain ⟨j, hjk, hmask, hqv, hrv, hrm⟩ := merge_bits hp hq h
  rw [covers_iff (merge_fits hp hq h) hm] at hr
  by_cases hmj : m.testBit j = p.val.testBit j
  · refine .inl ((covers_iff hp hm).2 fun i hi hmi => ?_)
    by_cases hji : j = i
    · exact hji ▸ hmj
    · have := hr i hi (by simp [hrm, hmi, hji])
      simpa [hrv, hji] using this
  · refine .inr ((covers_iff hq hm).2 fun i hi hmi => ?_)
    rw [hqv]
    by_cases hji : j = i
    · subst hji
      cases hpj : p.val.testBit j <;> simp_all
    · have := hr i hi (by rw [hrm, hmask, hmi]; simp [hji])
      simpa [hrv, hji] using this

/-- A merged cube covers what either of the two cubes covers. -/
theorem merge_covers {m : Nat} (hm : m < 2 ^ k) (hc : p.covers m ∨ q.covers m) :
    r.covers m := by
  obtain ⟨j, hjk, hmask, hqv, hrv, hrm⟩ := merge_bits hp hq h
  rw [covers_iff (merge_fits hp hq h) hm]
  intro i hi hri
  have hpi : p.mask.testBit i = false := by simp [hrm] at hri; exact hri.1
  have hji : ¬ j = i := by simp [hrm] at hri; exact hri.2
  rcases hc with hc | hc
  · rw [(covers_iff hp hm).1 hc i hi hpi, hrv]
    simp [hji]
  · rw [(covers_iff hq hm).1 hc i hi (hmask ▸ hpi), hqv, hrv]
    simp [hji]

end Merge

end Cube

/-! ### Rounds of merging -/

/-- A list grown by appending each new key once holds the keys it started with and those of the
list folded in. -/
theorem mem_foldl_dedup {α β : Type} [BEq β] [LawfulBEq β] (g : α → β) (l : List α)
    (acc : List β) (x : β) :
    x ∈ l.foldl (fun acc a => if acc.contains (g a) then acc else acc ++ [g a]) acc ↔
      x ∈ acc ∨ ∃ a ∈ l, g a = x := by
  induction l generalizing acc with
  | nil => simp
  | cons a as ih =>
    rw [List.foldl_cons, ih]
    split
    · rename_i hc
      have hc' : g a ∈ acc := by simpa using hc
      constructor
      · rintro (h | ⟨b, hb, rfl⟩)
        · exact .inl h
        · exact .inr ⟨b, List.mem_cons_of_mem a hb, rfl⟩
      · rintro (h | ⟨b, hb, rfl⟩)
        · exact .inl h
        · rcases List.mem_cons.1 hb with rfl | hb
          · exact .inl hc'
          · exact .inr ⟨b, hb, rfl⟩
    · simp only [List.mem_append, List.mem_cons, List.not_mem_nil, or_false, exists_eq_or_imp]
      constructor
      · rintro ((h | rfl) | h)
        · exact .inl h
        · exact .inr (.inl rfl)
        · exact .inr (.inr h)
      · rintro (h | rfl | h)
        · exact .inl (.inl h)
        · exact .inl (.inr rfl)
        · exact .inr h

/-- The merged cubes of a round are the merges of two cubes of the round. -/
theorem mem_mergeRound_fst {cs : List Cube} {r : Cube} :
    r ∈ (mergeRound cs).1 ↔ ∃ p ∈ cs, ∃ q ∈ cs, p.merge? q = some r := by
  unfold mergeRound
  dsimp only
  rw [mem_foldl_dedup (fun x : Cube × Cube × Cube => x.2.2)]
  simp only [List.not_mem_nil, false_or, List.mem_flatMap, List.mem_filterMap,
    Option.map_eq_some_iff]
  constructor
  · rintro ⟨⟨p', q', r'⟩, ⟨p, hp, q, hq, s, hs, hx⟩, rfl⟩
    simp only [Prod.mk.injEq] at hx
    obtain ⟨rfl, rfl, rfl⟩ := hx
    exact ⟨p, hp, q, hq, hs⟩
  · rintro ⟨p, hp, q, hq, hs⟩
    exact ⟨(p, q, r), ⟨p, hp, q, hq, r, hs, rfl⟩, rfl⟩

/-- The cubes a round leaves over are those of the round that merge with no cube of it, either
way round. -/
theorem mem_mergeRound_snd_iff {cs : List Cube} {p : Cube} :
    p ∈ (mergeRound cs).2 ↔
      p ∈ cs ∧ ∀ q ∈ cs, ∀ s, ¬(p.merge? q = some s ∨ q.merge? p = some s) := by
  unfold mergeRound
  dsimp only
  simp only [List.mem_filter, Bool.not_eq_true', List.contains_eq_mem, decide_eq_false_iff_not,
    List.mem_flatMap, List.mem_filterMap, Option.map_eq_some_iff, List.mem_cons,
    List.not_mem_nil, or_false]
  refine and_congr_right fun hp => ⟨fun hu q hq s h => hu ?_, ?_⟩
  · rcases h with h | h
    · exact ⟨(p, q, s), ⟨p, hp, q, hq, s, h, rfl⟩, .inl rfl⟩
    · exact ⟨(q, p, s), ⟨q, hq, p, hp, s, h, rfl⟩, .inr rfl⟩
  · rintro hn ⟨_, ⟨a, ha, b, hb, s, hs, rfl⟩, rfl | rfl⟩
    · exact hn b hb s (.inl hs)
    · exact hn a ha s (.inr hs)

theorem mem_mergeRound_snd {cs : List Cube} {p : Cube} (h : p ∈ (mergeRound cs).2) : p ∈ cs :=
  (mem_mergeRound_snd_iff.1 h).1

/-- A cube of a round is left unmerged, or merged with another cube of the round into a cube of
the next. -/
theorem mergeRound_cases {cs : List Cube} {p : Cube} (hp : p ∈ cs) :
    p ∈ (mergeRound cs).2 ∨
      ∃ q ∈ cs, ∃ r ∈ (mergeRound cs).1, p.merge? q = some r ∨ q.merge? p = some r := by
  by_cases hu : p ∈ (mergeRound cs).2
  · exact .inl hu
  right
  simp only [mem_mergeRound_snd_iff, hp, true_and, not_forall, not_not] at hu
  obtain ⟨q, hq, s, hs⟩ := hu
  rcases hs with hs | hs
  · exact ⟨q, hq, s, mem_mergeRound_fst.2 ⟨p, hp, q, hq, hs⟩, .inl hs⟩
  · exact ⟨q, hq, s, mem_mergeRound_fst.2 ⟨q, hq, p, hp, hs⟩, .inr hs⟩

namespace Cube

/-- A cube over `k` variables that covers only minterms of `ms`. -/
structure Implicant (k : Nat) (ms : List Nat) (p : Cube) : Prop where
  fits : Fits k p
  sound : ∀ m < 2 ^ k, p.covers m → m ∈ ms

/-- A minterm, as a cube that fixes every variable, covers itself only. -/
theorem covers_minterm {k m m' : Nat} (hm : m < 2 ^ k) (hm' : m' < 2 ^ k) :
    (⟨m, 0⟩ : Cube).covers m' ↔ m' = m := by
  rw [covers_iff ⟨hm, Nat.two_pow_pos k, by simp⟩ hm']
  constructor
  · intro h
    apply Nat.eq_of_testBit_eq
    intro i
    by_cases hi : i < k
    · exact h i hi (by simp)
    · rw [testBit_of_lt_two_pow hm' (by omega), testBit_of_lt_two_pow hm (by omega)]
  · rintro rfl _ _ _
    rfl

end Cube

/-- The merges of a round cover only what the cubes of the round cover. -/
theorem mergeRound_implicant {k : Nat} {ms : List Nat} {cs : List Cube}
    (h : ∀ c ∈ cs, Cube.Implicant k ms c) : ∀ r ∈ (mergeRound cs).1, Cube.Implicant k ms r := by
  intro r hr
  obtain ⟨p, hp, q, hq, hpq⟩ := mem_mergeRound_fst.1 hr
  refine ⟨Cube.merge_fits (h p hp).fits (h q hq).fits hpq, fun m hm hc => ?_⟩
  rcases Cube.covers_of_merge (h p hp).fits (h q hq).fits hpq hm hc with hc | hc
  · exact (h p hp).sound m hm hc
  · exact (h q hq).sound m hm hc

/-- The rounds keep only implicants. -/
theorem primeRounds_implicant {k : Nat} {ms : List Nat} :
    ∀ (fuel : Nat) (cs : List Cube), (∀ c ∈ cs, Cube.Implicant k ms c) →
      ∀ p ∈ primeRounds fuel cs, Cube.Implicant k ms p
  | 0, _, h => h
  | fuel + 1, cs, h => by
    intro p hp
    simp only [primeRounds] at hp
    split at hp
    · simp at hp
    · rcases List.mem_append.1 hp with hp | hp
      · exact h p (mem_mergeRound_snd hp)
      · exact primeRounds_implicant fuel _ (mergeRound_implicant h) p hp

/-- Every minterm that a cube of the rounds covers stays covered by a cube they keep: a cube is
kept when it is not merged, and otherwise its merge covers what it covers. -/
theorem primeRounds_complete {k : Nat} :
    ∀ (fuel : Nat) (cs : List Cube), (∀ c ∈ cs, Cube.Fits k c) → ∀ c ∈ cs, ∀ m < 2 ^ k, c.covers m →
      ∃ p ∈ primeRounds fuel cs, p.covers m
  | 0, _, _, c, hc, _, _, hcm => ⟨c, hc, hcm⟩
  | fuel + 1, cs, h, c, hc, m, hm, hcm => by
    have hne : cs.isEmpty = false := by
      cases cs with
      | nil => cases hc
      | cons _ _ => rfl
    simp only [primeRounds, hne, Bool.false_eq_true, if_false]
    rcases mergeRound_cases hc with hu | ⟨q, hq, r, hr, hmerge⟩
    · exact ⟨c, List.mem_append_left _ hu, hcm⟩
    · -- the merge covers the minterm, and the next rounds keep it covered
      have hfits : ∀ c ∈ (mergeRound cs).1, Cube.Fits k c := fun r hr => by
        obtain ⟨p, hp, q, hq, hpq⟩ := mem_mergeRound_fst.1 hr
        exact Cube.merge_fits (h p hp) (h q hq) hpq
      have hrm : r.covers m := by
        rcases hmerge with hmerge | hmerge
        · exact Cube.merge_covers (h c hc) (h q hq) hmerge hm (.inl hcm)
        · exact Cube.merge_covers (h q hq) (h c hc) hmerge hm (.inr hcm)
      obtain ⟨p, hp, hpm⟩ := primeRounds_complete fuel _ hfits r hr m hm hrm
      exact ⟨p, List.mem_append_right _ hp, hpm⟩

/-- The minterms as cubes, without repetition. -/
theorem mem_primeStart {ms : List Nat} {c : Cube} :
    c ∈ ms.foldl (fun acc m => if acc.contains ⟨m, 0⟩ then acc else acc ++ [⟨m, 0⟩]) [] ↔
      ∃ m ∈ ms, (⟨m, 0⟩ : Cube) = c := by
  rw [mem_foldl_dedup (fun m : Nat => (⟨m, 0⟩ : Cube))]
  simp

section Primes

variable {k : Nat} {ms : List Nat} (hms : ∀ m ∈ ms, m < 2 ^ k)
include hms

/-- The prime cubes are implicants of the minterms. -/
theorem primeCubes_sound : ∀ p ∈ primeCubes k ms, Cube.Implicant k ms p := by
  intro p hp
  rw [primeCubes, List.mem_mergeSort] at hp
  refine primeRounds_implicant (k + 1) _ (fun c hc => ?_) p hp
  obtain ⟨m, hm, rfl⟩ := mem_primeStart.1 hc
  exact ⟨⟨hms m hm, Nat.two_pow_pos k, by simp⟩, fun m' hm' hc =>
    ((Cube.covers_minterm (hms m hm) hm').1 hc) ▸ hm⟩

/-- Every minterm is covered by a prime cube. -/
theorem primeCubes_complete : ∀ m ∈ ms, ∃ p ∈ primeCubes k ms, p.covers m := by
  intro m hm
  have hfits : ∀ c ∈ ms.foldl (fun acc m => if acc.contains ⟨m, 0⟩ then acc else acc ++ [⟨m, 0⟩])
      [], Cube.Fits k c := fun c hc => by
    obtain ⟨m', hm', rfl⟩ := mem_primeStart.1 hc
    exact ⟨hms m' hm', Nat.two_pow_pos k, by simp⟩
  obtain ⟨p, hp, hpm⟩ := primeRounds_complete (k + 1) _ hfits ⟨m, 0⟩
    (mem_primeStart.2 ⟨m, hm, rfl⟩) m (hms m hm) ((Cube.covers_minterm (hms m hm) (hms m hm)).2 rfl)
  exact ⟨p, by rw [primeCubes, List.mem_mergeSort]; exact hp, hpm⟩

end Primes

/-! ### Choosing the cover -/

/-- A cube with a positive gain covers one of the minterms. -/
theorem exists_covers_of_gain {ms : List Nat} {p : Cube} (h : 0 < gain ms p) :
    ∃ m ∈ ms, p.covers m := by
  obtain ⟨m, hm⟩ := List.exists_mem_of_length_pos h
  exact ⟨m, (List.mem_filter.1 hm).1, (List.mem_filter.1 hm).2⟩

/-- The best cube is one of the candidates, with a positive gain. -/
theorem bestCube_loop_spec (ms : List Nat) (P : Cube → Prop) :
    ∀ (ps : List Cube) (best : Option (Cube × Nat)), (∀ p ∈ ps, P p) →
      (∀ q g, best = some (q, g) → P q ∧ 0 < gain ms q) →
      ∀ p, bestCube.loop ms best ps = some p → P p ∧ 0 < gain ms p
  | [], best, _, hb, p, h => by
    cases best with
    | none => cases h
    | some qg =>
      cases h
      exact hb qg.1 qg.2 rfl
  | q :: qs, best, hps, hb, p, h => by
    have hqs : ∀ p ∈ qs, P p := fun p hp => hps p (List.mem_cons_of_mem _ hp)
    -- the candidate replaces the best so far exactly when it gains more
    have hq : 0 < gain ms q → ∀ q' g', some (q, gain ms q) = some (q', g') →
        P q' ∧ 0 < gain ms q' := by
      rintro hg q' g' hqg
      cases hqg
      exact ⟨hps q (List.mem_cons_self ..), hg⟩
    cases best with
    | none =>
      simp only [bestCube.loop] at h
      split at h
      · exact bestCube_loop_spec ms P qs _ hqs (hq ‹_›) p h
      · exact bestCube_loop_spec ms P qs none hqs (fun _ _ h => nomatch h) p h
    | some qg =>
      obtain ⟨q₀, b⟩ := qg
      simp only [bestCube.loop] at h
      split at h
      · exact bestCube_loop_spec ms P qs _ hqs
          (hq (Nat.lt_of_le_of_lt (Nat.zero_le b) ‹_›)) p h
      · exact bestCube_loop_spec ms P qs _ hqs hb p h

/-- Some cube is the best when some candidate has a positive gain. -/
theorem bestCube_loop_isSome (ms : List Nat) :
    ∀ (ps : List Cube) (best : Option (Cube × Nat)),
      (best.isSome ∨ ∃ p ∈ ps, 0 < gain ms p) → (bestCube.loop ms best ps).isSome
  | [], best, h => by
    rcases h with h | ⟨p, hp, -⟩
    · cases best with
      | none => cases h
      | some _ => rfl
    · cases hp
  | q :: qs, best, h => by
    cases best with
    | none =>
      simp only [bestCube.loop]
      rcases h with h | ⟨p, hp, hg⟩
      · cases h
      split
      · exact bestCube_loop_isSome ms qs _ (.inl rfl)
      · rcases List.mem_cons.1 hp with rfl | hp
        · omega
        · exact bestCube_loop_isSome ms qs none (.inr ⟨p, hp, hg⟩)
    | some qg =>
      obtain ⟨q₀, b⟩ := qg
      simp only [bestCube.loop]
      split
      · exact bestCube_loop_isSome ms qs _ (.inl rfl)
      · exact bestCube_loop_isSome ms qs _ (.inl rfl)

/-- While some cube covers an uncovered minterm, the best cube exists and covers one. -/
theorem bestCube_of_covered {primes : List Cube} {us : List Nat}
    (hcov : ∀ m ∈ us, ∃ p ∈ primes, p.covers m) (hne : us ≠ []) :
    ∃ p, bestCube us primes = some p ∧ p ∈ primes ∧ ∃ m ∈ us, p.covers m := by
  obtain ⟨m, hm⟩ := List.exists_mem_of_ne_nil us hne
  obtain ⟨q, hq, hqm⟩ := hcov m hm
  have hsome := bestCube_loop_isSome us primes none
    (.inr ⟨q, hq, List.length_pos_of_mem (List.mem_filter.2 ⟨hm, hqm⟩)⟩)
  obtain ⟨p, hp⟩ := Option.isSome_iff_exists.1 hsome
  have hspec := bestCube_loop_spec us (· ∈ primes) primes none (fun _ h => h)
    (fun _ _ h => nomatch h) p hp
  exact ⟨p, hp, hspec.1, exists_covers_of_gain hspec.2⟩

/-- A cube that covers a minterm leaves fewer minterms uncovered. -/
theorem length_uncovered_lt {p : Cube} {us : List Nat} {m : Nat} (hm : m ∈ us) (hpm : p.covers m) :
    (us.filter fun m => !p.covers m).length < us.length :=
  List.length_filter_lt_length_iff_exists.2 ⟨m, hm, by simp [hpm]⟩

/-- The greedy completion takes primes only. -/
theorem mem_greedy {primes : List Cube} :
    ∀ (fuel : Nat) (us : List Nat), ∀ p ∈ greedy primes fuel us, p ∈ primes
  | 0, _, p, hp => by simp [greedy] at hp
  | fuel + 1, us, p, hp => by
    simp only [greedy] at hp
    split at hp
    · simp at hp
    · split at hp
      · simp at hp
      · rename_i q hq
        rcases List.mem_cons.1 hp with rfl | hp
        · exact (bestCube_loop_spec us (· ∈ primes) primes none (fun _ h => h)
            (fun _ _ h => nomatch h) p hq).1
        · exact mem_greedy fuel _ p hp

/-- With enough rounds the greedy completion covers every minterm that some prime covers: each
round takes a prime that covers a minterm still uncovered. -/
theorem greedy_complete {primes : List Cube} :
    ∀ (fuel : Nat) (us : List Nat), us.length < fuel → (∀ m ∈ us, ∃ p ∈ primes, p.covers m) →
      ∀ m ∈ us, ∃ p ∈ greedy primes fuel us, p.covers m
  | 0, _, hlen, _ => absurd hlen (Nat.not_lt_zero _)
  | fuel + 1, us, hlen, hcov => by
    intro m hm
    simp only [greedy]
    have hne : us.isEmpty = false := by
      cases us with
      | nil => cases hm
      | cons _ _ => rfl
    rw [hne, if_neg Bool.false_ne_true]
    obtain ⟨p, hp, -, m', hm', hpm'⟩ := bestCube_of_covered hcov (List.ne_nil_of_mem hm)
    rw [hp]
    dsimp only
    by_cases hpm : p.covers m
    · exact ⟨p, List.mem_cons_self .., hpm⟩
    · -- the chosen prime covers another minterm, so fewer are left for the next rounds
      have hlt := length_uncovered_lt hm' hpm'
      obtain ⟨r, hr, hrm⟩ := greedy_complete fuel (us.filter fun m => !p.covers m) (by omega)
        (fun m hm => hcov m (List.mem_filter.1 hm).1) m (List.mem_filter.2 ⟨hm, by simp [hpm]⟩)
      exact ⟨r, List.mem_cons_of_mem _ hr, hrm⟩

/-- The essential primes chosen so far are primes. -/
theorem mem_essential {primes : List Cube} :
    ∀ (ms : List Nat) (chosen : List Cube), (∀ p ∈ chosen, p ∈ primes) →
      ∀ p ∈ ms.foldl (fun (chosen : List Cube) m =>
        if chosen.any (·.covers m) then chosen
        else match primes.filter (·.covers m) with
          | [p] => chosen ++ [p]
          | _ => chosen) chosen, p ∈ primes
  | [], _, h => h
  | m :: ms, chosen, h => by
    rw [List.foldl_cons]
    apply mem_essential ms
    split
    · exact h
    · split
      · rename_i p hp
        intro q hq
        rcases List.mem_append.1 hq with hq | hq
        · exact h q hq
        · rw [List.mem_singleton.1 hq]
          exact (List.mem_filter.1 (hp ▸ List.mem_singleton_self p)).1
      · exact h

/-- The chosen cover is made of primes. -/
theorem chooseCover_sound {primes : List Cube} {ms : List Nat} :
    ∀ p ∈ chooseCover primes ms, p ∈ primes := by
  intro p hp
  rcases List.mem_append.1 hp with hp | hp
  · exact mem_essential ms [] (fun _ h => nomatch h) p hp
  · exact mem_greedy _ _ p hp

/-- The chosen cover covers every minterm that some prime covers. -/
theorem chooseCover_complete {primes : List Cube} {ms : List Nat}
    (hcov : ∀ m ∈ ms, ∃ p ∈ primes, p.covers m) : ∀ m ∈ ms, ∃ p ∈ chooseCover primes ms, p.covers m := by
  intro m hm
  unfold chooseCover
  dsimp only
  generalize hess : ms.foldl _ [] = essential
  by_cases he : essential.any (·.covers m)
  · obtain ⟨p, hp, hpm⟩ := List.any_eq_true.1 he
    exact ⟨p, List.mem_append_left _ hp, hpm⟩
  · -- an uncovered minterm is left to the greedy completion
    have hu : m ∈ ms.filter fun m => !essential.any (·.covers m) :=
      List.mem_filter.2 ⟨hm, by simpa using he⟩
    obtain ⟨p, hp, hpm⟩ := greedy_complete _ _ (Nat.lt_succ_self _)
      (fun m' hm' => hcov m' (List.mem_filter.1 hm').1) m hu
    exact ⟨p, List.mem_append_right _ hp, hpm⟩

/-- The cover chosen among the prime cubes covers exactly the minterms. -/
theorem chooseCover_covers {k : Nat} {ms : List Nat} (hms : ∀ m ∈ ms, m < 2 ^ k) {m : Nat}
    (hm : m < 2 ^ k) :
    (∃ p ∈ chooseCover (primeCubes k ms) ms, p.covers m) ↔ m ∈ ms := by
  constructor
  · rintro ⟨p, hp, hpm⟩
    exact (primeCubes_sound hms p (chooseCover_sound p hp)).sound m hm hpm
  · exact chooseCover_complete (primeCubes_complete hms) m

end DecisionDiagrams
