/-
The prime cubes are exactly the prime implicants, and the greedy cover ends.

Round `r` of the merging holds, once each, the implicants with `r` free variables: an implicant
with a free variable is the merge of its two halves there, and a merge frees one more variable.
A cube of a round is left unmerged exactly when it is prime, since a cube strictly inside an
implicant can be flipped at a variable the implicant frees and merged with the flip. The greedy
completion always finds a prime covering a minterm left, so it ends before its fuel does.

* `Cube.Prime`, `Round` — maximal implicants; the invariant of the rounds.
* `mem_primeCubes_iff`, `primeCubes_nodup`, `greedy_fuel_eq` — gathered in
  `primeCubes_exact_cover_ends`.
-/
import DecisionDiagrams.Proofs.PrimeCover

namespace DecisionDiagrams

/-! ### Counting bits -/

theorem bitCount_zero : bitCount 0 = 0 := by
  rw [bitCount, dif_pos rfl]

theorem bitCount_eq (n : Nat) : bitCount n = n % 2 + bitCount (n / 2) := by
  rw [bitCount]
  split
  · rename_i h
    subst h
    rw [Nat.zero_div, bitCount_zero]
  · rfl

theorem and_two_pow_eq_zero {n j : Nat} (h : n.testBit j = false) : n &&& 2 ^ j = 0 := by
  rw [Nat.and_two_pow, h]
  simp

/-- Setting a clear bit `j` of `n` is flipping it. -/
theorem or_two_pow_eq_xor {n j : Nat} (h : n.testBit j = false) : n ||| 2 ^ j = n ^^^ 2 ^ j :=
  Nat.eq_of_testBit_eq fun i => by
    rw [Nat.testBit_or, Nat.testBit_xor, Nat.testBit_two_pow]
    by_cases hji : j = i
    · subst hji
      simp [h]
    · simp [hji]

/-- A clear bit of `n` makes `n ||| 2 ^ j` a sum. -/
theorem or_two_pow_eq_add {n j : Nat} (h : n.testBit j = false) : n ||| 2 ^ j = n + 2 ^ j := by
  rw [or_two_pow_eq_xor h, add_eq_xor_of_and_eq_zero (and_two_pow_eq_zero h)]

theorem bitCount_add_two_pow : ∀ (j : Nat) {n : Nat}, n.testBit j = false →
    bitCount (n + 2 ^ j) = bitCount n + 1
  | 0, n, h => by
    have h0 : n % 2 = 0 := by simpa using h
    rw [bitCount_eq (n + 2 ^ 0), bitCount_eq n, Nat.pow_zero,
      show (n + 1) / 2 = n / 2 by omega]
    omega
  | j + 1, n, h => by
    have hj : (n / 2).testBit j = false := by rw [Nat.testBit_div_two]; exact h
    rw [bitCount_eq (n + 2 ^ (j + 1)), bitCount_eq n, Nat.pow_succ,
      show (n + 2 ^ j * 2) / 2 = n / 2 + 2 ^ j by omega,
      show (n + 2 ^ j * 2) % 2 = n % 2 by omega, bitCount_add_two_pow j hj]
    omega

/-- Setting a clear bit counts one more bit. -/
theorem bitCount_or_two_pow {n j : Nat} (h : n.testBit j = false) :
    bitCount (n ||| 2 ^ j) = bitCount n + 1 := by
  rw [or_two_pow_eq_add h, bitCount_add_two_pow j h]

theorem bitCount_two_pow (j : Nat) : bitCount (2 ^ j) = 1 := by
  have h := bitCount_or_two_pow (Nat.zero_testBit j)
  rwa [Nat.zero_or, bitCount_zero] at h

/-- Two numbers below `2 ^ k` with the same bits below `k` are equal. -/
theorem eq_of_testBit_below {k a b : Nat} (ha : a < 2 ^ k) (hb : b < 2 ^ k)
    (h : ∀ i < k, a.testBit i = b.testBit i) : a = b :=
  Nat.eq_of_testBit_eq fun i => by
    by_cases hi : i < k
    · exact h i hi
    · rw [testBit_of_lt_two_pow ha (by omega), testBit_of_lt_two_pow hb (by omega)]

/-- A number below `2 ^ k` has at most `k` bits set. -/
theorem bitCount_le : ∀ {k n : Nat}, n < 2 ^ k → bitCount n ≤ k
  | 0, n, h => by
    have hn : n = 0 := by simpa using h
    subst hn
    exact bitCount_zero.le
  | k + 1, n, h => by
    have := bitCount_le (k := k) (n := n / 2) (by rw [Nat.pow_succ] at h; omega)
    rw [bitCount_eq]
    omega

/-! ### Cubes inside cubes -/

namespace Cube

/-- An implicant that no other implicant contains: a maximal cube of minterms of the set. -/
def Prime (k : Nat) (ms : List Nat) (p : Cube) : Prop :=
  Implicant k ms p ∧
    ∀ q, Implicant k ms q → (∀ m < 2 ^ k, p.covers m → q.covers m) → q = p

variable {k : Nat}

/-- A cube covers its own value. -/
theorem covers_val {p : Cube} (hp : Fits k p) : p.covers p.val :=
  (covers_iff hp hp.val_lt).2 fun _ _ _ => rfl

/-- A cube inside another fixes every variable the other fixes, to the same value. -/
theorem fixed_of_covers_subset {p q : Cube} (hp : Fits k p) (hq : Fits k q)
    (h : ∀ m < 2 ^ k, p.covers m → q.covers m) {i : Nat} (hi : i < k)
    (hqi : q.mask.testBit i = false) :
    p.mask.testBit i = false ∧ p.val.testBit i = q.val.testBit i := by
  have hval := (covers_iff hq hp.val_lt).1 (h _ hp.val_lt (covers_val hp)) i hi hqi
  refine ⟨?_, hval⟩
  -- were `i` free in `p`, the value of `p` with bit `i` set would be covered by `p`, not by `q`
  by_contra hpi
  rw [Bool.not_eq_false] at hpi
  have hvi : p.val.testBit i = false := hp.testBit_val hpi
  have hlt : p.val ||| 2 ^ i < 2 ^ k :=
    Nat.or_lt_two_pow hp.val_lt (Nat.pow_lt_pow_right (by omega) hi)
  have hcov : p.covers (p.val ||| 2 ^ i) := by
    refine (covers_iff hp hlt).2 fun l _ hpl => ?_
    rw [Nat.testBit_or, Nat.testBit_two_pow]
    have hil : i ≠ l := fun h => by rw [h] at hpi; rw [hpi] at hpl; cases hpl
    simp [hil]
  have := (covers_iff hq hlt).1 (h _ hlt hcov) i hi hqi
  rw [Nat.testBit_or, Nat.testBit_two_pow, decide_eq_true rfl, Bool.or_true] at this
  rw [← hval, hvi] at this
  cases this

/-- Two cubes over `k` variables with the same bits below `k` are equal. -/
theorem eq_of_bits {p q : Cube} (hp : Fits k p) (hq : Fits k q)
    (hmask : ∀ i < k, p.mask.testBit i = q.mask.testBit i)
    (hval : ∀ i < k, p.val.testBit i = q.val.testBit i) : p = q := by
  cases p
  cases q
  rw [Cube.mk.injEq]
  exact ⟨eq_of_testBit_below hp.val_lt hq.val_lt hval,
    eq_of_testBit_below hp.mask_lt hq.mask_lt hmask⟩

/-- A cube inside another and different from it fixes a variable that the other frees. -/
theorem exists_freed {p q : Cube} (hp : Fits k p) (hq : Fits k q)
    (h : ∀ m < 2 ^ k, p.covers m → q.covers m) (hne : q ≠ p) :
    ∃ i < k, q.mask.testBit i = true ∧ p.mask.testBit i = false := by
  by_contra hall
  have hfree : ∀ i < k, q.mask.testBit i = true → p.mask.testBit i = true := fun i hi hqi => by
    cases hpi : p.mask.testBit i
    · exact absurd ⟨i, hi, hqi, hpi⟩ hall
    · rfl
  apply hne
  -- every variable `q` frees, `p` frees too; every one `q` fixes, `p` fixes alike
  refine eq_of_bits hq hp (fun i hi => ?_) (fun i hi => ?_)
  · cases hqi : q.mask.testBit i
    · rw [(fixed_of_covers_subset hp hq h hi hqi).1]
    · rw [hfree i hi hqi]
  · cases hqi : q.mask.testBit i
    · exact (fixed_of_covers_subset hp hq h hi hqi).2.symm
    · rw [hq.testBit_val hqi, hp.testBit_val (hfree i hi hqi)]

/-- A cube fixing every variable that `c` fixes, to the same value, lies inside `c`. -/
theorem covers_of_fixed {c d : Cube} (hc : Fits k c)
    (h : ∀ i < k, c.mask.testBit i = false →
      d.mask.testBit i = false ∧ d.val.testBit i = c.val.testBit i)
    (hd : Fits k d) {m : Nat} (hm : m < 2 ^ k) (hdm : d.covers m) : c.covers m := by
  refine (covers_iff hc hm).2 fun i hi hci => ?_
  obtain ⟨hdi, hval⟩ := h i hi hci
  rw [(covers_iff hd hm).1 hdm i hi hdi, hval]

/-- A value bit that is set is a fixed variable. -/
theorem Fits.mask_of_val {p : Cube} (hp : Fits k p) {i : Nat} (h : p.val.testBit i = true) :
    p.mask.testBit i = false := by
  cases hm : p.mask.testBit i
  · rfl
  · rw [hp.testBit_val hm] at h
    cases h

/-- A merge frees one more variable. -/
theorem bitCount_merge {p q r : Cube} (hp : Fits k p) (hq : Fits k q) (h : p.merge? q = some r) :
    bitCount r.mask = bitCount p.mask + 1 := by
  obtain ⟨hmask, j, hj, rfl⟩ := merge?_eq_some h
  -- the values differ at `j`, so one of the two cubes, and both masks, fix `j`
  have hdiff : p.val.testBit j ≠ q.val.testBit j := by
    have := congrArg (·.testBit j) hj
    simp only [Nat.testBit_xor, Nat.testBit_two_pow, decide_true] at this
    intro heq
    rw [heq] at this
    simp at this
  have hpj : p.mask.testBit j = false := by
    cases hv : p.val.testBit j
    · rw [hmask]
      exact hq.mask_of_val (by rw [hv] at hdiff; simpa using hdiff.symm)
    · exact hp.mask_of_val hv
  exact bitCount_or_two_pow hpj

/-! ### Halves of a cube -/

/-- The half of `c` that fixes variable `j` to `0`. -/
def lower (c : Cube) (j : Nat) : Cube :=
  ⟨c.val, c.mask ^^^ 2 ^ j⟩

/-- The half of `c` that fixes variable `j` to `1`. -/
def upper (c : Cube) (j : Nat) : Cube :=
  ⟨c.val ||| 2 ^ j, c.mask ^^^ 2 ^ j⟩

/-- Cube `p` with variable `i` flipped. -/
def flip (p : Cube) (i : Nat) : Cube :=
  ⟨p.val ^^^ 2 ^ i, p.mask⟩

/-- Clearing a set bit `j` of a mask leaves every other bit. -/
theorem testBit_halves_mask {c : Cube} {j : Nat} (hcj : c.mask.testBit j = true) (i : Nat) :
    (c.mask ^^^ 2 ^ j).testBit i = (c.mask.testBit i && !decide (j = i)) := by
  rw [Nat.testBit_xor, Nat.testBit_two_pow]
  by_cases hji : j = i
  · subst hji
    simp [hcj]
  · simp [hji]

section Halves

variable {c : Cube} {j : Nat}

theorem lower_mask_testBit_self (hcj : c.mask.testBit j = true) :
    (c.lower j).mask.testBit j = false := by
  rw [lower, testBit_halves_mask hcj]
  simp

/-- Setting bit `j` back into the lower half's mask gives the cube's mask. -/
theorem lower_mask_or (hcj : c.mask.testBit j = true) : (c.lower j).mask ||| 2 ^ j = c.mask := by
  rw [or_two_pow_eq_xor (lower_mask_testBit_self hcj), lower, Nat.xor_assoc, Nat.xor_self,
    Nat.xor_zero]

theorem lower_fits (hc : Fits k c) (hj : j < k) (hcj : c.mask.testBit j = true) :
    Fits k (c.lower j) := by
  refine ⟨hc.val_lt, Nat.xor_lt_two_pow hc.mask_lt (Nat.pow_lt_pow_right (by omega) hj),
    Nat.eq_of_testBit_eq fun i => ?_⟩
  have := congrArg (·.testBit i) hc.disjoint
  simp only [Nat.testBit_and, Nat.zero_testBit] at this ⊢
  rw [lower, testBit_halves_mask hcj]
  cases hv : c.val.testBit i <;> simp_all

theorem upper_fits (hc : Fits k c) (hj : j < k) (hcj : c.mask.testBit j = true) :
    Fits k (c.upper j) := by
  have hpow : 2 ^ j < 2 ^ k := Nat.pow_lt_pow_right (by omega) hj
  refine ⟨Nat.or_lt_two_pow hc.val_lt hpow, Nat.xor_lt_two_pow hc.mask_lt hpow,
    Nat.eq_of_testBit_eq fun i => ?_⟩
  have := congrArg (·.testBit i) hc.disjoint
  simp only [Nat.testBit_and, Nat.zero_testBit] at this ⊢
  rw [upper, testBit_halves_mask hcj, Nat.testBit_or, Nat.testBit_two_pow]
  by_cases hji : j = i
  · simp [hji]
  · cases hv : c.val.testBit i <;> simp_all

/-- Both halves fix every variable `c` fixes, to the same value. -/
theorem halves_fixed (hcj : c.mask.testBit j = true) : ∀ i < k, c.mask.testBit i = false →
    ((c.lower j).mask.testBit i = false ∧ (c.lower j).val.testBit i = c.val.testBit i) ∧
    ((c.upper j).mask.testBit i = false ∧ (c.upper j).val.testBit i = c.val.testBit i) := by
  intro i _ hci
  have hji : j ≠ i := fun h => by rw [h, hci] at hcj; cases hcj
  simp [lower, upper, testBit_halves_mask hcj, hci, Nat.testBit_or, hji]

/-- The halves of an implicant at a free variable are implicants. -/
theorem Implicant.halves {ms : List Nat} (hi : Implicant k ms c) (hj : j < k)
    (hcj : c.mask.testBit j = true) :
    Implicant k ms (c.lower j) ∧ Implicant k ms (c.upper j) := by
  have hfix := halves_fixed (k := k) hcj
  have hlo := lower_fits hi.fits hj hcj
  have hup := upper_fits hi.fits hj hcj
  refine ⟨⟨hlo, fun m hm hcm => hi.sound m hm ?_⟩,
    ⟨hup, fun m hm hcm => hi.sound m hm ?_⟩⟩
  · exact covers_of_fixed hi.fits (fun i hi' h => (hfix i hi' h).1) hlo hm hcm
  · exact covers_of_fixed hi.fits (fun i hi' h => (hfix i hi' h).2) hup hm hcm

/-- A half fixes one variable more than the cube. -/
theorem bitCount_lower (hcj : c.mask.testBit j = true) :
    bitCount (c.lower j).mask + 1 = bitCount c.mask := by
  rw [← lower_mask_or hcj, bitCount_or_two_pow (lower_mask_testBit_self hcj)]

/-- The two halves merge back into the cube. -/
theorem merge?_halves (hc : Fits k c) (hcj : c.mask.testBit j = true) :
    (c.lower j).merge? (c.upper j) = some c := by
  have hvj : c.val.testBit j = false := hc.testBit_val hcj
  have hdiff : (c.lower j).val ^^^ (c.upper j).val = 2 ^ j := by
    rw [lower, upper, or_two_pow_eq_xor hvj, ← Nat.xor_assoc, Nat.xor_self, Nat.zero_xor]
  unfold merge?
  rw [hdiff, if_pos ⟨rfl, bitCount_two_pow j⟩]
  rw [lower_mask_or hcj]
  change some ⟨c.val - (c.val &&& 2 ^ j), c.mask⟩ = some c
  rw [and_two_pow_eq_zero hvj, Nat.sub_zero]

end Halves

/-- A cube merges with itself flipped at a fixed variable. -/
theorem merge?_flip_isSome (p : Cube) (i : Nat) : (p.merge? (p.flip i)).isSome := by
  have hdiff : p.val ^^^ (p.flip i).val = 2 ^ i := by
    rw [flip, ← Nat.xor_assoc, Nat.xor_self, Nat.zero_xor]
  unfold merge?
  rw [hdiff, if_pos ⟨rfl, bitCount_two_pow i⟩]
  rfl

section Flip

variable {p q : Cube} {i : Nat} (hp : Fits k p) (hi : i < k) (hpi : p.mask.testBit i = false)
include hp hi hpi

theorem flip_fits : Fits k (p.flip i) := by
  refine ⟨Nat.xor_lt_two_pow hp.val_lt (Nat.pow_lt_pow_right (by omega) hi), hp.mask_lt,
    Nat.eq_of_testBit_eq fun l => ?_⟩
  have := congrArg (·.testBit l) hp.disjoint
  simp only [flip, Nat.testBit_and, Nat.testBit_xor, Nat.testBit_two_pow,
    Nat.zero_testBit] at this ⊢
  by_cases hil : i = l
  · subst hil
    simp [hpi]
  · simpa [hil] using this

/-- Inside a cube that frees a variable, a cube stays inside with that variable flipped. -/
theorem flip_covers_subset (hq : Fits k q) (h : ∀ m < 2 ^ k, p.covers m → q.covers m)
    (hqi : q.mask.testBit i = true) : ∀ m < 2 ^ k, (p.flip i).covers m → q.covers m := by
  refine fun m hm => covers_of_fixed hq (fun l hl hql => ?_) (flip_fits hp hi hpi) hm
  have hil : i ≠ l := fun h => by rw [h, hql] at hqi; cases hqi
  obtain ⟨hpl, hval⟩ := fixed_of_covers_subset hp hq h hl hql
  simp [flip, hpl, Nat.testBit_xor, hil, hval]

end Flip

end Cube

/-! ### The rounds of merging -/

/-- A list grown by appending each new key once has no repetition. -/
theorem nodup_foldl_dedup {α β : Type} [BEq β] [LawfulBEq β] (g : α → β) :
    ∀ (l : List α) (acc : List β), acc.Nodup →
      (l.foldl (fun acc a => if acc.contains (g a) then acc else acc ++ [g a]) acc).Nodup
  | [], _, h => h
  | a :: as, acc, h => by
    rw [List.foldl_cons]
    apply nodup_foldl_dedup g as
    split
    · exact h
    · rename_i hc
      have hmem : g a ∉ acc := by simpa using hc
      exact List.nodup_append.2 ⟨h, List.nodup_singleton _, fun x hx y hy => by
        rw [List.mem_singleton.1 hy]
        exact fun heq => hmem (heq ▸ hx)⟩

/-- Round `r` of the merging: the implicants with `r` free variables, each once. -/
structure Round (k : Nat) (ms : List Nat) (r : Nat) (cs : List Cube) : Prop where
  nodup : cs.Nodup
  mem_iff : ∀ c, c ∈ cs ↔ Cube.Implicant k ms c ∧ bitCount c.mask = r

namespace Round

variable {k : Nat} {ms : List Nat}

/-- A cube with a free variable frees one below `k`. -/
theorem exists_free {c : Cube} (hc : Cube.Fits k c) (h : bitCount c.mask ≠ 0) :
    ∃ j < k, c.mask.testBit j = true := by
  have hne : c.mask ≠ 0 := fun h0 => h (by rw [h0, bitCount_zero])
  obtain ⟨j, hj⟩ := Nat.exists_testBit_of_ne_zero hne
  refine ⟨j, ?_, hj⟩
  by_contra hjk
  rw [testBit_of_lt_two_pow hc.mask_lt (by omega)] at hj
  cases hj

/-- The minterms of the set, as cubes fixing every variable, make round `0`. -/
theorem start (hms : ∀ m ∈ ms, m < 2 ^ k) :
    Round k ms 0 (ms.foldl (fun acc m =>
      if acc.contains ⟨m, 0⟩ then acc else acc ++ [⟨m, 0⟩]) []) := by
  refine ⟨nodup_foldl_dedup (fun m : Nat => (⟨m, 0⟩ : Cube)) ms [] List.nodup_nil,
    fun c => ?_⟩
  rw [mem_primeStart]
  constructor
  · rintro ⟨m, hm, rfl⟩
    refine ⟨⟨⟨hms m hm, Nat.two_pow_pos k, by simp⟩, fun m' hm' hc => ?_⟩,
      bitCount_zero⟩
    exact ((Cube.covers_minterm (hms m hm) hm').1 hc) ▸ hm
  · -- a cube with no free variable is the minterm of its value
    rintro ⟨hi, h0⟩
    have hmask := bitCount_eq_zero h0
    refine ⟨c.val, hi.sound _ hi.fits.val_lt (Cube.covers_val hi.fits), ?_⟩
    obtain ⟨v, m⟩ := c
    simp only at hmask ⊢
    rw [hmask]

/-- The merges of round `r` make round `r + 1`. -/
theorem next {r : Nat} {cs : List Cube} (h : Round k ms r cs) :
    Round k ms (r + 1) (mergeRound cs).1 := by
  have himp : ∀ c ∈ cs, Cube.Implicant k ms c := fun c hc => ((h.mem_iff c).1 hc).1
  refine ⟨?_, fun c => ⟨fun hc => ?_, fun ⟨hi, hb⟩ => ?_⟩⟩
  · unfold mergeRound
    dsimp only
    exact nodup_foldl_dedup (fun x : Cube × Cube × Cube => x.2.2) _ [] List.nodup_nil
  · obtain ⟨p, hp, q, hq, hpq⟩ := mem_mergeRound_fst.1 hc
    refine ⟨mergeRound_implicant himp c hc, ?_⟩
    rw [Cube.bitCount_merge (himp p hp).fits (himp q hq).fits hpq, ((h.mem_iff p).1 hp).2]
  · -- an implicant with a free variable is the merge of its halves, which are in round `r`
    obtain ⟨j, hj, hcj⟩ := exists_free hi.fits (by omega)
    have hhalves := Cube.Implicant.halves hi hj hcj
    have hcount := Cube.bitCount_lower hcj
    have hlo : c.lower j ∈ cs := (h.mem_iff _).2 ⟨hhalves.1, by omega⟩
    have hup : c.upper j ∈ cs := (h.mem_iff _).2 ⟨hhalves.2, by rw [← hcount] at hb; exact
      (show bitCount (c.upper j).mask = bitCount (c.lower j).mask from rfl).trans (by omega)⟩
    exact mem_mergeRound_fst.2 ⟨_, hlo, _, hup, Cube.merge?_halves hi.fits hcj⟩

/-- A cube of a round is left over by the merging exactly when it is prime. -/
theorem unmerged_iff {r : Nat} {cs : List Cube} (h : Round k ms r cs) {p : Cube} (hp : p ∈ cs) :
    p ∈ (mergeRound cs).2 ↔ Cube.Prime k ms p := by
  obtain ⟨hip, hbp⟩ := (h.mem_iff p).1 hp
  constructor
  · -- a larger implicant frees a variable `p` fixes; `p` flipped there is in the round and
    -- merges with `p`
    intro hu
    refine ⟨hip, fun q hq hpq => ?_⟩
    by_contra hne
    obtain ⟨i, hi, hqi, hpi⟩ := Cube.exists_freed hip.fits hq.fits hpq hne
    have hsub := Cube.flip_covers_subset hip.fits hi hpi hq.fits hpq hqi
    have hflip : p.flip i ∈ cs := (h.mem_iff _).2
      ⟨⟨Cube.flip_fits hip.fits hi hpi, fun m hm hfm => hq.sound m hm (hsub m hm hfm)⟩, hbp⟩
    obtain ⟨s, hs⟩ := Option.isSome_iff_exists.1 (Cube.merge?_flip_isSome p i)
    exact (mem_mergeRound_snd_iff.1 hu).2 _ hflip s (.inl hs)
  · -- a merge with `p` in it is an implicant larger than `p`, so it would be `p`
    intro hprime
    rcases mergeRound_cases hp with hu | ⟨q, hq, s, hs, hmerge⟩
    · exact hu
    · exfalso
      have hiq := ((h.mem_iff q).1 hq).1
      have hns := (h.next.mem_iff s).1 hs
      have hcov : ∀ m < 2 ^ k, p.covers m → s.covers m := fun m hm hpm => by
        rcases hmerge with hm' | hm'
        · exact Cube.merge_covers hip.fits hiq.fits hm' hm (.inl hpm)
        · exact Cube.merge_covers hiq.fits hip.fits hm' hm (.inr hpm)
      have hsp := hprime.2 s hns.1 hcov
      rw [hsp, hbp] at hns
      omega

/-- An implicant with at least `r` free variables gives one with exactly `r`. -/
theorem exists_implicant {r : Nat} :
    ∀ (d : Nat) (c : Cube), Cube.Implicant k ms c → bitCount c.mask = r + d →
      ∃ c', Cube.Implicant k ms c' ∧ bitCount c'.mask = r
  | 0, c, hc, hb => ⟨c, hc, hb⟩
  | d + 1, c, hc, hb => by
    -- fix one free variable: the lower half
    obtain ⟨j, hj, hcj⟩ := exists_free hc.fits (by omega)
    have hcount := Cube.bitCount_lower hcj
    exact exists_implicant d _ (Cube.Implicant.halves hc hj hcj).1 (by omega)

/-- The prime implicants with at least `r` free variables are found from round `r`, each once,
once the fuel runs past `k` variables. -/
theorem primeRounds_spec :
    ∀ (fuel r : Nat) (cs : List Cube), Round k ms r cs → k < r + fuel →
      (∀ p, p ∈ primeRounds fuel cs ↔ Cube.Prime k ms p ∧ r ≤ bitCount p.mask) ∧
        (primeRounds fuel cs).Nodup
  | 0, r, cs, h, hk => by
    -- a round past `k` is empty: no cube frees more variables than there are
    have hbig : ∀ c : Cube, Cube.Implicant k ms c → r ≤ bitCount c.mask → False :=
      fun c hc hr => by
        have := bitCount_le hc.fits.mask_lt
        omega
    refine ⟨fun p => ⟨fun hp => ?_, fun hp => (hbig p hp.1.1 hp.2).elim⟩, h.nodup⟩
    have := (h.mem_iff p).1 hp
    exact (hbig p this.1 this.2.ge).elim
  | fuel + 1, r, cs, h, hk => by
    by_cases hne : cs.isEmpty
    · -- no implicant with `r` free variables, so none with more
      simp only [primeRounds, hne, if_true, List.not_mem_nil, false_iff, List.nodup_nil, and_true]
      rintro p ⟨hp, hr⟩
      obtain ⟨c, hc, hcr⟩ := exists_implicant (r := r) (bitCount p.mask - r) p hp.1 (by omega)
      have hmem := (h.mem_iff c).2 ⟨hc, hcr⟩
      rw [List.isEmpty_iff.1 hne] at hmem
      cases hmem
    · simp only [primeRounds, hne, Bool.false_eq_true, if_false]
      obtain ⟨hrest, hnodup⟩ := primeRounds_spec fuel (r + 1) _ h.next (by omega)
      have hleft : ∀ p ∈ (mergeRound cs).2, p ∈ cs ∧ Cube.Prime k ms p := fun p hp => by
        have hpc := mem_mergeRound_snd hp
        exact ⟨hpc, (unmerged_iff h hpc).1 hp⟩
      refine ⟨fun p => ?_, List.nodup_append.2 ⟨?_, hnodup, ?_⟩⟩
      · rw [List.mem_append, hrest]
        constructor
        · rintro (hp | ⟨hp, hr⟩)
          · obtain ⟨hpc, hprime⟩ := hleft p hp
            exact ⟨hprime, ((h.mem_iff p).1 hpc).2.ge⟩
          · exact ⟨hp, by omega⟩
        · -- a prime with exactly `r` free variables is in the round and left over
          rintro ⟨hp, hr⟩
          rcases Nat.lt_or_eq_of_le hr with hlt | heq
          · exact .inr ⟨hp, hlt⟩
          · have hpc := (h.mem_iff p).2 ⟨hp.1, heq.symm⟩
            exact .inl ((unmerged_iff h hpc).2 hp)
      · exact h.nodup.filter _
      · -- the left-overs free `r` variables, the later primes more
        intro a ha b hb hab
        subst hab
        have := ((h.mem_iff a).1 (hleft a ha).1).2
        have := ((hrest a).1 hb).2
        omega

end Round

/-- The cubes found are exactly the prime implicants. -/
theorem mem_primeCubes_iff {k : Nat} {ms : List Nat} (hms : ∀ m ∈ ms, m < 2 ^ k) (p : Cube) :
    p ∈ primeCubes k ms ↔ Cube.Prime k ms p := by
  rw [primeCubes, List.mem_mergeSort,
    ((Round.primeRounds_spec (k + 1) 0 _ (Round.start hms) (by omega)).1 p)]
  exact and_iff_left (Nat.zero_le _)

/-- Each prime implicant is found once. -/
theorem primeCubes_nodup {k : Nat} {ms : List Nat} (hms : ∀ m ∈ ms, m < 2 ^ k) :
    (primeCubes k ms).Nodup :=
  (List.mergeSort_perm _ _).nodup_iff.2
    (Round.primeRounds_spec (k + 1) 0 _ (Round.start hms) (by omega)).2

/-! ### The greedy completion -/

/-- Each greedy step covers a new minterm, so any fuel past the number of uncovered minterms
gives the same cover: the completion ends before the fuel does. -/
theorem greedy_fuel_eq {primes : List Cube} :
    ∀ (fuel fuel' : Nat) (us : List Nat), us.length < fuel → us.length < fuel' →
      (∀ m ∈ us, ∃ p ∈ primes, p.covers m) →
        greedy primes fuel us = greedy primes fuel' us
  | 0, _, _, h, _, _ => absurd h (Nat.not_lt_zero _)
  | _ + 1, 0, _, _, h, _ => absurd h (Nat.not_lt_zero _)
  | fuel + 1, fuel' + 1, us, h, h', hcov => by
    simp only [greedy]
    by_cases hus : us = []
    · subst hus
      rfl
    · obtain ⟨p, hp, -, m, hm, hpm⟩ := bestCube_of_covered hcov hus
      rw [hp]
      dsimp only
      have hlt := length_uncovered_lt hm hpm
      rw [greedy_fuel_eq fuel fuel' (us.filter fun m => !p.covers m) (by omega) (by omega)
        (fun m hm => hcov m (List.mem_filter.1 hm).1)]

/-- The prime implicants of a set of minterms over `k` variables are found, each once; the
cover chosen from them is made of primes and covers exactly the set; and every greedy step
picks a prime covering an uncovered minterm, so the completion ends with the fuel it is
given to spare. -/
theorem primeCubes_exact_cover_ends {k : Nat} {ms : List Nat} (hms : ∀ m ∈ ms, m < 2 ^ k) :
    (∀ p, p ∈ primeCubes k ms ↔ Cube.Prime k ms p) ∧ (primeCubes k ms).Nodup ∧
    (∀ p ∈ chooseCover (primeCubes k ms) ms, p ∈ primeCubes k ms) ∧
    (∀ m < 2 ^ k, (∃ p ∈ chooseCover (primeCubes k ms) ms, p.covers m) ↔ m ∈ ms) ∧
    (∀ us : List Nat, (∀ m ∈ us, m ∈ ms) → us ≠ [] →
      ∃ p, bestCube us (primeCubes k ms) = some p ∧ ∃ m ∈ us, p.covers m) ∧
    (∀ us : List Nat, (∀ m ∈ us, m ∈ ms) → ∀ fuel, us.length < fuel →
      greedy (primeCubes k ms) fuel us = greedy (primeCubes k ms) (us.length + 1) us) := by
  have hcov : ∀ us : List Nat, (∀ m ∈ us, m ∈ ms) →
      ∀ m ∈ us, ∃ p ∈ primeCubes k ms, p.covers m :=
    fun us hus m hm => primeCubes_complete hms m (hus m hm)
  refine ⟨mem_primeCubes_iff hms, primeCubes_nodup hms, fun p hp => chooseCover_sound p hp,
    fun m hm => chooseCover_covers hms hm, fun us hus hne => ?_, fun us hus fuel hfuel => ?_⟩
  · obtain ⟨p, hp, -, hpm⟩ := bestCube_of_covered (hcov us hus) hne
    exact ⟨p, hp, hpm⟩
  · exact greedy_fuel_eq fuel _ us hfuel (Nat.lt_succ_self _) (hcov us hus)

/-- The minterms `0`, `1` and `3` over two variables. -/
theorem primeCubes_exact_cover_ends_three :
    (∀ m ∈ [0, 1, 3], m < 2 ^ 2) ∧
    (∀ p, p ∈ primeCubes 2 [0, 1, 3] ↔ Cube.Prime 2 [0, 1, 3] p) ∧
    (primeCubes 2 [0, 1, 3]).Nodup ∧
    (∀ p ∈ chooseCover (primeCubes 2 [0, 1, 3]) [0, 1, 3], p ∈ primeCubes 2 [0, 1, 3]) ∧
    (∀ m < 2 ^ 2, (∃ p ∈ chooseCover (primeCubes 2 [0, 1, 3]) [0, 1, 3], p.covers m) ↔
      m ∈ [0, 1, 3]) ∧
    (∀ us : List Nat, (∀ m ∈ us, m ∈ [0, 1, 3]) → us ≠ [] →
      ∃ p, bestCube us (primeCubes 2 [0, 1, 3]) = some p ∧ ∃ m ∈ us, p.covers m) ∧
    (∀ us : List Nat, (∀ m ∈ us, m ∈ [0, 1, 3]) → ∀ fuel, us.length < fuel →
      greedy (primeCubes 2 [0, 1, 3]) fuel us =
        greedy (primeCubes 2 [0, 1, 3]) (us.length + 1) us) :=
  ⟨by decide, primeCubes_exact_cover_ends (by decide)⟩

end DecisionDiagrams

