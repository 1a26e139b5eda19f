/-
The variables of a text are the identifiers its lexer reads.

The variables and the occurrence counts of a text are found by a scan of its bytes for runs of
identifier bytes, which is not the lexer. On a text that is a formula the two agree: the scan
finds exactly the texts of the identifier tokens, so the variables are those texts without
repetitions, in the order of their first occurrence, and the count of a name is the number of
tokens with that text. Every name of the formula is then a variable, and once the variables are
declared each name of the formula has a level of its own: the compilation that follows never
falls back on level `0` for a name it does not know.

* `firstOccurrences_eq_eraseDups` — keeping the first occurrences is the library's
  `List.eraseDups`.
* `lookup_occurrences` — the count of a name is its number of occurrences among the
  identifiers, and `0` for a name that does not occur.
* `Engine.names_levelOf_declare` — declaring names gives each of them a level of its own name.
* `variables_of_tokens` — on a formula, the variables and counts are those of the identifier
  tokens, and every name of the formula has its own level once the variables are declared.
-/
import DecisionDiagrams.Proofs.DeclaredLevels

namespace DecisionDiagrams

/-- Keeping first occurrences past a seed gives the seed, then the first occurrences of the
elements it lacks. -/
theorem firstOccurrencesFrom_eq (acc xs : List String) :
    firstOccurrencesFrom acc xs = acc ++ (xs.removeAll acc).eraseDups := by
  induction xs generalizing acc with
  | nil => simp [firstOccurrencesFrom]
  | cons y ys ih =>
    rw [firstOccurrencesFrom, List.foldl_cons, ← firstOccurrencesFrom]
    by_cases hy : y ∈ acc
    · rw [if_pos (by simpa using hy), ih]
      simp [List.removeAll, hy]
    · rw [if_neg (by simpa using hy), ih, List.append_assoc]
      -- `y` is new, so it comes next, and the rest lacks it as well as the seed
      simp [List.removeAll, hy, List.eraseDups_cons, List.filter_filter, Bool.and_comm]
      rfl

theorem firstOccurrences_eq_eraseDups (xs : List String) :
    firstOccurrences xs = xs.eraseDups := by
  rw [firstOccurrences_eq, firstOccurrencesFrom_eq]
  simp [List.removeAll]

/-- The count of a name is how often it occurs among the identifiers of the text; a name that
does not occur has no entry and counts `0`. -/
theorem lookup_occurrences (text v : String) :
    ((occurrences text).lookup v).getD 0 = (identifiers text).count v := by
  -- every entry pairs an identifier with its count
  have hentry : ∀ p ∈ occurrences text,
      p.1 ∈ identifiers text ∧ p.2 = (identifiers text).count p.1 := by
    intro p hp
    simp only [occurrences, List.mem_mergeSort, List.mem_map] at hp
    obtain ⟨x, hx, rfl⟩ := hp
    exact ⟨mem_firstOccurrences.1 hx, rfl⟩
  cases h : (occurrences text).lookup v with
  | none =>
    rw [List.lookup_eq_none_iff] at h
    -- a name with no entry is no identifier
    have hv : v ∉ identifiers text := by
      intro hv
      have hmem : (v, (identifiers text).count v) ∈ occurrences text := by
        simp only [occurrences, List.mem_mergeSort, List.mem_map]
        exact ⟨v, mem_firstOccurrences.2 hv, rfl⟩
      simpa using h _ hmem
    simp [List.count_eq_zero_of_not_mem hv]
  | some n =>
    obtain ⟨l₁, l₂, hl, -⟩ := List.lookup_eq_some_iff.1 h
    exact (hentry (v, n) (by rw [hl]; simp)).2

namespace Engine

/-- A declared name's level is a level of that name. -/
theorem names_levelOf {e : Engine} {x : String} (hx : x ∈ e.names.toList) :
    e.names[e.levelOf x]? = some x := by
  obtain ⟨l, hl⟩ := Option.isSome_iff_exists.1 (Array.isSome_idxOf?.2 (by simpa using hx))
  rw [levelOf, level?, hl, Option.getD_some]
  rw [← Array.idxOf?_toList, List.idxOf?_eq_some_iff] at hl
  obtain ⟨hlt, hxl, -⟩ := hl
  exact Array.getElem?_eq_some_iff.2 ⟨by simpa using hlt, by simpa using hxl⟩

theorem declare_names (xs : List String) (e : Engine) :
    ((declare xs).run e).2.names = declaredNames e.names xs := by
  rw [declare_run]
  split <;> rfl

/-- Declaring names gives each of them a level of its own name, whether or not the table has
room for the new variables. -/
theorem names_levelOf_declare {xs : List String} {x : String} (hx : x ∈ xs) (e : Engine) :
    ((declare xs).run e).2.names[((declare xs).run e).2.levelOf x]? = some x := by
  apply names_levelOf
  rw [declare_names, declaredNames_toList]
  exact mem_firstOccurrencesFrom.2 (.inr hx)

end Engine

/-- On a text that is a formula, variable discovery agrees with the lexer: the variables are the
texts of the identifier tokens without repetitions, in the order of their first occurrence, and
the count of each name is the number of identifier tokens with its text. Each name of the formula
is a variable, so once the variables are declared, in any engine, the level that compilation
looks up for a name of the formula is a level of that name. -/
theorem variables_of_tokens {text : String} {f : Formula} (h : Formula.parse text = .ok f) :
    ∃ ts, Token.scan 0 text.toUTF8.toList = .ok ts ∧
      variablesOf text = (Formula.identTexts ts).eraseDups ∧
      (∀ v, ((occurrences text).lookup v).getD 0 = (Formula.identTexts ts).count v) ∧
      ∀ x ∈ f.names, x ∈ variablesOf text ∧ ∀ e : Engine,
        ((Engine.declare (variablesOf text)).run e).2.names[
          ((Engine.declare (variablesOf text)).run e).2.levelOf x]? = some x := by
  obtain ⟨ts, hscan, -⟩ := Formula.derives_of_parse h
  have hids : identifiers text = Formula.identTexts ts := Token.identifiers_of_scan hscan
  refine ⟨ts, hscan, ?_, fun v => ?_, fun x hx => ?_⟩
  · rw [variablesOf, hids, firstOccurrences_eq_eraseDups]
  · rw [lookup_occurrences, hids]
  · have hxv : x ∈ variablesOf text := mem_firstOccurrences.2 (Formula.parse_names h x hx).2
    exact ⟨hxv, Engine.names_levelOf_declare hxv⟩

/-- The formula `b | a_1 & ~b`: its identifier tokens are `b`, `a_1` and `b`. -/
theorem variables_of_tokens_repeated :
    Formula.parse "b | a_1 & ~b" =
        .ok (.bin .or (.var "b") (.bin .and (.var "a_1") (.not (.var "b")))) ∧
      ∃ ts, Token.scan 0 "b | a_1 & ~b".toUTF8.toList = .ok ts ∧
        variablesOf "b | a_1 & ~b" = (Formula.identTexts ts).eraseDups ∧
        (∀ v, ((occurrences "b | a_1 & ~b").lookup v).getD 0 = (Formula.identTexts ts).count v) ∧
        ∀ x ∈ (Formula.bin .or (.var "b") (.bin .and (.var "a_1") (.not (.var "b")))).names,
          x ∈ variablesOf "b | a_1 & ~b" ∧ ∀ e : Engine,
            ((Engine.declare (variablesOf "b | a_1 & ~b")).run e).2.names[
              ((Engine.declare (variablesOf "b | a_1 & ~b")).run e).2.levelOf x]? = some x := by
  have hp : Formula.parse "b | a_1 & ~b" =
      .ok (.bin .or (.var "b") (.bin .and (.var "a_1") (.not (.var "b")))) := by
    cbv
  exact ⟨hp, variables_of_tokens hp⟩

/-- The variables of `b | a_1 & ~b` list `b` once, before `a_1`, and `b` counts twice. -/
example : variablesOf "b | a_1 & ~b" = ["b", "a_1"] ∧
    ((occurrences "b | a_1 & ~b").lookup "b").getD 0 = 2 :=
  ⟨by decide +kernel, by cbv⟩

end DecisionDiagrams
