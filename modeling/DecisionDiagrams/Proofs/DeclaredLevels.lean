/-
The levels of a made diagram.

A diagram's engine declares the variables of the linear text of its formula, with the arrows
expanded, in the order of their first occurrence; the diagram's variables are the identifiers of
its text in the order of their first occurrence. The two lists are the same: the identifiers of a
text are the names of its formula from left to right, expanding the arrows repeats names only
after their first occurrences, and a new engine declares a list without repetitions as it is. So
the engine's level `k` is the diagram's variable `k`.

* `Formula.Derives.names_eq` — a derivation reads the names of its formula from left to right.
* `Formula.identifiers_eq_names` — the identifiers of a text are the names of its formula.
* `firstOccurrences_expandArrows` — expanding the arrows keeps the first occurrences of the names.
* `Diagram.create_names` — a made diagram's engine names its levels by the diagram's variables.
-/
import DecisionDiagrams.Proofs.DiagramBuilds
import DecisionDiagrams.Proofs.Grammar

namespace DecisionDiagrams

namespace Formula

open Token

/-- The names a symbol starts from: those of the formula a repetition has accumulated. -/
def Sym.startNames : Sym → List String
  | .tail _ acc => acc.names
  | _ => []

/-- A derivation reads the names of its formula from left to right, after those it starts
from. -/
theorem Derives.names_eq {s : Sym} {p : List Token} {f : Formula} (h : Derives s p f) :
    f.names = s.startNames ++ identTexts p := by
  have hconn : ∀ (c : LeftAssoc) {t : Token}, t.kind = c.conn.tokenKind → t.kind ≠ .ident :=
    fun c t ht => by rw [ht]; cases c <;> decide
  -- the levels of a repetition and of its operands start from nothing
  have hlevel : ∀ c : LeftAssoc, c.level.startNames = [] := fun c => by cases c <;> rfl
  have hoperand : ∀ c : LeftAssoc, c.operand.startNames = [] := fun c => by cases c <;> rfl
  induction h with
  | chain c _ _ ihp ihq =>
    rw [ihq, Sym.startNames, ihp, hlevel, hoperand, identTexts_append, List.nil_append,
      List.nil_append]
  | stop c acc => simp [Sym.startNames, identTexts]
  | more c ht _ _ ihp ihq =>
    rw [ihq, Sym.startNames, Sym.startNames, names, ihp, hoperand,
      identTexts_cons_of_ne _ (hconn c ht), identTexts_append]
    simp
  | imp_or _ ih => exact ih
  | unary_atom _ ih => exact ih
  | imp _ ht _ ihp ihq =>
    rw [names, ihp, ihq, identTexts_append, identTexts_cons_of_ne _ (by rw [ht]; decide)]
    rfl
  | not ht _ ih =>
    rw [names, ih, identTexts_cons_of_ne _ (by rw [ht]; decide)]
  | ident ht => simp [Sym.startNames, identTexts, ht, names]
  | paren ho _ hc ih =>
    rw [ih, identTexts_cons_of_ne _ (by rw [ho]; decide), identTexts_append,
      identTexts_cons_of_ne _ (by rw [hc]; decide)]
    simp [Sym.startNames, identTexts]

/-- The identifiers of a text that parses are the names of its formula, in order. -/
theorem identifiers_eq_names {text : String} {f : Formula} (h : parse text = .ok f) :
    identifiers text = f.names := by
  obtain ⟨ts, hscan, hd⟩ := derives_of_parse h
  rw [identifiers, identifiers_of_scan hscan, hd.names_eq]
  rfl

end Formula

/-! ### First occurrences -/

theorem firstOccurrencesFrom_append (acc xs ys : List String) :
    firstOccurrencesFrom acc (xs ++ ys) = firstOccurrencesFrom (firstOccurrencesFrom acc xs) ys :=
  List.foldl_append

/-- Elements that already occur add nothing. -/
theorem firstOccurrencesFrom_of_subset {acc ys : List String} (h : ∀ y ∈ ys, y ∈ acc) :
    firstOccurrencesFrom acc ys = acc := by
  induction ys with
  | nil => rfl
  | cons y ys ih =>
    rw [firstOccurrencesFrom, List.foldl_cons, if_pos (by simpa using h y List.mem_cons_self)]
    exact ih fun z hz => h z (List.mem_cons_of_mem y hz)

/-- New elements without repetitions are appended as they are. -/
theorem firstOccurrencesFrom_of_nodup {acc xs : List String} (hxs : xs.Nodup)
    (hd : ∀ x ∈ xs, x ∉ acc) : firstOccurrencesFrom acc xs = acc ++ xs := by
  induction xs generalizing acc with
  | nil => exact (List.append_nil acc).symm
  | cons x xs ih =>
    obtain ⟨hx, hxs⟩ := List.nodup_cons.1 hxs
    rw [firstOccurrencesFrom, List.foldl_cons,
      if_neg (by simpa using hd x List.mem_cons_self)]
    refine (ih hxs fun y hy hy' => ?_).trans (by simp)
    rcases List.mem_append.1 hy' with hy' | hy'
    · exact hd y (List.mem_cons_of_mem x hy) hy'
    · exact hx (List.mem_singleton.1 hy' ▸ hy)

/-- Expanding the arrows keeps the first occurrences of the names: an implication names its
sides once, and an equivalence names them twice, the second time after the first. -/
theorem firstOccurrencesFrom_expandArrows (f : Formula) (acc : List String) :
    firstOccurrencesFrom acc f.expandArrows.names = firstOccurrencesFrom acc f.names := by
  induction f generalizing acc with
  | var x => rfl
  | not f ih => exact ih acc
  | bin op l r ihl ihr =>
    cases op with
    | and => simp only [Formula.expandArrows, Formula.names, firstOccurrencesFrom_append, ihl, ihr]
    | or => simp only [Formula.expandArrows, Formula.names, firstOccurrencesFrom_append, ihl, ihr]
    | imp => simp only [Formula.expandArrows, Formula.names, firstOccurrencesFrom_append, ihl, ihr]
    | iff =>
      simp only [Formula.expandArrows, Formula.names]
      rw [firstOccurrencesFrom_append, firstOccurrencesFrom_of_subset fun y hy =>
        mem_firstOccurrencesFrom.2 (.inr hy)]
      simp only [firstOccurrencesFrom_append, ihl, ihr]

theorem firstOccurrences_expandArrows (f : Formula) :
    firstOccurrences f.expandArrows.names = firstOccurrences f.names :=
  firstOccurrencesFrom_expandArrows f []

/-- The variables of the linear text of a formula read from a text, with the arrows expanded,
are the variables of the text, in the same order. -/
theorem variablesOf_expandArrows_linear {text : String} {f : Formula}
    (hp : Formula.parse text = .ok f) : variablesOf f.expandArrows.linear = variablesOf text := by
  rw [variablesOf, variablesOf, Formula.identifiers_linear _ (Formula.parse_expandArrows_names hp),
    firstOccurrences_expandArrows, Formula.identifiers_eq_names hp]

/-! ### Declared names -/

namespace Engine

theorem declaredNames_toList (ns : Array String) (xs : List String) :
    (declaredNames ns xs).toList = firstOccurrencesFrom ns.toList xs := by
  induction xs generalizing ns with
  | nil => rfl
  | cons x xs ih =>
    have hstep : (if ns.contains x then ns else ns.push x).toList =
        if ns.toList.contains x then ns.toList else ns.toList ++ [x] := by
      by_cases hx : x ∈ ns <;> simp [hx]
    rw [declaredNames, List.foldl_cons, ← declaredNames, ih, hstep]
    rfl

end Engine

namespace Diagram

open Engine

/-- Taking an order keeps the variables. -/
theorem setOrder_vars {d d' : Diagram} {o : List String} (h : d.setOrder o = .ok d') :
    d'.vars = d.vars := by
  obtain ⟨-, rfl⟩ := setOrder_ok_iff.1 h
  split <;> rfl

/-- The engine of a made diagram names its levels by the diagram's variables, in order: the new
engine declares the variables of the formula's linear text, which are the text's, and rendering
declares nothing. -/
theorem create_names {text : String} {limits : Limits} {order : Option (List String)}
    {d : Diagram} (h : create text limits order = .ok d) : d.engine.names.toList = d.vars := by
  obtain ⟨f, e, e₁, root, e₂, expression, hp, he, hr, hx, hd⟩ := create_eq_ok h
  have hs := create_sound he
  have hnames := Formula.parse_expandArrows_names hp
  have hok : ((parseAndSimplify f.expandArrows.linear).run e).1 = .ok root := by rw [hr]
  obtain ⟨g, e', r, k, -, hdecl, -, -, -, hrun⟩ := parseAndSimplify_ok hok
  have he₀ : e.names = #[] := Engine.create_names he
  -- the new engine declares the variables of the linear text, which repeat none
  have h₁ : e₁.names.toList = variablesOf text := by
    rw [hr] at hrun
    cases hrun
    change e'.names.toList = _
    have hnodup : (variablesOf text).Nodup := nodup_firstOccurrences _
    rw [(declare_none hs hdecl).1, declaredNames_toList, he₀, Array.toList_empty,
      variablesOf_expandArrows_linear hp,
      firstOccurrencesFrom_of_nodup hnodup fun _ _ => List.not_mem_nil, List.nil_append]
  obtain ⟨hs₁, -, hroot, -⟩ := parseAndSimplify_linear hs hnames hok
  rw [hr] at hs₁ hroot
  have R := render_leaves hs₁ hroot
  rw [hx] at R
  have h₂ : (fresh text e₂ root expression).engine.names.toList =
      (fresh text e₂ root expression).vars := by
    change e₂.names.toList = variablesOf text
    rw [R.names, h₁]
  rcases hd with ⟨-, rfl⟩ | ⟨o, -, ho⟩
  · exact h₂
  · rw [(setOrder_ok ho).1, setOrder_vars ho]
    exact h₂

/-- A diagram made without an order takes the order of its variables. -/
theorem create_order_none {text : String} {limits : Limits} {d : Diagram}
    (h : create text limits none = .ok d) : d.order = d.vars := by
  obtain ⟨_, _, _, _, _, _, _, _, _, _, hd⟩ := create_eq_ok h
  rcases hd with ⟨-, rfl⟩ | ⟨o, ho, -⟩
  · rfl
  · cases ho

end Diagram

end DecisionDiagrams
