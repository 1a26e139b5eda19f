/-
Two-level normal forms and their texts.

A term is a list of literals. A disjunctive form is true when all the literals of one of its
terms are; a conjunctive form is true when one literal of each of its terms is. `joinTerms`
writes a form: the literals of a term joined by the inner connective, the terms by the outer
one, a term of several literals in parentheses when there are several terms, and the terms
sorted as texts. The lexer reads such a text over names as names, `~`, the two connectives and
parentheses; the parser groups each connective to the left and reads a parenthesised term at
the operand level. So the text reads back as the form with its terms in sorted order, which has
the form's truth values.

* `Literal.holds` — the truth value of a literal under an assignment of the names.
* `any_dropSubsumed` — dropping the terms that contain a shorter term keeps a disjunctive form.
* `Formula.Chain` — token lists read as items, joined by one kind of token; the and-level and
  the or-level of the parser read chains to the left (`parseAnd_chain`, `parseOr_chain`).
* `Formula.Lexes` — bytes that the lexer reads as given tokens, whatever follows that starts no
  identifier.
* `parse_disjunctive`, `parse_conjunctive` — the text of a form over names reads back as a
  formula with the form's truth values, and its identifiers are names of its literals.
-/
import DecisionDiagrams.Proofs.Parsing
import DecisionDiagrams.Simplify.Render

namespace DecisionDiagrams

/-! ### Truth values of forms -/

namespace Literal

/-- Whether the literal holds when each name `x` has the value `σ x`. -/
def holds (σ : String → Bool) (l : Literal) : Bool :=
  σ l.name != l.neg

/-- The literal as a formula: its variable, negated when the literal is negative. -/
def formula (l : Literal) : Formula :=
  if l.neg then .not (.var l.name) else .var l.name

@[simp] theorem eval_formula (σ : String → Bool) (l : Literal) :
    l.formula.eval σ = l.holds σ := by
  unfold formula holds
  cases l.neg <;> simp [Formula.eval]

end Literal

/-! ### Dropping subsumed terms -/

theorem mem_of_containsAll {c d : List Literal} (h : containsAll c d) {l : Literal}
    (hl : l ∈ d) : l ∈ c := by
  unfold containsAll at h
  simpa using List.all_eq_true.1 h l hl

theorem mem_of_mem_dropSubsumed {cs : List (List Literal)} {c : List Literal}
    (h : c ∈ dropSubsumed cs) : c ∈ cs := by
  unfold dropSubsumed at h
  obtain ⟨⟨c', i⟩, hi, hc⟩ := List.mem_filterMap.1 h
  dsimp only at hc
  split at hc
  · cases hc
  · cases hc
    exact List.mem_of_getElem? (List.mem_zipIdx_iff_getElem?.1 hi)

/-- A term of a list is kept by `dropSubsumed`, or it contains a shorter term of the list. -/
theorem mem_dropSubsumed_or {cs : List (List Literal)} {c : List Literal} (hc : c ∈ cs) :
    c ∈ dropSubsumed cs ∨ ∃ d ∈ cs, d.length < c.length ∧ containsAll c d := by
  by_cases hd : ∃ d ∈ cs, d.length < c.length ∧ containsAll c d
  · exact .inr hd
  · left
    obtain ⟨i, hi⟩ := List.mem_iff_getElem?.1 hc
    unfold dropSubsumed
    refine List.mem_filterMap.2 ⟨(c, i), List.mem_zipIdx_iff_getElem?.2 hi, ?_⟩
    dsimp only
    rw [if_neg]
    intro hany
    obtain ⟨⟨d, j⟩, hdj, hcond⟩ := List.any_eq_true.1 hany
    simp only [decide_eq_true_eq] at hcond
    exact hd ⟨d, List.mem_of_getElem? (List.mem_zipIdx_iff_getElem?.1 hdj), hcond.2.1, hcond.2.2⟩

/-- Dropping the terms that contain a shorter term keeps the disjunction: a dropped term
contains a shorter term, which holds wherever it does. -/
theorem any_dropSubsumed (P : Literal → Bool) (cs : List (List Literal)) :
    (dropSubsumed cs).any (fun t => t.all P) = cs.any (fun t => t.all P) := by
  apply Bool.eq_iff_iff.2
  simp only [List.any_eq_true]
  constructor
  · rintro ⟨c, hc, hp⟩
    exact ⟨c, mem_of_mem_dropSubsumed hc, hp⟩
  · rintro ⟨c, hc, hp⟩
    -- induction on the length of a term that holds
    suffices h : ∀ n, ∀ c ∈ cs, c.length = n → c.all P →
        ∃ c' ∈ dropSubsumed cs, c'.all P from h _ c hc rfl hp
    intro n
    induction n using Nat.strongRecOn with
    | ind n ih =>
    intro c hc hlen hp
    rcases mem_dropSubsumed_or hc with hkeep | ⟨d, hd, hlt, hcont⟩
    · exact ⟨c, hkeep, hp⟩
    · refine ih d.length (hlen ▸ hlt) d hd rfl (List.all_eq_true.2 fun l hl => ?_)
      exact List.all_eq_true.1 hp l (mem_of_containsAll hcont hl)

namespace Formula

open Token

/-! ### Reading chains of tokens -/

/-- Token lists, each spelling one item, joined by tokens of kind `sep`. -/
inductive Chain {α : Type} (Item : List Token → α → Prop) (sep : TokenKind) :
    List Token → List α → Prop
  | one {ts : List Token} {a : α} : Item ts a → Chain Item sep ts [a]
  | cons {ts rest : List Token} {m : Token} {a : α} {as : List α} :
      Item ts a → m.kind = sep → Chain Item sep rest as → Chain Item sep (ts ++ m :: rest) (a :: as)

theorem Chain.map {α β : Type} {P : List Token → α → Prop} {Q : List Token → β → Prop}
    {sep : TokenKind} (g : α → β) (hPQ : ∀ ts a, P ts a → Q ts (g a)) {ts : List Token}
    {as : List α} (h : Chain P sep ts as) : Chain Q sep ts (as.map g) := by
  induction h with
  | one h => exact .one (hPQ _ _ h)
  | cons h hm _ ih => exact .cons (hPQ _ _ h) hm ih

/-- The formula of a nonempty list of formulas joined by `op`, grouped to the left. -/
def joinLeft (op : Connective) (f : Formula) (fs : List Formula) : Formula :=
  fs.foldl (fun a x => .bin op a x) f

theorem eval_joinLeft_and (σ : String → Bool) :
    ∀ (f : Formula) (fs : List Formula),
      (joinLeft .and f fs).eval σ = (f.eval σ && fs.all (·.eval σ))
  | f, [] => by simp [joinLeft]
  | f, x :: xs => by
    rw [joinLeft, List.foldl_cons, ← joinLeft, eval_joinLeft_and σ _ xs]
    simp [eval, Connective.apply, Bool.and_assoc]

theorem eval_joinLeft_or (σ : String → Bool) :
    ∀ (f : Formula) (fs : List Formula),
      (joinLeft .or f fs).eval σ = (f.eval σ || fs.any (·.eval σ))
  | f, [] => by simp [joinLeft]
  | f, x :: xs => by
    rw [joinLeft, List.foldl_cons, ← joinLeft, eval_joinLeft_or σ _ xs]
    simp [eval, Connective.apply, Bool.or_assoc]

/-- Tokens read as a formula at the operand level, whatever follows them. -/
def UnaryReads (stop : Nat) (ts : List Token) (f : Formula) : Prop :=
  ∀ R, Reads (parseUnary stop (ts ++ R)) f R

/-- Tokens read as a formula at the conjunction level, before anything but `&`. -/
def AndReads (stop : Nat) (ts : List Token) (f : Formula) : Prop :=
  ∀ R, nextKind R ≠ some .and → Reads (parseAnd stop (ts ++ R)) f R

theorem AndReads.of_unary {stop : Nat} {ts : List Token} {f : Formula}
    (h : UnaryReads stop ts f) : AndReads stop ts f :=
  fun R hR => parseAnd_of_unary (h R) hR

/-- A formula read before a closing token, in parentheses, is an operand. -/
theorem UnaryReads.paren {stop : Nat} {o c : Token} (ho : o.kind = .lparen)
    (hc : c.kind = .rparen) {ts : List Token} {f : Formula}
    (h : ∀ R, Closes R → Reads (parseIff stop (ts ++ R)) f R) :
    UnaryReads stop (o :: (ts ++ [c])) f := by
  intro R
  rw [show o :: (ts ++ [c]) ++ R = o :: (ts ++ c :: R) by simp]
  exact parseUnary_paren ho hc (h _ (Or.inr (by rw [nextKind, hc])))

section Chains

variable {stop : Nat} {R : List Token}

/-- The conjunction level reads a chain of operands joined by `&` after the first. -/
theorem andTail_chain (hR : nextKind R ≠ some .and) {rest : List Token} {fs : List Formula}
    (h : Chain (UnaryReads stop) .and rest fs) :
    ∀ (acc : Formula) (m : Token), m.kind = .and →
      Reads (andTail stop acc (m :: (rest ++ R))) (joinLeft .and acc fs) R := by
  induction h with
  | one hi =>
    intro acc m hm
    exact andTail_step hm (hi R) (andTail_stop hR)
  | @cons ts rest m' f fs hi hm' _ ih =>
    intro acc m hm
    rw [show ts ++ m' :: rest ++ R = ts ++ m' :: (rest ++ R) by simp]
    exact andTail_step hm (hi _) (ih _ m' hm')

/-- The conjunction level reads a chain of operands joined by `&`, grouped to the left. -/
theorem parseAnd_chain {ts : List Token} {f : Formula} {fs : List Formula}
    (h : Chain (UnaryReads stop) .and ts (f :: fs)) : AndReads stop ts (joinLeft .and f fs) := by
  intro R hR
  cases h with
  | one hi => exact parseAnd_of_unary (hi R) hR
  | cons hi hm hrest =>
    rw [List.append_assoc, List.cons_append]
    exact parseAnd_step (hi _) (andTail_chain hR hrest f _ hm)

/-- The disjunction level reads a chain of conjunctions joined by `|` after the first. -/
theorem orTail_chain (hRa : nextKind R ≠ some .and) (hRo : nextKind R ≠ some .or)
    {rest : List Token} {fs : List Formula} (h : Chain (AndReads stop) .or rest fs) :
    ∀ (acc : Formula) (m : Token), m.kind = .or →
      Reads (orTail stop acc (m :: (rest ++ R))) (joinLeft .or acc fs) R := by
  induction h with
  | one hi =>
    intro acc m hm
    exact orTail_step hm (hi R hRa) (orTail_stop hRo)
  | @cons ts rest m' f fs hi hm' _ ih =>
    intro acc m hm
    rw [show ts ++ m' :: rest ++ R = ts ++ m' :: (rest ++ R) by simp]
    exact orTail_step hm (hi _ (by rw [nextKind, hm']; decide)) (ih _ m' hm')

/-- The disjunction level reads a chain of conjunctions joined by `|`, grouped to the left. -/
theorem parseOr_chain {ts : List Token} {f : Formula} {fs : List Formula}
    (h : Chain (AndReads stop) .or ts (f :: fs)) (hRa : nextKind R ≠ some .and)
    (hRo : nextKind R ≠ some .or) : Reads (parseOr stop (ts ++ R)) (joinLeft .or f fs) R := by
  cases h with
  | one hi => exact parseOr_step (hi R hRa) (orTail_stop hRo)
  | cons hi hm hrest =>
    rw [List.append_assoc, List.cons_append]
    exact parseOr_step (hi _ (by rw [nextKind, hm]; decide)) (orTail_chain hRa hRo hrest f _ hm)

end Chains

/-! ### Tokens of literals and forms -/

/-- The tokens of a literal: its name, after `~` when it is negative. -/
inductive LitTokens : List Token → Literal → Prop
  | pos {t : Token} : t.kind = .ident → LitTokens [t] ⟨t.text, false⟩
  | neg {n t : Token} : n.kind = .not → t.kind = .ident → LitTokens [n, t] ⟨t.text, true⟩

theorem LitTokens.reads {stop : Nat} {ts : List Token} {l : Literal} (h : LitTokens ts l) :
    UnaryReads stop ts l.formula := by
  intro R
  cases h with
  | pos ht => exact parseUnary_ident ht R
  | neg hn ht => exact parseUnary_not hn (parseUnary_ident ht R)

theorem LitTokens.identTexts_eq {ts : List Token} {l : Literal} (h : LitTokens ts l) :
    identTexts ts = [l.name] := by
  cases h with
  | pos ht => simp [identTexts, ht]
  | neg hn ht => simp [identTexts, hn, ht]

/-- The formula of a term, its literals joined by `op` (the empty term is not written). -/
def termFormula (op : Connective) : List Literal → Formula
  | [] => .var ""
  | l :: ls => joinLeft op l.formula (ls.map Literal.formula)

theorem Chain.ne_nil {α : Type} {P : List Token → α → Prop} {sep : TokenKind}
    {ts : List Token} {as : List α} (h : Chain P sep ts as) : as ≠ [] := by
  cases h <;> simp

theorem Chain.single {α : Type} {P : List Token → α → Prop} {sep : TokenKind} {ts : List Token}
    {a : α} (h : Chain P sep ts [a]) : P ts a := by
  cases h with
  | one h => exact h
  | cons _ _ hrest => exact absurd rfl hrest.ne_nil

/-- A chain of literals is read as its term at the level of its connective. -/
theorem chain_reads_and {stop : Nat} {ts : List Token} {t : List Literal}
    (h : Chain LitTokens .and ts t) : AndReads stop ts (termFormula .and t) := by
  cases t with
  | nil => exact absurd rfl h.ne_nil
  | cons l ls => exact parseAnd_chain (h.map Literal.formula fun _ _ h => h.reads)

theorem chain_reads_or {stop : Nat} {ts : List Token} {t : List Literal}
    (h : Chain LitTokens .or ts t) {R : List Token} (hRa : nextKind R ≠ some .and)
    (hRo : nextKind R ≠ some .or) : Reads (parseOr stop (ts ++ R)) (termFormula .or t) R := by
  cases t with
  | nil => exact absurd rfl h.ne_nil
  | cons l ls =>
    exact parseOr_chain (h.map Literal.formula fun _ _ h => AndReads.of_unary h.reads) hRa hRo

theorem eval_termFormula_and (σ : String → Bool) {t : List Literal} (ht : t ≠ []) :
    (termFormula .and t).eval σ = t.all (·.holds σ) := by
  cases t with
  | nil => exact absurd rfl ht
  | cons l ls => simp [termFormula, eval_joinLeft_and, Function.comp_def]

theorem eval_termFormula_or (σ : String → Bool) {t : List Literal} (ht : t ≠ []) :
    (termFormula .or t).eval σ = t.any (·.holds σ) := by
  cases t with
  | nil => exact absurd rfl ht
  | cons l ls => simp [termFormula, eval_joinLeft_or, Function.comp_def]

/-- The identifiers of a chain whose separators are no identifiers are those of its items. -/
theorem Chain.identTexts_eq {α : Type} {P : List Token → α → Prop} {sep : TokenKind}
    (hsep : sep ≠ .ident) (g : α → List String) (hg : ∀ ts a, P ts a → identTexts ts = g a)
    {ts : List Token} {as : List α} (h : Chain P sep ts as) : identTexts ts = as.flatMap g := by
  induction h with
  | one h => simp [hg _ _ h]
  | @cons _ _ m _ _ h hm _ ih =>
    have hm' : (m.kind == TokenKind.ident) = false := by rw [hm]; simpa using hsep
    simp only [identTexts, List.filter_append, List.filter_cons, hm', Bool.false_eq_true,
      ↓reduceIte, List.map_append] at ih ⊢
    rw [ih, ← identTexts, hg _ _ h, List.flatMap_cons]

/-! ### Lexing the text of a form -/

/-- The lexer reads tokens `ts` off bytes `bs` from offset `pos` and goes on at `pos'`, whatever
follows that starts no identifier. -/
def Lexes (pos : Nat) (bs : List UInt8) (ts : List Token) (pos' : Nat) : Prop :=
  ∀ rest : List UInt8, rest.takeWhile isIdentPart = [] →
    scan pos (bs ++ rest) = (ts ++ ·) <$> scan pos' rest

theorem takeWhile_blank (R : List UInt8) : (32 :: R).takeWhile isIdentPart = [] := by
  simp [isIdentPart, isIdentStart]

theorem takeWhile_rparen (R : List UInt8) : (41 :: R).takeWhile isIdentPart = [] := by
  simp [isIdentPart, isIdentStart]

/-- Two pieces lex one after the other when the second starts no identifier. -/
theorem Lexes.append {pos p q : Nat} {a b : List UInt8} {ts ts' : List Token}
    (ha : Lexes pos a ts p) (hb : Lexes p b ts' q)
    (hstart : ∀ R, (b ++ R).takeWhile isIdentPart = []) : Lexes pos (a ++ b) (ts ++ ts') q := by
  intro rest hr
  rw [List.append_assoc, ha _ (hstart rest), hb _ hr, Functor.map_map]
  simp

/-- A literal over a name lexes as its tokens. -/
theorem lexes_literal (l : Literal) (hl : isName l.name) (pos : Nat) :
    ∃ ts q, LitTokens ts l ∧ Lexes pos l.text.toUTF8.toList ts q := by
  obtain ⟨x, neg⟩ := l
  cases neg with
  | false =>
    refine ⟨[⟨.ident, x, pos⟩], pos + x.toUTF8.toList.length, .pos rfl, fun rest hr => ?_⟩
    rw [Literal.text, if_neg Bool.false_ne_true, scan_identifier hl hr, asciiText_bytes hl]
    rfl
  | true =>
    refine ⟨[⟨.not, "~", pos⟩, ⟨.ident, x, pos + "~".length⟩],
      pos + "~".length + x.toUTF8.toList.length, .neg rfl rfl, fun rest hr => ?_⟩
    rw [Literal.text, if_pos rfl, toUTF8_append_toList,
      show "~".toUTF8.toList = [126] by decide +kernel, List.singleton_append, List.cons_append,
      scan_symbol (symbol_not _), scan_identifier hl hr, asciiText_bytes hl, Functor.map_map]
    rfl

/-- The text that joins two items by a connective, with a blank on each side. -/
def sepText (c : Connective) : String :=
  " " ++ c.symbol ++ " "

/-- A connective between blanks lexes as its token, whatever follows. -/
theorem lexes_sep (c : Connective) (pos : Nat) {b : List UInt8} {ts : List Token} {q : Nat}
    (hb : Lexes (pos + 1 + c.symbol.length + 1) b ts q) :
    Lexes pos ((sepText c).toUTF8.toList ++ b) (⟨c.tokenKind, c.symbol, pos + 1⟩ :: ts) q := by
  intro rest hr
  obtain ⟨x, xs, hsym, hx⟩ := symbol_bytes c (32 :: (b ++ rest))
  rw [sepText, toUTF8_append_toList, toUTF8_append_toList, hsym,
    show " ".toUTF8.toList = [32] by decide +kernel]
  simp only [List.cons_append, List.nil_append, List.append_assoc]
  rw [scan_blank (by decide), scan_symbol hx, scan_blank (by decide), hb _ hr, Functor.map_map]

theorem sepText_start (c : Connective) (R : List UInt8) :
    ((sepText c).toUTF8.toList ++ R).takeWhile isIdentPart = [] := by
  rw [sepText, toUTF8_append_toList, toUTF8_append_toList,
    show " ".toUTF8.toList = [32] by decide +kernel, List.singleton_append, List.cons_append,
    List.cons_append]
  exact takeWhile_blank _

/-- The literals of a term over names, joined by a connective, lex as a chain of their tokens. -/
theorem lexes_term (c : Connective) :
    ∀ (t : List Literal), t ≠ [] → (∀ l ∈ t, isName l.name) → ∀ pos, ∃ ts q,
      Chain LitTokens c.tokenKind ts t ∧
        Lexes pos ((sepText c).intercalate (t.map Literal.text)).toUTF8.toList ts q
  | [], h, _, _ => absurd rfl h
  | [l], _, hn, pos => by
    obtain ⟨ts, q, hl, hx⟩ := lexes_literal l (hn l (List.mem_singleton_self l)) pos
    exact ⟨ts, q, .one hl, by rw [List.map_singleton, String.intercalate_singleton]; exact hx⟩
  | l :: l' :: ls, _, hn, pos => by
    obtain ⟨ts₁, p, hl, hx⟩ := lexes_literal l (hn l List.mem_cons_self) pos
    obtain ⟨ts₂, q, hc, hy⟩ := lexes_term c (l' :: ls) (List.cons_ne_nil _ _)
      (fun x hx => hn x (List.mem_cons_of_mem _ hx)) (p + 1 + c.symbol.length + 1)
    refine ⟨ts₁ ++ ⟨c.tokenKind, c.symbol, p + 1⟩ :: ts₂, q, .cons hl rfl hc, ?_⟩
    rw [List.map_cons, List.map_cons, String.intercalate_cons_cons, String.append_assoc,
      toUTF8_append_toList, toUTF8_append_toList, ← List.map_cons]
    exact hx.append (lexes_sep c p hy) fun R => by rw [List.append_assoc]; exact sepText_start c _

/-- The text of a term among `n` terms: its literals joined by `inner`, in parentheses when it
has several literals and there are several terms. -/
def partText (n : Nat) (inner : String) (t : List Literal) : String :=
  let s := inner.intercalate (t.map Literal.text)
  if n > 1 ∧ t.length > 1 then "(" ++ s ++ ")" else s

/-- The text of a form is its terms' texts, sorted, joined by `outer`. -/
theorem joinTerms_eq (ts : List (List Literal)) (inner outer : String) :
    joinTerms ts inner outer = outer.intercalate
      ((ts.mergeSort fun a b =>
        decide (partText ts.length inner a ≤ partText ts.length inner b)).map
        (partText ts.length inner)) := by
  rw [@List.map_mergeSort _ _ _ (fun a b => decide (a ≤ b)) _ _ fun _ _ _ _ => rfl]
  rfl

/-- The tokens of a term of a form, its literals joined by tokens of kind `inner`: in
parentheses when it has several literals and `wrap` holds, bare otherwise. -/
inductive PartTokens (inner : TokenKind) (wrap : Prop) : List Token → List Literal → Prop
  | plain {ts : List Token} {t : List Literal} : Chain LitTokens inner ts t →
      ¬ (wrap ∧ t.length > 1) → PartTokens inner wrap ts t
  | paren {o c : Token} {ts : List Token} {t : List Literal} : wrap → t.length > 1 →
      o.kind = .lparen → Chain LitTokens inner ts t → c.kind = .rparen →
      PartTokens inner wrap (o :: (ts ++ [c])) t

/-- A term over names lexes as its part of the text of a form of `n` terms. -/
theorem lexes_part (n : Nat) (c : Connective) (t : List Literal) (ht : t ≠ [])
    (hn : ∀ l ∈ t, isName l.name) (pos : Nat) : ∃ ts q,
      PartTokens c.tokenKind (n > 1) ts t ∧
        Lexes pos (partText n (sepText c) t).toUTF8.toList ts q := by
  by_cases hw : n > 1 ∧ t.length > 1
  · obtain ⟨ts, q, hc, hx⟩ := lexes_term c t ht hn (pos + 1)
    refine ⟨⟨.lparen, "(", pos⟩ :: (ts ++ [⟨.rparen, ")", q⟩]), q + 1,
      .paren hw.1 hw.2 rfl hc rfl, fun rest _ => ?_⟩
    rw [partText, if_pos hw, toUTF8_append_toList, toUTF8_append_toList,
      show "(".toUTF8.toList = [40] by decide +kernel,
      show ")".toUTF8.toList = [41] by decide +kernel]
    simp only [List.cons_append, List.nil_append, List.append_assoc]
    rw [scan_symbol (symbol_lparen _), show "(".length = 1 from rfl, hx _ (takeWhile_rparen rest),
      scan_symbol (symbol_rparen _), show ")".length = 1 from rfl, Functor.map_map, Functor.map_map]
  · obtain ⟨ts, q, hc, hx⟩ := lexes_term c t ht hn pos
    refine ⟨ts, q, .plain hc hw, ?_⟩
    rw [partText, if_neg hw]
    exact hx

/-- The terms of a form over names, written as parts joined by `outer`, lex as a chain of their
tokens. -/
theorem lexes_parts (n : Nat) (inner outer : Connective) :
    ∀ (us : List (List Literal)), us ≠ [] → (∀ t ∈ us, t ≠ []) →
      (∀ t ∈ us, ∀ l ∈ t, isName l.name) → ∀ pos, ∃ ts q,
      Chain (PartTokens inner.tokenKind (n > 1)) outer.tokenKind ts us ∧
        Lexes pos ((sepText outer).intercalate
          (us.map (partText n (sepText inner)))).toUTF8.toList ts q
  | [], h, _, _, _ => absurd rfl h
  | [t], _, he, hn, pos => by
    obtain ⟨ts, q, ht, hx⟩ := lexes_part n inner t (he t (List.mem_singleton_self t))
      (hn t (List.mem_singleton_self t)) pos
    exact ⟨ts, q, .one ht, by rw [List.map_singleton, String.intercalate_singleton]; exact hx⟩
  | t :: t' :: us, _, he, hn, pos => by
    obtain ⟨ts₁, p, ht, hx⟩ := lexes_part n inner t (he t List.mem_cons_self)
      (hn t List.mem_cons_self) pos
    obtain ⟨ts₂, q, hc, hy⟩ := lexes_parts n inner outer (t' :: us) (List.cons_ne_nil _ _)
      (fun x hx => he x (List.mem_cons_of_mem _ hx))
      (fun x hx => hn x (List.mem_cons_of_mem _ hx)) (p + 1 + outer.symbol.length + 1)
    refine ⟨ts₁ ++ ⟨outer.tokenKind, outer.symbol, p + 1⟩ :: ts₂, q, .cons ht rfl hc, ?_⟩
    rw [List.map_cons, List.map_cons, String.intercalate_cons_cons, String.append_assoc,
      toUTF8_append_toList, toUTF8_append_toList, ← List.map_cons]
    exact hx.append (lexes_sep outer p hy) fun R => by
      rw [List.append_assoc]; exact sepText_start outer _

/-! ### Reading the text of a form -/

theorem PartTokens.ne_nil {inner : TokenKind} {wrap : Prop} {ts : List Token} {t : List Literal}
    (h : PartTokens inner wrap ts t) : t ≠ [] := by
  cases h with
  | plain hc _ => exact hc.ne_nil
  | paren _ _ _ hc _ => exact hc.ne_nil

theorem PartTokens.identTexts_eq {inner : TokenKind} (hinner : inner ≠ .ident) {wrap : Prop}
    {ts : List Token} {t : List Literal} (h : PartTokens inner wrap ts t) :
    identTexts ts = t.map (·.name) := by
  have hlit : ∀ ts l, LitTokens ts l → identTexts ts = [l.name] := fun _ _ h => h.identTexts_eq
  rw [List.map_eq_flatMap]
  cases h with
  | plain hc _ => exact hc.identTexts_eq hinner _ hlit
  | paren _ _ ho hc hr =>
    rw [← hc.identTexts_eq hinner _ hlit]
    simp [identTexts, ho, hr, List.filter_append]

/-- Each part of a disjunctive form is read at the conjunction level as its term. -/
theorem PartTokens.reads_and {stop : Nat} {wrap : Prop} {ts : List Token} {t : List Literal}
    (h : PartTokens .and wrap ts t) : AndReads stop ts (termFormula .and t) := by
  cases h with
  | plain hc _ => exact chain_reads_and hc
  | paren _ _ ho hc hr =>
    refine AndReads.of_unary (UnaryReads.paren ho hr fun R hR => ?_)
    exact parseIff_of_and (chain_reads_and hc R (hR.ne (by decide))) hR

/-- Among several terms, each part of a conjunctive form is read as an operand: a bare part has
a single literal. -/
theorem PartTokens.reads_or {stop : Nat} {wrap : Prop} (hw : wrap) {ts : List Token}
    {t : List Literal} (h : PartTokens .or wrap ts t) : UnaryReads stop ts (termFormula .or t) := by
  cases h with
  | plain hc hlen =>
    obtain ⟨l, rfl⟩ : ∃ l, t = [l] := by
      refine List.length_eq_one_iff.1 (Nat.le_antisymm ?_ (List.length_pos_iff.2 hc.ne_nil))
      exact Nat.le_of_not_lt fun h => hlen ⟨hw, h⟩
    exact hc.single.reads
  | paren _ _ ho hc hr =>
    refine UnaryReads.paren ho hr fun R hR => ?_
    exact parseIff_of_or (chain_reads_or hc (hR.ne (by decide)) (hR.ne (by decide))) hR

theorem Lexes.scan_ok {bs : List UInt8} {ts : List Token} {q : Nat} (h : Lexes 0 bs ts q) :
    scan 0 bs = .ok ts := by
  have h' := h [] rfl
  rw [List.append_nil, scan] at h'
  rw [h']
  simp

/-- The sorted terms of a form: a permutation of its terms. -/
theorem perm_sortedTerms (us : List (List Literal)) (inner : String) :
    (us.mergeSort fun a b =>
      decide (partText us.length inner a ≤ partText us.length inner b)).Perm us :=
  List.mergeSort_perm _ _

theorem tokenKind_ne_ident (c : Connective) : c.tokenKind ≠ .ident := by
  cases c <;> decide

/-- The text of a form over names lexes as a chain of the tokens of its terms, sorted. -/
theorem scan_joinTerms (inner outer : Connective) (us : List (List Literal)) (hus : us ≠ [])
    (he : ∀ t ∈ us, t ≠ []) (hn : ∀ t ∈ us, ∀ l ∈ t, isName l.name) :
    ∃ vs ts, vs.Perm us ∧
      Chain (PartTokens inner.tokenKind (us.length > 1)) outer.tokenKind ts vs ∧
      scan 0 (joinTerms us (sepText inner) (sepText outer)).toUTF8.toList = .ok ts := by
  have hp := perm_sortedTerms us (sepText inner)
  obtain ⟨ts, q, hc, hx⟩ := lexes_parts us.length inner outer _
    (fun h => hus (List.Perm.nil_eq (h ▸ hp)).symm) (fun t ht => he t (hp.subset ht))
    (fun t ht => hn t (hp.subset ht)) 0
  refine ⟨_, ts, hp, hc, ?_⟩
  rw [joinTerms_eq]
  exact hx.scan_ok

/-- The identifiers of the text of a form are names of its literals. -/
theorem identifiers_joinTerms {inner outer : Connective} {wrap : Prop}
    {us vs : List (List Literal)} {ts : List Token} (hp : vs.Perm us)
    (hc : Chain (PartTokens inner.tokenKind wrap) outer.tokenKind ts vs)
    (hscan : scan 0 (joinTerms us (sepText inner) (sepText outer)).toUTF8.toList = .ok ts) :
    ∀ x ∈ identifiers (joinTerms us (sepText inner) (sepText outer)),
      ∃ t ∈ us, ∃ l ∈ t, l.name = x := by
  intro x hx
  rw [identifiers, identifiers_of_scan hscan,
    show ((ts.filter (·.kind == .ident)).map (·.text)) = identTexts ts from rfl,
    hc.identTexts_eq (tokenKind_ne_ident outer) _
      fun _ _ h => h.identTexts_eq (tokenKind_ne_ident inner)] at hx
  obtain ⟨t, ht, hxt⟩ := List.mem_flatMap.1 hx
  obtain ⟨l, hl, rfl⟩ := List.mem_map.1 hxt
  exact ⟨t, hp.subset ht, l, hl, rfl⟩

/-- A disjunction of conjunctive terms, grouped to the left, is true when one term is. -/
theorem eval_disjunction (σ : String → Bool) {v : List Literal} {vs : List (List Literal)}
    (hne : ∀ t ∈ v :: vs, t ≠ []) :
    (joinLeft .or (termFormula .and v) (vs.map (termFormula .and))).eval σ =
      (v :: vs).any fun t => t.all (·.holds σ) := by
  have hterm : ∀ t ∈ v :: vs, (termFormula .and t).eval σ = t.all (·.holds σ) :=
    fun t ht => eval_termFormula_and σ (hne t ht)
  rw [eval_joinLeft_or, hterm v List.mem_cons_self, List.any_cons, List.any_map]
  congr 1
  apply Bool.eq_iff_iff.2
  simp only [List.any_eq_true, Function.comp_apply]
  exact exists_congr fun t => and_congr_right fun ht => by rw [hterm t (List.mem_cons_of_mem _ ht)]

/-- A conjunction of disjunctive terms, grouped to the left, is true when every term is. -/
theorem eval_conjunction (σ : String → Bool) {v : List Literal} {vs : List (List Literal)}
    (hne : ∀ t ∈ v :: vs, t ≠ []) :
    (joinLeft .and (termFormula .or v) (vs.map (termFormula .or))).eval σ =
      (v :: vs).all fun t => t.any (·.holds σ) := by
  have hterm : ∀ t ∈ v :: vs, (termFormula .or t).eval σ = t.any (·.holds σ) :=
    fun t ht => eval_termFormula_or σ (hne t ht)
  rw [eval_joinLeft_and, hterm v List.mem_cons_self, List.all_cons, List.all_map]
  congr 1
  apply Bool.eq_iff_iff.2
  simp only [List.all_eq_true, Function.comp_apply]
  exact forall_congr' fun t => imp_congr_right fun ht => by rw [hterm t (List.mem_cons_of_mem _ ht)]

/-- The text of a disjunctive form over names reads back as a formula with the form's truth
values, and its identifiers are names of its literals. -/
theorem parse_disjunctive (us : List (List Literal)) (hus : us ≠ []) (he : ∀ t ∈ us, t ≠ [])
    (hn : ∀ t ∈ us, ∀ l ∈ t, isName l.name) :
    ∃ g, parse (joinTerms us " & " " | ") = .ok g ∧
      (∀ σ, g.eval σ = us.any fun t => t.all (·.holds σ)) ∧
      ∀ x ∈ identifiers (joinTerms us " & " " | "), ∃ t ∈ us, ∃ l ∈ t, l.name = x := by
  rw [show " & " = sepText .and from rfl, show " | " = sepText .or from rfl]
  obtain ⟨vs, ts, hp, hc, hscan⟩ := scan_joinTerms .and .or us hus he hn
  have hne : ∀ t ∈ vs, t ≠ [] := fun t ht => he t (hp.subset ht)
  obtain ⟨v, vs', rfl⟩ := List.exists_cons_of_ne_nil hc.ne_nil
  -- the terms are read at the conjunction level and joined at the disjunction level
  have hr : Reads (parseOr (joinTerms us (sepText .and) (sepText .or)).toUTF8.toList.length
      (ts ++ [])) (joinLeft .or (termFormula .and v) (vs'.map (termFormula .and))) [] :=
    parseOr_chain (hc.map (termFormula .and) fun _ _ h => h.reads_and) (by decide) (by decide)
  rw [List.append_nil] at hr
  refine ⟨_, parse_of_reads hscan (parseIff_of_or hr (Or.inl rfl)), fun σ => ?_,
    identifiers_joinTerms hp hc hscan⟩
  rw [eval_disjunction σ hne, hp.any_eq]

/-- The text of a conjunctive form over names reads back as a formula with the form's truth
values, and its identifiers are names of its literals. -/
theorem parse_conjunctive (us : List (List Literal)) (hus : us ≠ []) (he : ∀ t ∈ us, t ≠ [])
    (hn : ∀ t ∈ us, ∀ l ∈ t, isName l.name) :
    ∃ g, parse (joinTerms us " | " " & ") = .ok g ∧
      (∀ σ, g.eval σ = us.all fun t => t.any (·.holds σ)) ∧
      ∀ x ∈ identifiers (joinTerms us " | " " & "), ∃ t ∈ us, ∃ l ∈ t, l.name = x := by
  rw [show " | " = sepText .or from rfl, show " & " = sepText .and from rfl]
  obtain ⟨vs, ts, hp, hc, hscan⟩ := scan_joinTerms .or .and us hus he hn
  have hne : ∀ t ∈ vs, t ≠ [] := fun t ht => he t (hp.subset ht)
  suffices h : ∃ g, Reads (parseIff (joinTerms us (sepText .or) (sepText .and)).toUTF8.toList.length
      ts) g [] ∧ ∀ σ, g.eval σ = vs.all fun t => t.any (·.holds σ) by
    obtain ⟨g, hr, heval⟩ := h
    exact ⟨g, parse_of_reads hscan hr, fun σ => by rw [heval, hp.all_eq],
      identifiers_joinTerms hp hc hscan⟩
  by_cases hw : us.length > 1
  · -- several terms: operands joined at the conjunction level
    obtain ⟨v, vs', rfl⟩ := List.exists_cons_of_ne_nil hc.ne_nil
    have hr : Reads (parseAnd (joinTerms us (sepText .or) (sepText .and)).toUTF8.toList.length
        (ts ++ [])) (joinLeft .and (termFormula .or v) (vs'.map (termFormula .or))) [] :=
      parseAnd_chain (hc.map (termFormula .or) fun _ _ h => h.reads_or hw) [] (by decide)
    rw [List.append_nil] at hr
    exact ⟨_, parseIff_of_and hr (Or.inl rfl), fun σ => eval_conjunction σ hne⟩
  · -- one term: its literals joined at the disjunction level, with no parentheses
    obtain ⟨v, rfl⟩ : ∃ v, vs = [v] := by
      have hlen := hp.length_eq
      have hpos := List.length_pos_iff.2 hc.ne_nil
      exact List.length_eq_one_iff.1 (by omega)
    cases hc.single with
    | plain hlit _ =>
      have hr : Reads (parseOr (joinTerms us (sepText .or) (sepText .and)).toUTF8.toList.length
          (ts ++ [])) (termFormula .or v) [] := chain_reads_or hlit (by decide) (by decide)
      rw [List.append_nil] at hr
      refine ⟨_, parseIff_of_or hr (Or.inl rfl), fun σ => ?_⟩
      rw [eval_termFormula_or σ (hne v List.mem_cons_self), List.all_cons, List.all_nil,
        Bool.and_true]
    | paren hw' => exact absurd hw' hw

end Formula

end DecisionDiagrams
