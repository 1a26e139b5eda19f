/-
Reading formulas back from their texts.

The parser descends through the levels of the grammar, from `<->` down to the operands. A
formula read at one level is read at every looser level when the next token continues none of
them, and a binary connective joins the formulas read on its two sides. From these steps:

* `Formula.Spells` — the tokens of the fully parenthesised text of a formula; the lexer reads
  them off the text (`scan_linear`) and the parser reads the formula back off them
  (`parseUnary_spells`).
* `Formula.parse_linear` — the fully parenthesised text of a formula over names reads back as
  the formula, and `identifiers_linear` — its identifiers are the formula's names, in order.
* `Formula.parse_names` — every name of a formula read from a text is a name and an identifier
  of the text.
-/
import Mathlib
import DecisionDiagrams.Proofs.Lexing
import DecisionDiagrams.Formula.Parser

namespace DecisionDiagrams

/-- The kind of the token of a connective. -/
def Connective.tokenKind : Connective → TokenKind
  | .and => .and
  | .or => .or
  | .imp => .imp
  | .iff => .iff

namespace Formula

open Token

/-! ### Steps of the parser -/

/-- A parse that gives `f` and leaves the tokens `r`. -/
def Reads {ts : List Token} (p : Parsed ts) (f : Formula) (r : List Token) : Prop :=
  ∃ h, p = .ok (f, ⟨r, h⟩)

section Steps

variable {stop : Nat} {ts rest R R' : List Token} {f g x acc : Formula} {t : Token}

theorem parseUnary_ident (h : t.kind = .ident) (rest : List Token) :
    Reads (parseUnary stop (t :: rest)) (.var t.text) rest := by
  refine ⟨Nat.le_succ _, ?_⟩
  rw [parseUnary, if_neg (by simp [h]), parseAtom, if_pos h]

theorem parseUnary_not (h : t.kind = .not) (hf : Reads (parseUnary stop rest) f R) :
    Reads (parseUnary stop (t :: rest)) (.not f) R := by
  obtain ⟨hr, hp⟩ := hf
  refine ⟨by rw [List.length_cons]; omega, ?_⟩
  rw [parseUnary, if_pos h, hp]

theorem parseUnary_paren {c : Token} (h : t.kind = .lparen) (hc : c.kind = .rparen)
    (hf : Reads (parseIff stop rest) f (c :: R)) : Reads (parseUnary stop (t :: rest)) f R := by
  obtain ⟨hr, hp⟩ := hf
  refine ⟨by rw [List.length_cons] at hr ⊢; omega, ?_⟩
  rw [parseUnary, if_neg (by simp [h]), parseAtom, if_neg (by simp [h]), if_pos h, hp]
  simp only [hc, if_true]

theorem andTail_stop (h : nextKind R ≠ some .and) : Reads (andTail stop acc R) acc R := by
  refine ⟨Nat.le_refl _, ?_⟩
  match R, h with
  | [], _ => rw [andTail]
  | t :: rest, h =>
    rw [andTail, if_neg (fun hk => h (by rw [nextKind, hk]))]

theorem andTail_step (h : t.kind = .and) (hx : Reads (parseUnary stop rest) x R)
    (ht : Reads (andTail stop (.bin .and acc x) R) f R') : Reads (andTail stop acc (t :: rest)) f R' := by
  obtain ⟨hr, hp⟩ := hx
  obtain ⟨hr', hp'⟩ := ht
  refine ⟨by rw [List.length_cons]; omega, ?_⟩
  rw [andTail, if_pos h, hp]
  simp only [hp']

theorem parseAnd_step (hf : Reads (parseUnary stop ts) f R) (ht : Reads (andTail stop f R) g R') :
    Reads (parseAnd stop ts) g R' := by
  obtain ⟨hr, hp⟩ := hf
  obtain ⟨hr', hp'⟩ := ht
  refine ⟨Nat.le_trans hr' hr, ?_⟩
  rw [parseAnd, hp]
  simp only [hp']

theorem orTail_stop (h : nextKind R ≠ some .or) : Reads (orTail stop acc R) acc R := by
  refine ⟨Nat.le_refl _, ?_⟩
  match R, h with
  | [], _ => rw [orTail]
  | t :: rest, h =>
    rw [orTail, if_neg (fun hk => h (by rw [nextKind, hk]))]

theorem orTail_step (h : t.kind = .or) (hx : Reads (parseAnd stop rest) x R)
    (ht : Reads (orTail stop (.bin .or acc x) R) f R') : Reads (orTail stop acc (t :: rest)) f R' := by
  obtain ⟨hr, hp⟩ := hx
  obtain ⟨hr', hp'⟩ := ht
  refine ⟨by rw [List.length_cons]; omega, ?_⟩
  rw [orTail, if_pos h, hp]
  simp only [hp']

theorem parseOr_step (hf : Reads (parseAnd stop ts) f R) (ht : Reads (orTail stop f R) g R') :
    Reads (parseOr stop ts) g R' := by
  obtain ⟨hr, hp⟩ := hf
  obtain ⟨hr', hp'⟩ := ht
  refine ⟨Nat.le_trans hr' hr, ?_⟩
  rw [parseOr, hp]
  simp only [hp']

theorem parseImp_of_or (hf : Reads (parseOr stop ts) f R) (h : nextKind R ≠ some .imp) :
    Reads (parseImp stop ts) f R := by
  obtain ⟨hr, hp⟩ := hf
  refine ⟨hr, ?_⟩
  rw [parseImp, hp]
  match R, h with
  | [], _ => rfl
  | t :: rest, h =>
    simp only
    rw [if_neg (fun hk => h (by rw [nextKind, hk]))]

theorem parseImp_step (hf : Reads (parseOr stop ts) f (t :: rest)) (h : t.kind = .imp)
    (hx : Reads (parseImp stop rest) x R) : Reads (parseImp stop ts) (.bin .imp f x) R := by
  obtain ⟨hr, hp⟩ := hf
  obtain ⟨hr', hp'⟩ := hx
  refine ⟨by rw [List.length_cons] at hr; omega, ?_⟩
  rw [parseImp, hp]
  simp only [h, if_true, hp']

theorem iffTail_stop (h : nextKind R ≠ some .iff) : Reads (iffTail stop acc R) acc R := by
  refine ⟨Nat.le_refl _, ?_⟩
  match R, h with
  | [], _ => rw [iffTail]
  | t :: rest, h =>
    rw [iffTail, if_neg (fun hk => h (by rw [nextKind, hk]))]

theorem iffTail_step (h : t.kind = .iff) (hx : Reads (parseImp stop rest) x R)
    (ht : Reads (iffTail stop (.bin .iff acc x) R) f R') :
    Reads (iffTail stop acc (t :: rest)) f R' := by
  obtain ⟨hr, hp⟩ := hx
  obtain ⟨hr', hp'⟩ := ht
  refine ⟨by rw [List.length_cons]; omega, ?_⟩
  rw [iffTail, if_pos h, hp]
  simp only [hp']

theorem parseIff_step (hf : Reads (parseImp stop ts) f R) (ht : Reads (iffTail stop f R) g R') :
    Reads (parseIff stop ts) g R' := by
  obtain ⟨hr, hp⟩ := hf
  obtain ⟨hr', hp'⟩ := ht
  refine ⟨Nat.le_trans hr' hr, ?_⟩
  rw [parseIff, hp]
  simp only [hp']

/-- Tokens after which no connective continues a formula: the end, or a closing parenthesis. -/
def Closes (R : List Token) : Prop :=
  nextKind R = none ∨ nextKind R = some .rparen

theorem parseAnd_of_unary (hf : Reads (parseUnary stop ts) f R) (h : nextKind R ≠ some .and) :
    Reads (parseAnd stop ts) f R :=
  parseAnd_step hf (andTail_stop h)

theorem parseOr_of_unary (hf : Reads (parseUnary stop ts) f R) (h : nextKind R ≠ some .and)
    (h' : nextKind R ≠ some .or) : Reads (parseOr stop ts) f R :=
  parseOr_step (parseAnd_of_unary hf h) (orTail_stop h')

theorem Closes.ne {R : List Token} (hc : Closes R) {k : TokenKind} (hk : k ≠ .rparen) :
    nextKind R ≠ some k := by
  intro h
  rcases hc with hc | hc <;> rw [hc] at h <;> simp at h
  exact hk h.symm

theorem parseIff_of_imp (hf : Reads (parseImp stop ts) f R) (hc : Closes R) :
    Reads (parseIff stop ts) f R :=
  parseIff_step hf (iffTail_stop (hc.ne (by decide)))

theorem parseIff_of_or (hf : Reads (parseOr stop ts) f R) (hc : Closes R) :
    Reads (parseIff stop ts) f R :=
  parseIff_of_imp (parseImp_of_or hf (hc.ne (by decide))) hc

theorem parseIff_of_and (hf : Reads (parseAnd stop ts) f R) (hc : Closes R) :
    Reads (parseIff stop ts) f R :=
  parseIff_of_or (parseOr_step hf (orTail_stop (hc.ne (by decide)))) hc

/-- An operand read before a closing token is the whole formula up to it. -/
theorem parseIff_of_unary (hf : Reads (parseUnary stop ts) f R) (hc : Closes R) :
    Reads (parseIff stop ts) f R :=
  parseIff_of_and (parseAnd_of_unary hf (hc.ne (by decide))) hc

end Steps

/-! ### The fully parenthesised text -/

/-- The tokens of the fully parenthesised text of a formula: `~ ( f )` for a negation and
`( l op r )` for a binary formula. -/
inductive Spells : List Token → Formula → Prop
  | var {t : Token} : t.kind = .ident → Spells [t] (.var t.text)
  | not {n o c : Token} {ts : List Token} {f : Formula} : n.kind = .not → o.kind = .lparen →
      Spells ts f → c.kind = .rparen → Spells (n :: o :: (ts ++ [c])) (.not f)
  | bin {o m c : Token} {ls rs : List Token} {op : Connective} {l r : Formula} :
      o.kind = .lparen → Spells ls l → m.kind = op.tokenKind → Spells rs r → c.kind = .rparen →
      Spells (o :: (ls ++ m :: (rs ++ [c]))) (.bin op l r)

/-- The operands on both sides of a connective, each read before the tokens that follow it, are
joined by it. -/
theorem parseIff_bin {stop : Nat} {ls rs R : List Token} {m : Token} {op : Connective}
    {l r : Formula} (hl : ∀ R, Reads (parseUnary stop (ls ++ R)) l R)
    (hm : m.kind = op.tokenKind) (hr : ∀ R, Reads (parseUnary stop (rs ++ R)) r R)
    (hc : Closes R) : Reads (parseIff stop (ls ++ m :: (rs ++ R))) (.bin op l r) R := by
  have hm' : nextKind (m :: (rs ++ R)) = some op.tokenKind := by rw [nextKind, hm]
  -- each connective is read at its own level; the levels below it stop at its token
  cases op with
  | and =>
    exact parseIff_of_and
      (parseAnd_step (hl _) (andTail_step hm (hr R) (andTail_stop (hc.ne (by decide))))) hc
  | or =>
    have hl' := parseAnd_of_unary (hl (m :: (rs ++ R))) (by rw [hm']; decide)
    exact parseIff_of_or (parseOr_step hl' (orTail_step hm
      (parseAnd_of_unary (hr R) (hc.ne (by decide))) (orTail_stop (hc.ne (by decide))))) hc
  | imp =>
    have hl' := parseOr_of_unary (hl (m :: (rs ++ R))) (by rw [hm']; decide)
      (by rw [hm']; decide)
    have hr' := parseOr_of_unary (hr R) (hc.ne (by decide)) (hc.ne (by decide))
    exact parseIff_of_imp (parseImp_step hl' hm (parseImp_of_or hr' (hc.ne (by decide)))) hc
  | iff =>
    have hl' := parseImp_of_or (parseOr_of_unary (hl (m :: (rs ++ R))) (by rw [hm']; decide)
      (by rw [hm']; decide)) (by rw [hm']; decide)
    have hr' := parseImp_of_or (parseOr_of_unary (hr R) (hc.ne (by decide))
      (hc.ne (by decide))) (hc.ne (by decide))
    exact parseIff_step hl' (iffTail_step hm hr' (iffTail_stop (hc.ne (by decide))))

/-- The parser reads a formula back off the tokens of its fully parenthesised text, whatever
follows them. -/
theorem parseUnary_spells {stop : Nat} {ts : List Token} {f : Formula} (h : Spells ts f)
    (R : List Token) : Reads (parseUnary stop (ts ++ R)) f R := by
  induction h generalizing R with
  | var ht => exact parseUnary_ident ht R
  | @not n o c ts f hn ho _ hc ih =>
    rw [show n :: o :: (ts ++ [c]) ++ R = n :: o :: (ts ++ c :: R) by simp]
    exact parseUnary_not hn
      (parseUnary_paren ho hc (parseIff_of_unary (ih _) (Or.inr (by rw [nextKind, hc]))))
  | @bin o m c ls rs op l r ho _ hm _ hc ihl ihr =>
    rw [show o :: (ls ++ m :: (rs ++ [c])) ++ R = o :: (ls ++ m :: (rs ++ c :: R)) by simp]
    exact parseUnary_paren ho hc (parseIff_bin ihl hm ihr (Or.inr (by rw [nextKind, hc])))

/-! ### Lexing the fully parenthesised text -/

theorem symbol_not (rest : List UInt8) : symbol 126 rest = some (.not, "~", rest) := by
  simp [symbol]

theorem symbol_lparen (rest : List UInt8) : symbol 40 rest = some (.lparen, "(", rest) := by
  simp [symbol]

theorem symbol_rparen (rest : List UInt8) : symbol 41 rest = some (.rparen, ")", rest) := by
  simp [symbol]

theorem symbol_bytes (op : Connective) (rest : List UInt8) :
    ∃ b bs, op.symbol.toUTF8.toList = b :: bs ∧
      symbol b (bs ++ rest) = some (op.tokenKind, op.symbol, rest) := by
  cases op with
  | and => exact ⟨38, [], by decide +kernel, by simp [symbol, Connective.tokenKind, Connective.symbol]⟩
  | or => exact ⟨124, [], by decide +kernel, by simp [symbol, Connective.tokenKind, Connective.symbol]⟩
  | imp => exact ⟨45, [62], by decide +kernel, by simp [symbol, Connective.tokenKind, Connective.symbol]⟩
  | iff => exact ⟨60, [45, 62], by decide +kernel, by simp [symbol, Connective.tokenKind, Connective.symbol]⟩

theorem linear_not_bytes (g : Formula) :
    (Formula.not g).linear.toUTF8.toList = 126 :: 40 :: (g.linear.toUTF8.toList ++ [41]) := by
  rw [linear, toUTF8_append_toList, toUTF8_append_toList,
    show "~(".toUTF8.toList = [126, 40] by decide +kernel,
    show ")".toUTF8.toList = [41] by decide +kernel]
  rfl

theorem linear_bin_bytes (op : Connective) (l r : Formula) :
    (Formula.bin op l r).linear.toUTF8.toList = 40 :: (l.linear.toUTF8.toList ++
      32 :: (op.symbol.toUTF8.toList ++ 32 :: (r.linear.toUTF8.toList ++ [41]))) := by
  simp only [linear, toUTF8_append_toList, show "(".toUTF8.toList = [40] by decide +kernel,
    show ")".toUTF8.toList = [41] by decide +kernel,
    show " ".toUTF8.toList = [32] by decide +kernel, List.append_assoc, List.cons_append,
    List.nil_append]

/-- The lexer reads the tokens of the fully parenthesised text of a formula over names off its
bytes, when what follows starts no identifier. -/
theorem scan_linear (f : Formula) (hf : ∀ x ∈ f.names, isName x) (pos : Nat)
    (rest : List UInt8) (hr : rest.takeWhile isIdentPart = []) :
    ∃ ts pos', Spells ts f ∧
      scan pos (f.linear.toUTF8.toList ++ rest) = (ts ++ ·) <$> scan pos' rest := by
  have h41 : ∀ R : List UInt8, (41 :: R).takeWhile isIdentPart = [] := fun R => by
    simp [isIdentPart, isIdentStart]
  have h32 : ∀ R : List UInt8, (32 :: R).takeWhile isIdentPart = [] := fun R => by
    simp [isIdentPart, isIdentStart]
  induction f generalizing pos rest with
  | var x =>
    have hx : isName x := hf x (List.mem_singleton_self x)
    refine ⟨[⟨.ident, x, pos⟩], pos + x.toUTF8.toList.length, .var rfl, ?_⟩
    rw [linear, scan_identifier hx hr, asciiText_bytes hx]
    rfl
  | not g ih =>
    obtain ⟨tsg, pg, hsg, hg⟩ := ih hf (pos + "~".length + "(".length) (41 :: rest) (h41 rest)
    refine ⟨⟨.not, "~", pos⟩ :: ⟨.lparen, "(", pos + "~".length⟩ :: (tsg ++ [⟨.rparen, ")", pg⟩]),
      pg + ")".length, .not rfl rfl hsg rfl, ?_⟩
    rw [linear_not_bytes, List.cons_append, List.cons_append, List.append_assoc,
      List.singleton_append, scan_symbol (symbol_not _), scan_symbol (symbol_lparen _), hg,
      scan_symbol (symbol_rparen _)]
    simp only [Functor.map_map]
    congr 1
    funext x
    simp
  | bin op l r ihl ihr =>
    obtain ⟨b, bs, hsym, hb⟩ := symbol_bytes op
      (32 :: (r.linear.toUTF8.toList ++ 41 :: rest))
    obtain ⟨tsl, pl, hsl, hl⟩ := ihl (fun x hx => hf x (List.mem_append_left _ hx))
      (pos + "(".length) (32 :: (op.symbol.toUTF8.toList ++ 32 :: (r.linear.toUTF8.toList ++
        41 :: rest))) (h32 _)
    obtain ⟨tsr, pr, hsr, hr'⟩ := ihr (fun x hx => hf x (List.mem_append_right _ hx))
      (pl + 1 + op.symbol.length + 1) (41 :: rest) (h41 rest)
    refine ⟨⟨.lparen, "(", pos⟩ :: (tsl ++ ⟨op.tokenKind, op.symbol, pl + 1⟩ ::
      (tsr ++ [⟨.rparen, ")", pr⟩])), pr + ")".length, .bin rfl hsl rfl hsr rfl, ?_⟩
    rw [linear_bin_bytes]
    simp only [List.cons_append, List.append_assoc, List.nil_append]
    rw [scan_symbol (symbol_lparen _), hl, scan_blank (by decide), hsym, List.cons_append,
      scan_symbol hb, scan_blank (by decide), hr', scan_symbol (symbol_rparen _)]
    simp only [Functor.map_map]

/-- The identifier tokens of the fully parenthesised text are the formula's names, in order. -/
theorem Spells.identTexts {ts : List Token} {f : Formula} (h : Spells ts f) :
    (ts.filter (·.kind == .ident)).map (·.text) = f.names := by
  induction h with
  | var ht => simp [ht, names]
  | not hn ho _ hc ih => simp [hn, ho, hc, ih, names]
  | @bin o m c ls rs op l r ho _ hm _ hc ihl ihr =>
    have hm' : (m.kind == .ident) = false := by cases op <;> simp [hm, Connective.tokenKind]
    simp [ho, hm', hc, List.filter_append, ihl, ihr, names]

theorem scan_linear_ok (f : Formula) (hf : ∀ x ∈ f.names, isName x) :
    ∃ ts, Spells ts f ∧ scan 0 f.linear.toUTF8.toList = .ok ts := by
  obtain ⟨ts, pos, hs, h⟩ := scan_linear f hf 0 [] rfl
  rw [List.append_nil, scan] at h
  exact ⟨ts, hs, by rw [h]; simp⟩

/-- A text whose tokens the top level reads whole as a formula is that formula. -/
theorem parse_of_reads {text : String} {ts : List Token} {f : Formula}
    (hscan : scan 0 text.toUTF8.toList = .ok ts)
    (hr : Reads (parseIff text.toUTF8.toList.length ts) f []) : parse text = .ok f := by
  obtain ⟨hlen, hp⟩ := hr
  unfold parse
  simp only [hscan, hp]

/-- The fully parenthesised text of a formula over names reads back as the formula. -/
theorem parse_linear (f : Formula) (hf : ∀ x ∈ f.names, isName x) : parse f.linear = .ok f := by
  obtain ⟨ts, hs, hscan⟩ := scan_linear_ok f hf
  have h : Reads (parseUnary f.linear.toUTF8.toList.length (ts ++ [])) f [] :=
    parseUnary_spells hs []
  rw [List.append_nil] at h
  exact parse_of_reads hscan (parseIff_of_unary h (Or.inl rfl))

/-- The identifiers of the fully parenthesised text of a formula over names are its names. -/
theorem identifiers_linear (f : Formula) (hf : ∀ x ∈ f.names, isName x) :
    identifiers f.linear = f.names := by
  obtain ⟨ts, hs, hscan⟩ := scan_linear_ok f hf
  rw [identifiers, identifiers_of_scan hscan, hs.identTexts]

/-- Printing and reading are inverse on formulas over names: the fully parenthesised text reads
back as the formula, so printing what is read gives the text again. -/
theorem linear_reads_back (f : Formula) (hf : ∀ x ∈ f.names, isName x) :
    parse f.linear = .ok f ∧ (parse f.linear).map linear = .ok f.linear := by
  have hp := parse_linear f hf
  exact ⟨hp, by rw [hp]; rfl⟩

/-- A right-nested implication and a left-nested equivalence under a negation read back. -/
theorem linear_reads_back_nested :
    let f := bin .iff (bin .iff (var "a") (bin .imp (var "b") (bin .imp (var "c_1") (var "a"))))
      (not (bin .or (bin .and (var "_x") (var "b")) (var "c_1")))
    (∀ x ∈ f.names, isName x) ∧
      parse f.linear = .ok f ∧ (parse f.linear).map linear = .ok f.linear :=
  ⟨by decide +kernel, linear_reads_back _ (by decide +kernel)⟩

/-! ### Names of a formula read from a text -/

/-- The texts of the identifier tokens, in order. -/
def identTexts (ts : List Token) : List String :=
  (ts.filter (·.kind == .ident)).map (·.text)

theorem identTexts_mono {r ts : List Token} (h : r <:+ ts) : identTexts r ⊆ identTexts ts :=
  ((h.sublist.filter _).map _).subset

/-- What a parse gives is drawn from its tokens: it leaves a suffix of them, and each name of its
formula is one of the names `A` it started from or the text of one of the identifier tokens. -/
def Drawn {ts : List Token} (p : Parsed ts) (A : List String) : Prop :=
  ∀ f r h, p = .ok (f, ⟨r, h⟩) → r <:+ ts ∧ f.names ⊆ A ++ identTexts ts

section Drawn

variable {ts r r₂ : List Token} {p : Parsed ts} {A : List String} {f g acc : Formula}

theorem Drawn.of_error (e : SyntaxError) (hp : p = .error e) : Drawn p A := by
  intro f r h h'
  rw [hp] at h'
  cases h'

theorem Drawn.of_reads (hp : Reads p f r) (hr : r <:+ ts) (hn : f.names ⊆ A ++ identTexts ts) :
    Drawn p A := by
  obtain ⟨h, hp⟩ := hp
  intro f' r' h' hp'
  rw [hp] at hp'
  simp only [Except.ok.injEq, Prod.mk.injEq, Subtype.mk.injEq] at hp'
  obtain ⟨rfl, rfl⟩ := hp'
  exact ⟨hr, hn⟩

/-- A tail that stops at once gives back its accumulated formula. -/
theorem Drawn.of_stop (hp : Reads p acc ts) : Drawn p acc.names :=
  .of_reads hp (List.suffix_refl ts) (List.subset_append_left _ _)

/-- A level that reads an operand and then a tail of operands. -/
theorem Drawn.of_step (hp : Reads p g r) (h₁ : r₂ <:+ ts ∧ f.names ⊆ [] ++ identTexts ts)
    (h₂ : r <:+ r₂ ∧ g.names ⊆ f.names ++ identTexts r₂) : Drawn p [] :=
  .of_reads hp (h₂.1.trans h₁.1)
    (List.Subset.trans h₂.2 (List.append_subset.2 ⟨h₁.2, identTexts_mono h₁.1⟩))

/-- A tail that reads one more operand after its connective and goes on. -/
theorem Drawn.of_tail {t : Token} {tail : List Token} {p : Parsed (t :: tail)} {op : Connective}
    (hp : Reads p g r) (h₁ : r₂ <:+ tail ∧ f.names ⊆ [] ++ identTexts tail)
    (h₂ : r <:+ r₂ ∧ g.names ⊆ (Formula.bin op acc f).names ++ identTexts r₂) :
    Drawn p acc.names := by
  have hmono : identTexts tail ⊆ identTexts (t :: tail) :=
    identTexts_mono (List.suffix_cons t tail)
  refine .of_reads hp ((h₂.1.trans h₁.1).trans (List.suffix_cons t tail))
    (List.Subset.trans h₂.2 (List.append_subset.2
      ⟨List.append_subset.2 ⟨List.subset_append_left _ _, ?_⟩, ?_⟩))
  · exact List.Subset.trans (List.Subset.trans h₁.2 hmono) (List.subset_append_right _ _)
  · exact List.Subset.trans (List.Subset.trans (identTexts_mono h₁.1) hmono)
      (List.subset_append_right _ _)

/-- An implication: the antecedent read at the level below, the consequent after the arrow. -/
theorem Drawn.of_imp {t : Token} {rest : List Token} {op : Connective}
    (hp : Reads p (Formula.bin op f g) r) (h₁ : t :: rest <:+ ts ∧ f.names ⊆ [] ++ identTexts ts)
    (h₂ : r <:+ rest ∧ g.names ⊆ [] ++ identTexts rest) : Drawn p [] := by
  have hrest : rest <:+ ts := (List.suffix_cons t rest).trans h₁.1
  exact .of_reads hp (h₂.1.trans hrest)
    (List.append_subset.2 ⟨h₁.2, List.Subset.trans h₂.2 (identTexts_mono hrest)⟩)

/-- An operand read after a token. -/
theorem Drawn.of_cons {t : Token} {rest : List Token} {p : Parsed (t :: rest)}
    (hp : Reads p g r) (h : r <:+ rest ∧ g.names ⊆ [] ++ identTexts rest) : Drawn p [] :=
  .of_reads hp (h.1.trans (List.suffix_cons t rest))
    (List.Subset.trans h.2 (identTexts_mono (List.suffix_cons t rest)))

end Drawn

/-- Every level of the parser draws its formula from its tokens. -/
theorem parsers_drawn (stop : Nat) :
    (∀ ts, Drawn (parseIff stop ts) []) ∧ (∀ acc ts, Drawn (iffTail stop acc ts) acc.names) ∧
    (∀ ts, Drawn (parseImp stop ts) []) ∧ (∀ ts, Drawn (parseOr stop ts) []) ∧
    (∀ acc ts, Drawn (orTail stop acc ts) acc.names) ∧ (∀ ts, Drawn (parseAnd stop ts) []) ∧
    (∀ acc ts, Drawn (andTail stop acc ts) acc.names) ∧ (∀ ts, Drawn (parseUnary stop ts) []) ∧
    (∀ ts, Drawn (parseAtom stop ts) []) := by
  refine parseIff.mutual_induct stop (fun ts => Drawn (parseIff stop ts) [])
    (fun acc ts => Drawn (iffTail stop acc ts) acc.names) (fun ts => Drawn (parseImp stop ts) [])
    (fun ts => Drawn (parseOr stop ts) []) (fun acc ts => Drawn (orTail stop acc ts) acc.names)
    (fun ts => Drawn (parseAnd stop ts) []) (fun acc ts => Drawn (andTail stop acc ts) acc.names)
    (fun ts => Drawn (parseUnary stop ts) []) (fun ts => Drawn (parseAtom stop ts) [])
    ?_ ?_ ?_ ?_ ?_ ?_ ?_ ?_ ?_ ?_ ?_ ?_ ?_ ?_ ?_ ?_ ?_ ?_ ?_ ?_ ?_ ?_ ?_ ?_ ?_ ?_ ?_ ?_ ?_ ?_ ?_ ?_
    ?_ ?_ ?_ ?_ ?_ ?_ ?_ ?_
  -- the loosest level, `<->`
  · intro ts e he _
    exact .of_error e (by rw [parseIff, he])
  · intro ts f r₂ h₂ hg e he _ _
    exact .of_error e (by rw [parseIff, hg]; simp only [he])
  · intro ts f r₂ h₂ hg g r h ht ihg iht
    exact .of_step (parseIff_step ⟨h₂, hg⟩ ⟨h, ht⟩) (ihg f r₂ h₂ hg) (iht g r h ht)
  · intro acc
    exact .of_stop (iffTail_stop (by simp [nextKind]))
  · intro acc t tail hk e he _
    exact .of_error e (by rw [iffTail, if_pos hk, he])
  · intro acc t tail hk f r₂ h₂ hg e he _ _
    exact .of_error e (by rw [iffTail, if_pos hk, hg]; simp only [he])
  · intro acc t tail hk f r₂ h₂ hg g r h ht ihg iht
    exact .of_tail (iffTail_step hk ⟨h₂, hg⟩ ⟨h, ht⟩) (ihg f r₂ h₂ hg) (iht g r h ht)
  · intro acc t tail hk
    exact .of_stop (iffTail_stop (fun h => hk (by simpa [nextKind] using h)))
  -- `->`, which groups to the right
  · intro ts e he _
    exact .of_error e (by rw [parseImp, he])
  · intro ts f t rest _ hk e he h₂ hg _ _
    exact .of_error e (by rw [parseImp, hg]; simp only [hk, if_true, he])
  · intro ts f t rest _ hk g r h hi h₂ hg ihg ihi
    exact .of_imp (parseImp_step ⟨h₂, hg⟩ hk ⟨h, hi⟩) (ihg f _ h₂ hg) (ihi g r h hi)
  · intro ts f t rest _ hk h₂ hg ihg
    obtain ⟨hs, hn⟩ := ihg f _ h₂ hg
    exact .of_reads (parseImp_of_or ⟨h₂, hg⟩ (fun h => hk (by simpa [nextKind] using h))) hs hn
  · intro ts f _ h₂ hg ihg
    obtain ⟨hs, hn⟩ := ihg f _ h₂ hg
    exact .of_reads (parseImp_of_or ⟨h₂, hg⟩ (by simp [nextKind])) hs hn
  -- `|`
  · intro ts e he _
    exact .of_error e (by rw [parseOr, he])
  · intro ts f r₂ h₂ hg e he _ _
    exact .of_error e (by rw [parseOr, hg]; simp only [he])
  · intro ts f r₂ h₂ hg g r h ht ihg iht
    exact .of_step (parseOr_step ⟨h₂, hg⟩ ⟨h, ht⟩) (ihg f r₂ h₂ hg) (iht g r h ht)
  · intro acc
    exact .of_stop (orTail_stop (by simp [nextKind]))
  · intro acc t tail hk e he _
    exact .of_error e (by rw [orTail, if_pos hk, he])
  · intro acc t tail hk f r₂ h₂ hg e he _ _
    exact .of_error e (by rw [orTail, if_pos hk, hg]; simp only [he])
  · intro acc t tail hk f r₂ h₂ hg g r h ht ihg iht
    exact .of_tail (orTail_step hk ⟨h₂, hg⟩ ⟨h, ht⟩) (ihg f r₂ h₂ hg) (iht g r h ht)
  · intro acc t tail hk
    exact .of_stop (orTail_stop (fun h => hk (by simpa [nextKind] using h)))
  -- `&`
  · intro ts e he _
    exact .of_error e (by rw [parseAnd, he])
  · intro ts f r₂ h₂ hg e he _ _
    exact .of_error e (by rw [parseAnd, hg]; simp only [he])
  · intro ts f r₂ h₂ hg g r h ht ihg iht
    exact .of_step (parseAnd_step ⟨h₂, hg⟩ ⟨h, ht⟩) (ihg f r₂ h₂ hg) (iht g r h ht)
  · intro acc
    exact .of_stop (andTail_stop (by simp [nextKind]))
  · intro acc t tail hk e he _
    exact .of_error e (by rw [andTail, if_pos hk, he])
  · intro acc t tail hk f r₂ h₂ hg e he _ _
    exact .of_error e (by rw [andTail, if_pos hk, hg]; simp only [he])
  · intro acc t tail hk f r₂ h₂ hg g r h ht ihg iht
    exact .of_tail (andTail_step hk ⟨h₂, hg⟩ ⟨h, ht⟩) (ihg f r₂ h₂ hg) (iht g r h ht)
  · intro acc t tail hk
    exact .of_stop (andTail_stop (fun h => hk (by simpa [nextKind] using h)))
  -- negations and operands
  · intro t rest hk e he _
    exact .of_error e (by rw [parseUnary, if_pos hk, he])
  · intro t rest hk f r h hu ihu
    exact .of_cons (parseUnary_not hk ⟨h, hu⟩) (ihu f r h hu)
  · intro t rest hk ih
    rw [show parseUnary stop (t :: rest) = parseAtom stop (t :: rest) by
      rw [parseUnary, if_neg hk]]
    exact ih
  · intro ih
    rw [show parseUnary stop [] = parseAtom stop [] by rw [parseUnary]]
    exact ih
  · exact .of_error _ (by rw [parseAtom])
  · intro t tail hk
    refine .of_reads ⟨Nat.le_succ _, by rw [parseAtom, if_pos hk]⟩ (List.suffix_cons t tail) ?_
    simp [names, identTexts, hk]
  · intro t tail hni hl e he _
    exact .of_error e (by rw [parseAtom, if_neg hni, if_pos hl, he])
  · intro t tail hni hl f c rest _ hc h₂ hi ih
    obtain ⟨hs, hn⟩ := ih f _ h₂ hi
    have hp : Reads (parseAtom stop (t :: tail)) f rest := by
      refine ⟨by rw [List.length_cons] at h₂ ⊢; omega, ?_⟩
      rw [parseAtom, if_neg hni, if_pos hl, hi]
      simp only [hc, if_true]
    exact .of_cons hp ⟨(List.suffix_cons c rest).trans hs, hn⟩
  · intro t tail hni hl f c rest _ hc h₂ hi _
    exact .of_error ⟨c.pos, .unclosed (some c.kind)⟩
      (by rw [parseAtom, if_neg hni, if_pos hl, hi]; simp only [hc, if_false])
  · intro t tail hni hl f _ h₂ hi _
    exact .of_error ⟨stop, .unclosed none⟩ (by rw [parseAtom, if_neg hni, if_pos hl, hi])
  · intro t tail hni hl
    exact .of_error ⟨t.pos, .missingOperand (some t.kind)⟩ (by rw [parseAtom, if_neg hni, if_neg hl])

/-- Every name of a formula read from a text is a name, and one of the identifiers of the
text. -/
theorem parse_names {text : String} {f : Formula} (h : parse text = .ok f) :
    ∀ x ∈ f.names, isName x ∧ x ∈ identifiers text := by
  unfold parse at h
  dsimp only at h
  split at h
  · cases h
  next ts hscan =>
    split at h
    · cases h
    next g hlen hp =>
      cases h
      intro x hx
      have hx' : x ∈ identTexts ts := by
        simpa using (parsers_drawn text.toUTF8.toList.length).1 ts f [] hlen hp |>.2 hx
      refine ⟨?_, by rw [identifiers, identifiers_of_scan hscan]; exact hx'⟩
      obtain ⟨t, ⟨ht, hk⟩, rfl⟩ : ∃ t, (t ∈ ts ∧ t.kind = .ident) ∧ t.text = x := by
        simpa [identTexts] using hx'
      exact scan_ident_isName hscan t ht hk
    · cases h

end Formula

end DecisionDiagrams
