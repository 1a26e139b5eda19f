/-
The grammar of formulas, and the parser as a decision procedure for it.

A text is a formula when its bytes split into blanks and the spellings of tokens, and the tokens
derive from the loosest level of the grammar:

    iff  := imp ('<->' imp)*
    imp  := or ('->' imp)?
    or   := and ('|' and)*
    and  := un ('&' un)*
    un   := '~' un | atom
    atom := identifier | '(' iff ')'

A derivation carries the formula it builds: a repetition folds its operands onto the first one,
to the left, and `->` nests to the right.

* `Token.Splits` — bytes read as blanks and token spellings, each token at its offset. The tokens
  of the lexer split its bytes (`Token.scan_splits`), and tokens that split the bytes with no two
  identifiers in a row are what the lexer reads (`Token.scan_of_splits`).
* `Formula.Derives` — the grammar, with one symbol for each function of the parser.
* `Formula.Ends` — the tokens that may follow a formula read at a level: the next one is no
  connective that the level would go on with.
* `Formula.parsers_sound` — what the parser reads is derived, and what it leaves cannot continue
  it; `Formula.Derives.reads` — what is derived is read whole when what follows cannot continue it.
* `Formula.parse_eq_ok_iff` — a text parses to a formula exactly when its bytes split into tokens
  that derive the formula. The derivation is unique, as the parser is a function.
-/
import DecisionDiagrams.Proofs.Parsing

namespace DecisionDiagrams

/-- The text of an operator or a parenthesis; an identifier has no fixed text. -/
def TokenKind.spelling : TokenKind → Option String
  | .ident => none
  | .not => some "~"
  | .and => some "&"
  | .or => some "|"
  | .imp => some "->"
  | .iff => some "<->"
  | .lparen => some "("
  | .rparen => some ")"

theorem TokenKind.spelling_eq_none {k : TokenKind} : k.spelling = none ↔ k = .ident := by
  cases k <;> simp [spelling]

namespace Token

/-! ### Splitting bytes into tokens -/

/-- A token spelled as its kind requires: an identifier by a name, any other token by the text
of its kind. -/
def Spelled (t : Token) : Prop :=
  match t.kind.spelling with
  | none => isName t.text
  | some s => t.text = s

/-- The bytes `bs`, which start at offset `pos` of a text, are blanks and the spellings of the
tokens `ts` in order; each token stands at the offset of its first byte. -/
inductive Splits : Nat → List UInt8 → List Token → Prop
  | nil (pos : Nat) : Splits pos [] []
  | blank {pos : Nat} {b : UInt8} {bs : List UInt8} {ts : List Token} :
      isBlank b → Splits (pos + 1) bs ts → Splits pos (b :: bs) ts
  | token {pos : Nat} {bs : List UInt8} {ts : List Token} {t : Token} :
      t.pos = pos → t.Spelled → Splits (pos + t.text.length) bs ts →
      Splits pos (t.text.toUTF8.toList ++ bs) (t :: ts)

/-- Two tokens in a row that are not both identifiers: the bytes of two identifiers with no
blank between them are one identifier. -/
def Separated (a b : Token) : Prop :=
  a.kind = .ident → b.kind ≠ .ident

theorem Spelled.name {t : Token} (hs : t.Spelled) (hk : t.kind.spelling = none) :
    isName t.text := by
  unfold Spelled at hs
  rw [hk] at hs
  exact hs

theorem Spelled.text {t : Token} {s : String} (hs : t.Spelled) (hk : t.kind.spelling = some s) :
    t.text = s := by
  unfold Spelled at hs
  rw [hk] at hs
  exact hs

/-- The bytes of the spellings of the operators and parentheses. -/
theorem spellings_toUTF8 :
    "~".toUTF8.toList = [126] ∧ "&".toUTF8.toList = [38] ∧ "|".toUTF8.toList = [124] ∧
      "->".toUTF8.toList = [45, 62] ∧ "<->".toUTF8.toList = [60, 45, 62] ∧
      "(".toUTF8.toList = [40] ∧ ")".toUTF8.toList = [41] := by
  decide +kernel

/-- The spelling of an operator or a parenthesis starts with a byte that is no blank and no part
of an identifier, and `symbol` reads it from there. -/
theorem spelling_bytes {k : TokenKind} {s : String} (h : k.spelling = some s) :
    ∃ b w, s.toUTF8.toList = b :: w ∧ isBlank b = false ∧ isIdentPart b = false ∧
      ∀ bs, symbol b (w ++ bs) = some (k, s, bs) := by
  obtain ⟨h1, h2, h3, h4, h5, h6, h7⟩ := spellings_toUTF8
  cases k <;> simp only [TokenKind.spelling, Option.some.injEq, reduceCtorEq] at h <;> subst h
  · exact ⟨126, [], h1, by decide, by decide, fun bs => by simp [symbol]⟩
  · exact ⟨38, [], h2, by decide, by decide, fun bs => by simp [symbol]⟩
  · exact ⟨124, [], h3, by decide, by decide, fun bs => by simp [symbol]⟩
  · exact ⟨45, [62], h4, by decide, by decide, fun bs => by simp [symbol]⟩
  · exact ⟨60, [45, 62], h5, by decide, by decide, fun bs => by simp [symbol]⟩
  · exact ⟨40, [], h6, by decide, by decide, fun bs => by simp [symbol]⟩
  · exact ⟨41, [], h7, by decide, by decide, fun bs => by simp [symbol]⟩

/-- What `symbol` reads is the spelling of its kind. -/
theorem symbol_spelling {b : UInt8} {rest r : List UInt8} {k : TokenKind} {s : String}
    (h : symbol b rest = some (k, s, r)) :
    k.spelling = some s ∧ b :: rest = s.toUTF8.toList ++ r := by
  obtain ⟨h1, h2, h3, h4, h5, h6, h7⟩ := spellings_toUTF8
  unfold symbol at h
  simp only [beq_iff_eq] at h
  repeat' split at h
  all_goals first
    | (simp only [Option.some.injEq, Prod.mk.injEq] at h
       obtain ⟨rfl, rfl, rfl⟩ := h
       subst_vars
       simp only [TokenKind.spelling, h1, h2, h3, h4, h5, h6, h7]
       exact ⟨trivial, rfl⟩)
    | simp at h

theorem length_asciiText (bs : List UInt8) : (asciiText bs).length = bs.length := by
  simp [asciiText]

theorem isIdentPart_of_isBlank {b : UInt8} (h : isBlank b) : isIdentPart b = false := by
  simp only [isBlank, isIdentPart, isIdentStart, Bool.or_eq_true, beq_iff_eq, Bool.or_eq_false_iff,
    Bool.and_eq_false_imp, decide_eq_true_eq, UInt8.le_iff_toNat_le, UInt8.ext_iff,
    beq_eq_false_iff_ne, ne_eq] at h ⊢
  simp only [UInt8.reduceToNat] at h ⊢
  omega

/-- The tokens of the lexer split the bytes it reads. -/
theorem scan_splits {pos : Nat} {bs : List UInt8} {ts : List Token} (h : scan pos bs = .ok ts) :
    Splits pos bs ts := by
  fun_induction scan pos bs generalizing ts with
  | case1 pos =>
    cases h
    exact .nil pos
  | case2 pos b rest hb ih => exact .blank hb (ih h)
  | case3 pos b rest hnb hid body ts' hts =>
    rename_i ih
    cases h
    -- the identifier runs over the bytes that may continue it, all of them ASCII
    have hident : isIdentifier (b :: body) := by
      simp only [isIdentifier, hid, Bool.true_and, List.all_eq_true]
      exact fun c hc => List.mem_takeWhile_imp hc
    have hrest : body ++ rest.dropWhile isIdentPart = rest := List.takeWhile_append_dropWhile
    have hbytes : b :: rest = (asciiText (b :: body)).toUTF8.toList ++
        rest.dropWhile isIdentPart := by
      rw [asciiText_toUTF8 (isIdentifier_ascii hident), List.cons_append, hrest]
    rw [hbytes]
    refine @Splits.token _ _ _ ⟨.ident, asciiText (b :: body), pos⟩ rfl (isName_asciiText hident) ?_
    rw [length_asciiText, List.length_cons, show pos + (body.length + 1) = pos + 1 + body.length
      by omega]
    exact ih hts
  | case4 => cases h
  | case5 pos b rest hnb hni k s r hs hlen ts' hts ih =>
    cases h
    obtain ⟨hk, hb⟩ := symbol_spelling hs
    rw [hb]
    refine @Splits.token _ _ _ ⟨k, s, pos⟩ rfl ?_ (ih hts)
    simp only [Spelled, hk]
  | case6 => cases h
  | case7 => cases h

/-- After the bytes of an identifier, bytes that split into tokens starting with no identifier
cannot continue it. -/
theorem Splits.takeWhile_eq_nil {pos : Nat} {bs : List UInt8} {ts : List Token}
    (h : Splits pos bs ts) (hd : ∀ t ∈ ts.head?, t.kind ≠ .ident) :
    bs.takeWhile isIdentPart = [] := by
  cases h with
  | nil => rfl
  | blank hb _ => simp [isIdentPart_of_isBlank hb]
  | @token _ _ _ t _ hs _ =>
    obtain ⟨s, hsp⟩ : ∃ s, t.kind.spelling = some s :=
      Option.ne_none_iff_exists'.1 fun hn => hd t rfl (TokenKind.spelling_eq_none.1 hn)
    obtain ⟨b, w, hbw, -, hpart, -⟩ := spelling_bytes hsp
    rw [hs.text hsp, hbw]
    simp [hpart]

/-- Bytes that split into tokens with no two identifiers in a row are what the lexer reads. -/
theorem scan_of_splits {pos : Nat} {bs : List UInt8} {ts : List Token} (h : Splits pos bs ts)
    (hsep : ts.IsChain Separated) : scan pos bs = .ok ts := by
  induction h with
  | nil pos => rw [scan]
  | blank hb _ ih => rw [scan_blank hb, ih hsep]
  | @token pos bs ts t hpos hs hrest ih =>
    have hts : ts.IsChain Separated := hsep.tail
    rcases hk : t.kind.spelling with _ | s
    · -- an identifier: the next token is none, so the lexer takes its bytes whole
      have hident : t.kind = .ident := TokenKind.spelling_eq_none.1 hk
      have hname : isName t.text := hs.name hk
      have hnext : bs.takeWhile isIdentPart = [] := by
        refine hrest.takeWhile_eq_nil fun t' ht' => ?_
        cases ts with
        | nil => cases ht'
        | cons u us =>
          rw [List.head?_cons, Option.mem_some_iff] at ht'
          subst ht'
          exact (List.isChain_cons_cons.1 hsep).1 hident
      have hlen : t.text.toUTF8.toList.length = t.text.length := by
        have h := length_asciiText t.text.toUTF8.toList
        rw [asciiText_bytes hname] at h
        exact h.symm
      rw [scan_identifier hname hnext, asciiText_bytes hname, hlen, ih hts, ← hident, ← hpos]
      rfl
    · -- an operator or a parenthesis, read by `symbol`
      have htext : t.text = s := hs.text hk
      obtain ⟨b, w, hbw, -, -, hsym⟩ := spelling_bytes hk
      rw [htext] at ih ⊢
      rw [hbw, List.cons_append, scan_symbol (hsym bs), ih hts, ← htext, ← hpos]
      rfl

end Token

/-- The connectives ranked from the tightest. -/
def Connective.rank : Connective → Nat
  | .and => 0
  | .or => 1
  | .imp => 2
  | .iff => 3

theorem Connective.tokenKind_inj {c d : Connective} (h : c.tokenKind = d.tokenKind) : c = d := by
  cases c <;> cases d <;> first | rfl | cases h

namespace Formula

open Token

/-! ### The grammar -/

/-- The connectives that group to the left: after its first operand, each is read as a
repetition of the connective and a further operand. -/
inductive LeftAssoc
  | and
  | or
  | iff
  deriving DecidableEq, Repr

/-- The symbols of the grammar: the six levels, and the repetition of a connective `c` that
groups to the left, after the operands already read into `acc`. -/
inductive Sym
  | iff
  | imp
  | or
  | and
  | unary
  | atom
  | tail (c : LeftAssoc) (acc : Formula)

namespace LeftAssoc

/-- The connective. -/
def conn : LeftAssoc → Connective
  | .and => .and
  | .or => .or
  | .iff => .iff

/-- The level that the connective's repetition completes. -/
def level : LeftAssoc → Sym
  | .and => .and
  | .or => .or
  | .iff => .iff

/-- The level of the connective's operands. -/
def operand : LeftAssoc → Sym
  | .and => .unary
  | .or => .and
  | .iff => .imp

end LeftAssoc

/-- The derivations of the grammar: `Derives s ts f` when the tokens `ts` derive from symbol `s`
as the formula `f`. -/
inductive Derives : Sym → List Token → Formula → Prop
  /-- `iff := imp ('<->' imp)*`, `or := and ('|' and)*` and `and := un ('&' un)*`: a first
  operand, then the repetition that folds the others onto it. -/
  | chain (c : LeftAssoc) {p q : List Token} {f g : Formula} :
      Derives c.operand p f → Derives (.tail c f) q g → Derives c.level (p ++ q) g
  | stop (c : LeftAssoc) (acc : Formula) : Derives (.tail c acc) [] acc
  | more (c : LeftAssoc) {t : Token} {p q : List Token} {acc x f : Formula} :
      t.kind = c.conn.tokenKind → Derives c.operand p x →
      Derives (.tail c (.bin c.conn acc x)) q f → Derives (.tail c acc) (t :: (p ++ q)) f
  /-- `imp := or ('->' imp)?` -/
  | imp_or {p : List Token} {f : Formula} : Derives .or p f → Derives .imp p f
  | imp {p q : List Token} {t : Token} {f g : Formula} :
      Derives .or p f → t.kind = .imp → Derives .imp q g →
      Derives .imp (p ++ t :: q) (.bin .imp f g)
  /-- `un := '~' un | atom` -/
  | not {t : Token} {p : List Token} {f : Formula} :
      t.kind = .not → Derives .unary p f → Derives .unary (t :: p) (.not f)
  | unary_atom {p : List Token} {f : Formula} : Derives .atom p f → Derives .unary p f
  /-- `atom := identifier | '(' iff ')'` -/
  | ident {t : Token} : t.kind = .ident → Derives .atom [t] (.var t.text)
  | paren {o c : Token} {p : List Token} {f : Formula} :
      o.kind = .lparen → Derives .iff p f → c.kind = .rparen → Derives .atom (o :: (p ++ [c])) f

/-- The function of the parser for each symbol. -/
def Sym.parse (stop : Nat) : Sym → (ts : List Token) → Parsed ts
  | .iff => parseIff stop
  | .imp => parseImp stop
  | .or => parseOr stop
  | .and => parseAnd stop
  | .unary => parseUnary stop
  | .atom => parseAtom stop
  | .tail .iff acc => iffTail stop acc
  | .tail .or acc => orTail stop acc
  | .tail .and acc => andTail stop acc

/-! ### What may follow a level -/

/-- The number of connectives the level of a left-grouping connective goes on with: its own and
the tighter ones. -/
def LeftAssoc.rank : LeftAssoc → Nat
  | .and => 1
  | .or => 2
  | .iff => 4

/-- The number of connectives a symbol goes on with: a level takes its own connective and the
tighter ones, a repetition those of its level. -/
def Sym.rank : Sym → Nat
  | .iff => 4
  | .imp => 3
  | .or => 2
  | .and => 1
  | .unary => 0
  | .atom => 0
  | .tail c _ => c.rank

theorem LeftAssoc.level_rank (c : LeftAssoc) : c.level.rank = c.rank := by
  cases c <;> rfl

/-- What a repetition needs before it: what may follow an operand. -/
def Sym.pre : Sym → Nat
  | .tail c _ => c.operand.rank
  | _ => 0

/-- A connective that groups to the left continues its own level. -/
theorem LeftAssoc.conn_rank_lt (c : LeftAssoc) : c.conn.rank < c.rank := by
  cases c <;> decide

/-- The tokens `r` start with no connective of rank below `n`. -/
def Ends (n : Nat) (r : List Token) : Prop :=
  ∀ c : Connective, c.rank < n → nextKind r ≠ some c.tokenKind

section Ends

variable {n m : Nat} {r : List Token}

theorem ends_zero (r : List Token) : Ends 0 r :=
  fun _ h => absurd h (Nat.not_lt_zero _)

theorem ends_nil (n : Nat) : Ends n [] :=
  fun _ _ h => by cases h

theorem Ends.mono (h : Ends n r) (hm : m ≤ n) : Ends m r :=
  fun c hc => h c (Nat.lt_of_lt_of_le hc hm)

/-- A level ends before its own connective, when the tighter levels have ended. -/
theorem Ends.next {c : Connective} (hc : nextKind r ≠ some c.tokenKind) (h : Ends c.rank r) :
    Ends (c.rank + 1) r := by
  intro d hd
  rcases Nat.lt_succ_iff_lt_or_eq.1 hd with hd | hd
  · exact h d hd
  · have : d = c := by cases c <;> cases d <;> first | rfl | cases hd
    rw [this]
    exact hc

/-- A connective ends the levels tighter than it. -/
theorem ends_of_next {d : Connective} (h : nextKind r = some d.tokenKind) (hd : n ≤ d.rank) :
    Ends n r := by
  intro c hc hk
  rw [h, Option.some.injEq] at hk
  rw [← Connective.tokenKind_inj hk] at hc
  omega

/-- A token that is no connective ends every level. -/
theorem ends_cons {t : Token} (ht : ∀ c : Connective, t.kind ≠ c.tokenKind) (r : List Token) :
    Ends n (t :: r) := by
  intro c _ hk
  rw [nextKind, Option.some.injEq] at hk
  exact ht c hk

end Ends

/-! ### The left-grouping levels, read as one -/

namespace LeftAssoc

variable {stop : Nat} {ts rest R R' : List Token} {f g x acc : Formula} {t : Token}

theorem operand_pre (c : LeftAssoc) : c.operand.pre = 0 := by
  cases c <;> rfl

/-- A level reads its first operand and then the repetition of its connective. -/
theorem reads_level (c : LeftAssoc) (hf : Reads (c.operand.parse stop ts) f R)
    (ht : Reads ((Sym.tail c f).parse stop R) g R') : Reads (c.level.parse stop ts) g R' := by
  cases c
  · exact parseAnd_step hf ht
  · exact parseOr_step hf ht
  · exact parseIff_step hf ht

/-- A repetition reads its connective and one more operand, and goes on. -/
theorem reads_more (c : LeftAssoc) (hk : t.kind = c.conn.tokenKind)
    (hx : Reads (c.operand.parse stop rest) x R)
    (ht : Reads ((Sym.tail c (.bin c.conn acc x)).parse stop R) f R') :
    Reads ((Sym.tail c acc).parse stop (t :: rest)) f R' := by
  cases c
  · exact andTail_step hk hx ht
  · exact orTail_step hk hx ht
  · exact iffTail_step hk hx ht

/-- A repetition stops before anything but its connective. -/
theorem reads_stop (c : LeftAssoc) (h : nextKind R ≠ some c.conn.tokenKind) :
    Reads ((Sym.tail c acc).parse stop R) acc R := by
  cases c
  · exact andTail_stop h
  · exact orTail_stop h
  · exact iffTail_stop h

end LeftAssoc

/-! ### Derivations -/

section Derivations

/-- What a repetition reads starts with its connective, if with anything. -/
theorem Derives.tail_head {c : LeftAssoc} {acc f : Formula} {q : List Token}
    (h : Derives (.tail c acc) q f) : ∀ t ∈ q.head?, t.kind = c.conn.tokenKind := by
  generalize hs : Sym.tail c acc = s at h
  cases h with
  | chain c' => cases c' <;> cases hs
  | stop => intro t ht; cases ht
  | more _ ht _ _ =>
    cases hs
    intro t' h'
    simp only [List.head?_cons, Option.mem_def, Option.some.injEq] at h'
    subst h'
    exact ht
  | _ => cases hs

/-- A repetition followed by tokens that end its level leaves tokens that end its operands. -/
theorem Derives.tail_ends {c : LeftAssoc} {acc f : Formula} {q r : List Token}
    (h : Derives (.tail c acc) q f) (hr : Ends c.rank r) : Ends c.operand.rank (q ++ r) := by
  cases q with
  | nil => exact hr.mono (by cases c <;> decide)
  | cons t q =>
    exact ends_of_next (show nextKind (t :: q ++ r) = some c.conn.tokenKind by
      rw [List.cons_append, nextKind, h.tail_head t rfl]) (by cases c <;> decide)

/-- The tokens of a derivation have no two identifiers in a row. -/
theorem Derives.separated {s : Sym} {p : List Token} {f : Formula} (h : Derives s p f) :
    p.IsChain Separated := by
  -- each derivation joins its parts around tokens that are no identifiers, or before a
  -- repetition, which starts with its connective
  have hcons : ∀ {t : Token} {l : List Token}, t.kind ≠ .ident → l.IsChain Separated →
      (t :: l).IsChain Separated := fun ht hl => hl.cons fun _ _ hi => absurd hi ht
  have happ : ∀ {a b : List Token}, a.IsChain Separated → b.IsChain Separated →
      (∀ t ∈ b.head?, t.kind ≠ .ident) → (a ++ b).IsChain Separated := fun ha hb hd =>
    List.isChain_append.2 ⟨ha, hb, fun _ _ y hy _ => hd y hy⟩
  have hconn : ∀ (c : LeftAssoc) {t : Token}, t.kind = c.conn.tokenKind → t.kind ≠ .ident :=
    fun c t ht => by rw [ht]; cases c <;> decide
  induction h with
  | chain c _ hq ihp ihq => exact happ ihp ihq fun t ht => hconn c (hq.tail_head t ht)
  | stop => exact .nil
  | more c ht _ hq ihp ihq =>
    exact hcons (hconn c ht) (happ ihp ihq fun t ht' => hconn c (hq.tail_head t ht'))
  | imp_or _ ih => exact ih
  | unary_atom _ ih => exact ih
  | imp _ ht _ ihp ihq => exact happ ihp (hcons (by rw [ht]; decide) ihq) (by simp [ht])
  | not ht _ ih => exact hcons (by rw [ht]; decide) ih
  | ident _ => exact .singleton _
  | paren ho _ hc ih => exact hcons (by rw [ho]; decide) (happ ih (.singleton _) (by simp [hc]))

theorem identTexts_append (p q : List Token) : identTexts (p ++ q) = identTexts p ++ identTexts q := by
  simp [identTexts, List.filter_append]

theorem identTexts_cons_of_ne {t : Token} (ts : List Token) (h : t.kind ≠ .ident) :
    identTexts (t :: ts) = identTexts ts := by
  simp [identTexts, h]

/-- Every identifier a derivation reads is a name of its formula, and so is every name of the
formula a repetition starts from. -/
theorem Derives.identTexts_subset {s : Sym} {p : List Token} {f : Formula} (h : Derives s p f) :
    (∀ x ∈ identTexts p, x ∈ f.names) ∧
      ∀ c acc, s = .tail c acc → ∀ x ∈ acc.names, x ∈ f.names := by
  have hconn : ∀ (c : LeftAssoc) {t : Token}, t.kind = c.conn.tokenKind → t.kind ≠ .ident :=
    fun c t ht => by rw [ht]; cases c <;> decide
  induction h with
  | chain c _ _ ihp ihq =>
    refine ⟨fun x hx => ?_, fun c' acc hs => by cases c <;> cases hs⟩
    rcases List.mem_append.1 ((identTexts_append _ _) ▸ hx) with hx | hx
    · exact ihq.2 c _ rfl x (ihp.1 x hx)
    · exact ihq.1 x hx
  | stop c acc =>
    refine ⟨fun x hx => by simp [identTexts] at hx, fun c' acc' hs => ?_⟩
    cases hs
    exact fun x hx => hx
  | more c ht _ _ ihp ihq =>
    -- the operand joins the accumulated formula, whose names the rest of the repetition keeps
    have hacc := ihq.2 c _ rfl
    refine ⟨fun x hx => ?_, fun c' acc' hs x hx => ?_⟩
    · rw [identTexts_cons_of_ne _ (hconn c ht), identTexts_append] at hx
      rcases List.mem_append.1 hx with hx | hx
      · exact hacc x (List.mem_append_right _ (ihp.1 x hx))
      · exact ihq.1 x hx
    · cases hs
      exact hacc x (List.mem_append_left _ hx)
  | imp_or _ ih => exact ⟨ih.1, fun c acc hs => by cases hs⟩
  | unary_atom _ ih => exact ⟨ih.1, fun c acc hs => by cases hs⟩
  | imp _ ht _ ihp ihq =>
    refine ⟨fun x hx => ?_, fun c acc hs => by cases hs⟩
    rw [identTexts_append, identTexts_cons_of_ne _ (by rw [ht]; decide)] at hx
    rcases List.mem_append.1 hx with hx | hx
    · exact List.mem_append_left _ (ihp.1 x hx)
    · exact List.mem_append_right _ (ihq.1 x hx)
  | not ht _ ih =>
    refine ⟨fun x hx => ?_, fun c acc hs => by cases hs⟩
    rw [identTexts_cons_of_ne _ (by rw [ht]; decide)] at hx
    exact ih.1 x hx
  | ident ht =>
    refine ⟨fun x hx => ?_, fun c acc hs => by cases hs⟩
    simpa [identTexts, ht, names] using hx
  | paren ho _ hc ih =>
    refine ⟨fun x hx => ?_, fun c acc hs => by cases hs⟩
    rw [identTexts_cons_of_ne _ (by rw [ho]; decide), identTexts_append,
      identTexts_cons_of_ne _ (by rw [hc]; decide)] at hx
    exact ih.1 x (by simpa [identTexts] using hx)

end Derivations

/-! ### Soundness: what the parser reads is derived -/

/-- A parse of the tokens `ts` for symbol `s`, on tokens that may follow what comes before `s`,
reads a derivation from `s` and leaves tokens that cannot continue it. -/
def Sound (s : Sym) (ts : List Token) (p : Parsed ts) : Prop :=
  Ends s.pre ts → ∀ f r h, p = .ok (f, ⟨r, h⟩) → ∃ q, ts = q ++ r ∧ Derives s q f ∧ Ends s.rank r

section Sound

variable {s : Sym} {ts : List Token} {p : Parsed ts}

theorem Sound.of_error (e : SyntaxError) (hp : p = .error e) : Sound s ts p := by
  intro _ f r h h'
  rw [hp] at h'
  cases h'

theorem Sound.of_reads {f : Formula} {r : List Token} (hp : Reads p f r)
    (hd : Ends s.pre ts → ∃ q, ts = q ++ r ∧ Derives s q f ∧ Ends s.rank r) : Sound s ts p := by
  obtain ⟨h, hp⟩ := hp
  intro hpre f' r' h' hp'
  rw [hp] at hp'
  simp only [Except.ok.injEq, Prod.mk.injEq, Subtype.mk.injEq] at hp'
  obtain ⟨rfl, rfl⟩ := hp'
  exact hd hpre

end Sound

/-- A level of a left-grouping connective reads a derivation when its first operand and the
repetition after it do. -/
theorem Sound.of_level (c : LeftAssoc) {stop : Nat} {r₂ r : List Token} {f g : Formula}
    (hf : Reads (c.operand.parse stop ts) f r₂) (ht : Reads ((Sym.tail c f).parse stop r₂) g r)
    (ihf : Sound c.operand ts (c.operand.parse stop ts))
    (iht : Sound (.tail c f) r₂ ((Sym.tail c f).parse stop r₂)) :
    Sound c.level ts (c.level.parse stop ts) := by
  refine .of_reads (c.reads_level hf ht) fun _ => ?_
  obtain ⟨q₁, rfl, hd₁, he₁⟩ := ihf (c.operand_pre ▸ ends_zero _) f r₂ hf.1 hf.2
  obtain ⟨q₂, rfl, hd₂, he₂⟩ := iht he₁ g r ht.1 ht.2
  exact ⟨q₁ ++ q₂, by simp, .chain c hd₁ hd₂, c.level_rank ▸ he₂⟩

/-- A repetition that reads its connective and one more operand reads a derivation when the
operand and the rest of the repetition do. -/
theorem Sound.of_more (c : LeftAssoc) {stop : Nat} {t : Token} {tail r₂ r : List Token}
    {acc f g : Formula} (hk : t.kind = c.conn.tokenKind)
    (hf : Reads (c.operand.parse stop tail) f r₂)
    (ht : Reads ((Sym.tail c (.bin c.conn acc f)).parse stop r₂) g r)
    (ihf : Sound c.operand tail (c.operand.parse stop tail))
    (iht : Sound (.tail c (.bin c.conn acc f)) r₂
      ((Sym.tail c (.bin c.conn acc f)).parse stop r₂)) :
    Sound (.tail c acc) (t :: tail) ((Sym.tail c acc).parse stop (t :: tail)) := by
  refine .of_reads (c.reads_more hk hf ht) fun _ => ?_
  obtain ⟨q₁, rfl, hd₁, he₁⟩ := ihf (c.operand_pre ▸ ends_zero _) f r₂ hf.1 hf.2
  obtain ⟨q₂, rfl, hd₂, he₂⟩ := iht he₁ g r ht.1 ht.2
  exact ⟨t :: (q₁ ++ q₂), by simp, .more c hk hd₁ hd₂, he₂⟩

/-- A repetition that stops reads the empty derivation. -/
theorem Sound.of_stop (c : LeftAssoc) {stop : Nat} {acc : Formula}
    (hne : nextKind ts ≠ some c.conn.tokenKind) :
    Sound (.tail c acc) ts ((Sym.tail c acc).parse stop ts) := by
  refine .of_reads (c.reads_stop hne) fun hpre => ⟨[], rfl, .stop c acc, ?_⟩
  -- the operands have ended before every tighter connective, and this one does not come next
  cases c <;> exact Ends.next hne hpre

theorem parseAtom_ident {stop : Nat} {t : Token} (h : t.kind = .ident) (rest : List Token) :
    Reads (parseAtom stop (t :: rest)) (.var t.text) rest :=
  ⟨Nat.le_succ _, by rw [parseAtom, if_pos h]⟩

/-- Every level of the parser reads derivations. -/
theorem parsers_sound (stop : Nat) :
    (∀ ts, Sound .iff ts (parseIff stop ts)) ∧
    (∀ acc ts, Sound (.tail .iff acc) ts (iffTail stop acc ts)) ∧
    (∀ ts, Sound .imp ts (parseImp stop ts)) ∧ (∀ ts, Sound .or ts (parseOr stop ts)) ∧
    (∀ acc ts, Sound (.tail .or acc) ts (orTail stop acc ts)) ∧
    (∀ ts, Sound .and ts (parseAnd stop ts)) ∧
    (∀ acc ts, Sound (.tail .and acc) ts (andTail stop acc ts)) ∧
    (∀ ts, Sound .unary ts (parseUnary stop ts)) ∧ (∀ ts, Sound .atom ts (parseAtom stop ts)) := by
  refine parseIff.mutual_induct stop (fun ts => Sound .iff ts (parseIff stop ts))
    (fun acc ts => Sound (.tail .iff acc) ts (iffTail stop acc ts))
    (fun ts => Sound .imp ts (parseImp stop ts)) (fun ts => Sound .or ts (parseOr stop ts))
    (fun acc ts => Sound (.tail .or acc) ts (orTail stop acc ts))
    (fun ts => Sound .and ts (parseAnd stop ts))
    (fun acc ts => Sound (.tail .and acc) ts (andTail stop acc ts))
    (fun ts => Sound .unary ts (parseUnary stop ts)) (fun ts => Sound .atom ts (parseAtom stop ts))
    ?_ ?_ ?_ ?_ ?_ ?_ ?_ ?_ ?_ ?_ ?_ ?_ ?_ ?_ ?_ ?_ ?_ ?_ ?_ ?_ ?_ ?_ ?_ ?_ ?_ ?_ ?_ ?_ ?_ ?_ ?_ ?_
    ?_ ?_ ?_ ?_ ?_ ?_ ?_ ?_
  -- the loosest level, `<->`
  · intro ts e he _
    exact .of_error e (by rw [parseIff, he])
  · intro ts f r₂ h₂ hg e he _ _
    exact .of_error e (by rw [parseIff, hg]; simp only [he])
  · intro ts f r₂ h₂ hg g r h ht ihg iht
    exact .of_level .iff ⟨h₂, hg⟩ ⟨h, ht⟩ ihg iht
  · intro acc
    exact .of_stop .iff (by simp [nextKind])
  · intro acc t tail hk e he _
    exact .of_error e (by rw [iffTail, if_pos hk, he])
  · intro acc t tail hk f r₂ h₂ hg e he _ _
    exact .of_error e (by rw [iffTail, if_pos hk, hg]; simp only [he])
  · intro acc t tail hk f r₂ h₂ hg g r h ht ihg iht
    exact .of_more .iff hk ⟨h₂, hg⟩ ⟨h, ht⟩ ihg iht
  · intro acc t tail hk
    exact .of_stop .iff fun h =>
      hk (by simpa [nextKind, LeftAssoc.conn, Connective.tokenKind] using h)
  -- `->`, which groups to the right
  · intro ts e he _
    exact .of_error e (by rw [parseImp, he])
  · intro ts f t rest _ hk e he h₂ hg _ _
    exact .of_error e (by rw [parseImp, hg]; simp only [hk, if_true, he])
  · intro ts f t rest _ hk g r h hi h₂ hg ihg ihi
    refine .of_reads (parseImp_step ⟨h₂, hg⟩ hk ⟨h, hi⟩) fun _ => ?_
    obtain ⟨q₁, rfl, hd₁, -⟩ := ihg (ends_zero _) f _ h₂ hg
    obtain ⟨q₂, rfl, hd₂, he₂⟩ := ihi (ends_zero _) g r h hi
    exact ⟨q₁ ++ t :: q₂, by simp, .imp hd₁ hk hd₂, he₂⟩
  · intro ts f t rest _ hk h₂ hg ihg
    have hne : nextKind (t :: rest) ≠ some Connective.imp.tokenKind :=
      fun h => hk (by simpa [nextKind, Connective.tokenKind] using h)
    refine .of_reads (parseImp_of_or ⟨h₂, hg⟩ hne) fun _ => ?_
    obtain ⟨q, rfl, hd, he⟩ := ihg (ends_zero _) f _ h₂ hg
    exact ⟨q, rfl, .imp_or hd, Ends.next hne he⟩
  · intro ts f _ h₂ hg ihg
    refine .of_reads (parseImp_of_or ⟨h₂, hg⟩ (by simp [nextKind])) fun _ => ?_
    obtain ⟨q, rfl, hd, -⟩ := ihg (ends_zero _) f _ h₂ hg
    exact ⟨q, rfl, .imp_or hd, ends_nil _⟩
  -- `|`
  · intro ts e he _
    exact .of_error e (by rw [parseOr, he])
  · intro ts f r₂ h₂ hg e he _ _
    exact .of_error e (by rw [parseOr, hg]; simp only [he])
  · intro ts f r₂ h₂ hg g r h ht ihg iht
    exact .of_level .or ⟨h₂, hg⟩ ⟨h, ht⟩ ihg iht
  · intro acc
    exact .of_stop .or (by simp [nextKind])
  · intro acc t tail hk e he _
    exact .of_error e (by rw [orTail, if_pos hk, he])
  · intro acc t tail hk f r₂ h₂ hg e he _ _
    exact .of_error e (by rw [orTail, if_pos hk, hg]; simp only [he])
  · intro acc t tail hk f r₂ h₂ hg g r h ht ihg iht
    exact .of_more .or hk ⟨h₂, hg⟩ ⟨h, ht⟩ ihg iht
  · intro acc t tail hk
    exact .of_stop .or fun h =>
      hk (by simpa [nextKind, LeftAssoc.conn, Connective.tokenKind] using h)
  -- `&`
  · intro ts e he _
    exact .of_error e (by rw [parseAnd, he])
  · intro ts f r₂ h₂ hg e he _ _
    exact .of_error e (by rw [parseAnd, hg]; simp only [he])
  · intro ts f r₂ h₂ hg g r h ht ihg iht
    exact .of_level .and ⟨h₂, hg⟩ ⟨h, ht⟩ ihg iht
  · intro acc
    exact .of_stop .and (by simp [nextKind])
  · intro acc t tail hk e he _
    exact .of_error e (by rw [andTail, if_pos hk, he])
  · intro acc t tail hk f r₂ h₂ hg e he _ _
    exact .of_error e (by rw [andTail, if_pos hk, hg]; simp only [he])
  · intro acc t tail hk f r₂ h₂ hg g r h ht ihg iht
    exact .of_more .and hk ⟨h₂, hg⟩ ⟨h, ht⟩ ihg iht
  · intro acc t tail hk
    exact .of_stop .and fun h =>
      hk (by simpa [nextKind, LeftAssoc.conn, Connective.tokenKind] using h)
  -- negations and operands
  · intro t rest hk e he _
    exact .of_error e (by rw [parseUnary, if_pos hk, he])
  · intro t rest hk f r h hu ihu
    refine .of_reads (parseUnary_not hk ⟨h, hu⟩) fun _ => ?_
    obtain ⟨q, rfl, hd, -⟩ := ihu (ends_zero _) f r h hu
    exact ⟨t :: q, rfl, .not hk hd, ends_zero _⟩
  · intro t rest hk ih hpre f r h hp
    rw [parseUnary, if_neg hk] at hp
    obtain ⟨q, hq, hd, he⟩ := ih hpre f r h hp
    exact ⟨q, hq, .unary_atom hd, he⟩
  · intro ih hpre f r h hp
    rw [parseUnary] at hp
    obtain ⟨q, hq, hd, he⟩ := ih hpre f r h hp
    exact ⟨q, hq, .unary_atom hd, he⟩
  · exact .of_error _ (by rw [parseAtom])
  · intro t tail hk
    exact .of_reads (parseAtom_ident hk tail) fun _ => ⟨[t], rfl, .ident hk, ends_zero _⟩
  · intro t tail hni hl e he _
    exact .of_error e (by rw [parseAtom, if_neg hni, if_pos hl, he])
  · intro t tail hni hl f c rest _ hc h₂ hi ih
    have hp : Reads (parseAtom stop (t :: tail)) f rest := by
      refine ⟨by rw [List.length_cons] at h₂ ⊢; omega, ?_⟩
      rw [parseAtom, if_neg hni, if_pos hl, hi]
      simp only [hc, if_true]
    refine .of_reads hp fun _ => ?_
    obtain ⟨q, rfl, hd, -⟩ := ih (ends_zero _) f _ h₂ hi
    exact ⟨t :: (q ++ [c]), by simp, .paren hl hd hc, ends_zero _⟩
  · intro t tail hni hl f c rest _ hc h₂ hi _
    exact .of_error ⟨c.pos, .unclosed (some c.kind)⟩
      (by rw [parseAtom, if_neg hni, if_pos hl, hi]; simp only [hc, if_false])
  · intro t tail hni hl f _ h₂ hi _
    exact .of_error ⟨stop, .unclosed none⟩ (by rw [parseAtom, if_neg hni, if_pos hl, hi])
  · intro t tail hni hl
    exact .of_error ⟨t.pos, .missingOperand (some t.kind)⟩ (by rw [parseAtom, if_neg hni, if_neg hl])

/-! ### Completeness: what is derived is read -/

theorem parseAtom_paren {stop : Nat} {o c : Token} {rest R : List Token} {f : Formula}
    (ho : o.kind = .lparen) (hc : c.kind = .rparen) (hf : Reads (parseIff stop rest) f (c :: R)) :
    Reads (parseAtom stop (o :: rest)) f R := by
  obtain ⟨hr, hp⟩ := hf
  refine ⟨by rw [List.length_cons] at hr ⊢; omega, ?_⟩
  rw [parseAtom, if_neg (by simp [ho]), if_pos ho, hp]
  simp only [hc, if_true]

/-- What derives from an operand starts with an identifier or a parenthesis, never with `~`. -/
theorem Derives.atom_head {p : List Token} {f : Formula} (h : Derives .atom p f) :
    ∃ t rest, p = t :: rest ∧ t.kind ≠ .not := by
  generalize hs : Sym.atom = s at h
  cases h with
  | chain c => cases c <;> cases hs
  | ident ht => exact ⟨_, [], rfl, by simp [ht]⟩
  | paren ho _ _ => exact ⟨_, _, rfl, by simp [ho]⟩
  | _ => cases hs

/-- The parser reads every derivation whole, when the tokens after it cannot continue it. -/
theorem Derives.reads {s : Sym} {p : List Token} {f : Formula} (h : Derives s p f) (stop : Nat) :
    ∀ r, Ends s.rank r → Reads (s.parse stop (p ++ r)) f r := by
  induction h with
  | @chain c p q f g _ hq ihp ihq =>
    intro r hr
    rw [c.level_rank] at hr
    have hops := ihp (q ++ r) (hq.tail_ends hr)
    rw [List.append_assoc]
    exact c.reads_level hops (ihq r hr)
  | stop c acc =>
    intro r hr
    exact c.reads_stop (hr c.conn c.conn_rank_lt)
  | @more c t p q acc x f ht _ hq ihp ihq =>
    intro r hr
    have hops := ihp (q ++ r) (hq.tail_ends hr)
    rw [List.cons_append, List.append_assoc]
    exact c.reads_more ht hops (ihq r hr)
  | imp_or _ ih =>
    intro r hr
    exact parseImp_of_or (ih r (hr.mono (by decide))) (hr .imp (by decide))
  | @imp p q t f g _ ht _ ihp ihq =>
    intro r hr
    have hops := ihp (t :: (q ++ r)) (ends_of_next
      (show nextKind (t :: (q ++ r)) = some Connective.imp.tokenKind by
        simp [nextKind, ht, Connective.tokenKind]) (by decide))
    rw [List.append_assoc, List.cons_append]
    exact parseImp_step hops ht (ihq r hr)
  | not ht _ ih =>
    intro r _
    exact parseUnary_not ht (ih r (ends_zero _))
  | @unary_atom p f ha ih =>
    intro r _
    obtain ⟨t, rest, rfl, ht⟩ := ha.atom_head
    have hp := ih r (ends_zero _)
    rw [List.cons_append] at hp ⊢
    show Reads (parseUnary stop (t :: (rest ++ r))) f r
    rw [parseUnary, if_neg ht]
    exact hp
  | ident ht =>
    intro r _
    exact parseAtom_ident ht r
  | @paren o c p f ho _ hc ih =>
    intro r _
    have hf := ih (c :: r) (ends_cons (fun d => by rw [hc]; cases d <;> decide) r)
    rw [List.cons_append, List.append_assoc, List.singleton_append]
    exact parseAtom_paren ho hc hf

/-! ### Texts that are formulas -/

/-- A text that parses lexes into tokens that derive its formula. -/
theorem derives_of_parse {text : String} {f : Formula} (h : parse text = .ok f) :
    ∃ ts, Token.scan 0 text.toUTF8.toList = .ok ts ∧ Derives .iff ts f := by
  unfold parse at h
  dsimp only at h
  split at h
  · cases h
  next ts hscan =>
    split at h
    · cases h
    next g hlen hp =>
      cases h
      obtain ⟨q, hq, hd, -⟩ := (parsers_sound text.toUTF8.toList.length).1 ts (ends_zero _)
        _ [] hlen hp
      rw [List.append_nil] at hq
      exact ⟨ts, hscan, hq ▸ hd⟩
    · cases h

/-- Every identifier of a text that parses is a name of its formula. -/
theorem mem_names_of_identifiers {text : String} {f : Formula} (h : parse text = .ok f) :
    ∀ x ∈ identifiers text, x ∈ f.names := by
  obtain ⟨ts, hscan, hd⟩ := derives_of_parse h
  rw [identifiers, identifiers_of_scan hscan]
  exact hd.identTexts_subset.1

/-- A text parses to a formula exactly when its bytes split into tokens, between optional blanks,
that derive the formula from the loosest level of the grammar. -/
theorem parse_eq_ok_iff (text : String) (f : Formula) :
    parse text = .ok f ↔
      ∃ ts, Splits 0 text.toUTF8.toList ts ∧ Derives .iff ts f := by
  constructor
  · intro h
    obtain ⟨ts, hscan, hd⟩ := derives_of_parse h
    exact ⟨ts, scan_splits hscan, hd⟩
  · rintro ⟨ts, hs, hd⟩
    have hr := hd.reads text.toUTF8.toList.length [] (ends_nil _)
    rw [List.append_nil] at hr
    exact parse_of_reads (scan_of_splits hs hd.separated) hr

/-- `~` binds tightest, then `&`, `|`, `->` and `<->`; `->` groups to the right. -/
example : parse "~a | b & c -> d -> e <-> f" =
    .ok (.bin .iff (.bin .imp (.bin .or (.not (.var "a")) (.bin .and (.var "b") (.var "c")))
      (.bin .imp (.var "d") (.var "e"))) (.var "f")) := by
  cbv

end Formula

end DecisionDiagrams
