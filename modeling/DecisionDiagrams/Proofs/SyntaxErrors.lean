/-
Where a text stops being a formula.

The lexer reads the whole text before the parser starts, so a byte that starts no token is
reported wherever it stands, even after a token that has already broken the grammar. Past the
lexer, the parser fails at the first token after which the tokens begin no formula, or at the
end of the text when all of them still begin one.

* `Formula.Completable` — tokens that further tokens complete to a derivation.
* `Token.scan_error` — the lexer fails at the first byte that starts no token.
* `Formula.parsers_fail` — a parse that fails for a symbol of the grammar stops at a token after
  tokens that can still be completed from the symbol, and it fails alike on every list of tokens
  that agrees with them up to that token; or it stops at the end.
* `Formula.parse_error_position` — where `parse` reports its error, in these terms.
-/
import DecisionDiagrams.Proofs.Grammar

namespace DecisionDiagrams

namespace Token

/-! ### The first byte that starts no token -/

/-- The spellings of the operators and parentheses are ASCII: one byte a character. -/
theorem spelling_length {k : TokenKind} {s : String} (h : k.spelling = some s) :
    s.length = s.toUTF8.toList.length := by
  obtain ⟨h1, h2, h3, h4, h5, h6, h7⟩ := spellings_toUTF8
  cases k <;> simp only [TokenKind.spelling, Option.some.injEq, reduceCtorEq] at h <;> subst h
  · rw [h1]; rfl
  · rw [h2]; rfl
  · rw [h3]; rfl
  · rw [h4]; rfl
  · rw [h5]; rfl
  · rw [h6]; rfl
  · rw [h7]; rfl

/-- The lexer fails at the first byte that starts no token: a byte that is no blank, starts no
identifier and, with the bytes after it, spells no operator or parenthesis. The bytes before it
are blanks and tokens. -/
theorem scan_error {pos : Nat} {bs : List UInt8} {e : SyntaxError} (h : scan pos bs = .error e) :
    ∃ b j, e = ⟨pos + j, .badByte b⟩ ∧ bs[j]? = some b ∧ isBlank b = false ∧
      isIdentStart b = false ∧ symbol b (bs.drop (j + 1)) = none ∧
      ∃ ts, Splits pos (bs.take j) ts := by
  fun_induction scan pos bs with
  | case1 => cases h
  | case2 pos b rest hb ih =>
    obtain ⟨c, j, rfl, hj, hcb, hci, hcs, ts, hts⟩ := ih h
    refine ⟨c, j + 1, by rw [Nat.add_right_comm, Nat.add_assoc], hj, hcb, hci, hcs, ts, ?_⟩
    exact .blank hb hts
  | case3 => cases h
  | case4 pos b rest hnb hid body e' he ih =>
    cases h
    obtain ⟨c, j, rfl, hj, hcb, hci, hcs, ts, hts⟩ := ih he
    -- the identifier runs over `body`, and the bad byte lies in what follows it
    have hident : isIdentifier (b :: body) := by
      simp only [isIdentifier, hid, Bool.true_and, List.all_eq_true]
      exact fun c hc => List.mem_takeWhile_imp hc
    have hrest : body ++ rest.dropWhile isIdentPart = rest := List.takeWhile_append_dropWhile
    have htext : (asciiText (b :: body)).toUTF8.toList = b :: body :=
      asciiText_toUTF8 (isIdentifier_ascii hident)
    refine ⟨c, body.length + j + 1, by congr 1; omega, ?_, hcb, hci, ?_, ?_⟩
    · rw [← hrest, List.getElem?_cons_succ, List.getElem?_append_right (by omega),
        Nat.add_sub_cancel_left]
      exact hj
    · rw [← hrest, List.drop_succ_cons, List.drop_append, List.drop_of_length_le (by omega),
        List.nil_append, show body.length + j + 1 - body.length = j + 1 by omega]
      exact hcs
    · refine ⟨⟨.ident, asciiText (b :: body), pos⟩ :: ts, ?_⟩
      have hsplit := @Splits.token _ _ _ ⟨.ident, asciiText (b :: body), pos⟩ rfl
        (isName_asciiText hident) (by
          rw [length_asciiText, List.length_cons,
            show pos + (body.length + 1) = pos + 1 + body.length by omega]
          exact hts)
      rw [htext] at hsplit
      rw [← hrest, List.take_succ_cons, List.take_append, List.take_of_length_le (by omega),
        show body.length + j - body.length = j by omega]
      exact hsplit
  | case5 => cases h
  | case6 pos b rest hnb hni k s r hs hlen e' he ih =>
    cases h
    obtain ⟨c, j, rfl, hj, hcb, hci, hcs, ts, hts⟩ := ih he
    obtain ⟨hk, hb⟩ := symbol_spelling hs
    have hl := spelling_length hk
    refine ⟨c, s.length + j, by rw [Nat.add_assoc], ?_, hcb, hci, ?_, ?_⟩
    · rw [hb, hl, List.getElem?_append_right (by omega), Nat.add_sub_cancel_left]
      exact hj
    · rw [hb, hl, Nat.add_assoc, List.drop_append, List.drop_of_length_le (by omega),
        List.nil_append, Nat.add_sub_cancel_left]
      exact hcs
    · refine ⟨⟨k, s, pos⟩ :: ts, ?_⟩
      rw [hb, hl, List.take_append, List.take_of_length_le (by omega), Nat.add_sub_cancel_left]
      exact @Splits.token _ _ _ ⟨k, s, pos⟩ rfl (by simp only [Spelled, hk]) hts
  | case7 pos b rest hnb hni hs =>
    cases h
    exact ⟨b, 0, rfl, rfl, by simpa using hnb, by simpa using hni, hs, [], .nil pos⟩

/-- What `symbol` reads and leaves is as long as the bytes it was given. -/
theorem symbol_length {b : UInt8} {rest r : List UInt8} {k : TokenKind} {s : String}
    (h : symbol b rest = some (k, s, r)) : s.length + r.length = rest.length + 1 := by
  obtain ⟨hk, hb⟩ := symbol_spelling h
  have hl := congrArg List.length hb
  rw [List.length_cons, List.length_append, ← spelling_length hk] at hl
  omega

/-- Every token of the lexer stands inside the bytes it reads. -/
theorem scan_pos_lt {pos : Nat} {bs : List UInt8} {ts : List Token} (h : scan pos bs = .ok ts) :
    ∀ t ∈ ts, t.pos < pos + bs.length := by
  fun_induction scan pos bs generalizing ts with
  | case1 => cases h; simp
  | case2 pos b rest hb ih =>
    intro t ht
    have := ih h t ht
    rw [List.length_cons]
    omega
  | case3 pos b rest hnb hid body ts' hts =>
    rename_i ih
    cases h
    have hrest : body ++ rest.dropWhile isIdentPart = rest := List.takeWhile_append_dropWhile
    have hlen := congrArg List.length hrest
    rw [List.length_append] at hlen
    intro t ht
    rcases List.mem_cons.1 ht with rfl | ht
    · simp
    · have := ih hts t ht
      rw [List.length_cons]
      omega
  | case4 => cases h
  | case5 pos b rest hnb hni k s r hs hlen ts' hts ih =>
    cases h
    have hl := symbol_length hs
    intro t ht
    rcases List.mem_cons.1 ht with rfl | ht
    · simp
    · have := ih hts t ht
      rw [List.length_cons]
      omega
  | case6 => cases h
  | case7 => cases h

end Token

namespace Formula

open Token

/-! ### Tokens that begin a derivation -/

/-- Tokens that further tokens complete to a derivation from `s`. -/
def Completable (s : Sym) (p : List Token) : Prop :=
  ∃ c f, Derives s (p ++ c) f

namespace Completable

variable {p q : List Token} {t : Token} {f : Formula}

theorem of_append {s : Sym} {r : List Token} (h : Completable s (p ++ r)) : Completable s p := by
  obtain ⟨c, g, hd⟩ := h
  exact ⟨r ++ c, g, by rwa [← List.append_assoc]⟩

theorem level (c : LeftAssoc) (h : Completable c.operand p) : Completable c.level p := by
  obtain ⟨d, g, hd⟩ := h
  exact ⟨d, g, by simpa using Derives.chain c hd (.stop c g)⟩

theorem chain (c : LeftAssoc) (hd : Derives c.operand q f) (h : Completable (.tail c f) p) :
    Completable c.level (q ++ p) := by
  obtain ⟨d, g, hp⟩ := h
  exact ⟨d, g, by simpa using Derives.chain c hd hp⟩

theorem more (c : LeftAssoc) (ht : t.kind = c.conn.tokenKind) {acc : Formula}
    (h : Completable c.operand p) : Completable (.tail c acc) ([t] ++ p) := by
  obtain ⟨d, x, hp⟩ := h
  exact ⟨d, _, by simpa using Derives.more c ht hp (.stop c _)⟩

theorem more_after (c : LeftAssoc) (ht : t.kind = c.conn.tokenKind) {acc x : Formula}
    (hd : Derives c.operand q x) (h : Completable (.tail c (.bin c.conn acc x)) p) :
    Completable (.tail c acc) ((t :: q) ++ p) := by
  obtain ⟨d, g, hp⟩ := h
  exact ⟨d, g, by simpa using Derives.more c ht hd hp⟩

theorem imp_or (h : Completable .or p) : Completable .imp p := by
  obtain ⟨d, g, hp⟩ := h
  exact ⟨d, g, .imp_or hp⟩

theorem imp (hd : Derives .or q f) (ht : t.kind = .imp) (h : Completable .imp p) :
    Completable .imp ((q ++ [t]) ++ p) := by
  obtain ⟨d, g, hp⟩ := h
  exact ⟨d, _, by simpa using Derives.imp hd ht hp⟩

theorem not (ht : t.kind = .not) (h : Completable .unary p) : Completable .unary ([t] ++ p) := by
  obtain ⟨d, g, hp⟩ := h
  exact ⟨d, _, .not ht hp⟩

theorem unary_atom (h : Completable .atom p) : Completable .unary p := by
  obtain ⟨d, g, hp⟩ := h
  exact ⟨d, g, .unary_atom hp⟩

/-- Nothing read yet: an identifier completes an operand. -/
theorem atom_nil : Completable .atom [] :=
  ⟨[⟨.ident, "a", 0⟩], _, .ident rfl⟩

/-- An opened parenthesis is completed by closing it. -/
theorem paren (ho : t.kind = .lparen) (h : Completable .iff p) : Completable .atom ([t] ++ p) := by
  obtain ⟨d, g, hp⟩ := h
  exact ⟨d ++ [⟨.rparen, ")", 0⟩], g, by simpa using Derives.paren ho hp rfl⟩

end Completable

/-! ### Where a parse fails -/

/-- Where a parse for `s` of the tokens `ts` failed with `e`: at a token `t`, after tokens that
can still be completed from `s`, while every parse of tokens that agree with `ts` up to `t` fails
alike; or at `stop`, the end, when all of `ts` can still be completed. -/
def FailsAt (stop : Nat) (s : Sym) (ts : List Token) (e : SyntaxError) : Prop :=
  (∃ p t q, ts = p ++ t :: q ∧ e.pos = t.pos ∧ Completable s p ∧
    ∀ q', s.parse stop (p ++ t :: q') = .error e) ∨
  (e.pos = stop ∧ Completable s ts)

section Failures

variable {stop : Nat} {ts rest r : List Token} {t : Token} {f x acc : Formula} {e : SyntaxError}

theorem Reads.ne_error {p : Parsed ts} (hp : Reads p f r) (e : SyntaxError) : p ≠ .error e := by
  obtain ⟨_, rfl⟩ := hp
  intro h
  cases h

theorem Reads.eq {p : Parsed ts} {g : Formula} {r' : List Token} (hp : Reads p f r)
    (hp' : Reads p g r') : f = g ∧ r = r' := by
  obtain ⟨_, rfl⟩ := hp
  obtain ⟨_, hp'⟩ := hp'
  simp only [Except.ok.injEq, Prod.mk.injEq, Subtype.mk.injEq] at hp'
  exact hp'

theorem Sym.parse_sound (stop : Nat) (s : Sym) (ts : List Token) : Sound s ts (s.parse stop ts) := by
  obtain ⟨hi, hit, him, ho, hot, ha, hat, hu, hat'⟩ := parsers_sound stop
  match s with
  | .iff => exact hi ts
  | .imp => exact him ts
  | .or => exact ho ts
  | .and => exact ha ts
  | .unary => exact hu ts
  | .atom => exact hat' ts
  | .tail .iff acc => exact hit acc ts
  | .tail .or acc => exact hot acc ts
  | .tail .and acc => exact hat acc ts

/-- What a level reads from the front of the tokens is a derivation. -/
theorem Reads.derives {s : Sym} (hs : s.pre = 0) (h : Reads (s.parse stop ts) f r) :
    ∃ q, ts = q ++ r ∧ Derives s q f := by
  obtain ⟨hlen, hp⟩ := h
  obtain ⟨q, hq, hd, -⟩ := Sym.parse_sound stop s ts (by rw [hs]; exact ends_zero _) f r hlen hp
  exact ⟨q, hq, hd⟩

/-- A level that reads `f` from the front of the tokens reads it whatever follows, as long as
the next token is the same. -/
theorem Reads.of_nextKind {s : Sym} (hs : s.pre = 0) {q r' : List Token}
    (h : Reads (s.parse stop (q ++ r)) f r) (hk : nextKind r' = nextKind r) :
    Reads (s.parse stop (q ++ r')) f r' := by
  obtain ⟨hlen, hp⟩ := h
  obtain ⟨q₀, hq, hd, he⟩ :=
    Sym.parse_sound stop s (q ++ r) (by rw [hs]; exact ends_zero _) f r hlen hp
  obtain rfl := List.append_cancel_right hq
  exact hd.reads stop r' fun c hc => by rw [hk]; exact he c hc

theorem nextKind_append_cons (p : List Token) (t : Token) (q q' : List Token) :
    nextKind (p ++ t :: q') = nextKind (p ++ t :: q) := by
  cases p <;> rfl

/-- A failure that a parse takes over from a part it calls on the tokens after `pre`. -/
theorem FailsAt.shift {s₂ s : Sym} (pre : List Token)
    (hc : ∀ p, Completable s₂ p → Completable s (pre ++ p))
    (hl : ∀ p t q q', r = p ++ t :: q → s₂.parse stop (p ++ t :: q') = .error e →
      s.parse stop (pre ++ (p ++ t :: q')) = .error e)
    (h : FailsAt stop s₂ r e) : FailsAt stop s (pre ++ r) e := by
  rcases h with ⟨p, t, q, rfl, hpos, hp, hq⟩ | ⟨hpos, hr⟩
  · refine .inl ⟨pre ++ p, t, q, by simp, hpos, hc p hp, fun q' => ?_⟩
    rw [List.append_assoc]
    exact hl p t q q' rfl (hq q')
  · exact .inr ⟨hpos, hc r hr⟩

/-! #### The calls of the parser that pass a failure on -/

theorem level_error_of_operand (c : LeftAssoc) (h : c.operand.parse stop ts = .error e) :
    c.level.parse stop ts = .error e := by
  cases c <;> simp only [LeftAssoc.operand, LeftAssoc.level, Sym.parse] at h ⊢
  · rw [parseAnd, h]
  · rw [parseOr, h]
  · rw [parseIff, h]

theorem level_error_of_tail (c : LeftAssoc) (hf : Reads (c.operand.parse stop ts) f r)
    (h : (Sym.tail c f).parse stop r = .error e) : c.level.parse stop ts = .error e := by
  obtain ⟨_, hp⟩ := hf
  cases c <;> simp only [LeftAssoc.operand, LeftAssoc.level, Sym.parse] at hp h ⊢
  · rw [parseAnd, hp]
    simp only [h]
  · rw [parseOr, hp]
    simp only [h]
  · rw [parseIff, hp]
    simp only [h]

theorem tail_error_of_operand (c : LeftAssoc) (ht : t.kind = c.conn.tokenKind)
    (h : c.operand.parse stop rest = .error e) :
    (Sym.tail c acc).parse stop (t :: rest) = .error e := by
  cases c <;> simp only [LeftAssoc.operand, LeftAssoc.conn, Connective.tokenKind, Sym.parse] at h ht ⊢
  · rw [andTail, if_pos ht, h]
  · rw [orTail, if_pos ht, h]
  · rw [iffTail, if_pos ht, h]

theorem tail_error_of_tail (c : LeftAssoc) (ht : t.kind = c.conn.tokenKind)
    (hx : Reads (c.operand.parse stop rest) x r)
    (h : (Sym.tail c (.bin c.conn acc x)).parse stop r = .error e) :
    (Sym.tail c acc).parse stop (t :: rest) = .error e := by
  obtain ⟨_, hp⟩ := hx
  cases c <;> simp only [LeftAssoc.operand, LeftAssoc.conn, Connective.tokenKind, Sym.parse] at hp h ht ⊢
  · rw [andTail, if_pos ht, hp]
    simp only [h]
  · rw [orTail, if_pos ht, hp]
    simp only [h]
  · rw [iffTail, if_pos ht, hp]
    simp only [h]

theorem imp_error_of_or (h : parseOr stop ts = .error e) : parseImp stop ts = .error e := by
  rw [parseImp, h]

theorem imp_error_of_imp (hf : Reads (parseOr stop ts) f (t :: rest)) (ht : t.kind = .imp)
    (h : parseImp stop rest = .error e) : parseImp stop ts = .error e := by
  obtain ⟨_, hp⟩ := hf
  rw [parseImp, hp]
  simp only [ht, if_true, h]

theorem unary_error_of_not (ht : t.kind = .not) (h : parseUnary stop rest = .error e) :
    parseUnary stop (t :: rest) = .error e := by
  rw [parseUnary, if_pos ht, h]

theorem parseUnary_eq_atom (h : nextKind ts ≠ some .not) : parseUnary stop ts = parseAtom stop ts := by
  match ts, h with
  | [], _ => rw [parseUnary]
  | t :: rest, h => rw [parseUnary, if_neg fun hk => h (by rw [nextKind, hk])]

theorem atom_error_of_iff (ho : t.kind = .lparen) (h : parseIff stop rest = .error e) :
    parseAtom stop (t :: rest) = .error e := by
  rw [parseAtom, if_neg (by simp [ho]), if_pos ho, h]

theorem atom_error_unclosed {c : Token} {R : List Token} (ho : t.kind = .lparen)
    (hf : Reads (parseIff stop rest) f (c :: R)) (hc : c.kind ≠ .rparen) :
    parseAtom stop (t :: rest) = .error ⟨c.pos, .unclosed (some c.kind)⟩ := by
  obtain ⟨_, hp⟩ := hf
  rw [parseAtom, if_neg (by simp [ho]), if_pos ho, hp]
  simp only [hc, if_false]

theorem atom_error_end (ho : t.kind = .lparen) (hf : Reads (parseIff stop rest) f []) :
    parseAtom stop (t :: rest) = .error ⟨stop, .unclosed none⟩ := by
  obtain ⟨_, hp⟩ := hf
  rw [parseAtom, if_neg (by simp [ho]), if_pos ho, hp]

theorem atom_error_missing (hi : t.kind ≠ .ident) (hl : t.kind ≠ .lparen) :
    parseAtom stop (t :: rest) = .error ⟨t.pos, .missingOperand (some t.kind)⟩ := by
  rw [parseAtom, if_neg hi, if_neg hl]

/-! #### One failing call at a time -/

theorem fails_level (c : LeftAssoc) (he : c.operand.parse stop ts = .error e)
    (ih : FailsAt stop c.operand ts e) :
    ∀ e', c.level.parse stop ts = .error e' → FailsAt stop c.level ts e' := by
  intro e' he'
  obtain rfl := Except.error.inj ((level_error_of_operand c he).symm.trans he')
  exact ih.shift [] (fun p hp => hp.level c) fun _ _ _ _ _ h => level_error_of_operand c h

theorem fails_level_tail (c : LeftAssoc) (hf : Reads (c.operand.parse stop ts) f r)
    (he : (Sym.tail c f).parse stop r = .error e) (ih : FailsAt stop (.tail c f) r e) :
    ∀ e', c.level.parse stop ts = .error e' → FailsAt stop c.level ts e' := by
  intro e' he'
  obtain rfl := Except.error.inj ((level_error_of_tail c hf he).symm.trans he')
  obtain ⟨q, rfl, hd⟩ := hf.derives c.operand_pre
  refine ih.shift q (fun p hp => hp.chain c hd) fun p t q₁ q' hr h => ?_
  -- the operand reads the same formula whatever follows the failing token
  have hk := nextKind_append_cons p t q₁ q'
  rw [← hr] at hk
  exact level_error_of_tail c (hf.of_nextKind c.operand_pre hk) h

theorem fails_tail (c : LeftAssoc) (ht : t.kind = c.conn.tokenKind)
    (he : c.operand.parse stop rest = .error e) (ih : FailsAt stop c.operand rest e) :
    ∀ e', (Sym.tail c acc).parse stop (t :: rest) = .error e' →
      FailsAt stop (.tail c acc) (t :: rest) e' := by
  intro e' he'
  obtain rfl := Except.error.inj ((tail_error_of_operand c ht he).symm.trans he')
  exact ih.shift [t] (fun p hp => hp.more c ht) fun _ _ _ _ _ h => tail_error_of_operand c ht h

theorem fails_tail_tail (c : LeftAssoc) (ht : t.kind = c.conn.tokenKind)
    (hx : Reads (c.operand.parse stop rest) x r)
    (he : (Sym.tail c (.bin c.conn acc x)).parse stop r = .error e)
    (ih : FailsAt stop (.tail c (.bin c.conn acc x)) r e) :
    ∀ e', (Sym.tail c acc).parse stop (t :: rest) = .error e' →
      FailsAt stop (.tail c acc) (t :: rest) e' := by
  intro e' he'
  obtain rfl := Except.error.inj ((tail_error_of_tail c ht hx he).symm.trans he')
  obtain ⟨q, rfl, hd⟩ := hx.derives c.operand_pre
  refine ih.shift (t :: q) (fun p hp => hp.more_after c ht hd) fun p t' q₁ q' hr h => ?_
  have hk := nextKind_append_cons p t' q₁ q'
  rw [← hr] at hk
  exact tail_error_of_tail c ht (hx.of_nextKind c.operand_pre hk) h

theorem fails_unary_atom (h : nextKind ts ≠ some .not)
    (ih : ∀ e, parseAtom stop ts = .error e → FailsAt stop .atom ts e) :
    ∀ e, parseUnary stop ts = .error e → FailsAt stop .unary ts e := by
  intro e he
  rw [parseUnary_eq_atom h] at he
  refine (ih e he).shift [] (fun p hp => hp.unary_atom) fun p t q q' hr h' => ?_
  -- the tokens that agree up to the failing token start with the same one, which is no `~`
  have hk := nextKind_append_cons p t q q'
  rw [← hr] at hk
  exact (parseUnary_eq_atom (hk ▸ h)).trans h'

end Failures

/-- Every level of the parser fails only at a token that its tokens up to it cannot continue,
or at the end. -/
theorem parsers_fail (stop : Nat) :
    (∀ ts e, parseIff stop ts = .error e → FailsAt stop .iff ts e) ∧
    (∀ acc ts e, iffTail stop acc ts = .error e → FailsAt stop (.tail .iff acc) ts e) ∧
    (∀ ts e, parseImp stop ts = .error e → FailsAt stop .imp ts e) ∧
    (∀ ts e, parseOr stop ts = .error e → FailsAt stop .or ts e) ∧
    (∀ acc ts e, orTail stop acc ts = .error e → FailsAt stop (.tail .or acc) ts e) ∧
    (∀ ts e, parseAnd stop ts = .error e → FailsAt stop .and ts e) ∧
    (∀ acc ts e, andTail stop acc ts = .error e → FailsAt stop (.tail .and acc) ts e) ∧
    (∀ ts e, parseUnary stop ts = .error e → FailsAt stop .unary ts e) ∧
    (∀ ts e, parseAtom stop ts = .error e → FailsAt stop .atom ts e) := by
  refine parseIff.mutual_induct stop
    (fun ts => ∀ e, parseIff stop ts = .error e → FailsAt stop .iff ts e)
    (fun acc ts => ∀ e, iffTail stop acc ts = .error e → FailsAt stop (.tail .iff acc) ts e)
    (fun ts => ∀ e, parseImp stop ts = .error e → FailsAt stop .imp ts e)
    (fun ts => ∀ e, parseOr stop ts = .error e → FailsAt stop .or ts e)
    (fun acc ts => ∀ e, orTail stop acc ts = .error e → FailsAt stop (.tail .or acc) ts e)
    (fun ts => ∀ e, parseAnd stop ts = .error e → FailsAt stop .and ts e)
    (fun acc ts => ∀ e, andTail stop acc ts = .error e → FailsAt stop (.tail .and acc) ts e)
    (fun ts => ∀ e, parseUnary stop ts = .error e → FailsAt stop .unary ts e)
    (fun ts => ∀ e, parseAtom stop ts = .error e → FailsAt stop .atom ts e)
    ?_ ?_ ?_ ?_ ?_ ?_ ?_ ?_ ?_ ?_ ?_ ?_ ?_ ?_ ?_ ?_ ?_ ?_ ?_ ?_ ?_ ?_ ?_ ?_ ?_ ?_ ?_ ?_ ?_ ?_ ?_ ?_
    ?_ ?_ ?_ ?_ ?_ ?_ ?_ ?_
  -- the loosest level, `<->`
  · intro ts e he ih
    exact fails_level .iff he (ih e he)
  · intro ts f r₂ h₂ hg e he _ iht
    exact fails_level_tail .iff ⟨h₂, hg⟩ he (iht e he)
  · intro ts f r₂ h₂ hg g r h ht _ _ e he
    exact absurd he ((parseIff_step ⟨h₂, hg⟩ ⟨h, ht⟩).ne_error e)
  · intro acc e he
    exact absurd he ((iffTail_stop (by simp [nextKind])).ne_error e)
  · intro acc t tail hk e he ih
    exact fails_tail .iff hk he (ih e he)
  · intro acc t tail hk f r₂ h₂ hg e he _ iht
    exact fails_tail_tail .iff hk ⟨h₂, hg⟩ he (iht e he)
  · intro acc t tail hk f r₂ h₂ hg g r h ht _ _ e he
    exact absurd he ((iffTail_step hk ⟨h₂, hg⟩ ⟨h, ht⟩).ne_error e)
  · intro acc t tail hk e he
    rw [iffTail, if_neg hk] at he
    cases he
  -- `->`, which groups to the right
  · intro ts e he ih e' he'
    obtain rfl := Except.error.inj ((imp_error_of_or he).symm.trans he')
    exact (ih e he).shift [] (fun p hp => hp.imp_or) fun _ _ _ _ _ h => imp_error_of_or h
  · intro ts f t rest _ hk e he h₂ hg _ ihi e' he'
    obtain rfl := Except.error.inj ((imp_error_of_imp ⟨h₂, hg⟩ hk he).symm.trans he')
    obtain ⟨q, hq, hd⟩ := Reads.derives rfl (show Reads (Sym.parse stop .or ts) f (t :: rest) from ⟨h₂, hg⟩)
    subst hq
    have hf := (ihi e he).shift (q ++ [t]) (fun p hp => hp.imp hd hk) fun p t' q₁ q' _ h => by
      have hr : Reads (Sym.parse stop .or (q ++ t :: (p ++ t' :: q'))) f (t :: (p ++ t' :: q')) :=
        Reads.of_nextKind rfl ⟨h₂, hg⟩ rfl
      rw [List.append_assoc, List.singleton_append]
      exact imp_error_of_imp hr hk h
    rwa [List.append_assoc, List.singleton_append] at hf
  · intro ts f t rest _ hk g r h hi h₂ hg _ _ e he
    exact absurd he ((parseImp_step ⟨h₂, hg⟩ hk ⟨h, hi⟩).ne_error e)
  · intro ts f t rest _ hk h₂ hg _ e he
    have hne : nextKind (t :: rest) ≠ some .imp := fun h => hk (by simpa [nextKind] using h)
    exact absurd he ((parseImp_of_or ⟨h₂, hg⟩ hne).ne_error e)
  · intro ts f _ h₂ hg _ e he
    exact absurd he ((parseImp_of_or ⟨h₂, hg⟩ (by simp [nextKind])).ne_error e)
  -- `|`
  · intro ts e he ih
    exact fails_level .or he (ih e he)
  · intro ts f r₂ h₂ hg e he _ iht
    exact fails_level_tail .or ⟨h₂, hg⟩ he (iht e he)
  · intro ts f r₂ h₂ hg g r h ht _ _ e he
    exact absurd he ((parseOr_step ⟨h₂, hg⟩ ⟨h, ht⟩).ne_error e)
  · intro acc e he
    exact absurd he ((orTail_stop (by simp [nextKind])).ne_error e)
  · intro acc t tail hk e he ih
    exact fails_tail .or hk he (ih e he)
  · intro acc t tail hk f r₂ h₂ hg e he _ iht
    exact fails_tail_tail .or hk ⟨h₂, hg⟩ he (iht e he)
  · intro acc t tail hk f r₂ h₂ hg g r h ht _ _ e he
    exact absurd he ((orTail_step hk ⟨h₂, hg⟩ ⟨h, ht⟩).ne_error e)
  · intro acc t tail hk e he
    rw [orTail, if_neg hk] at he
    cases he
  -- `&`
  · intro ts e he ih
    exact fails_level .and he (ih e he)
  · intro ts f r₂ h₂ hg e he _ iht
    exact fails_level_tail .and ⟨h₂, hg⟩ he (iht e he)
  · intro ts f r₂ h₂ hg g r h ht _ _ e he
    exact absurd he ((parseAnd_step ⟨h₂, hg⟩ ⟨h, ht⟩).ne_error e)
  · intro acc e he
    exact absurd he ((andTail_stop (by simp [nextKind])).ne_error e)
  · intro acc t tail hk e he ih
    exact fails_tail .and hk he (ih e he)
  · intro acc t tail hk f r₂ h₂ hg e he _ iht
    exact fails_tail_tail .and hk ⟨h₂, hg⟩ he (iht e he)
  · intro acc t tail hk f r₂ h₂ hg g r h ht _ _ e he
    exact absurd he ((andTail_step hk ⟨h₂, hg⟩ ⟨h, ht⟩).ne_error e)
  · intro acc t tail hk e he
    rw [andTail, if_neg hk] at he
    cases he
  -- negations and operands
  · intro t rest hk e he ih e' he'
    obtain rfl := Except.error.inj ((unary_error_of_not hk he).symm.trans he')
    exact (ih e he).shift [t] (fun p hp => hp.not hk) fun _ _ _ _ _ h => unary_error_of_not hk h
  · intro t rest hk f r h hu _ e he
    exact absurd he ((parseUnary_not hk ⟨h, hu⟩).ne_error e)
  · intro t rest hk ih
    exact fails_unary_atom (by simpa [nextKind] using hk) ih
  · intro ih
    exact fails_unary_atom (by simp [nextKind]) ih
  · intro e he
    rw [parseAtom] at he
    cases he
    exact .inr ⟨rfl, .atom_nil⟩
  · intro t tail hk e he
    exact absurd he ((parseAtom_ident hk tail).ne_error e)
  · intro t tail hni hl e he ih e' he'
    obtain rfl := Except.error.inj ((atom_error_of_iff hl he).symm.trans he')
    exact (ih e he).shift [t] (fun p hp => hp.paren hl) fun _ _ _ _ _ h => atom_error_of_iff hl h
  · intro t tail hni hl f c rest _ hc h₂ hi _ e he
    have hp : Reads (parseAtom stop (t :: tail)) f rest := by
      refine ⟨by rw [List.length_cons] at h₂ ⊢; omega, ?_⟩
      rw [parseAtom, if_neg hni, if_pos hl, hi]
      simp only [hc, if_true]
    exact absurd he (hp.ne_error e)
  · intro t tail hni hl f c rest _ hc h₂ hi _ e he
    obtain rfl := Except.error.inj ((atom_error_unclosed hl ⟨h₂, hi⟩ hc).symm.trans he)
    obtain ⟨q, rfl, hd⟩ := Reads.derives rfl (show Reads (Sym.parse stop .iff tail) f (c :: rest) from ⟨h₂, hi⟩)
    refine .inl ⟨t :: q, c, rest, rfl, rfl, ?_, fun q' => ?_⟩
    · exact ⟨[⟨.rparen, ")", 0⟩], f, .paren hl hd rfl⟩
    · have hr : Reads (Sym.parse stop .iff (q ++ c :: q')) f (c :: q') :=
        Reads.of_nextKind rfl ⟨h₂, hi⟩ rfl
      exact atom_error_unclosed hl hr hc
  · intro t tail hni hl f _ h₂ hi _ e he
    obtain rfl := Except.error.inj ((atom_error_end hl ⟨h₂, hi⟩).symm.trans he)
    obtain ⟨q, rfl, hd⟩ := Reads.derives rfl (show Reads (Sym.parse stop .iff tail) f [] from ⟨h₂, hi⟩)
    refine .inr ⟨rfl, [⟨.rparen, ")", 0⟩], f, ?_⟩
    simpa using Derives.paren hl hd rfl
  · intro t tail hni hl e he
    obtain rfl := Except.error.inj ((atom_error_missing hni hl).symm.trans he)
    exact .inl ⟨[], t, tail, rfl, rfl, .atom_nil, fun _ => atom_error_missing hni hl⟩

/-! ### Where the parser rejects a text -/

section Rejection

variable {stop pos : Nat} {ts : List Token} {e : SyntaxError}

/-- The position where tokens stop beginning a formula: that of the first token after which they
begin none, or `stop`, their end, when all of them begin one. -/
def StopsAt (stop : Nat) (ts : List Token) (pos : Nat) : Prop :=
  (∃ p t q, ts = p ++ t :: q ∧ pos = t.pos ∧ Completable .iff p ∧ ¬ Completable .iff (p ++ [t])) ∨
    (pos = stop ∧ Completable .iff ts)

/-- Tokens before which a parse fails whatever follows begin no formula. -/
theorem not_completable_of_fails {p : List Token} {t : Token}
    (h : ∀ q', Sym.parse stop .iff (p ++ t :: q') = .error e) : ¬ Completable .iff (p ++ [t]) := by
  rintro ⟨c, f, hd⟩
  have hr := hd.reads stop [] (ends_nil _)
  rw [List.append_nil, List.append_assoc, List.singleton_append] at hr
  exact hr.ne_error e (h c)

theorem FailsAt.stopsAt (h : FailsAt stop .iff ts e) : StopsAt stop ts e.pos := by
  rcases h with ⟨p, t, q, hts, hpos, hp, hq⟩ | hend
  · exact .inl ⟨p, t, q, hts, hpos, hp, not_completable_of_fails hq⟩
  · exact .inr hend

/-- A formula read whole with a token after it: the tokens up to it begin no formula, as every
continuation of them reads the same formula and leaves that token. -/
theorem stopsAt_trailing {f : Formula} {t : Token} {rest : List Token}
    (hf : Reads (parseIff stop ts) f (t :: rest)) : StopsAt stop ts t.pos := by
  obtain ⟨q, rfl, hd⟩ := Reads.derives rfl (show Reads (Sym.parse stop .iff ts) f (t :: rest) from hf)
  refine .inl ⟨q, t, rest, rfl, rfl, ⟨[], f, by rwa [List.append_nil]⟩, ?_⟩
  rintro ⟨c, g, hc⟩
  have hr := hc.reads stop [] (ends_nil _)
  rw [List.append_nil, List.append_assoc, List.singleton_append] at hr
  have hr' : Reads (Sym.parse stop .iff (q ++ t :: c)) f (t :: c) := Reads.of_nextKind rfl hf rfl
  exact List.cons_ne_nil t c (hr.eq hr').2.symm

theorem StopsAt.le (h : StopsAt stop ts pos) (hts : ∀ t ∈ ts, t.pos < stop) : pos ≤ stop := by
  rcases h with ⟨p, t, q, rfl, rfl, -, -⟩ | ⟨rfl, -⟩
  · exact Nat.le_of_lt (hts t (by simp))
  · exact Nat.le_refl _

theorem StopsAt.of_completable (h : StopsAt stop ts pos) (hc : Completable .iff ts) :
    pos = stop := by
  rcases h with ⟨p, t, q, rfl, -, -, hn⟩ | ⟨hpos, -⟩
  · exact absurd (Completable.of_append (show Completable .iff ((p ++ [t]) ++ q) by simpa using hc))
      hn
  · exact hpos

theorem StopsAt.of_not_completable (h : StopsAt stop ts pos) (hc : ¬ Completable .iff ts) :
    ∃ p t q, ts = p ++ t :: q ∧ pos = t.pos ∧ Completable .iff p ∧ ¬ Completable .iff (p ++ [t]) := by
  rcases h with htok | ⟨-, hts⟩
  · exact htok
  · exact absurd hts hc

/-- A text that lexes is rejected where its tokens stop beginning a formula. -/
theorem parse_stopsAt {text : String} (hscan : scan 0 text.toUTF8.toList = .ok ts)
    (h : parse text = .error e) : StopsAt text.toUTF8.toList.length ts e.pos := by
  unfold parse at h
  dsimp only at h
  rw [hscan] at h
  dsimp only at h
  split at h
  · next e₁ he =>
    cases h
    exact ((parsers_fail _).1 ts e he).stopsAt
  · cases h
  · next f t rest hl hp =>
    cases h
    exact stopsAt_trailing ⟨hl, hp⟩

end Rejection

end Formula

end DecisionDiagrams
