/-
Reading tokens off the bytes of a text.

The lexer works on the UTF-8 bytes of a text. The texts the simplifier writes and reads back are
made of names, operator symbols, parentheses and spaces, all ASCII, so each of their characters
is one byte.

* `Token.isName` — a name: a text whose bytes are `[a-z_][a-z0-9_]*`. The text of an identifier
  token is a name (`scan_ident_isName`), and a name's bytes give it back (`asciiText_bytes`).
* `Token.scan_blank`, `Token.scan_identifier`, `Token.scan_symbol` — the scanner reads one blank,
  identifier or symbol off the front of the bytes.
* `identifiers_of_scan` — on bytes that the lexer reads, the identifiers are the texts of the
  identifier tokens, in order.
-/
import Mathlib
import DecisionDiagrams.Formula.Token

namespace DecisionDiagrams

/-! ### Bytes of texts -/

theorem ByteArray.toList_eq_data (bs : ByteArray) : bs.toList = bs.data.toList := by
  -- the loop conses bytes onto an accumulator and reverses it at the end
  suffices h : ∀ i r, ByteArray.toList.loop bs i r = r.reverse ++ bs.data.toList.drop i by
    simpa [ByteArray.toList] using h 0 []
  intro i r
  fun_induction ByteArray.toList.loop bs i r with
  | case1 i r hi ih =>
    have hlt : i < bs.data.toList.length := by simpa using hi
    rw [ih, List.reverse_cons, List.append_assoc, List.singleton_append,
      List.drop_eq_getElem_cons hlt]
    simp [ByteArray.get!, getElem!_pos bs.data i (by simpa using hi)]
  | case2 i r hi =>
    have hle : bs.data.toList.length ≤ i := by simp; omega
    simp [List.drop_eq_nil_of_le hle]

theorem toUTF8_append_toList (s t : String) :
    (s ++ t).toUTF8.toList = s.toUTF8.toList ++ t.toUTF8.toList := by
  simp [ByteArray.toList_eq_data, String.toUTF8, String.toByteArray_append]

/-- Texts with the same bytes are equal. -/
theorem eq_of_toUTF8_toList {s t : String} (h : s.toUTF8.toList = t.toUTF8.toList) : s = t := by
  rw [ByteArray.toList_eq_data, ByteArray.toList_eq_data] at h
  exact String.toByteArray_inj.1 (ByteArray.ext (Array.ext' h))

namespace Token

/-- The bytes of an ASCII text are its characters. -/
theorem asciiText_toUTF8 {bs : List UInt8} (h : ∀ b ∈ bs, b < 128) :
    (asciiText bs).toUTF8.toList = bs := by
  have hchar : ∀ b ∈ bs, String.utf8EncodeChar (Char.ofNat b.toNat) = [b] := by
    intro b hb
    have hlt : b.toNat < 128 := by simpa [UInt8.lt_iff_toNat_lt] using h b hb
    have hv : (Char.ofNat b.toNat).toNat = b.toNat := by
      rw [Char.toNat_ofNat, if_pos (Or.inl (by omega))]
    rw [String.utf8EncodeChar_eq_singleton]
    · simp only [List.cons.injEq, and_true]
      apply UInt8.toNat_inj.1
      rw [UInt32.toNat_toUInt8, ← Char.toNat, hv, Nat.mod_eq_of_lt (by omega)]
    · rw [Char.utf8Size_eq_one_iff, UInt32.le_iff_toNat_le, ← Char.toNat, hv]
      simp; omega
  simp only [asciiText, String.toUTF8, String.toByteArray_ofList, List.utf8Encode,
    ByteArray.toList_eq_data, List.toList_data_toByteArray, List.flatMap_map]
  rw [List.flatMap_congr hchar, List.flatMap_singleton']

/-! ### Names -/

/-- Identifier bytes: a start byte, then identifier bytes. -/
def isIdentifier : List UInt8 → Bool
  | [] => false
  | b :: body => isIdentStart b && body.all isIdentPart

/-- A name: a text whose bytes are `[a-z_][a-z0-9_]*`. -/
def isName (x : String) : Bool :=
  isIdentifier x.toUTF8.toList

theorem isIdentPart_lt {b : UInt8} (h : isIdentPart b) : b < 128 := by
  simp only [isIdentPart, isIdentStart, Bool.or_eq_true, beq_iff_eq, Bool.and_eq_true,
    decide_eq_true_eq, UInt8.le_iff_toNat_le, UInt8.ext_iff] at h
  rw [UInt8.lt_iff_toNat_lt]
  simp only [UInt8.reduceToNat] at h ⊢
  omega

theorem isBlank_of_isIdentStart {b : UInt8} (h : isIdentStart b) : isBlank b = false := by
  simp only [isIdentStart, isBlank, Bool.or_eq_true, beq_iff_eq, Bool.and_eq_true,
    decide_eq_true_eq, UInt8.le_iff_toNat_le, UInt8.ext_iff, Bool.or_eq_false_iff,
    beq_eq_false_iff_ne, ne_eq] at h ⊢
  simp only [UInt8.reduceToNat] at h ⊢
  omega

theorem isIdentPart_of_isIdentStart {b : UInt8} (h : isIdentStart b) : isIdentPart b := by
  simp [isIdentPart, h]

theorem isIdentifier_ascii {bs : List UInt8} (h : isIdentifier bs) : ∀ b ∈ bs, b < 128 := by
  match bs, h with
  | b :: body, h =>
    simp only [isIdentifier, Bool.and_eq_true, List.all_eq_true] at h
    intro c hc
    rcases List.mem_cons.1 hc with rfl | hc
    · exact isIdentPart_lt (isIdentPart_of_isIdentStart h.1)
    · exact isIdentPart_lt (h.2 c hc)

theorem isName_asciiText {bs : List UInt8} (h : isIdentifier bs) : isName (asciiText bs) := by
  rw [isName, asciiText_toUTF8 (isIdentifier_ascii h)]
  exact h

/-- A name is the text of its bytes. -/
theorem asciiText_bytes {x : String} (h : isName x) : asciiText x.toUTF8.toList = x :=
  eq_of_toUTF8_toList (asciiText_toUTF8 (isIdentifier_ascii h))

/-! ### One token at a time -/

/-- A symbol is no identifier, starts with none of the bytes of blanks and identifiers, and
what it leaves after its first byte starts no identifier either. -/
theorem symbol_first {b : UInt8} {rest r : List UInt8} {k : TokenKind} {s : String}
    (h : symbol b rest = some (k, s, r)) :
    k ≠ .ident ∧ isBlank b = false ∧ isIdentStart b = false ∧
      identifierBytes rest = identifierBytes r := by
  unfold symbol at h
  simp only [beq_iff_eq] at h
  repeat' split at h
  all_goals first
    | (simp only [Option.some.injEq, Prod.mk.injEq] at h
       obtain ⟨rfl, -, rfl⟩ := h
       subst_vars
       exact ⟨by decide, by decide, by decide, by simp [identifierBytes, isIdentStart]⟩)
    | simp at h

theorem scan_blank {b : UInt8} (h : isBlank b) (pos : Nat) (rest : List UInt8) :
    scan pos (b :: rest) = scan (pos + 1) rest := by
  rw [scan, if_pos h]

theorem scan_identifier {bs rest : List UInt8} (hb : isIdentifier bs)
    (hr : rest.takeWhile isIdentPart = []) (pos : Nat) :
    scan pos (bs ++ rest) =
      (⟨.ident, asciiText bs, pos⟩ :: ·) <$> scan (pos + bs.length) rest := by
  match bs, hb with
  | b :: body, hb =>
    simp only [isIdentifier, Bool.and_eq_true, List.all_eq_true] at hb
    have htake : (body ++ rest).takeWhile isIdentPart = body := by
      rw [List.takeWhile_append_of_pos hb.2, hr, List.append_nil]
    have hdrop : (body ++ rest).dropWhile isIdentPart = rest := by
      rw [List.dropWhile_append_of_pos hb.2]
      cases rest with
      | nil => rfl
      | cons c r =>
        simp only [List.takeWhile_cons] at hr
        split at hr
        · exact absurd hr (List.cons_ne_nil _ _)
        · simp [*]
    rw [List.cons_append, scan, if_neg (by simp [isBlank_of_isIdentStart hb.1]), if_pos hb.1,
      htake, hdrop]
    rw [List.length_cons, show pos + (body.length + 1) = pos + 1 + body.length by omega]
    dsimp only
    cases scan (pos + 1 + body.length) rest <;> rfl

theorem scan_symbol {b : UInt8} {rest r : List UInt8} {k : TokenKind} {s : String}
    (h : symbol b rest = some (k, s, r)) (pos : Nat) :
    scan pos (b :: rest) = (⟨k, s, pos⟩ :: ·) <$> scan (pos + s.length) r := by
  obtain ⟨-, hnb, hni, -⟩ := symbol_first h
  rw [scan, if_neg (by simp [hnb]), if_neg (by simp [hni])]
  split
  next k' s' r' hs =>
    rw [h, Option.some.injEq, Prod.mk.injEq, Prod.mk.injEq] at hs
    obtain ⟨rfl, rfl, rfl⟩ := hs
    dsimp only
    cases scan (pos + s.length) r <;> rfl
  next hs => exact absurd h (by simp [hs])

theorem isIdentStart_of_isBlank {b : UInt8} (h : isBlank b) : isIdentStart b = false := by
  cases hs : isIdentStart b
  · rfl
  · rw [isBlank_of_isIdentStart hs] at h
    exact absurd h Bool.false_ne_true

/-! ### Whole texts -/

/-- The text of every identifier token read is a name. -/
theorem scan_ident_isName {pos : Nat} {bs : List UInt8} {ts : List Token}
    (h : scan pos bs = .ok ts) : ∀ t ∈ ts, t.kind = .ident → isName t.text := by
  fun_induction scan pos bs generalizing ts with
  | case1 pos =>
    cases h
    simp
  | case2 pos b rest hb ih => exact ih h
  | case3 pos b rest hnb hid body ts' hts =>
    rename_i ih
    cases h
    intro t ht hk
    rcases List.mem_cons.1 ht with rfl | ht
    · apply isName_asciiText
      simp only [isIdentifier, hid, Bool.true_and, List.all_eq_true]
      exact fun c hc => List.mem_takeWhile_imp hc
    · exact ih hts t ht hk
  | case4 => cases h
  | case5 pos b rest hnb hni k s r hs hlen ts' hts ih =>
    cases h
    intro t ht hk
    rcases List.mem_cons.1 ht with rfl | ht
    · exact absurd hk (symbol_first hs).1
    · exact ih hts t ht hk
  | case6 => cases h
  | case7 => cases h

/-- On bytes that the lexer reads, the identifiers are the texts of the identifier tokens. -/
theorem identifiers_of_scan {pos : Nat} {bs : List UInt8} {ts : List Token}
    (h : scan pos bs = .ok ts) :
    (identifierBytes bs).map asciiText = (ts.filter (·.kind == .ident)).map (·.text) := by
  fun_induction scan pos bs generalizing ts with
  | case1 pos =>
    cases h
    simp [identifierBytes]
  | case2 pos b rest hb ih =>
    rw [identifierBytes, if_neg (by simp [isIdentStart_of_isBlank hb])]
    exact ih h
  | case3 pos b rest hnb hid body ts' hts =>
    rename_i ih
    cases h
    rw [identifierBytes, if_pos hid, List.map_cons, ih hts]
    simp only [List.filter_cons, beq_self_eq_true, if_true, List.map_cons]
    rfl
  | case4 => cases h
  | case5 pos b rest hnb hni k s r hs hlen ts' hts ih =>
    cases h
    obtain ⟨hk, -, -, hrest⟩ := symbol_first hs
    rw [identifierBytes, if_neg hni, hrest, ih hts]
    simp [hk]
  | case6 => cases h
  | case7 => cases h

end Token

end DecisionDiagrams
