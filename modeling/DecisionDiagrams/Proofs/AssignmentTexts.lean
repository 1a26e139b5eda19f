/-
Assignments read back from their text.

An assignment is written as `name:bit` tokens joined by single spaces, sorted by name. Reading
cuts a text into its fields at white space, cuts each field at its first colon, and sets the
names one after the other. So reading gives back every assignment whose names are not empty and
hold neither white space nor a colon; it succeeds exactly when every field is a token `name:0`
or `name:1` with such a name, gives each name the bit of its last token, and the text of what it
reads reads back to it.

* `splitOn_colon`, `Text.fields_intercalate` — the string functions on characters.
* `Assignment.parseToken_eq_ok_iff`, `Assignment.parse_ok_iff_tokens` — what reading a token
  and a text answers; gathered in `Assignment.parse_text_round_trip`.
-/
import Mathlib
import DecisionDiagrams.Diagram.Assignment
import DecisionDiagrams.Proofs.FifoEntries

namespace DecisionDiagrams

/-! ### Splitting at a colon -/

open String in
/-- Splitting at colons from the text `l ++ m ++ r`, at the end of `l ++ m` with `m` read since the
last colon, splits the characters of `r`. -/
theorem splitOnAux_colon (l m r : List Char) (acc : List String) :
    String.splitOnAux (String.ofList (l ++ m ++ r)) ":" ⟨utf8Len l⟩ ⟨utf8Len l + utf8Len m⟩ 0 acc =
      acc.reverse ++ (List.splitOnPPrepend (· == ':') r m.reverse).map String.ofList := by
  induction r generalizing l m acc with
  | nil =>
    unfold String.splitOnAux
    simp only [atEnd_iff, rawEndPos_ofList, List.append_nil, utf8Len_append]
    rw [if_pos (Pos.Raw.mk_le_mk.2 (Nat.le_refl _))]
    simpa using extract_of_valid l m []
  | cons c r ih =>
    unfold String.splitOnAux
    have hnot : ¬(String.ofList (l ++ m ++ c :: r)).rawEndPos ≤
        (⟨utf8Len l + utf8Len m⟩ : Pos.Raw) := by
      simp only [rawEndPos_ofList, utf8Len_append, utf8Len_cons, Pos.Raw.mk_le_mk]
      have := c.utf8Size_pos
      omega
    simp only [atEnd_iff]
    rw [if_neg hnot]
    have hget : Pos.Raw.get (String.ofList (l ++ m ++ c :: r)) ⟨utf8Len l + utf8Len m⟩ = c := by
      simpa using get_of_valid (l ++ m) (c :: r)
    have hnext : Pos.Raw.next (String.ofList (l ++ m ++ c :: r)) ⟨utf8Len l + utf8Len m⟩ =
        ⟨utf8Len l + utf8Len m + c.utf8Size⟩ := by
      simpa using next_of_valid (l ++ m) c r
    have hsep : Pos.Raw.get ":" 0 = ':' := rfl
    rw [hget, hsep]
    by_cases hc : c = ':'
    · -- a colon closes the piece `m` and starts an empty one after it
      subst hc
      have hend : ":".rawEndPos ≤ Pos.Raw.next ":" 0 := by decide
      rw [if_pos (by decide), if_pos hend, hnext]
      have hpos : (⟨utf8Len l + utf8Len m + ':'.utf8Size⟩ : Pos.Raw).unoffsetBy
          (Pos.Raw.next ":" 0) = ⟨utf8Len l + utf8Len m⟩ := rfl
      rw [hpos, extract_of_valid l m (':' :: r)]
      have := ih (l ++ m ++ [':']) [] (String.ofList m :: acc)
      simp only [List.append_nil, utf8Len_append, utf8Len_cons, utf8Len_nil, List.reverse_nil,
        List.append_assoc, List.cons_append, List.nil_append, Nat.add_zero] at this ⊢
      rw [show utf8Len l + utf8Len m + ':'.utf8Size = utf8Len l + (utf8Len m + (0 + ':'.utf8Size))
        by omega, this, List.splitOnPPrepend_cons_pos (by decide)]
      simp
    · -- another character extends the piece
      rw [if_neg (by simpa using hc)]
      have hpos : (⟨utf8Len l + utf8Len m⟩ : Pos.Raw).unoffsetBy 0 = ⟨utf8Len l + utf8Len m⟩ := rfl
      rw [hpos, hnext]
      have := ih l (m ++ [c]) acc
      simp only [List.append_assoc, List.cons_append, List.nil_append, utf8Len_append,
        utf8Len_cons, utf8Len_nil, List.reverse_append, List.reverse_cons, List.reverse_nil] at this ⊢
      rw [show utf8Len l + utf8Len m + c.utf8Size = utf8Len l + (utf8Len m + (0 + c.utf8Size))
        by omega, this, List.splitOnPPrepend_cons_neg (by simpa using hc)]

/-- Splitting a text at colons splits its characters. -/
theorem splitOn_colon (s : String) : s.splitOn ":" = (s.toList.splitOn ':').map String.ofList := by
  have h := splitOnAux_colon [] [] s.toList []
  simp only [List.nil_append, String.ofList_toList, String.utf8Len_nil, Nat.add_zero,
    List.reverse_nil] at h
  unfold String.splitOn
  rw [if_neg (by decide)]
  exact h

/-- Characters with a colon split at the first one. -/
theorem exists_first_colon {cs : List Char} (h : ':' ∈ cs) :
    ∃ pre post, cs = pre ++ ':' :: post ∧ ':' ∉ pre := by
  induction cs with
  | nil => cases h
  | cons c cs ih =>
    by_cases hc : c = ':'
    · exact ⟨[], cs, by rw [hc]; rfl, List.not_mem_nil⟩
    · obtain ⟨pre, post, rfl, hpre⟩ := ih ((List.mem_cons.1 h).resolve_left (Ne.symm hc))
      refine ⟨c :: pre, post, rfl, fun hmem => ?_⟩
      rcases List.mem_cons.1 hmem with h | h
      · exact hc h.symm
      · exact hpre h

/-- The split at the first colon is the only one whose first part holds no colon. -/
theorem first_colon_unique {pre post pre' post' : List Char} (hpre : ':' ∉ pre)
    (hpre' : ':' ∉ pre') (h : pre ++ ':' :: post = pre' ++ ':' :: post') :
    pre = pre' ∧ post = post' := by
  have hsplit := congrArg (List.splitOn ':') h
  rw [List.splitOn_append_cons_self_of_not_mem hpre,
    List.splitOn_append_cons_self_of_not_mem hpre'] at hsplit
  obtain ⟨rfl, hrest⟩ := List.cons.inj hsplit
  refine ⟨rfl, ?_⟩
  -- the rest is what its pieces join back to
  have hjoin : [':'].intercalate (post.splitOn ':') = post := List.intercalate_splitOn ':'
  rw [← hjoin, hrest, List.intercalate_splitOn]

/-! ### Fields -/

namespace Text

theorem fieldsAux_append_of_noSpace {w : List Char} (hw : ∀ c ∈ w, isSpace c = false)
    (rest cur : List Char) : fieldsAux (w ++ rest) cur = fieldsAux rest (w.reverse ++ cur) := by
  induction w generalizing cur with
  | nil => rfl
  | cons c w ih =>
    rw [List.cons_append, fieldsAux, if_neg (by simp [hw c (List.mem_cons_self ..)]),
      ih (fun d hd => hw d (List.mem_cons_of_mem c hd))]
    simp

/-- The fields of words without white space joined by spaces are the words. -/
theorem fieldsAux_intercalate :
    ∀ ws : List String, (∀ w ∈ ws, w ≠ "" ∧ ∀ c ∈ w.toList, isSpace c = false) →
      fieldsAux ([' '].intercalate (ws.map String.toList)) [] = ws
  | [], _ => rfl
  | [w], hw => by
    have hne : w.toList ≠ [] := by simpa using (hw w (List.mem_singleton_self w)).1
    rw [List.map_singleton, List.intercalate_singleton,
      ← List.append_nil w.toList, fieldsAux_append_of_noSpace (hw w (List.mem_singleton_self w)).2]
    simp [fieldsAux, hne]
  | w :: w' :: ws, hw => by
    have hw₀ := hw w (List.mem_cons_self ..)
    have hne : w.toList ≠ [] := by simpa using hw₀.1
    rw [List.map_cons, List.map_cons, List.intercalate_cons_cons, List.append_assoc,
      List.singleton_append,
      fieldsAux_append_of_noSpace hw₀.2, fieldsAux, if_pos (by decide),
      if_neg (by simpa using hne), ← List.map_cons,
      fieldsAux_intercalate (w' :: ws) fun v hv => hw v (List.mem_cons_of_mem w hv)]
    simp

/-- Words without white space, joined by single spaces, are the fields of the text. -/
theorem fields_intercalate {ws : List String}
    (hw : ∀ w ∈ ws, w ≠ "" ∧ ∀ c ∈ w.toList, isSpace c = false) :
    fields (" ".intercalate ws) = ws := by
  rw [fields, String.toList_intercalate]
  exact fieldsAux_intercalate ws hw

/-- Every field is a word without white space. -/
theorem mem_fieldsAux :
    ∀ (cs cur : List Char), (∀ c ∈ cur, isSpace c = false) → ∀ tok ∈ fieldsAux cs cur,
      tok ≠ "" ∧ ∀ c ∈ tok.toList, isSpace c = false
  | [], cur, hcur, tok, htok => by
    rw [fieldsAux] at htok
    split at htok
    · cases htok
    · rename_i hne
      rw [List.mem_singleton.1 htok]
      refine ⟨fun h => hne ?_, fun c hc => hcur c (by simpa using hc)⟩
      simpa using congrArg String.toList h
  | c :: cs, cur, hcur, tok, htok => by
    rw [fieldsAux] at htok
    split at htok
    · split at htok
      · exact mem_fieldsAux cs [] (fun _ h => nomatch h) tok htok
      · rename_i hne
        rcases List.mem_cons.1 htok with rfl | htok
        · refine ⟨fun h => hne ?_, fun c hc => hcur c (by simpa using hc)⟩
          simpa using congrArg String.toList h
        · exact mem_fieldsAux cs [] (fun _ h => nomatch h) tok htok
    · rename_i hc
      refine mem_fieldsAux cs (c :: cur) (fun d hd => ?_) tok htok
      rcases List.mem_cons.1 hd with rfl | hd
      · simpa using hc
      · exact hcur d hd

theorem mem_fields {s tok : String} (h : tok ∈ fields s) :
    tok ≠ "" ∧ ∀ c ∈ tok.toList, isSpace c = false :=
  mem_fieldsAux s.toList [] (fun _ h => nomatch h) tok h

end Text

namespace Assignment

/-! ### Tokens -/

/-- The token that writes a name with its value. -/
def tokenText (p : String × Bool) : String :=
  p.1 ++ ":" ++ bitText p.2

theorem text_eq (a : Assignment) : a.text = " ".intercalate (a.entries.map tokenText) := rfl

/-- A name that a token can carry: not empty, and without a colon. -/
def NameOk (x : String) : Prop :=
  x ≠ "" ∧ ':' ∉ x.toList

/-- A name that the text of an assignment carries back: a name a token can carry, without white
space. -/
def Writable (x : String) : Prop :=
  NameOk x ∧ ∀ c ∈ x.toList, Text.isSpace c = false

theorem bitText_toList (b : Bool) : (bitText b).toList = [if b then '1' else '0'] := by
  cases b <;> rfl

theorem toList_tokenText (p : String × Bool) :
    (tokenText p).toList = p.1.toList ++ ':' :: (bitText p.2).toList := by
  simp [tokenText, String.toList_append]

/-- A token cut at a colon whose first part holds none reads as that part and the bit after it. -/
theorem parseToken_split {pre post : List Char} (hpre : ':' ∉ pre) :
    parseToken (String.ofList (pre ++ ':' :: post)) =
      if (String.ofList pre).isEmpty then .error (.of (.assignment (String.ofList (pre ++ ':' :: post))
        "missing variable name"))
      else if String.ofList post = "0" then .ok (String.ofList pre, false)
      else if String.ofList post = "1" then .ok (String.ofList pre, true)
      else .error (.of (.assignment (String.ofList (pre ++ ':' :: post))
        ("bit must be 0 or 1, found " ++ Text.quote (String.ofList post)))) := by
  obtain ⟨q, qs, hq⟩ := List.exists_cons_of_ne_nil (List.splitOn_ne_nil ':' post)
  -- the pieces after the first colon join back to the rest of the token
  have hbit : ":".intercalate (String.ofList q :: qs.map String.ofList) = String.ofList post := by
    apply String.toList_inj.1
    have hcolon : ":".toList = [':'] := rfl
    rw [← List.map_cons, ← hq, String.toList_intercalate, hcolon, List.map_map]
    simp only [Function.comp_def, String.toList_ofList, List.map_id']
    exact List.intercalate_splitOn ':'
  unfold parseToken
  rw [splitOn_colon, String.toList_ofList, List.splitOn_append_cons_self_of_not_mem hpre, hq,
    List.map_cons, List.map_cons]
  simp only []
  rw [hbit]

/-- A token reads as a name and a bit exactly when it is the name, a colon and the bit, and the
name is not empty and holds no colon. -/
theorem parseToken_eq_ok_iff (tok : String) (p : String × Bool) :
    parseToken tok = .ok p ↔ NameOk p.1 ∧ tok = tokenText p := by
  obtain ⟨x, v⟩ := p
  by_cases hcol : ':' ∈ tok.toList
  · obtain ⟨pre, post, hcs, hpre⟩ := exists_first_colon hcol
    have htok : tok = String.ofList (pre ++ ':' :: post) := by
      rw [← hcs, String.ofList_toList]
    rw [htok, parseToken_split hpre]
    constructor
    · -- the name is the part before the colon, the bit the part after it
      intro h
      split at h
      · cases h
      · rename_i hemp
        have hbit : ∃ b, String.ofList post = bitText b ∧ (String.ofList pre, b) = (x, v) := by
          split at h
          · exact ⟨false, ‹_›, Except.ok.inj h⟩
          · split at h
            · exact ⟨true, ‹_›, Except.ok.inj h⟩
            · cases h
        obtain ⟨b, hb, hxv⟩ := hbit
        obtain ⟨rfl, rfl⟩ := Prod.mk.inj hxv
        refine ⟨⟨fun he => hemp (String.isEmpty_iff.2 he), by simpa using hpre⟩,
          String.toList_inj.1 ?_⟩
        rw [String.toList_ofList, toList_tokenText, ← hb]
        simp
    · -- a token that writes the name and the bit is cut at the colon after the name
      rintro ⟨⟨hx, hxcol⟩, heq⟩
      have hcs := congrArg String.toList heq
      rw [String.toList_ofList, toList_tokenText] at hcs
      obtain ⟨rfl, rfl⟩ := first_colon_unique hpre hxcol hcs
      simp only [String.ofList_toList]
      rw [if_neg (fun h => hx (String.isEmpty_iff.1 h))]
      cases v <;> simp [bitText]
  · -- without a colon a token is no name and bit
    have hsplit : tok.splitOn ":" = [tok] := by
      rw [splitOn_colon, List.splitOn_eq_singleton hcol, List.map_singleton, String.ofList_toList]
    have hne : ¬ parseToken tok = .ok (x, v) := by
      unfold parseToken
      rw [hsplit]
      simp
    refine ⟨fun h => absurd h hne, fun ⟨_, h⟩ => absurd ?_ hcol⟩
    rw [h, toList_tokenText]
    simp

/-! ### Setting values -/

/-- Entries sorted by name, each name once: the assignments that a map from names to values
gives. -/
def Sorted (a : Assignment) : Prop :=
  a.entries.Pairwise fun p q => p.1 < q.1

/-- Setting `x` answers `v` for `x` and leaves every other name as it was. -/
theorem find?_insertSorted (x y : String) (v : Bool) :
    ∀ l : List (String × Bool), ((insertSorted x v l).find? (·.1 == y)).map (·.2) =
      if x = y then some v else (l.find? (·.1 == y)).map (·.2)
  | [] => by by_cases h : x = y <;> simp [insertSorted, h]
  | (z, w) :: rest => by
    unfold insertSorted
    split
    · by_cases h : x = y <;> simp [h]
    · split
      · rename_i hxz
        subst hxz
        by_cases h : x = y <;> simp [h]
      · rename_i hxz
        -- the entry kept in front is not `x`, so it answers the same before and after
        by_cases hzy : z = y
        · subst hzy
          simp [hxz]
        · have hzy' : (z == y) = false := beq_false_of_ne hzy
          simp only [List.find?_cons, hzy', find?_insertSorted x y v rest]

theorem get?_set (a : Assignment) (x y : String) (v : Bool) :
    (a.set x v).get? y = if x = y then some v else a.get? y :=
  find?_insertSorted x y v a.entries

theorem mem_insertSorted {x : String} {v : Bool} {q : String × Bool} :
    ∀ {l : List (String × Bool)}, q ∈ insertSorted x v l → q = (x, v) ∨ q ∈ l
  | [], h => by simpa [insertSorted] using h
  | (z, w) :: rest, h => by
    unfold insertSorted at h
    split at h
    · simpa using h
    · split at h
      · rcases List.mem_cons.1 h with h | h
        · exact .inl h
        · exact .inr (List.mem_cons_of_mem _ h)
      · rcases List.mem_cons.1 h with h | h
        · exact .inr (h ▸ List.mem_cons_self ..)
        · exact (mem_insertSorted h).imp_right (List.mem_cons_of_mem _)

theorem pairwise_insertSorted (x : String) (v : Bool) :
    ∀ {l : List (String × Bool)}, l.Pairwise (fun p q => p.1 < q.1) →
      (insertSorted x v l).Pairwise fun p q => p.1 < q.1
  | [], _ => List.pairwise_singleton _ _
  | (z, w) :: rest, h => by
    rw [List.pairwise_cons] at h
    unfold insertSorted
    split
    · rename_i hxz
      refine List.Pairwise.cons (fun q hq => ?_) (List.Pairwise.cons h.1 h.2)
      rcases List.mem_cons.1 hq with rfl | hq
      · exact hxz
      · exact lt_trans hxz (h.1 q hq)
    · split
      · rename_i hxz
        subst hxz
        exact List.Pairwise.cons h.1 h.2
      · rename_i hxz' hxz
        -- `z` comes before `x`, and before every entry after it
        have hzx : z < x := lt_of_le_of_ne (not_lt.1 hxz') (Ne.symm hxz)
        refine List.Pairwise.cons (fun q hq => ?_) (pairwise_insertSorted x v h.2)
        rcases mem_insertSorted hq with rfl | hq
        · exact hzx
        · exact h.1 q hq

theorem Sorted.set {a : Assignment} (ha : a.Sorted) (x : String) (v : Bool) : (a.set x v).Sorted :=
  pairwise_insertSorted x v ha

theorem Sorted.keys_nodup {a : Assignment} (ha : a.Sorted) : (a.entries.map (·.1)).Nodup :=
  List.pairwise_map.2 (ha.imp ne_of_lt)

/-- With each name once, the value found for a name is the value of its entry. -/
theorem find?_key_eq_some_iff {l : List (String × Bool)} (hnd : (l.map (·.1)).Nodup)
    (x : String) (v : Bool) : (l.find? (·.1 == x)).map (·.2) = some v ↔ (x, v) ∈ l := by
  constructor
  · intro h
    obtain ⟨q, hq, rfl⟩ := Option.map_eq_some_iff.1 h
    have hqx : q.1 = x := by simpa using List.find?_some hq
    rw [← hqx]
    exact List.mem_of_find?_eq_some hq
  · intro h
    rw [Fifo.find?_key_of_nodup hnd h]
    rfl

theorem get?_eq_some_iff {a : Assignment} (ha : a.Sorted) (x : String) (v : Bool) :
    a.get? x = some v ↔ (x, v) ∈ a.entries :=
  find?_key_eq_some_iff ha.keys_nodup x v

/-- Sorted assignments with the same values are equal. -/
theorem eq_of_get?_eq {a b : Assignment} (ha : a.Sorted) (hb : b.Sorted)
    (h : ∀ x, a.get? x = b.get? x) : a = b := by
  have hmem : ∀ q, q ∈ a.entries ↔ q ∈ b.entries := fun ⟨x, v⟩ => by
    rw [← get?_eq_some_iff ha, ← get?_eq_some_iff hb, h]
  have hperm := (List.perm_ext_iff_of_nodup (List.Nodup.of_map _ ha.keys_nodup)
    (List.Nodup.of_map _ hb.keys_nodup)).2 hmem
  obtain ⟨la⟩ := a
  obtain ⟨lb⟩ := b
  -- two lists sorted by a strict order with the same entries are equal
  exact congrArg Assignment.mk (hperm.eq_of_pairwise
    (fun p q _ _ hpq hqp => absurd (lt_trans hpq hqp) (lt_irrefl _)) ha hb)

/-! ### Reading a text -/

/-- The value of the last token of name `x` among the tokens read. -/
def lastValue (ps : List (String × Bool)) (x : String) : Option Bool :=
  (ps.reverse.find? (·.1 == x)).map (·.2)

theorem lastValue_cons (p : String × Bool) (ps : List (String × Bool)) (x : String) :
    lastValue (p :: ps) x = (lastValue ps x).or (if p.1 = x then some p.2 else none) := by
  unfold lastValue
  rw [List.reverse_cons, List.find?_append]
  cases ps.reverse.find? (·.1 == x) <;> by_cases h : p.1 = x <;> simp [h]

/-- Setting the values read one after the other leaves each name with its last value. -/
theorem get?_foldl_set :
    ∀ (ps : List (String × Bool)) (a₀ : Assignment) (x : String),
      (ps.foldl (fun a p => a.set p.1 p.2) a₀).get? x = (lastValue ps x).or (a₀.get? x)
  | [], _, _ => rfl
  | p :: ps, a₀, x => by
    rw [List.foldl_cons, get?_foldl_set ps _ x, get?_set, lastValue_cons, Option.or_assoc]
    by_cases h : p.1 = x <;> simp [h]

theorem Sorted.foldl_set :
    ∀ (ps : List (String × Bool)) {a₀ : Assignment}, a₀.Sorted →
      (ps.foldl (fun a p => a.set p.1 p.2) a₀).Sorted
  | [], _, h => h
  | p :: ps, _, h => Sorted.foldl_set ps (h.set p.1 p.2)

/-- A fold of token readings succeeds exactly on tokens that write names and bits, and sets them
one after the other. -/
theorem foldlM_eq_ok_iff {f : Assignment → String → Except Failure Assignment}
    (hf : ∀ a tok b, f a tok = .ok b ↔ ∃ p, parseToken tok = .ok p ∧ b = a.set p.1 p.2) :
    ∀ (toks : List String) (a₀ a : Assignment), toks.foldlM f a₀ = .ok a ↔
      ∃ ps : List (String × Bool), toks = ps.map tokenText ∧ (∀ p ∈ ps, NameOk p.1) ∧
        a = ps.foldl (fun a p => a.set p.1 p.2) a₀
  | [], a₀, a => by
    constructor
    · intro h
      refine ⟨[], rfl, ?_, ?_⟩
      · intro p hp
        cases hp
      · exact (Except.ok.inj h).symm
    · rintro ⟨ps, hps, -, rfl⟩
      cases ps with
      | nil => rfl
      | cons _ _ => cases hps
  | tok :: toks, a₀, a => by
    rw [List.foldlM_cons]
    constructor
    · intro h
      cases hb : f a₀ tok with
      | error e =>
        rw [hb] at h
        cases h
      | ok b =>
        rw [hb] at h
        obtain ⟨p, hp, rfl⟩ := (hf a₀ tok b).1 hb
        obtain ⟨ps, htoks, hok, rfl⟩ := (foldlM_eq_ok_iff hf toks _ a).1 h
        obtain ⟨hname, htok⟩ := (parseToken_eq_ok_iff tok p).1 hp
        refine ⟨p :: ps, by rw [htok, htoks]; rfl, fun q hq => ?_, rfl⟩
        rcases List.mem_cons.1 hq with rfl | hq
        · exact hname
        · exact hok q hq
    · rintro ⟨ps, htoks, hok, rfl⟩
      cases ps with
      | nil => cases htoks
      | cons p ps =>
        obtain ⟨htok, htoks⟩ := List.cons.inj htoks
        have hp : parseToken tok = .ok p :=
          (parseToken_eq_ok_iff tok p).2 ⟨hok p (List.mem_cons_self ..), htok⟩
        rw [(hf a₀ tok _).2 ⟨p, hp, rfl⟩]
        exact (foldlM_eq_ok_iff hf toks _ _).2
          ⟨ps, htoks, fun q hq => hok q (List.mem_cons_of_mem p hq), rfl⟩

/-- Reading a text succeeds exactly when its fields are tokens that write names and bits; it then
sets them one after the other. -/
theorem parse_eq_foldl (t : String) (a : Assignment) :
    parse t = .ok a ↔ ∃ ps : List (String × Bool), Text.fields t = ps.map tokenText ∧
      (∀ p ∈ ps, NameOk p.1) ∧ a = ps.foldl (fun a p => a.set p.1 p.2) empty := by
  unfold parse
  refine foldlM_eq_ok_iff (fun a tok b => ?_) _ _ _
  cases h : parseToken tok with
  | error e => simp [bind, Except.bind]
  | ok p =>
    simp only [bind, Except.bind, pure, Except.pure, Except.ok.injEq]
    constructor
    · rintro rfl
      exact ⟨p, rfl, rfl⟩
    · rintro ⟨q, rfl, rfl⟩
      rfl

/-- What reading a text answers: the fields of the text are tokens that write names and bits,
and the assignment read is sorted and gives each name the bit of its last token. -/
theorem parse_ok_iff_tokens (t : String) (a : Assignment) :
    parse t = .ok a ↔ ∃ ps : List (String × Bool), Text.fields t = ps.map tokenText ∧
      (∀ p ∈ ps, NameOk p.1) ∧ a.Sorted ∧ ∀ x, a.get? x = lastValue ps x := by
  rw [parse_eq_foldl]
  have hempty : empty.Sorted := List.Pairwise.nil
  constructor
  · rintro ⟨ps, hf, hok, rfl⟩
    refine ⟨ps, hf, hok, Sorted.foldl_set ps hempty, fun x => ?_⟩
    rw [get?_foldl_set]
    exact Option.or_none
  · rintro ⟨ps, hf, hok, hs, hget⟩
    refine ⟨ps, hf, hok, eq_of_get?_eq hs (Sorted.foldl_set ps hempty) fun x => ?_⟩
    rw [hget, get?_foldl_set]
    exact Option.or_none.symm

/-- Fields that are all tokens of names and bits are the tokens of a list of names and bits. -/
theorem exists_tokens :
    ∀ {toks : List String}, (∀ tok ∈ toks, ∃ p, NameOk p.1 ∧ tok = tokenText p) →
      ∃ ps : List (String × Bool), toks = ps.map tokenText ∧ ∀ p ∈ ps, NameOk p.1
  | [], _ => ⟨[], rfl, fun _ h => nomatch h⟩
  | tok :: toks, h => by
    obtain ⟨p, hp, rfl⟩ := h tok (List.mem_cons_self ..)
    obtain ⟨ps, rfl, hps⟩ := exists_tokens fun t ht => h t (List.mem_cons_of_mem _ ht)
    refine ⟨p :: ps, rfl, fun q hq => ?_⟩
    rcases List.mem_cons.1 hq with rfl | hq
    · exact hp
    · exact hps q hq

/-- Reading succeeds exactly when every field is a token of a name and a bit. -/
theorem parse_isOk_iff (t : String) :
    (∃ a, parse t = .ok a) ↔ ∀ tok ∈ Text.fields t, ∃ p, NameOk p.1 ∧ tok = tokenText p := by
  constructor
  · rintro ⟨a, h⟩ tok htok
    obtain ⟨ps, hf, hok, -⟩ := (parse_eq_foldl t a).1 h
    rw [hf] at htok
    obtain ⟨p, hp, rfl⟩ := List.mem_map.1 htok
    exact ⟨p, hok p hp, rfl⟩
  · intro h
    obtain ⟨ps, hf, hok⟩ := exists_tokens h
    exact ⟨_, (parse_eq_foldl t _).2 ⟨ps, hf, hok, rfl⟩⟩

/-- The last token of a name is one of the tokens read. -/
theorem exists_of_lastValue_eq_some {ps : List (String × Bool)} {x : String} {v : Bool}
    (h : lastValue ps x = some v) : (x, v) ∈ ps := by
  obtain ⟨q, hq, rfl⟩ := Option.map_eq_some_iff.1 h
  have hqx : q.1 = x := by simpa using List.find?_some hq
  rw [← hqx]
  exact List.mem_reverse.1 (List.mem_of_find?_eq_some hq)

/-- The text of a sorted assignment whose names are written back reads back to it. -/
theorem parse_text {a : Assignment} (hs : a.Sorted) (hw : ∀ p ∈ a.entries, Writable p.1) :
    parse a.text = .ok a := by
  have hfields : Text.fields a.text = a.entries.map tokenText := by
    rw [text_eq]
    refine Text.fields_intercalate fun w hw' => ?_
    obtain ⟨p, hp, rfl⟩ := List.mem_map.1 hw'
    refine ⟨fun h => by simpa [toList_tokenText] using congrArg String.toList h, fun c hc => ?_⟩
    -- a token is the name, a colon and a digit: none of them is white space
    rw [toList_tokenText, List.mem_append, List.mem_cons] at hc
    rcases hc with hc | rfl | hc
    · exact (hw p hp).2 c hc
    · decide
    · rw [bitText_toList, List.mem_singleton] at hc
      subst hc
      cases p.2 <;> decide
  -- the entries' names are distinct, so each one's last token is its only one
  have hlast : ∀ x, a.get? x = lastValue a.entries x := fun x => by
    have hnd : (a.entries.reverse.map (·.1)).Nodup := by
      rw [List.map_reverse, List.nodup_reverse]
      exact hs.keys_nodup
    apply Option.ext
    intro v
    rw [get?_eq_some_iff hs, lastValue, find?_key_eq_some_iff hnd, List.mem_reverse]
  exact (parse_ok_iff_tokens _ a).2 ⟨a.entries, hfields, fun p hp => (hw p hp).1, hs, hlast⟩

/-- An assignment read from a text is written back with names that read back. -/
theorem parse_text_of_parse {t : String} {a : Assignment} (h : parse t = .ok a) :
    parse a.text = .ok a := by
  obtain ⟨ps, hf, hok, hs, hget⟩ := (parse_ok_iff_tokens t a).1 h
  refine parse_text hs fun ⟨x, v⟩ hxv => ?_
  -- the name comes from a field, so it holds no white space
  have hmem : (x, v) ∈ ps :=
    exists_of_lastValue_eq_some (by rw [← hget]; exact (get?_eq_some_iff hs x v).2 hxv)
  have htok : tokenText (x, v) ∈ Text.fields t := hf ▸ List.mem_map_of_mem hmem
  refine ⟨hok _ hmem, fun c hc => (Text.mem_fields htok).2 c ?_⟩
  rw [toList_tokenText]
  exact List.mem_append_left _ hc

/-- Assignments round-trip through their text. The text of a sorted assignment whose names are
not empty and hold neither white space nor a colon reads back to it. Reading a text succeeds
exactly when every field is a name that is not empty and holds no colon, then a colon and a bit
`0` or `1`; the assignment read is sorted and gives each name the bit of its last token, and its
own text reads back to it. -/
theorem parse_text_round_trip (a : Assignment) (t : String) :
    (a.Sorted → (∀ p ∈ a.entries, Writable p.1) → parse a.text = .ok a) ∧
    ((∃ b, parse t = .ok b) ↔ ∀ tok ∈ Text.fields t, ∃ p, NameOk p.1 ∧ tok = tokenText p) ∧
    (parse t = .ok a ↔ ∃ ps : List (String × Bool), Text.fields t = ps.map tokenText ∧
      (∀ p ∈ ps, NameOk p.1) ∧ a.Sorted ∧ ∀ x, a.get? x = lastValue ps x) ∧
    (parse t = .ok a → parse a.text = .ok a) :=
  ⟨fun hs hw => parse_text hs hw, parse_isOk_iff t, parse_ok_iff_tokens t a, parse_text_of_parse⟩

/-- Names `a` and `c_2` true, `b` false. -/
def spacedAssignment : Assignment :=
  ⟨[("a", true), ("b", false), ("c_2", true)]⟩

/-- Read from a text with a double space and a tab, the assignment is written with single spaces
and read back. -/
theorem spaced_text_round_trip :
    spacedAssignment.Sorted ∧ (∀ p ∈ spacedAssignment.entries, Writable p.1) ∧
      parse "a:1  b:0\tc_2:1" = .ok spacedAssignment ∧
      parse spacedAssignment.text = .ok spacedAssignment :=
  have hs : spacedAssignment.Sorted := by
    unfold spacedAssignment Sorted
    decide
  have hw : ∀ p ∈ spacedAssignment.entries, Writable p.1 := by
    intro p hp
    simp only [spacedAssignment, List.mem_cons, List.not_mem_nil, or_false] at hp
    rcases hp with rfl | rfl | rfl <;> exact ⟨⟨by decide, by decide⟩, by simp [Text.isSpace]⟩
  -- reading depends on the fields only, and the two texts have the same ones
  have hp : parse "a:1  b:0\tc_2:1" = .ok spacedAssignment := by
    have hf : Text.fields "a:1  b:0\tc_2:1" = Text.fields spacedAssignment.text := by
      cbv
    rw [parse_ok_iff_tokens, hf, ← parse_ok_iff_tokens]
    exact parse_text hs hw
  ⟨hs, hw, hp, (parse_text_round_trip spacedAssignment "a:1  b:0\tc_2:1").2.2.2 hp⟩

end Assignment

end DecisionDiagrams
