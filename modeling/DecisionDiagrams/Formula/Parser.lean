/-
Reading a formula from its text.

The grammar, from the loosest level to the tightest:

    iff  := imp ('<->' imp)*
    imp  := or ('->' imp)?
    or   := and ('|' and)*
    and  := un ('&' un)*
    un   := '~' un | atom
    atom := identifier | '(' iff ')'

`&`, `|` and `<->` group to the left and `->` to the right.

* `Formula.parse` — the tree of a text, or the `SyntaxError` at the first token where the text
  stops being the start of a formula (at its length when the text ends too early).

The parser is one mutual well-founded definition on `(tokens.length, level)`: going down a level
keeps the tokens, and every other call consumes at least one token. Each function returns the
tokens it left, no more than it was given.
-/
import DecisionDiagrams.Formula.Syntax
import DecisionDiagrams.Formula.Token

namespace DecisionDiagrams

namespace Formula

/-- A formula read from the front of `ts`, with the tokens after it. -/
abbrev Parsed (ts : List Token) :=
  Except SyntaxError (Formula × { r : List Token // r.length ≤ ts.length })

/-- The kind of the first token, or `none` at the end. -/
def nextKind : List Token → Option TokenKind
  | [] => none
  | t :: _ => some t.kind

/-- The offset of the first token, or `stop` at the end. -/
def nextPos (stop : Nat) : List Token → Nat
  | [] => stop
  | t :: _ => t.pos

/-- A pair of a length and a level goes down when the length does not grow and either the
length or the level does. -/
theorem lex_of_le {a b c d : Nat} (h : a ≤ c) (h' : a < c ∨ b < d) :
    Prod.Lex (· < ·) (· < ·) (a, b) (c, d) := by
  by_cases hac : a < c
  · exact Prod.Lex.left _ _ hac
  · have e : a = c := by omega
    subst e
    exact Prod.Lex.right _ (h'.resolve_left hac)

mutual

/-- `iff := imp ('<->' imp)*`. -/
def parseIff (stop : Nat) (ts : List Token) : Parsed ts :=
  match parseImp stop ts with
  | .error e => .error e
  | .ok (l, ⟨r, h⟩) =>
    match iffTail stop l r with
    | .error e => .error e
    | .ok (f, ⟨r2, h2⟩) => .ok (f, ⟨r2, Nat.le_trans h2 h⟩)
termination_by (ts.length, 8)
decreasing_by all_goals (apply lex_of_le <;> omega)

/-- The operands after the first of an equivalence chain, grouped to the left onto `acc`. -/
def iffTail (stop : Nat) (acc : Formula) (ts : List Token) : Parsed ts :=
  match ts with
  | [] => .ok (acc, ⟨[], Nat.le_refl _⟩)
  | t :: rest =>
    if t.kind = .iff then
      match parseImp stop rest with
      | .error e => .error e
      | .ok (x, ⟨r, h⟩) =>
        match iffTail stop (.bin .iff acc x) r with
        | .error e => .error e
        | .ok (f, ⟨r2, h2⟩) =>
          .ok (f, ⟨r2, by rw [List.length_cons]; omega⟩)
    else .ok (acc, ⟨t :: rest, Nat.le_refl _⟩)
termination_by (ts.length, 7)
decreasing_by all_goals (apply lex_of_le <;> (try rw [List.length_cons] at *) <;> omega)

/-- `imp := or ('->' imp)?`. -/
def parseImp (stop : Nat) (ts : List Token) : Parsed ts :=
  match parseOr stop ts with
  | .error e => .error e
  | .ok (l, ⟨r, h⟩) =>
    match r with
    | t :: rest =>
      if t.kind = .imp then
        match parseImp stop rest with
        | .error e => .error e
        | .ok (x, ⟨r2, h2⟩) =>
          .ok (.bin .imp l x, ⟨r2, by rw [List.length_cons] at h; omega⟩)
      else .ok (l, ⟨t :: rest, h⟩)
    | [] => .ok (l, ⟨[], h⟩)
termination_by (ts.length, 6)
decreasing_by all_goals (apply lex_of_le <;> (try rw [List.length_cons] at *) <;> omega)

/-- `or := and ('|' and)*`. -/
def parseOr (stop : Nat) (ts : List Token) : Parsed ts :=
  match parseAnd stop ts with
  | .error e => .error e
  | .ok (l, ⟨r, h⟩) =>
    match orTail stop l r with
    | .error e => .error e
    | .ok (f, ⟨r2, h2⟩) => .ok (f, ⟨r2, Nat.le_trans h2 h⟩)
termination_by (ts.length, 5)
decreasing_by all_goals (apply lex_of_le <;> omega)

/-- The operands after the first of a disjunction chain, grouped to the left onto `acc`. -/
def orTail (stop : Nat) (acc : Formula) (ts : List Token) : Parsed ts :=
  match ts with
  | [] => .ok (acc, ⟨[], Nat.le_refl _⟩)
  | t :: rest =>
    if t.kind = .or then
      match parseAnd stop rest with
      | .error e => .error e
      | .ok (x, ⟨r, h⟩) =>
        match orTail stop (.bin .or acc x) r with
        | .error e => .error e
        | .ok (f, ⟨r2, h2⟩) =>
          .ok (f, ⟨r2, by rw [List.length_cons]; omega⟩)
    else .ok (acc, ⟨t :: rest, Nat.le_refl _⟩)
termination_by (ts.length, 4)
decreasing_by all_goals (apply lex_of_le <;> (try rw [List.length_cons] at *) <;> omega)

/-- `and := un ('&' un)*`. -/
def parseAnd (stop : Nat) (ts : List Token) : Parsed ts :=
  match parseUnary stop ts with
  | .error e => .error e
  | .ok (l, ⟨r, h⟩) =>
    match andTail stop l r with
    | .error e => .error e
    | .ok (f, ⟨r2, h2⟩) => .ok (f, ⟨r2, Nat.le_trans h2 h⟩)
termination_by (ts.length, 3)
decreasing_by all_goals (apply lex_of_le <;> omega)

/-- The operands after the first of a conjunction chain, grouped to the left onto `acc`. -/
def andTail (stop : Nat) (acc : Formula) (ts : List Token) : Parsed ts :=
  match ts with
  | [] => .ok (acc, ⟨[], Nat.le_refl _⟩)
  | t :: rest =>
    if t.kind = .and then
      match parseUnary stop rest with
      | .error e => .error e
      | .ok (x, ⟨r, h⟩) =>
        match andTail stop (.bin .and acc x) r with
        | .error e => .error e
        | .ok (f, ⟨r2, h2⟩) =>
          .ok (f, ⟨r2, by rw [List.length_cons]; omega⟩)
    else .ok (acc, ⟨t :: rest, Nat.le_refl _⟩)
termination_by (ts.length, 2)
decreasing_by all_goals (apply lex_of_le <;> (try rw [List.length_cons] at *) <;> omega)

/-- `un := '~' un | atom`. -/
def parseUnary (stop : Nat) (ts : List Token) : Parsed ts :=
  match ts with
  | t :: rest =>
    if t.kind = .not then
      match parseUnary stop rest with
      | .error e => .error e
      | .ok (f, ⟨r, h⟩) => .ok (.not f, ⟨r, by rw [List.length_cons]; omega⟩)
    else parseAtom stop (t :: rest)
  | [] => parseAtom stop []
termination_by (ts.length, 1)
decreasing_by all_goals (apply lex_of_le <;> (try rw [List.length_cons] at *) <;> omega)

/-- `atom := identifier | '(' iff ')'`. -/
def parseAtom (stop : Nat) (ts : List Token) : Parsed ts :=
  match ts with
  | [] => .error ⟨stop, .missingOperand none⟩
  | t :: rest =>
    if t.kind = .ident then .ok (.var t.text, ⟨rest, Nat.le_succ _⟩)
    else if t.kind = .lparen then
      match parseIff stop rest with
      | .error e => .error e
      | .ok (f, ⟨r, h⟩) =>
        match r with
        | c :: r2 =>
          if c.kind = .rparen then .ok (f, ⟨r2, by rw [List.length_cons] at h ⊢; omega⟩)
          else .error ⟨c.pos, .unclosed (some c.kind)⟩
        | [] => .error ⟨stop, .unclosed none⟩
    else .error ⟨t.pos, .missingOperand (some t.kind)⟩
termination_by (ts.length, 0)
decreasing_by all_goals (apply lex_of_le <;> (try rw [List.length_cons] at *) <;> omega)

end

/-- The formula of a text, or the first syntax error in it. -/
def parse (text : String) : Except SyntaxError Formula :=
  let bytes := text.toUTF8.toList
  match Token.scan 0 bytes with
  | .error e => .error e
  | .ok ts =>
    match parseIff bytes.length ts with
    | .error e => .error e
    | .ok (f, ⟨[], _⟩) => .ok f
    | .ok (_, ⟨t :: _, _⟩) => .error ⟨t.pos, .trailing t.kind⟩

end Formula

end DecisionDiagrams
