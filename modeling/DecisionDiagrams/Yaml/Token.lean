/-
Tokens of a YAML text, and the problems met while reading one.

A YAML text is read in three stages: characters are checked, split into tokens (indicators,
scalars, anchors, tags, and the indentation tokens that open and close block collections), and
the tokens are parsed into nodes. Each stage can stop with a problem; the message of a problem
names a line, counted from one, when the problem has one.

* `Mark` — a position: the characters before it, its line and its column, from zero.
* `Token` — a token with the marks of its first character and of the character after it.
* `Problem.text` — the message of a problem. A problem has the mark of its context (the start
  of the construct being read) and the mark where it was found; the line shown is the context's
  when that is not the first line, else the problem's, and nothing on the first line. Problems
  found while splitting tokens count lines from one, those found while parsing from zero.
-/

namespace DecisionDiagrams

namespace Yaml

/-- A position in a text: the characters before it, its line and its column, from zero. -/
structure Mark where
  index : Nat := 0
  line : Nat := 0
  column : Nat := 0
  deriving DecidableEq, Repr, Inhabited

/-- How a scalar is written: plain, in single or double quotes, or as a literal (`|`) or folded
(`>`) block. -/
inductive ScalarStyle where
  | plain
  | singleQuoted
  | doubleQuoted
  | literal
  | folded
  deriving DecidableEq, Repr, Inhabited

/-- The kinds of tokens, with what each carries. -/
inductive TokenKind where
  | streamStart
  | streamEnd
  | versionDirective (major minor : Nat)
  | tagDirective (handle pfx : String)
  | documentStart
  | documentEnd
  | blockSequenceStart
  | blockMappingStart
  | blockEnd
  | flowSequenceStart
  | flowSequenceEnd
  | flowMappingStart
  | flowMappingEnd
  | blockEntry
  | flowEntry
  | key
  | value
  | alias (name : String)
  | anchor (name : String)
  | tag (handle suffix : String)
  | scalar (text : String) (style : ScalarStyle)
  deriving DecidableEq, Repr, Inhabited

/-- A token with the marks of its first character and of the character after it. -/
structure Token where
  kind : TokenKind
  start : Mark
  stop : Mark
  deriving Repr, Inhabited

/-- The stage at which reading stopped. -/
inductive Stage where
  | reader
  | scanner
  | parser
  deriving DecidableEq, Repr, Inhabited

/-- A problem: its stage, the mark of its context, the mark where it was found, and what it
is. -/
structure Problem where
  stage : Stage
  context : Mark := {}
  mark : Mark := {}
  message : String
  deriving Repr, Inhabited

/-- The message of a problem, with the line of its context or of its mark when that line is
not the first. -/
def Problem.text (p : Problem) : String :=
  let shift := if p.stage = .scanner then 1 else 0
  let line := if p.context.line ≠ 0 then p.context.line + shift
    else if p.mark.line ≠ 0 then p.mark.line + shift else 0
  "yaml: " ++ (if line = 0 then "" else "line " ++ toString line ++ ": ") ++ p.message

end Yaml

end DecisionDiagrams
