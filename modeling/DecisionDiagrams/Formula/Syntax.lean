/-
Propositional formulas over named variables.

* `Formula` — variables, negation and the four binary connectives of `Connective`.
* `Formula.linear` — the fully parenthesised text: `~(f)` for a negation and `(l op r)` for a
  binary formula, so that reading it back gives the same tree.
* `Formula.expandArrows` — the equivalent formula over `~`, `&` and `|` only: `a -> b`
  becomes `~a | b` and `a <-> b` becomes `(a & b) | (~a & ~b)`.
* `Formula.eval` — the truth value under an assignment of the names.
-/

namespace DecisionDiagrams

/-- The binary connectives, from the tightest to the loosest. -/
inductive Connective
  | and
  | or
  | imp
  | iff
  deriving DecidableEq, Repr, Inhabited

namespace Connective

/-- The symbol written between the two operands. -/
def symbol : Connective → String
  | .and => "&"
  | .or => "|"
  | .imp => "->"
  | .iff => "<->"

/-- The truth table of the connective. -/
def apply : Connective → Bool → Bool → Bool
  | .and, a, b => a && b
  | .or, a, b => a || b
  | .imp, a, b => !a || b
  | .iff, a, b => a == b

end Connective

/-- A propositional formula. -/
inductive Formula
  | var (name : String)
  | not (f : Formula)
  | bin (op : Connective) (l r : Formula)
  deriving DecidableEq, Repr, Inhabited

namespace Formula

/-- The fully parenthesised text of a formula. -/
def linear : Formula → String
  | .var x => x
  | .not f => "~(" ++ f.linear ++ ")"
  | .bin op l r => "(" ++ l.linear ++ " " ++ op.symbol ++ " " ++ r.linear ++ ")"

/-- The same formula with implications and equivalences expressed by `~`, `&` and `|`. -/
def expandArrows : Formula → Formula
  | .var x => .var x
  | .not f => .not f.expandArrows
  | .bin .imp l r => .bin .or (.not l.expandArrows) r.expandArrows
  | .bin .iff l r =>
      .bin .or (.bin .and l.expandArrows r.expandArrows)
        (.bin .and (.not l.expandArrows) (.not r.expandArrows))
  | .bin op l r => .bin op l.expandArrows r.expandArrows

/-- The truth value of a formula when each name `x` has the value `σ x`. -/
def eval (σ : String → Bool) : Formula → Bool
  | .var x => σ x
  | .not f => !f.eval σ
  | .bin op l r => op.apply (l.eval σ) (r.eval σ)

/-- The names of the variables, from left to right, with repetitions. -/
def names : Formula → List String
  | .var x => [x]
  | .not f => f.names
  | .bin _ l r => l.names ++ r.names

end Formula

end DecisionDiagrams
