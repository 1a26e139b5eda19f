/-
The text of an expression: `True`, `False`, or a two-level normal form.

The disjunctive form comes from a cover of the expression and the conjunctive form from a cover
of its negation with every literal negated; the one with fewer literals is written, the
disjunctive one on a tie. A cover is
* the chosen prime implicants (`chooseCover`), when the expression depends on at most
  `primeLimit` variables, found from its minterms over those variables sorted by name;
* else one cube per path to true, without the cubes that contain a shorter cube.

Literals are listed by variable name; the terms of a form are sorted as texts, and a term of
more than one literal is parenthesised when there is more than one term. Texts are remembered
for each node once computed.
-/
import DecisionDiagrams.Simplify.Cover
import DecisionDiagrams.Simplify.Engine

namespace DecisionDiagrams

/-- A possibly negated variable. -/
structure Literal where
  name : String
  neg : Bool
  deriving DecidableEq, Repr

/-- The text of a literal. -/
def Literal.text (l : Literal) : String :=
  if l.neg then "~" ++ l.name else l.name

/-- The largest number of variables for which prime covers are computed. -/
def primeLimit : Nat := 8

/-- The number of literals of a list of terms. -/
def literalCount (ts : List (List Literal)) : Nat :=
  (ts.map List.length).foldl (· + ·) 0

/-- The text of a two-level form: literals of a term joined by `inner`, terms by `outer`. -/
def joinTerms (ts : List (List Literal)) (inner outer : String) : String :=
  let parts := ts.map fun t =>
    let s := inner.intercalate (t.map Literal.text)
    if ts.length > 1 ∧ t.length > 1 then "(" ++ s ++ ")" else s
  outer.intercalate (parts.mergeSort fun a b => decide (a ≤ b))

/-- Whether every literal of `d` occurs in `c`. -/
def containsAll (c d : List Literal) : Bool :=
  d.all c.contains

/-- The cubes of a path cover that contain no shorter cube of the cover. -/
def dropSubsumed (cs : List (List Literal)) : List (List Literal) :=
  let indexed := cs.zipIdx
  indexed.filterMap fun (c, i) =>
    if indexed.any fun (d, j) => i ≠ j ∧ d.length < c.length ∧ containsAll c d then none
    else some c

namespace Engine

/-- The names of the variables a node depends on, sorted. -/
def supportNames (n : Nat) : EngineM (List String) := do
  let lvls ← onKernel (Kernel.support n)
  let e ← get
  return ((lvls.getD []).map fun l => e.names[l]?.getD "").mergeSort fun a b => decide (a ≤ b)

/-- The literals of a cube over the named variables, each negated when `negate` is set. -/
def cubeTerm (names : List String) (negate : Bool) (p : Cube) : List Literal :=
  names.zipIdx.filterMap fun (x, i) =>
    if p.mask.testBit i then none else some ⟨x, (!p.val.testBit i) != negate⟩

/-- The prime cover of node `n` over the named variables. -/
def primeCover (n : Nat) (names : List String) (negate : Bool) : EngineM (List (List Literal)) := do
  let e ← get
  let k := names.length
  let lvls := names.map e.levelOf
  let minterms := (List.range (Nat.pow 2 k)).filter fun m =>
    e.kernel.walk (fun l => (lvls.zipIdx.find? fun (l', _) => l' = l).any fun (_, i) => m.testBit i)
      n == 1
  return (chooseCover (primeCubes k minterms) minterms).map (cubeTerm names negate)

/-- The literals of a path's profile over the named variables: a name whose level the path sets
to 0 gives its negative literal, one set to 1 its positive literal, each negated when `negate`
is set. -/
def pathTerm (e : Engine) (names : List String) (negate : Bool) (prof : Array Int) :
    List Literal :=
  names.filterMap fun x =>
    match prof[e.levelOf x]? with
    | some 0 => some ⟨x, !negate⟩
    | some 1 => some ⟨x, negate⟩
    | _ => none

/-- The path cover of node `n` over the named variables. -/
def pathCover (n : Nat) (names : List String) (negate : Bool) : EngineM (List (List Literal)) := do
  let e ← get
  let (cubes, _) ← onKernel (Kernel.allsat n
    (fun acc p => .ok (acc ++ [pathTerm e names negate p])) [])
  return dropSubsumed cubes

/-- A cover of node `n`, literals negated when `negate` is set; fails with the recorded
faults. -/
def cover (n : Nat) (negate : Bool) : EngineM (Except (List Fault) (List (List Literal))) := do
  let names ← supportNames n
  if let some fs ← takeFaults then return .error fs
  if names.length ≤ primeLimit then
    let c ← primeCover n names negate
    if let some fs ← takeFaults then return .error fs
    return .ok c
  else
    let c ← pathCover n names negate
    if let some fs ← takeFaults then return .error fs
    return .ok c

/-- The text of expression `x`. -/
def render (x : Nat) : EngineM (Except Failure String) := do
  if x = 1 then return .ok "True"
  if x = 0 then return .ok "False"
  if let some s := (← get).rendered[x]? then return .ok s
  let fail (fs : List Fault) : Except Failure String :=
    .error ((Failure.of (.kernel fs)).within "cannot render")
  match ← cover x false with
  | .error fs => return fail fs
  | .ok dnf =>
    let neg ← onKernel (Kernel.negate x)
    if let some fs ← takeFaults then return fail fs
    match ← cover neg.toNat true with
    | .error fs => return fail fs
    | .ok cnf =>
      let s :=
        if literalCount cnf < literalCount dnf then joinTerms cnf " | " " & "
        else joinTerms dnf " & " " | "
      modify fun e => { e with rendered := e.rendered.insert x s }
      return .ok s

end Engine

end DecisionDiagrams
