/-
The simplifier: formulas compiled into one node table, where equivalent formulas meet in the
same node.

* `Engine` — a node table, the names of its levels (a name's level is its position), and the
  texts already rendered.
* `Engine.parseAndSimplify` — reads a formula, declares its new variables (in the order of
  their first occurrence) and compiles it: a variable is its literal, a negated variable its
  negative literal, and each connective an operation of the table.
* `Engine.substitute` — the cofactor with one variable fixed; a name that is not a variable
  leaves the expression as it is.
* `Engine.count` — the number of assignments of all declared variables that satisfy it.

After each compilation, substitution and rendering the recorded faults of the table, if any,
become the failure of the call and are cleared. Declaring variables that the table cannot hold
fails with its faults, which stay recorded.
-/
import DecisionDiagrams.Failure
import DecisionDiagrams.Formula.Parser
import DecisionDiagrams.Kernel.Print

namespace DecisionDiagrams

/-- A node table with the names of its levels and a memory of rendered texts. -/
structure Engine where
  kernel : Kernel
  names : Array String
  rendered : Std.HashMap Nat String

/-- Computations on an engine. -/
abbrev EngineM := StateM Engine

namespace Engine

/-- An engine with no variables. -/
def create (limits : Limits) : Except Failure Engine :=
  match Kernel.create 0 limits with
  | .ok k => .ok ⟨k, #[], {}⟩
  | .error fs => .error (.of (.kernel fs))

/-- Runs a computation on the node table. -/
def onKernel {α : Type} (m : KernelM α) : EngineM α :=
  modifyGet fun e =>
    let (a, k) := m.run e.kernel
    (a, { e with kernel := k })

/-- The level of a name, if it is declared. -/
def level? (e : Engine) (x : String) : Option Nat :=
  e.names.idxOf? x

/-- The level of a name, `0` for an undeclared one. -/
def levelOf (e : Engine) (x : String) : Nat :=
  (e.level? x).getD 0

/-- The recorded faults of the table, which are cleared, or nothing if there are none. -/
def takeFaults : EngineM (Option (List Fault)) :=
  modifyGet fun e =>
    if e.kernel.faults.isEmpty then (none, e)
    else (some e.kernel.faults, { e with kernel := e.kernel.clearError })

/-- Declares the names not yet declared, at the next levels, and raises the number of
variables of the table when it changed. -/
def declare (xs : List String) : EngineM (Option (List Fault)) := do
  modify fun e =>
    { e with names := xs.foldl (fun ns x => if ns.contains x then ns else ns.push x) e.names }
  let e ← get
  if e.names.size = e.kernel.varnum then return none
  onKernel (Kernel.setVarnum e.names.size)

/-- The connective as an operator of the table. -/
def operatorOf : Connective → Operator
  | .and => .and
  | .or => .or
  | .imp => .imp
  | .iff => .biimp

/-- The node of a formula, with each name at its level. -/
def compile (levelOf : String → Nat) : Formula → KernelM Int
  | .var x => Kernel.ithvar (levelOf x)
  | .not (.var x) => Kernel.nithvar (levelOf x)
  | .not f => do Kernel.negate (← compile levelOf f)
  | .bin op l r => do
    let a ← compile levelOf l
    let b ← compile levelOf r
    Kernel.apply a b (operatorOf op).code

/-- The node of the formula written in `text`. -/
def parseAndSimplify (text : String) : EngineM (Except Failure Nat) := do
  match Formula.parse text with
  | .error e => return .error (.of (.notFormula e))
  | .ok f =>
    if let some fs ← declare (variablesOf text) then return .error (.of (.kernel fs))
    let e ← get
    let n ← onKernel (compile e.levelOf f)
    if let some fs ← takeFaults then
      return .error ((Failure.of (.kernel fs)).within ("cannot simplify " ++ Text.quote text))
    return .ok n.toNat

/-- The node of the expression `x` with variable `name` set to `val`. -/
def substitute (x : Nat) (name : String) (val : Bool) : EngineM (Except Failure Nat) := do
  match (← get).level? name with
  | none => return .ok x
  | some lvl =>
    let n ← onKernel (Kernel.restrict x lvl val)
    if let some fs ← takeFaults then
      return .error ((Failure.of (.kernel fs)).within
        ("cannot substitute " ++ name ++ "=" ++ (if val then "true" else "false")))
    return .ok n.toNat

/-- The value of an expression that is constant. -/
def isConstant (x : Nat) : Option Bool :=
  if x = 1 then some true else if x = 0 then some false else none

/-- The number of assignments of the declared variables that satisfy an expression. -/
def count (x : Nat) : EngineM Nat :=
  onKernel (Kernel.satcount x)

/-- The table below an expression, or the recorded faults. -/
def dump (x : Nat) : EngineM (String × Option String) :=
  onKernel (Kernel.fprint x)

end Engine

end DecisionDiagrams
