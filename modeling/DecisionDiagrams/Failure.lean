/-
Failures of the library: a cause, and the contexts it passed through on its way out.

* `Cause` — what went wrong: a syntax error, faults of the node table, a malformed assignment,
  a bad variable order, a broken internal contract, an unknown name, a formula missing from
  the cache, or the failure of a function given by the caller.
* `Failure` — a cause with contexts, outermost first; its message is the contexts and the
  cause's message joined by `": "`.
* `Failure.kind` — the class of a failure, decided by its cause.
-/
import DecisionDiagrams.Formula.Token
import DecisionDiagrams.Kernel.Fault

namespace DecisionDiagrams

/-- Why a variable order is refused. -/
inductive OrderProblem
  /-- The order has `n` variables where the formula has `expected`. -/
  | wrongCount (order : List String) (n expected : Nat)
  /-- A name that is not a variable of the formula. -/
  | unknown (name : String)
  /-- A variable listed twice. -/
  | duplicate (name : String)
  deriving DecidableEq, Repr

/-- The text of a list of names between brackets, separated by spaces. -/
def bracketed (xs : List String) : String :=
  "[" ++ " ".intercalate xs ++ "]"

/-- The message of an order problem. -/
def OrderProblem.message : OrderProblem → String
  | .wrongCount o n e =>
    bracketed o ++ " has " ++ toString n ++ " variables, expected " ++ toString e
  | .unknown v => "unknown variable " ++ Text.quote v
  | .duplicate v => "duplicate variable " ++ Text.quote v

/-- What went wrong. -/
inductive Cause
  /-- The text is not a formula. -/
  | notFormula (e : SyntaxError)
  /-- The node table recorded these faults, newest first. -/
  | kernel (fs : List Fault)
  /-- A token of an assignment text is malformed. -/
  | assignment (token reason : String)
  /-- A variable order is refused. -/
  | order (p : OrderProblem)
  /-- An internal contract does not hold. -/
  | invariant (what : String)
  /-- An ordering strategy with this name does not exist. -/
  | unknownStrategy (name : String)
  /-- A diagram type with this name does not exist. -/
  | unknownKind (name : String)
  /-- The formula has no diagram in the cache. -/
  | notFound (formula : String)
  /-- A request names no formula. -/
  | missingFormula
  /-- A function given by the caller failed with this message. -/
  | custom (msg : String)
  deriving DecidableEq, Repr

/-- The message of a cause. -/
def Cause.message : Cause → String
  | .notFormula e => e.message
  | .kernel fs => Fault.chainMessage fs
  | .assignment t r => "parse error in " ++ Text.quote t ++ ": " ++ r
  | .order p => "invalid variable order: " ++ p.message
  | .invariant w => "invariant violation: " ++ w
  | .unknownStrategy s => "unknown ordering strategy " ++ Text.quote s
  | .unknownKind s => "unknown diagram type " ++ Text.quote s
  | .notFound f => "formula not found in cache: '" ++ f ++ "'. Please call /generate first"
  | .missingFormula => "missing 'formula' field"
  | .custom m => m

/-- A cause and the contexts it passed through, outermost first. -/
structure Failure where
  context : List String
  cause : Cause
  deriving DecidableEq, Repr

namespace Failure

/-- A failure with no context. -/
def of (c : Cause) : Failure :=
  ⟨[], c⟩

/-- The same failure seen from one more context. -/
def within (ctx : String) (f : Failure) : Failure :=
  { f with context := ctx :: f.context }

/-- The message: the contexts, then the cause. -/
def message (f : Failure) : String :=
  String.join (f.context.map (· ++ ": ")) ++ f.cause.message

/-- The class of a failure. -/
def kind (f : Failure) : String :=
  match f.cause with
  | .notFormula _ => "SyntaxError"
  | .assignment .. => "ParseError"
  | .order _ => "OrderError"
  | .invariant _ => "InvariantError"
  | .kernel fs => if Fault.chainIsMemory fs then "MemoryError" else "Error"
  | .notFound _ => "NotFound"
  | .missingFormula => "MissingFormula"
  | _ => "Error"

end Failure

/-- Adds a context to the failure of a result. -/
def inContext {α : Type} (ctx : String) : Except Failure α → Except Failure α
  | .ok a => .ok a
  | .error f => .error (f.within ctx)

end DecisionDiagrams
