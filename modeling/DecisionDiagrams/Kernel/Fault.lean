/-
Operators of the node table and the faults it records.

* `Operator` — the five binary operators that `apply` accepts, with their truth tables. An
  operator is given by its number `0 ... 4`; other numbers are refused, and `operatorName`
  names every number (`5` is negation, which the operation caches use internally).
* `Fault` — one cause of failure of a table operation. Faults accumulate, newest first, until
  they are cleared; `Fault.chainMessage` joins their messages with `"; "`, and
  `Fault.chainIsMemory` tells whether one of them is the node limit.
-/

namespace DecisionDiagrams

/-- The binary operators of the node table. -/
inductive Operator
  | and
  | xor
  | or
  | imp
  | biimp
  deriving DecidableEq, Repr, Inhabited

namespace Operator

/-- The number of an operator. -/
def code : Operator → Nat
  | .and => 0
  | .xor => 1
  | .or => 2
  | .imp => 3
  | .biimp => 4

/-- The operator with a number, if it is one of `0 ... 4`. -/
def ofCode? (n : Int) : Option Operator :=
  if n = 0 then some .and
  else if n = 1 then some .xor
  else if n = 2 then some .or
  else if n = 3 then some .imp
  else if n = 4 then some .biimp
  else none

/-- The operator with a name. -/
def ofName? : String → Option Operator
  | "and" => some .and
  | "xor" => some .xor
  | "or" => some .or
  | "imp" => some .imp
  | "biimp" => some .biimp
  | _ => none

/-- The truth table of an operator. -/
def eval : Operator → Bool → Bool → Bool
  | .and, a, b => a && b
  | .xor, a, b => a != b
  | .or, a, b => a || b
  | .imp, a, b => !a || b
  | .biimp, a, b => a == b

end Operator

/-- The name of an operator number: the five operators, `not` for `5`, else `unknown`. -/
def operatorName (n : Int) : String :=
  if n = 0 then "and"
  else if n = 1 then "xor"
  else if n = 2 then "or"
  else if n = 3 then "imp"
  else if n = 4 then "biimp"
  else if n = 5 then "not"
  else "unknown"

/-- The operations that check their node arguments. -/
inductive Call
  | not
  | restrict
  | eval
  | satcount
  deriving DecidableEq, Repr

/-- How an operation is named in a fault message. -/
def Call.name : Call → String
  | .not => "Not"
  | .restrict => "Restrict"
  | .eval => "Eval"
  | .satcount => "Satcount"

/-- The operations that take a variable number. -/
inductive VarCall
  | ithvar
  | nithvar
  | restrict
  deriving DecidableEq, Repr

/-- How a variable operation is named in a fault message. -/
def VarCall.name : VarCall → String
  | .ithvar => "Ithvar"
  | .nithvar => "NIthvar"
  | .restrict => "Restrict"

/-- A cause of failure of a table operation. -/
inductive Fault
  /-- A negative or too large number of variables for a new table. -/
  | badCount (n : Int)
  /-- A number of variables below the current one or above the maximum. -/
  | badVarnum (n : Int)
  /-- The literals of a new variable could not be created. -/
  | cannotAllocate (level : Nat)
  /-- A variable number outside the declared variables. -/
  | unknownVariable (i : Int) (call : VarCall)
  /-- A node reference outside the table. -/
  | illegalReference (n : Int)
  /-- A bad node argument of an operation. -/
  | wrongOperand (call : Call) (n : Int)
  /-- A bad left argument of `apply`. -/
  | wrongLeft (op : Int) (n : Int)
  /-- A bad right argument of `apply`. -/
  | wrongRight (op : Int) (n : Int)
  /-- An operator number that `apply` does not accept. -/
  | unsupportedOperator (op : Int)
  /-- The node limit stopped the creation of a node. -/
  | tableFull (level low high : Nat)
  /-- A negation failed below this point. -/
  | notFailed
  /-- An application failed below this pair of nodes. -/
  | applyFailed (left right : Nat) (op : Operator)
  /-- A restriction failed below this point. -/
  | restrictFailed
  /-- An operation produced no node without recording why. -/
  | unexpected
  deriving DecidableEq, Repr

namespace Fault

/-- The message of one fault. -/
def message : Fault → String
  | .badCount n => "bad number of variable (" ++ toString n ++ ")"
  | .badVarnum n => "bad number of variable (" ++ toString n ++ ") in SetVarnum"
  | .cannotAllocate k => "cannot allocate new variable " ++ toString k ++ " in SetVarnum"
  | .unknownVariable i c =>
    "unknown variable used (" ++ toString i ++ ") in call to " ++ c.name
  | .illegalReference n => "illegal node reference (" ++ toString n ++ ")"
  | .wrongOperand c n => "wrong operand in call to " ++ c.name ++ " (" ++ toString n ++ ")"
  | .wrongLeft op n =>
    "wrong operand in call to Apply " ++ operatorName op ++ "(left: " ++ toString n ++
      ", right: ...)"
  | .wrongRight op n =>
    "wrong operand in call to Apply " ++ operatorName op ++ "(left: ..., right: " ++
      toString n ++ ")"
  | .unsupportedOperator op =>
    "unsupported operator " ++ operatorName op ++ " in call to Apply"
  | .tableFull l a b =>
    "cannot create node (" ++ toString l ++ ", " ++ toString a ++ ", " ++ toString b ++
      "): node table exceeds its maximal size"
  | .notFailed => "problem in call to not"
  | .applyFailed l r op =>
    "problem in call to apply(" ++ toString l ++ "," ++ toString r ++ "," ++
      operatorName op.code ++ ")"
  | .restrictFailed => "problem in call to restrict"
  | .unexpected => "unexpected error in operation"

/-- The message of a chain of faults, newest first. -/
def chainMessage (fs : List Fault) : String :=
  "; ".intercalate (fs.map message)

/-- Whether the fault is the node limit. -/
def isMemory : Fault → Bool
  | .tableFull .. => true
  | _ => false

/-- Whether a chain of faults holds the node limit. -/
def chainIsMemory (fs : List Fault) : Bool :=
  fs.any isMemory

end Fault

end DecisionDiagrams
