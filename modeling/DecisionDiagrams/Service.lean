/-
Diagrams on demand, cached by formula.

A service keeps the diagrams it made in a FIFO cache keyed by the formula with its spaces
removed. Every diagram is made with the service's kernel limits.

* `Service.generate` — finds or makes the diagram of a formula, applies a manual order to a
  cached diagram, builds a kind (or orders it automatically first), highlights an assignment
  and answers the view. A new diagram is cached only when all of that succeeded; a cached
  diagram whose request failed is dropped from the cache.
* `Service.view`, `Service.dot`, `Service.edges` — present a cached diagram, building the
  kind first when it was not built; the diagram stays cached whatever happens.
-/
import DecisionDiagrams.Cache.Fifo
import DecisionDiagrams.Diagram.Present
import DecisionDiagrams.Diagram.Auto

namespace DecisionDiagrams

/-- A request for a diagram: the formula, the kind, a manual order (names separated by blanks),
an ordering strategy (empty for none) and an assignment to highlight (empty for none). -/
structure Request where
  formula : String
  kind : Kind
  varOrder : String
  autoOrder : String
  evalPath : String
  deriving Repr, Inhabited

/-- The answer to a request: the formula without spaces, the kind, whether an assignment was
highlighted, the view, and the outcome of the ordering strategy if one was asked for. -/
structure Response where
  formula : String
  kind : Kind
  highlighted : Bool
  view : View
  sift : Option Order.SiftResult
  deriving Repr, Inhabited

/-- The state of a service: its cache and the settings of the diagrams it makes. -/
structure Service where
  cache : Fifo Diagram
  limits : Limits
  maxPasses : Nat

/-- Computations on a service. -/
abbrev ServiceM := StateM Service

/-- A formula with its spaces removed (other blanks stay). -/
def stripSpaces (s : String) : String :=
  String.ofList (s.toList.filter (· ≠ ' '))

namespace Service

/-- A service with an empty cache of the requested capacity (see `Fifo.create`), kernel limits,
and a bound on sifting passes (`0` for none). -/
def create (capacity : Int) (limits : Limits) (maxPasses : Nat) : Service :=
  ⟨Fifo.create capacity, limits, maxPasses⟩

/-- The diagram of a new formula, with a manual order when one is given. -/
def make (s : Service) (formula varOrder : String) : Except Failure Diagram :=
  let order :=
    if varOrder.isEmpty then none
    else some (Order.manual (DecisionDiagrams.variablesOf formula) (Order.parseManual varOrder))
  Diagram.create formula s.limits order

/-- Builds a kind, naming the kind in a failure. -/
def buildKind (k : Kind) : DiagramM (Except Failure Unit) := do
  return inContext ("building " ++ k.name) ((← Diagram.build k).map fun _ => ())

/-- Orders and builds a kind with a strategy, naming the kind in a failure. -/
def orderKind (k : Kind) (strategy : String) (maxPasses : Nat) :
    DiagramM (Except Failure Order.SiftResult) := do
  return inContext ("ordering " ++ k.name) (← Diagram.autoOrder k strategy maxPasses)

/-- The work of a request on its diagram: a manual order for a cached diagram, the build or the
automatic order, the highlight and the view. -/
def respond (formula : String) (req : Request) (cached : Bool)
    (assignment : Option Assignment) (maxPasses : Nat) : DiagramM (Except Failure Response) := do
  if cached ∧ ¬req.varOrder.isEmpty then
    let d ← get
    match d.setOrder (Order.manual d.order (Order.parseManual req.varOrder)) with
    | .error f => return .error f
    | .ok d => set d
  let sift ← if req.autoOrder.isEmpty then
      (·.map fun _ => none) <$> buildKind req.kind
    else
      (·.map some) <$> orderKind req.kind req.autoOrder maxPasses
  match sift with
  | .error f => return .error f
  | .ok sift =>
    if let some a := assignment then
      if let .error f ← Diagram.highlight req.kind a then return .error f
    match ← Diagram.view req.kind with
    | .error f => return .error f
    | .ok v => return .ok ⟨formula, req.kind, assignment.isSome, v, sift⟩

/-- Answers a request for a diagram. -/
def generate (req : Request) : ServiceM (Except Failure Response) := do
  let formula := stripSpaces req.formula
  if formula.isEmpty then return .error (.of .missingFormula)
  let assignment ← match (if req.evalPath.isEmpty then .ok none
      else (Assignment.parse req.evalPath).map some) with
    | .error f => return .error f
    | .ok a => pure a
  let s ← get
  match s.cache.lookup formula with
  | some d =>
    let (r, d) := (respond formula req true assignment s.maxPasses).run d
    match r with
    | .ok resp =>
      set { s with cache := s.cache.replace formula d }
      return .ok resp
    | .error f =>
      set { s with cache := (s.cache.remove formula).2 }
      return .error f
  | none =>
    match s.make formula req.varOrder with
    | .error f => return .error f
    | .ok d =>
      let (r, d) := (respond formula req false assignment s.maxPasses).run d
      match r with
      | .ok resp =>
        set { s with cache := (s.cache.insert formula d).2 }
        return .ok resp
      | .error f => return .error f

/-- Runs a presentation on the cached diagram of a formula, after building the kind if it was
not built; the diagram is written back to the cache whatever happens. -/
def present {α : Type} (text : String) (k : Kind) (act : DiagramM (Except Failure α)) :
    ServiceM (Except Failure α) := do
  let formula := stripSpaces text
  if formula.isEmpty then return .error (.of .missingFormula)
  let s ← get
  match s.cache.lookup formula with
  | none => return .error (.of (.notFound formula))
  | some d =>
    let body : DiagramM (Except Failure α) := do
      if ((← get).root? k).isNone then
        if let .error f ← buildKind k then return .error f
      act
    let (r, d) := body.run d
    set { s with cache := s.cache.replace formula d }
    return r

/-- The view of a cached diagram. -/
def view (text : String) (k : Kind) : ServiceM (Except Failure View) :=
  present text k (Diagram.view k)

/-- The DOT text of a cached diagram. -/
def dot (text : String) (k : Kind) : ServiceM (Except Failure String) :=
  present text k (Diagram.dot k)

/-- The edges of a cached diagram. -/
def edges (text : String) (k : Kind) : ServiceM (Except Failure (List Edge)) :=
  present text k (Diagram.edges k)

/-- The number of cached diagrams. -/
def size (s : Service) : Nat :=
  s.cache.size

/-- The cached formulas, oldest first. -/
def cached (s : Service) : List String :=
  s.cache.keys

end Service

end DecisionDiagrams
