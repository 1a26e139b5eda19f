/-
The command line of the diagram tool.

    robdd [--verbose|-v] [--format text|json] [--config|-c FILE] [--log-level LEVEL] COMMAND

* `build FORMULA [--type|-t bdd|robdd] [--order|-o NAMES] [--auto|-a freq|ls] [--eval|-e ASSIGNMENT]
  [--dot]` — builds a diagram and prints its nodes, one row per node, sorted by level and then
  by identifier; `--dot` prints the DOT text instead.
* `order FORMULA [--type|-t bdd|robdd]` — compares the order of first occurrence, the frequency
  order and the sifted order.

Answers are written to standard output as text, or with `--format json` as JSON: indented
for success, on one line for failures. Exit codes: 0 on success, 2 for invalid flags,
formulas, assignments and orders, 1 for any other failure.
-/
import DecisionDiagrams.Cli.Flags
import DecisionDiagrams.Config.Basic
import DecisionDiagrams.Text.Case
import DecisionDiagrams.Diagram.Present
import DecisionDiagrams.Diagram.Auto
import DecisionDiagrams.Service
import DecisionDiagrams.Text.Columns

namespace DecisionDiagrams

/-- The outcome of a command line: the exit code, the standard output, and the error, if any,
as the tool reports it. -/
structure Outcome where
  exitCode : Nat
  stdout : String
  error : Option String
  deriving Repr, Inhabited

namespace Cli

/-- The flags of every command. -/
def rootFlags : List FlagSpec :=
  [⟨"verbose", some 'v', .switch⟩, ⟨"format", none, .value⟩, ⟨"config", some 'c', .value⟩,
   ⟨"log-level", none, .value⟩, ⟨"help", some 'h', .switch⟩]

/-- The flags of `build`. -/
def buildFlags : List FlagSpec :=
  [⟨"type", some 't', .value⟩, ⟨"order", some 'o', .value⟩, ⟨"auto", some 'a', .value⟩,
   ⟨"eval", some 'e', .value⟩, ⟨"dot", none, .switch⟩]

/-- The flags of `order`. -/
def orderFlags : List FlagSpec :=
  [⟨"type", some 't', .value⟩]

/-- The commands, in the order they are offered. -/
def commandNames : List String :=
  ["build", "order", "serve", "version", "help", "completion"]

/-- The edit distance between two byte strings. -/
def distance (s t : List UInt8) : Nat :=
  let first : List Nat := List.range (t.length + 1)
  let last := s.zipIdx.foldl (fun (prev : List Nat) (a, i) =>
    let row := t.zipIdx.foldl (fun (row : List Nat) (b, j) =>
      let left := row.getLastD (i + 1)
      let up := prev.getD (j + 1) 0
      let diag := prev.getD j 0
      row ++ [if a = b then diag else min (min up left) diag + 1]) [i + 1]
    row) first
  last.getLastD s.length

/-- The commands suggested for an unknown one: those within two edits of it, or that start with
it, after both are put in lower case. -/
def suggestions (typed : String) : List String :=
  (commandNames.filter (· ≠ "help")).filter fun c =>
    distance (Text.lower typed).toUTF8.toList (Text.lower c).toUTF8.toList ≤ 2 ∨
      (Text.lower typed).isPrefixOf (Text.lower c)

/-- The failure for an unknown command. -/
def unknownCommand (w : String) : String :=
  let hint := match suggestions w with
    | [] => ""
    | cs => "\n\nDid you mean this?\n" ++ String.join (cs.map fun c => "\t" ++ c ++ "\n")
  "unknown command " ++ Text.quote w ++ " for \"robdd\"" ++ hint

/-- How answers are written. -/
inductive Format
  | text
  | json
  deriving DecidableEq, Repr

/-- The answer to a failure with a code: on standard output, and as the error. -/
def reportError (fmt : Format) (exit : Nat) (code message : String) : Outcome :=
  let out := match fmt with
    | .json => Json.compact true (.obj [("status", .str "error"),
        ("error", .obj [("code", .str code), ("message", .str message)])]) ++ "\n"
    | .text => "Error [" ++ code ++ "]: " ++ message ++ "\n"
  ⟨exit, out, some (code ++ ": " ++ message)⟩

/-- The answer to a failure of the work: the code and exit code follow its cause. -/
def fail (fmt : Format) (f : Failure) : Outcome :=
  let (code, exit) := match f.cause with
    | .notFormula _ => ("SYNTAX_ERROR", 2)
    | .assignment .. => ("PARSE_ERROR", 2)
    | .order _ => ("INVALID_REQUEST", 2)
    | _ => ("BUILD_ERROR", 1)
  reportError fmt exit code f.message

/-- The answer to an invalid flag value. -/
def invalid (fmt : Format) (f : Failure) : Outcome :=
  reportError fmt 2 "INVALID_REQUEST" f.message

/-- A success: the data as indented JSON, or the text. -/
def success (fmt : Format) (data : Json) (text : String) : Outcome :=
  match fmt with
  | .json => ⟨0, Json.pretty true "" (.obj [("status", .str "ok"), ("data", data)]) ++ "\n", none⟩
  | .text => ⟨0, text, none⟩

/-- The report of one ordering strategy. -/
structure OrderReport where
  strategy : String
  order : List String
  size : Int
  passes : Nat
  evaluations : Nat
  deriving Repr, Inhabited

/-- The JSON object of a report. -/
def OrderReport.toJson (r : OrderReport) : Json :=
  .obj [("strategy", .str r.strategy), ("order", Json.strs r.order), ("size", .num r.size),
    ("passes", .num r.passes), ("evaluations", .num r.evaluations)]

/-- The report of a strategy's outcome. -/
def report (strategy : String) (r : Order.SiftResult) : OrderReport :=
  ⟨strategy, r.order, r.cost, r.passes, r.evaluations⟩

/-- Runs a computation on a diagram, threading it. -/
def step {α : Type} (d : Diagram) (m : DiagramM α) : α × Diagram :=
  m.run d

/-- The text of a dash for an absent value. -/
def orDash (v : Option String) : String :=
  v.getD "-"

/-- Whether node `a` comes before node `b` in the table: by level, then by identifier. -/
def rowBefore (a b : NodeView) : Bool :=
  a.level < b.level ∨ (a.level = b.level ∧ a.id < b.id)

/-- The text answer of `build`. -/
def buildText (kind : Kind) (d : Diagram) (size : Nat) (models : Nat) (v : View) : String :=
  let head := kind.name ++ " of " ++ d.formula ++ "\n" ++
    "expression:  " ++ d.expression ++ "\n" ++
    "order:       " ++ " ".intercalate d.order ++ "\n" ++
    "nodes:       " ++ toString size ++ "\n" ++
    "models:      " ++ toString models ++ "\n" ++
    (match d.highlighted with
      | some a => "highlighted: " ++ a.text ++ "\n"
      | none => "") ++ "\n"
  let nodes := (v.nodes.map (·.2)).mergeSort rowBefore
  let rows := ["ID", "VAR", "LEVEL", "STEP", "LOW", "HIGH", "MARK", "EXPR"] ::
    nodes.map fun n =>
      [n.id, orDash n.var, toString n.level, orDash (n.step.map toString), orDash n.low,
       orDash n.high, if n.highlight then "*" else "", n.expr]
  head ++ Columns.align 0 2 rows

/-- `build`: builds the diagram of a formula for the flags. -/
def build (fmt : Format) (p : ParsedFlags) (cfg : Config) (text : String) : Outcome :=
  match Kind.parse (Flags.get p "type" "robdd") with
  | .error f => invalid fmt f
  | .ok kind =>
    let auto := Flags.get p "auto" ""
    match (if auto.isEmpty then .ok none else (Strategy.parse auto).map some) with
    | .error f => invalid fmt f
    | .ok strategy =>
      let eval := Flags.get p "eval" ""
      match (if eval.isEmpty then .ok none else (Assignment.parse eval).map some) with
      | .error f => fail fmt f
      | .ok assignment =>
        let text := stripSpaces text
        let manual := Flags.get p "order" ""
        let order := if manual.isEmpty then none
          else some (Order.manual (DecisionDiagrams.variablesOf text) (Order.parseManual manual))
        match Diagram.create text cfg.kernel.limits order with
        | .error f => fail fmt f
        | .ok d =>
          let (r, d) := step d (match strategy with
            | some s => do
              let r ← Diagram.autoOrder kind s.name cfg.sift.passes
              return r.map fun r => some (report s.name r)
            | none => do return (← Diagram.build kind).map fun _ => none)
          match r with
          | .error f => fail fmt f
          | .ok sift =>
            let (r, d) := step d (match assignment with
              | some a => Diagram.highlight kind a
              | none => pure (.ok ()))
            match r with
            | .error f => fail fmt f
            | .ok () =>
              if Flags.getSwitch p "dot" then
                match (step d (Diagram.dot kind)).1 with
                | .ok t => ⟨0, t, none⟩
                | .error f => ⟨1, "", some f.message⟩
              else
                let (r, d) := step d (Diagram.view kind)
                match r with
                | .error f => fail fmt f
                | .ok v =>
                  let size := Diagram.size d kind
                  let (models, d) := step d Diagram.models
                  let siftJson := match sift with
                    | some s => [("sift", s.toJson)]
                    | none => []
                  let data : Json := .obj ([("formula", .str d.formula),
                    ("expression", .str d.expression), ("type", .str kind.name),
                    ("order", Json.strs d.order), ("size", .num size),
                    ("models", .str (toString models))] ++ siftJson ++ [("graph", v.toJson)])
                  success fmt data (buildText kind d size models v)

/-- The text answer of `order`. -/
def orderText (kind : Kind) (formula : String) (rs : List OrderReport) : String :=
  kind.name ++ " of " ++ formula ++ "\n\n" ++
    Columns.align 0 2 (["STRATEGY", "SIZE", "PASSES", "ORDER"] ::
      rs.map fun r => [r.strategy, toString r.size, toString r.passes, " ".intercalate r.order])

/-- `order`: compares the orders of a formula. -/
def order (fmt : Format) (p : ParsedFlags) (cfg : Config) (text : String) : Outcome :=
  match Kind.parse (Flags.get p "type" "robdd") with
  | .error f => invalid fmt f
  | .ok kind =>
    match Diagram.create (stripSpaces text) cfg.kernel.limits none with
    | .error f => fail fmt f
    | .ok d =>
      let (r, d) := step d (Diagram.measure kind d.vars)
      match r with
      | .error f => fail fmt f
      | .ok size =>
        let first : OrderReport := ⟨"discovery", d.vars, size, 0, 1⟩
        let (r, d) := step d (Diagram.autoOrder kind "freq" cfg.sift.passes)
        match r with
        | .error f => fail fmt f
        | .ok freq =>
          let (r, d) := step d (Diagram.autoOrder kind "ls" cfg.sift.passes)
          match r with
          | .error f => fail fmt f
          | .ok ls =>
            let rs := [first, report "freq" freq, report "ls" ls]
            let data : Json := .obj [("formula", .str d.formula), ("type", .str kind.name),
              ("orders", .arr (rs.map OrderReport.toJson))]
            success fmt data (orderText kind d.formula rs)

/-- Runs a command line, with the files it may read and the address set in the environment.
Without a command, only the flags of every command are read: an error in them is reported, and
otherwise nothing is run. -/
def run (args : List String) (file : String → FileRead) (env : Option String) : Outcome :=
  match Flags.words rootFlags args with
  | [] =>
    match Flags.parse rootFlags args ⟨[], []⟩ with
    | .error e => ⟨1, "", some e⟩
    | .ok _ => ⟨0, "", none⟩
  | w :: _ =>
    let flags := if w = "build" then some (buildFlags ++ rootFlags)
      else if w = "order" then some (orderFlags ++ rootFlags) else none
    match flags with
    | none => ⟨1, "", some (unknownCommand w)⟩
    | some fs =>
      match Flags.parse fs (Flags.withoutFirst rootFlags w args) ⟨[], []⟩ with
      | .error e => ⟨1, "", some e⟩
      | .ok p =>
        if p.args.length ≠ 1 then
          ⟨1, "", some ("accepts 1 arg(s), received " ++ toString p.args.length)⟩
        else
          let format := Flags.get p "format" "text"
          let fmt : Option Format := if format = "text" then some .text
            else if format = "json" then some .json else none
          match fmt with
          | none =>
            ⟨2, "", some ("invalid format " ++ Text.quote format ++ ": must be one of [text json]")⟩
          | some fmt =>
            match Config.load file (Flags.get p "config" "") env with
            | .error e => ⟨2, "", some ("cannot load configuration: " ++ e)⟩
            | .ok cfg =>
              let level := Flags.get p "log-level" ""
              let cfg := if level.isEmpty then cfg
                else { cfg with log := { cfg.log with level := Text.bytesOf level } }
              let cfg := if Flags.getSwitch p "verbose" then
                { cfg with log := { cfg.log with level := Text.bytesOf "debug" } } else cfg
              match Level.parse cfg.log.level with
              | .error e => ⟨2, "", some ("invalid log settings: " ++ e)⟩
              | .ok _ =>
                let text := p.args.headD ""
                if w = "build" then build fmt p cfg text else order fmt p cfg text

/-- The settings file a command line names, if it names one for a known command. -/
def configPath (args : List String) : Option String :=
  match Flags.words rootFlags args with
  | w :: _ =>
    let fs := if w = "build" then buildFlags ++ rootFlags else orderFlags ++ rootFlags
    match Flags.parse fs (Flags.withoutFirst rootFlags w args) ⟨[], []⟩ with
    | .ok p => let c := Flags.get p "config" ""; if c.isEmpty then none else some c
    | .error _ => none
  | [] => none

end Cli

end DecisionDiagrams
