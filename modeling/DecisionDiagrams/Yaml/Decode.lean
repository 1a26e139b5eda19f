/-
Decoding a YAML document into a record of integers and strings.

A `Shape` describes the value a document is decoded into: an integer, a string, or a record
of named fields. Decoding starts from a value of that shape and changes the parts the document
gives; problems of type are collected with their lines and decoding goes on, while a problem
that stops decoding (a tag that does not fit its text, a merge of something that is not a
mapping, an alias inside the node it names) ends it at once.

* A null leaves the value as it was.
* A string takes the text of any scalar, as bytes: a `!!binary` scalar gives the bytes it
  encodes, which need not be UTF-8.
* An integer takes an integer in the signed 64-bit range, or a float at most 2^63, converted by
  truncation (values out of range give the smallest 64-bit integer).
* A record takes a mapping: first, keys written twice (same kind and text) are reported and the
  mapping is skipped; then each key names a field (keys that are not fields are ignored, a
  field named twice is reported). After the other keys, a `<<` key merges a mapping, an alias
  of one, or a sequence of them (earlier ones first); keys given in the mapping itself, and
  keys merged earlier, win, and a merge inside a merged mapping shares those keys. A record
  nested in a merged mapping is decoded afresh.
* An alias decodes as the node it names. Every node decoded is a step; when aliases make up too
  large a share of a long decoding (see `countStep`), decoding stops.
-/
import DecisionDiagrams.Yaml.Compose
import DecisionDiagrams.Text.Quoted

namespace DecisionDiagrams

namespace Yaml

/-- The shape of a value: an integer, a string, or a record with a type name and fields. -/
inductive Shape where
  | int
  | string
  | record (name : String) (fields : List (String × Shape))
  deriving Repr, Inhabited

/-- A value of a shape. -/
inductive Value where
  | int (i : Int)
  | string (s : Text.Bytes)
  | record (fields : List (String × Value))
  deriving Repr, Inhabited

/-- The name of a shape in messages. -/
def Shape.name : Shape → String
  | .int => "int"
  | .string => "string"
  | .record n _ => n

/-- A field of a record value. -/
def Value.field (v : Value) (name : String) : Value :=
  match v with
  | .record fs => (List.lookup name fs).getD (.record [])
  | _ => .record []

/-- A record value with one field replaced. -/
def Value.setField (v : Value) (name : String) (x : Value) : Value :=
  match v with
  | .record fs => .record (fs.map fun f => if f.1 == name then (name, x) else f)
  | _ => v

/-- The state of decoding: the problems of type so far, the anchored nodes being decoded
through an alias (innermost first), the keys that merged mappings may no longer set, and the
number of decoding steps, all of them and those taken inside an alias. -/
structure DecodeState where
  problems : Array String := #[]
  active : List Nat := []
  merged : Option (List Text.Bytes) := none
  steps : Nat := 0
  aliasedSteps : Nat := 0
  deriving Inhabited

/-- Computations of decoding: they change its state or stop with a message. -/
abbrev DecodeM := StateT DecodeState (Except String)

/-- Records a problem of type. -/
def report (p : String) : DecodeM Unit :=
  modify fun s => { s with problems := s.problems.push p }

/-- Whether `aliased` of `steps` decoding steps is too large a share: above 99% up to 400,000
steps, above 10% from 4,000,000 steps, and a share falling linearly in between. -/
def tooAliased (aliased steps : Nat) : Bool :=
  if steps ≤ 400000 then 100 * aliased > 99 * steps
  else if steps ≥ 4000000 then 10 * aliased > steps
  else 360000000 * aliased > steps * (392000000 - 89 * steps)

/-- Counts a decoding step, as one inside an alias when an alias is being decoded; a decoding
of more than 1000 steps, more than 100 of them inside aliases, stops when those are too large
a share (`tooAliased`): aliases that expand to far more than the text holds are refused. -/
def countStep : DecodeM Unit := do
  modify fun s => { s with steps := s.steps + 1,
                           aliasedSteps := if s.active.isEmpty then s.aliasedSteps
                             else s.aliasedSteps + 1 }
  let s ← get
  if s.aliasedSteps > 100 && s.steps > 1000 && tooAliased s.aliasedSteps s.steps then
    throw "yaml: document contains excessive aliasing"

/-- The problem of a node that does not fit a shape; a scalar is shown with its text, cut to
seven bytes when longer than ten. -/
def typeProblem (n : Node) (tag : String) (shape : Shape) : String :=
  let tag := if n.tag != "" then n.tag else tag
  let shown := if tag == "!!seq" || tag == "!!map" then ""
    else
      let v := n.text
      " `" ++ (if v.utf8ByteSize > 10 then Text.firstBytes 7 v ++ "..." else v) ++ "`"
  "line " ++ toString n.line ++ ": cannot unmarshal " ++ shortTag tag ++ shown ++ " into " ++
    shape.name

/-- The tag and value of a scalar (a string when its tag is `!!str`, else as resolved) and the
bytes a string takes from it: those a `!!binary` scalar encodes, else those of its text. -/
def scalarValue (tag value : String) : DecodeM (String × Scalar × Text.Bytes) := do
  if tag == "!!str" then return ("!!str", .str value, Text.bytesOf value)
  match resolve tag value with
  | .error e => throw e
  | .ok (rtag, out) =>
    if rtag == "!!binary" then
      match decodeBase64 value with
      | some bytes => pure (rtag, .str (Text.lossy bytes), bytes)
      | none => throw "yaml: !!binary value contains invalid base64 data"
    else pure (rtag, out, Text.bytesOf value)

/-- Whether a key is the merge key `<<`. -/
def isMergeKey : Node → Bool
  | .scalar tag value _ => value == "<<" && (tag == "" || tag == "!" || tag == "!!merge")
  | _ => false

/-- The keys written twice in a mapping: for each later key of the same kind and text as an
earlier one, its problem. -/
def duplicateKeys (keys : List Node) : List String :=
  match keys with
  | [] => []
  | k :: rest =>
    (rest.filter fun j => j.kind == k.kind && j.text == k.text).map (fun j =>
      "line " ++ toString j.line ++ ": mapping key " ++ Text.quote j.text ++
        " already defined at line " ++ toString k.line) ++ duplicateKeys rest

mutual

/-- Decodes a node into a value of a shape; whether it was decoded. -/
def unmarshal (doc : Document) (fuel : Nat) (n : Node) (shape : Shape) (v : Value) :
    DecodeM (Value × Bool) := do
  match fuel with
  | 0 => throw "yaml: document contains excessive aliasing"
  | fuel + 1 =>
  countStep
  match n with
  | .alias name target _ =>
    if (← get).active.contains target then
      throw ("yaml: anchor '" ++ name ++ "' value contains itself")
    modify fun s => { s with active := target :: s.active }
    let r ← unmarshal doc fuel (doc.anchored.getD target default) shape v
    modify fun s => { s with active := s.active.drop 1 }
    pure r
  | .scalar tag value _ =>
    let (rtag, out, bytes) ← scalarValue tag value
    match out, shape with
    | .null, _ => pure (v, false)
    | _, .string => pure (.string bytes, true)
    | .int i, .int => pure (.int i, true)
    | .uint u, .int =>
      if u < Nat.pow 2 63 then pure (.int u, true)
      else do report (typeProblem n rtag shape); pure (v, false)
    | .float f, .int =>
      if f.atMostTwoPow63 then pure (.int f.toInt64, true)
      else do report (typeProblem n rtag shape); pure (v, false)
    | _, _ =>
      report (typeProblem n rtag shape)
      pure (v, false)
  | .sequence .. =>
    report (typeProblem n "!!seq" shape)
    pure (v, false)
  | .mapping _ entries _ =>
    let dups := duplicateKeys (entries.map (·.1))
    if !dups.isEmpty then
      for d in dups do report d
      return (v, false)
    match shape with
    | .record name fields =>
      let keep := (← get).merged
      modify fun s => { s with merged := none }
      let (v, keep, merge) ← entriesInto doc fuel name fields entries [] keep none v
      modify fun s => { s with merged := keep }
      match merge with
      | none => pure (v, true)
      | some x => pure (← mergeInto doc fuel name fields entries x v, true)
    | _ =>
      report (typeProblem n "!!map" shape)
      pure (v, false)
termination_by structural fuel

/-- Decodes the entries of a mapping into a record, all but its `<<` keys. `keep` holds the keys
that a merge may no longer set (none outside a merge): a key in it is passed over, and every
other key is added to it; `done` holds the fields set so far. Gives the record, the keys kept,
and the value of the last `<<` key. -/
def entriesInto (doc : Document) (fuel : Nat) (name : String) (fields : List (String × Shape))
    (entries : List (Node × Node)) (done : List String) (keep : Option (List Text.Bytes))
    (merge : Option Node) (v : Value) :
    DecodeM (Value × Option (List Text.Bytes) × Option Node) := do
  match fuel with
  | 0 => throw "yaml: document contains excessive aliasing"
  | fuel + 1 =>
  match entries with
  | [] => pure (v, keep, merge)
  | (k, x) :: rest =>
    if isMergeKey k then entriesInto doc fuel name fields rest done keep (some x) v
    else
      let (key, good) ← unmarshal doc fuel k .string (.string [])
      match key, good with
      | .string sname, true =>
        if (keep.map (·.contains sname)).getD false then
          entriesInto doc fuel name fields rest done keep merge v
        else
          let keep := keep.map (sname :: ·)
          match fields.find? (fun f => Text.bytesOf f.1 == sname) with
          | none => entriesInto doc fuel name fields rest done keep merge v
          | some (field, shape) =>
            if done.contains field then
              report ("line " ++ toString k.line ++ ": field " ++ field ++
                " already set in type " ++ name)
              entriesInto doc fuel name fields rest done keep merge v
            else
              let (x', _) ← unmarshal doc fuel x shape (v.field field)
              entriesInto doc fuel name fields rest (field :: done) keep merge
                (v.setField field x')
      | _, _ => entriesInto doc fuel name fields rest done keep merge v
termination_by structural fuel

/-- Merges the value of a `<<` key into a record: a mapping, an alias of one, or a sequence of
them. Outside a merge, the keys that may no longer be set start as the string keys of the
mapping holding the `<<` key, and are forgotten afterwards; inside one, the merge shares and
extends the keys of the merge around it. -/
def mergeInto (doc : Document) (fuel : Nat) (name : String) (fields : List (String × Shape))
    (parent : List (Node × Node)) (x : Node) (v : Value) : DecodeM Value := do
  match fuel with
  | 0 => throw "yaml: document contains excessive aliasing"
  | fuel + 1 =>
  let saved := (← get).merged
  if saved.isNone then
    let keys ← parentKeys doc fuel (parent.map (·.1)) []
    modify fun s => { s with merged := some keys }
  let shape := Shape.record name fields
  let isMapping (n : Node) : Bool := match n with
    | .mapping .. => true
    | .alias _ t _ => match doc.anchored.getD t default with
      | .mapping .. => true
      | _ => false
    | _ => false
  let v ← match x with
    | .mapping .. | .alias .. =>
      if !isMapping x then throw "yaml: map merge requires map or sequence of maps as the value"
      else do let (v, _) ← unmarshal doc fuel x shape v; pure v
    | .sequence _ items _ => mergeAll doc fuel shape isMapping items v
    | _ => throw "yaml: map merge requires map or sequence of maps as the value"
  if saved.isNone then modify fun s => { s with merged := none }
  pure v
termination_by structural fuel

/-- Merges the mappings of a sequence in order. -/
def mergeAll (doc : Document) (fuel : Nat) (shape : Shape) (isMapping : Node → Bool)
    (items : List Node) (v : Value) : DecodeM Value := do
  match fuel with
  | 0 => throw "yaml: document contains excessive aliasing"
  | fuel + 1 =>
  match items with
  | [] => pure v
  | n :: rest =>
    if !isMapping n then throw "yaml: map merge requires map or sequence of maps as the value"
    let (v, _) ← unmarshal doc fuel n shape v
    mergeAll doc fuel shape isMapping rest v
termination_by structural fuel

/-- The keys of a mapping that decode as strings. -/
def parentKeys (doc : Document) (fuel : Nat) (keys : List Node) (acc : List Text.Bytes) :
    DecodeM (List Text.Bytes) := do
  match fuel with
  | 0 => throw "yaml: document contains excessive aliasing"
  | fuel + 1 =>
  match keys with
  | [] => pure acc
  | k :: rest =>
    let s ← keyText doc fuel k
    parentKeys doc fuel rest (match s with
      | some s => acc ++ [s]
      | none => acc)
termination_by structural fuel

/-- The text of a key decoded without a shape, when it is a string: a scalar whose value is a
string (a timestamp counts by its text), or an alias of one. A mapping key gives none, after
its keys written twice are reported. -/
def keyText (doc : Document) (fuel : Nat) (k : Node) : DecodeM (Option Text.Bytes) := do
  match fuel with
  | 0 => throw "yaml: document contains excessive aliasing"
  | fuel + 1 =>
  countStep
  match k with
  | .scalar tag value _ =>
    let (_, out, bytes) ← scalarValue tag value
    match out with
    | .str _ => pure (some bytes)
    | .timestamp => pure (some (Text.bytesOf value))
    | _ => pure none
  | .alias name target _ =>
    if (← get).active.contains target then
      throw ("yaml: anchor '" ++ name ++ "' value contains itself")
    modify fun s => { s with active := target :: s.active }
    let r ← keyText doc fuel (doc.anchored.getD target default)
    modify fun s => { s with active := s.active.drop 1 }
    pure r
  | .mapping _ entries _ =>
    for d in duplicateKeys (entries.map (·.1)) do report d
    pure none
  | .sequence .. => pure none
termination_by structural fuel

end

/-- Decodes a document into a value of a shape: the value and the problems of type, or the
message of a problem that stopped decoding. The document itself is the first step. -/
def decode (doc : Document) (shape : Shape) (v : Value) : Except String (Value × List String) :=
  let fuel := (doc.anchored.size + 2) * 100000
  match (unmarshal doc fuel doc.root shape v).run { steps := 1 } with
  | .ok ((v, _), s) => .ok (v, s.problems.toList)
  | .error e => .error e

end Yaml

end DecisionDiagrams
