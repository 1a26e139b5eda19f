/-
Parsing the tokens of a YAML text into the nodes of its first document.

* `Node` — a scalar with its tag and text, a sequence, a mapping, or an alias; each with the
  line it starts on, from one. A scalar written plain without a tag has the tag its text
  resolves to (`<<` has `!!merge`); a quoted or block scalar without a tag has `!!str`;
  collections have `!!seq` and `!!map`. A tag is kept with the core-schema prefix written
  `!!`; the tag `!` counts as none.
* `Document` — the root node and the anchored nodes, numbered in the order their anchors
  appear; an alias refers to the anchored node its name had where the alias appears, so an
  alias inside the node it names refers to that node.
* `compose` — the first document of a text, none when the text has no document. Tokens are
  taken one at a time, so a problem after the first document is not met (unless it lies
  within the few tokens read ahead).

The grammar follows the block and flow productions: block mappings of keys and values (a
value may be a sequence at the indentation of its key), block sequences of `-` entries, flow
sequences (whose entries may be single pairs) and flow mappings, with empty nodes where a key
or value is left out; a node may carry an anchor and a tag.
-/
import DecisionDiagrams.Yaml.Scanner
import DecisionDiagrams.Yaml.Resolve

namespace DecisionDiagrams

namespace Yaml

/-- A node of a YAML document, with the line it starts on. -/
inductive Node where
  | scalar (tag value : String) (line : Nat)
  | sequence (tag : String) (items : List Node) (line : Nat)
  | mapping (tag : String) (entries : List (Node × Node)) (line : Nat)
  /-- An alias: the name it was written with and the number of the anchored node. -/
  | alias (name : String) (target : Nat) (line : Nat)
  deriving Repr, Inhabited

namespace Node

/-- The line a node starts on. -/
def line : Node → Nat
  | .scalar _ _ l | .sequence _ _ l | .mapping _ _ l | .alias _ _ l => l

/-- The tag of a node; none for an alias. -/
def tag : Node → String
  | .scalar t _ _ | .sequence t _ _ | .mapping t _ _ => t
  | .alias .. => ""

/-- The text of a node: a scalar's value, an alias's name, empty for a collection. -/
def text : Node → String
  | .scalar _ v _ => v
  | .alias n _ _ => n
  | _ => ""

/-- The kind of a node: scalar, sequence, mapping or alias. -/
def kind : Node → Nat
  | .scalar .. => 0
  | .sequence .. => 1
  | .mapping .. => 2
  | .alias .. => 3

end Node

/-- A document: its root and its anchored nodes. -/
structure Document where
  root : Node
  anchored : Array Node
  deriving Repr, Inhabited

/-- The state of the parser: the scanner, the tag handles of the document, the anchors seen
(latest first) and the anchored nodes. -/
structure Composer where
  scanner : Scanner
  handles : List (String × String) := []
  anchors : List (String × Nat) := []
  anchored : Array Node := #[]
  deriving Inhabited

/-- Computations of the parser: they change its state or stop with a message. -/
abbrev ComposeM := StateT Composer (Except String)

/-- Runs a step of the scanner. -/
def scan {α : Type} (act : ScanM α) : ComposeM α := do
  let c ← get
  match act.run c.scanner with
  | .ok (a, sc) =>
    set { c with scanner := sc }
    pure a
  | .error p => throw p.text

/-- The next token. -/
def peek : ComposeM Token := scan peekToken

/-- Takes the next token. -/
def take : ComposeM Unit := scan skipToken

/-- Stops with a problem found while parsing. -/
def parseError {α : Type} (context mark : Mark) (message : String) : ComposeM α :=
  throw ({ stage := .parser, context, mark, message } : Problem).text

/-- The empty node written at a mark: a plain scalar with no text, so null. -/
def emptyNode (mark : Mark) : Node := .scalar "!!null" "" (mark.line + 1)

/-- The tag of a scalar: its own tag unless none or `!`, else `!!str` for a quoted or block
scalar, `!!merge` for a plain `<<`, and the resolved tag for another plain scalar. -/
def scalarTag (tag : String) (plain : Bool) (value : String) : String :=
  if tag != "" && tag != "!" then shortTag tag
  else if !plain then "!!str"
  else if value == "<<" then "!!merge"
  else plainTag value

/-- The tag of a collection: its own tag unless none or `!`, else the default. -/
def collectionTag (tag default : String) : String :=
  if tag != "" && tag != "!" then shortTag tag else default

/-- Reserves the number of an anchored node. -/
def reserve (anchor : Option String) : ComposeM (Option Nat) := do
  match anchor with
  | none => pure none
  | some name =>
    let c ← get
    set { c with anchors := (name, c.anchored.size) :: c.anchors,
                 anchored := c.anchored.push default }
    pure (some c.anchored.size)

/-- Records an anchored node under its number. -/
def record (id : Option Nat) (n : Node) : ComposeM Node := do
  if let some i := id then
    modify fun c => { c with anchored := c.anchored.set! i n }
  pure n

/-- Whether a token ends an entry of a block collection. -/
def endsBlockEntry (k : TokenKind) (indentless : Bool) : Bool :=
  k == .blockEntry || k == .blockEnd || (indentless && (k == .key || k == .value))

mutual

/-- A node; `block` allows block collections, `indentless` a sequence at the indentation of
its key. -/
def parseNode (block indentless : Bool) (fuel : Nat) : ComposeM Node := do
  match fuel with
  | 0 => throw "yaml: exceeded max depth"
  | fuel + 1 =>
  let tok ← peek
  match tok.kind with
  | .alias name =>
    take
    match List.lookup name (← get).anchors with
    | some id => pure (.alias name id (tok.start.line + 1))
    | none => throw ("yaml: unknown anchor '" ++ name ++ "' referenced")
  | _ =>
  let start := tok.start
  let mut tok := tok
  let mut anchor : Option String := none
  let mut tagged : Option (String × String × Mark) := none
  match tok.kind with
  | .anchor a =>
    anchor := some a
    take
    tok ← peek
    match tok.kind with
    | .tag h s =>
      tagged := some (h, s, tok.start)
      take
      tok ← peek
    | _ => pure ()
  | .tag h s =>
    tagged := some (h, s, tok.start)
    take
    tok ← peek
    match tok.kind with
    | .anchor a =>
      anchor := some a
      take
      tok ← peek
    | _ => pure ()
  | _ => pure ()
  let tag ← match tagged with
    | none => pure ""
    | some (h, s, m) =>
      if h.isEmpty then pure s
      else match List.lookup h (← get).handles with
        | some pfx => pure (pfx ++ s)
        | none => parseError start m "found undefined tag handle"
  let line := start.line + 1
  if indentless && tok.kind == .blockEntry then
    let id ← reserve anchor
    let items ← indentlessSequence fuel []
    record id (.sequence (collectionTag tag "!!seq") items line)
  else match tok.kind with
  | .scalar text style =>
    take
    let id ← reserve anchor
    record id (.scalar (scalarTag tag (style == .plain) text) text line)
  | .flowSequenceStart =>
    let id ← reserve anchor
    take
    let items ← flowSequence tok.start fuel true []
    record id (.sequence (collectionTag tag "!!seq") items line)
  | .flowMappingStart =>
    let id ← reserve anchor
    take
    let entries ← flowMapping tok.start fuel true []
    record id (.mapping (collectionTag tag "!!map") entries line)
  | .blockSequenceStart =>
    if block then
      let id ← reserve anchor
      take
      let items ← blockSequence tok.start fuel []
      record id (.sequence (collectionTag tag "!!seq") items line)
    else noContent block start tok anchor tag
  | .blockMappingStart =>
    if block then
      let id ← reserve anchor
      take
      let entries ← blockMapping tok.start fuel []
      record id (.mapping (collectionTag tag "!!map") entries line)
    else noContent block start tok anchor tag
  | _ => noContent block start tok anchor tag
termination_by structural fuel

/-- A node with no content: an empty scalar when it has an anchor or a tag, else a problem. -/
def noContent (block : Bool) (start : Mark) (tok : Token) (anchor : Option String)
    (tag : String) : ComposeM Node := do
  if anchor.isSome || !tag.isEmpty then
    let id ← reserve anchor
    record id (.scalar (scalarTag tag true "") "" (start.line + 1))
  else
    let _ := block
    parseError start tok.start "did not find expected node content"

/-- The entries of a block sequence after its start; `context` is the mark of its start. -/
def blockSequence (context : Mark) (fuel : Nat) (acc : List Node) : ComposeM (List Node) := do
  match fuel with
  | 0 => throw "yaml: exceeded max depth"
  | fuel + 1 =>
  let tok ← peek
  match tok.kind with
  | .blockEntry =>
    take
    let next ← peek
    let item ← if endsBlockEntry next.kind false then pure (emptyNode tok.stop)
      else parseNode true false fuel
    blockSequence context fuel (acc ++ [item])
  | .blockEnd =>
    take
    pure acc
  | _ => parseError context tok.start "did not find expected '-' indicator"
termination_by structural fuel

/-- The entries of a sequence at the indentation of its key. -/
def indentlessSequence (fuel : Nat) (acc : List Node) : ComposeM (List Node) := do
  match fuel with
  | 0 => throw "yaml: exceeded max depth"
  | fuel + 1 =>
  let tok ← peek
  match tok.kind with
  | .blockEntry =>
    take
    let next ← peek
    let item ← if endsBlockEntry next.kind true then pure (emptyNode tok.stop)
      else parseNode true false fuel
    indentlessSequence fuel (acc ++ [item])
  | _ => pure acc
termination_by structural fuel

/-- The entries of a block mapping after its start; `context` is the mark of its start. -/
def blockMapping (context : Mark) (fuel : Nat) (acc : List (Node × Node)) :
    ComposeM (List (Node × Node)) := do
  match fuel with
  | 0 => throw "yaml: exceeded max depth"
  | fuel + 1 =>
  let tok ← peek
  match tok.kind with
  | .key =>
    take
    let next ← peek
    let key ← if endsBlockEntry next.kind true && next.kind != .blockEntry then
        pure (emptyNode tok.stop)
      else parseNode true true fuel
    let value ← blockValue fuel
    blockMapping context fuel (acc ++ [(key, value)])
  | .blockEnd =>
    take
    pure acc
  | _ => parseError context tok.start "did not find expected key"
termination_by structural fuel

/-- The value of an entry of a block mapping: after `:`, or empty. -/
def blockValue (fuel : Nat) : ComposeM Node := do
  match fuel with
  | 0 => throw "yaml: exceeded max depth"
  | fuel + 1 =>
  let tok ← peek
  match tok.kind with
  | .value =>
    take
    let next ← peek
    if next.kind == .key || next.kind == .value || next.kind == .blockEnd then
      pure (emptyNode tok.stop)
    else parseNode true true fuel
  | _ => pure (emptyNode tok.start)
termination_by structural fuel

/-- The entries of a flow sequence after `[`; `context` is the mark of `[`. -/
def flowSequence (context : Mark) (fuel : Nat) (first : Bool) (acc : List Node) :
    ComposeM (List Node) := do
  match fuel with
  | 0 => throw "yaml: exceeded max depth"
  | fuel + 1 =>
  let mut tok ← peek
  if tok.kind != .flowSequenceEnd then
    if !first then
      if tok.kind == .flowEntry then
        take
        tok ← peek
      else parseError context tok.start "did not find expected ',' or ']'"
    if tok.kind == .key then
      take
      let pair ← flowPair tok.start fuel
      return ← flowSequence context fuel false (acc ++ [pair])
    else if tok.kind != .flowSequenceEnd then
      let item ← parseNode false false fuel
      return ← flowSequence context fuel false (acc ++ [item])
  take
  pure acc
termination_by structural fuel

/-- A single pair in a flow sequence, after its `?` or before its `:`. -/
def flowPair (start : Mark) (fuel : Nat) : ComposeM Node := do
  match fuel with
  | 0 => throw "yaml: exceeded max depth"
  | fuel + 1 =>
  let tok ← peek
  let key ← if tok.kind == .value || tok.kind == .flowEntry || tok.kind == .flowSequenceEnd then
      do take; pure (emptyNode tok.stop)
    else parseNode false false fuel
  let tok ← peek
  let value ← if tok.kind == .value then do
      take
      let next ← peek
      if next.kind == .flowEntry || next.kind == .flowSequenceEnd then pure (emptyNode tok.start)
      else parseNode false false fuel
    else pure (emptyNode tok.start)
  let _ ← peek
  pure (.mapping "!!map" [(key, value)] (start.line + 1))
termination_by structural fuel

/-- The entries of a flow mapping after `{`; `context` is the mark of `{`. -/
def flowMapping (context : Mark) (fuel : Nat) (first : Bool) (acc : List (Node × Node)) :
    ComposeM (List (Node × Node)) := do
  match fuel with
  | 0 => throw "yaml: exceeded max depth"
  | fuel + 1 =>
  let mut tok ← peek
  if tok.kind != .flowMappingEnd then
    if !first then
      if tok.kind == .flowEntry then
        take
        tok ← peek
      else parseError context tok.start "did not find expected ',' or '\x7d'"
    if tok.kind == .key then
      take
      let next ← peek
      let key ← if next.kind == .value || next.kind == .flowEntry || next.kind == .flowMappingEnd
        then pure (emptyNode next.start)
        else parseNode false false fuel
      let value ← flowValue fuel
      return ← flowMapping context fuel false (acc ++ [(key, value)])
    else if tok.kind != .flowMappingEnd then
      let key ← parseNode false false fuel
      let next ← peek
      return ← flowMapping context fuel false (acc ++ [(key, emptyNode next.start)])
  take
  pure acc
termination_by structural fuel

/-- The value of an entry of a flow mapping: after `:`, or empty. -/
def flowValue (fuel : Nat) : ComposeM Node := do
  match fuel with
  | 0 => throw "yaml: exceeded max depth"
  | fuel + 1 =>
  let tok ← peek
  if tok.kind == .value then
    take
    let next ← peek
    if next.kind == .flowEntry || next.kind == .flowMappingEnd then pure (emptyNode next.start)
    else parseNode false false fuel
  else pure (emptyNode tok.start)
termination_by structural fuel

end

/-- The directives before a document: `%YAML 1.1` at most once, and `%TAG` handles each at
most once; the default handles `!` and `!!` are added. -/
def directives (fuel : Nat) (version : Bool) (handles : List (String × String)) :
    ComposeM Unit := do
  match fuel with
  | 0 => pure ()
  | fuel + 1 =>
  let tok ← peek
  match tok.kind with
  | .versionDirective major minor =>
    if version then parseError {} tok.start "found duplicate %YAML directive"
    if major != 1 || minor != 1 then parseError {} tok.start "found incompatible YAML document"
    take
    directives fuel true handles
  | .tagDirective h p =>
    if (List.lookup h handles).isSome then parseError {} tok.start "found duplicate %TAG directive"
    take
    directives fuel version (handles ++ [(h, p)])
  | _ =>
    let defaults := [("!", "!"), ("!!", longTagPrefix)].filter fun d =>
      (List.lookup d.1 handles).isNone
    modify fun c => { c with handles := handles ++ defaults }

/-- The first document of the token stream, none when there is none. -/
def firstDocument (fuel : Nat) : ComposeM (Option Node) := do
  let _ ← peek
  take
  let tok ← peek
  match tok.kind with
  | .streamEnd => pure none
  | .versionDirective .. | .tagDirective .. | .documentStart =>
    directives fuel false []
    let tok ← peek
    if tok.kind != .documentStart then
      parseError {} tok.start "did not find expected <document start>"
    take
    let tok ← peek
    let root ← match tok.kind with
      | .versionDirective .. | .tagDirective .. | .documentStart | .documentEnd | .streamEnd =>
        pure (emptyNode tok.start)
      | _ => parseNode true false fuel
    let tok ← peek
    if tok.kind == .documentEnd then take
    pure (some root)
  | _ =>
    directives fuel false []
    let root ← parseNode true false fuel
    let tok ← peek
    if tok.kind == .documentEnd then take
    pure (some root)

/-- The first document of a YAML text, none when it has none; the message of the first problem
met otherwise. -/
def compose (text : String) : Except String (Option Document) :=
  let scanner := Scanner.ofText text
  let fuel := 8 * (scanner.input.size + 8)
  match (firstDocument fuel).run { scanner } with
  | .ok (none, _) => .ok none
  | .ok (some root, c) => .ok (some { root, anchored := c.anchored })
  | .error e => .error e

end Yaml

end DecisionDiagrams
