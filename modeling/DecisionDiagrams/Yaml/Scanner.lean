/-
Splitting a YAML text into tokens.

The scanner reads characters from a position and appends tokens to a queue; the parser takes
tokens from the front of the queue. Tokens are made on demand, and the scanner keeps at least
two tokens beyond the one the parser looks at, more while that token may still turn out to be
a key: a key written without `?` is only known to be one when the `:` after it is reached, and
the `KEY` token (with a `BLOCK-MAPPING-START` when the key opens a block mapping) is then put in
front of it. Because tokens are made on demand, a problem later in the text is only met when
the parser gets near it.

* Indentation: the column of each open block collection is kept on a stack; a line that starts
  left of it closes the collection with `BLOCK-END`.
* Possible keys: one per flow level. A key that must be one (it starts a line at the
  indentation of a block mapping) and is not followed by `:` on its line is a problem.
* Scalars: plain scalars end at `: `, at ` #`, at a flow indicator inside a flow collection, or
  at a line indented no deeper than the enclosing block; line breaks inside plain and quoted
  scalars fold to spaces, and empty lines to line breaks. Block scalars (`|`, `>`) keep or fold
  their lines, with their indentation given or found from the first line, and chomp the final
  line breaks (`-` strips, `+` keeps).
* Comments: a comment runs to the end of its line; comments on the lines after one are taken
  with it, and a comment after a token on its line is taken with the token, blanks and tabs
  before it included.
* The text is checked in blocks of 512 bytes: a control character other than tab and line
  breaks stops reading when its block is reached.
-/
import DecisionDiagrams.Yaml.Token
import DecisionDiagrams.Text.Utf8

namespace DecisionDiagrams

namespace Yaml

/-- A line break: carriage return, line feed, next line, line or paragraph separator. -/
def isBreak (c : Char) : Bool :=
  c == '\r' || c == '\n' || c == '\u0085' || c == '\u2028' || c == '\u2029'

/-- A space or a tab. -/
def isBlank (c : Char) : Bool := c == ' ' || c == '\t'

/-- The character read at the end of the text. -/
def isEnd (c : Char) : Bool := c == '\x00'

/-- A line break or the end of the text. -/
def isBreakOrEnd (c : Char) : Bool := isBreak c || isEnd c

/-- A blank, a line break or the end of the text. -/
def isBlankOrEnd (c : Char) : Bool := isBlank c || isBreakOrEnd c

/-- A character of anchor names, directive names and tag handles: an ASCII letter or digit,
`_` or `-`. -/
def isWordChar (c : Char) : Bool := c.isAlphanum || c == '_' || c == '-'

/-- A hexadecimal digit. -/
def isHexDigit (c : Char) : Bool :=
  c.isDigit || ('a' ≤ c && c ≤ 'f') || ('A' ≤ c && c ≤ 'F')

/-- The value of a hexadecimal digit. -/
def hexDigitValue (c : Char) : Nat :=
  if c.isDigit then c.toNat - '0'.toNat
  else if 'a' ≤ c && c ≤ 'f' then c.toNat - 'a'.toNat + 10
  else c.toNat - 'A'.toNat + 10

/-- Whether the reader accepts a character: tab, line feed, carriage return, printable ASCII,
next line, and the rest of Unicode but for the C1 controls and U+FFFE and U+FFFF. -/
def accepted (c : Char) : Bool :=
  let n := c.toNat
  n == 0x09 || n == 0x0A || n == 0x0D || (0x20 ≤ n && n ≤ 0x7E) || n == 0x85 ||
    (0xA0 ≤ n && n ≤ 0xD7FF) || (0xE000 ≤ n && n ≤ 0xFFFD) || (0x10000 ≤ n && n ≤ 0x10FFFF)

/-- The index of the first character of the block that holds the first refused character, from
character `index` on, in a block that began at character `start` and holds `used` bytes. The
reader decodes the text in blocks of at most 512 bytes that end at character boundaries (a
character cut by the limit begins the next block), and stops at the first block with a refused
character as soon as the scanner needs any character of it. -/
def refusedBlock : List Char → Nat → Nat → Nat → Option Nat
  | [], _, _, _ => none
  | c :: cs, index, start, used =>
    let fits := used + c.utf8Size ≤ 512
    let start := if fits then start else index
    let used := if fits then used + c.utf8Size else c.utf8Size
    if accepted c then refusedBlock cs (index + 1) start used else some start

/-- A place where a key may start: whether it is still possible, whether it must be a key, the
number of the token it would come before, and its mark. -/
structure SimpleKey where
  possible : Bool := false
  required : Bool := false
  number : Nat := 0
  mark : Mark := {}
  deriving Repr, Inhabited

/-- The state of the scanner. -/
structure Scanner where
  /-- The characters of the text. -/
  input : Array Char
  /-- The index of the first character of the block the reader refuses, if any. -/
  refused : Option Nat := none
  /-- The current position. -/
  mark : Mark := {}
  started : Bool := false
  ended : Bool := false
  flowLevel : Nat := 0
  /-- Tokens made and not yet taken by the parser, first at the head. -/
  queue : List Token := []
  /-- The number of tokens the parser has taken. -/
  parsed : Nat := 0
  /-- Whether the head of the queue is ready for the parser. -/
  available : Bool := false
  /-- The indentation of the innermost open block collection, `-1` at the top. -/
  indent : Int := -1
  /-- The indentations of the enclosing block collections, innermost first. -/
  indents : List Int := []
  /-- Whether a key may start at the current position. -/
  keyAllowed : Bool := false
  /-- The possible key of each flow level, the innermost last. -/
  keys : Array SimpleKey := #[]
  /-- The flow level of the key registered for a token number. -/
  keyOfToken : List (Nat × Nat) := []
  /-- The line breaks read since the last character that is not a blank. -/
  newlines : Nat := 0
  deriving Inhabited

/-- A scanner at the start of a text; a byte order mark at the start is dropped (it still counts
in the first block of the reader), and an empty text reads as one line break. -/
def Scanner.ofText (text : String) : Scanner :=
  let cs := if text.isEmpty then ['\n'] else text.toList
  match cs with
  | '\uFEFF' :: rest => { input := rest.toArray, refused := (refusedBlock cs 0 0 0).map (· - 1) }
  | _ => { input := cs.toArray, refused := refusedBlock cs 0 0 0 }

/-- A bound on the steps of any loop over the rest of the text. -/
def Scanner.room (s : Scanner) : Nat := s.input.size + 4 - s.mark.index

/-- Computations of the scanner: they change its state or stop with a problem. -/
abbrev ScanM := StateT Scanner (Except Problem)

/-- The character `k` places ahead, `'\x00'` past the end; a problem when it lies in a block
the reader refuses. -/
def peekAt (k : Nat) : ScanM Char := do
  let s ← get
  let i := s.mark.index + k
  if let some r := s.refused then
    if r ≤ i then throw { stage := .reader, message := "control characters are not allowed" }
  pure (s.input.getD i '\x00')

/-- Moves past one character that is not a line break. -/
def skip : ScanM Unit := do
  let c ← peekAt 0
  modify fun s =>
    { s with mark := { s.mark with index := s.mark.index + 1, column := s.mark.column + 1 },
             newlines := if isBlank c then s.newlines else 0 }

/-- Moves past `n` characters. -/
def skipN : Nat → ScanM Unit
  | 0 => pure ()
  | n + 1 => do skip; skipN n

/-- Moves past a line break (two characters for CR LF); nothing when there is none. -/
def skipLine : ScanM Unit := do
  let c ← peekAt 0
  let d ← peekAt 1
  if c == '\r' && d == '\n' then
    modify fun s =>
      { s with mark := { index := s.mark.index + 2, line := s.mark.line + 1 },
               newlines := s.newlines + 1 }
  else if isBreak c then
    modify fun s =>
      { s with mark := { index := s.mark.index + 1, line := s.mark.line + 1 },
               newlines := s.newlines + 1 }

/-- Reads a line break: a line or paragraph separator stays itself, the others read as a line
feed; the empty string when there is no line break. -/
def readLine : ScanM String := do
  let c ← peekAt 0
  if c == '\u2028' || c == '\u2029' then
    skipLine
    pure c.toString
  else if isBreak c then
    skipLine
    pure "\n"
  else pure ""

/-- Reads the characters that satisfy `p`. -/
def readWhile (p : Char → Bool) (acc : String) : Nat → ScanM String
  | 0 => pure acc
  | fuel + 1 => do
    let c ← peekAt 0
    if p c then
      skip
      readWhile p (acc.push c) fuel
    else pure acc

/-- Skips the characters that satisfy `p`. -/
def skipWhile (p : Char → Bool) : Nat → ScanM Unit
  | 0 => pure ()
  | fuel + 1 => do
    if p (← peekAt 0) then
      skip
      skipWhile p fuel

/-- Stops with a problem found while splitting tokens, in the context of `context`. -/
def scanError {α : Type} (context : Mark) (message : String) : ScanM α := do
  throw { stage := .scanner, context, mark := (← get).mark, message }

/-- Appends a token to the queue. -/
def emit (kind : TokenKind) (start stop : Mark) : ScanM Unit :=
  modify fun s => { s with queue := s.queue ++ [⟨kind, start, stop⟩] }

/-- Puts a token at a place of the queue. -/
def insertAt (pos : Nat) (t : Token) : ScanM Unit :=
  modify fun s => { s with queue := s.queue.take pos ++ t :: s.queue.drop pos }

/-- Drops the registration of a token number. -/
def forget (number : Nat) (m : List (Nat × Nat)) : List (Nat × Nat) :=
  m.filter fun e => e.1 != number

/-- The possible key of the innermost flow level. -/
def Scanner.topKey (s : Scanner) : SimpleKey := s.keys.back?.getD {}

/-- Gives up the possible key of the current flow level; a problem when it had to be a key. -/
def removeSimpleKey : ScanM Unit := do
  let s ← get
  let k := s.topKey
  if k.possible then
    if k.required then scanError k.mark "could not find expected ':'"
    set { s with keys := s.keys.pop.push { k with possible := false },
                 keyOfToken := forget k.number s.keyOfToken }

/-- Records that a key may start here, when one may. -/
def saveSimpleKey : ScanM Unit := do
  let s ← get
  if s.keyAllowed then
    let key : SimpleKey :=
      { possible := true, required := s.flowLevel == 0 && s.indent == (s.mark.column : Int),
        number := s.parsed + s.queue.length, mark := s.mark }
    removeSimpleKey
    modify fun s =>
      { s with keys := s.keys.pop.push key,
               keyOfToken := (key.number, s.keys.size - 1) :: forget key.number s.keyOfToken }

/-- Whether the possible key of a flow level still is one: it must be on the current line and
less than 1024 characters back. A key that goes stale is given up, and is a problem when it
had to be a key. -/
def keyValid (level : Nat) : ScanM Bool := do
  let s ← get
  match s.keys[level]? with
  | none => pure false
  | some k =>
    if !k.possible then pure false
    else if k.mark.line < s.mark.line || k.mark.index + 1024 < s.mark.index then
      if k.required then scanError k.mark "could not find expected ':'"
      else
        set { s with keys := s.keys.modify level (fun k => { k with possible := false }) }
        pure false
    else pure true

/-- Enters a flow collection. -/
def increaseFlowLevel : ScanM Unit := do
  modify fun s => { s with keys := s.keys.push { mark := s.mark }, flowLevel := s.flowLevel + 1 }
  let s ← get
  if s.flowLevel > 10000 then scanError s.topKey.mark "exceeded max depth of 10000"

/-- Leaves a flow collection. -/
def decreaseFlowLevel : ScanM Unit :=
  modify fun s =>
    if s.flowLevel > 0 then
      { s with flowLevel := s.flowLevel - 1, keys := s.keys.pop,
               keyOfToken := forget s.topKey.number s.keyOfToken }
    else s

/-- Closes the block collections indented deeper than `column`. -/
def unrollLoop (column : Int) (mark : Mark) :
    List Int → Int → List Token → Int × List Int × List Token
  | [], indent, acc => (indent, [], acc)
  | i :: rest, indent, acc =>
    if indent > column then unrollLoop column mark rest i (acc ++ [⟨.blockEnd, mark, mark⟩])
    else (indent, i :: rest, acc)

/-- Closes the block collections indented deeper than `column` with `BLOCK-END` tokens, marked
just before `scanMark`; nothing inside a flow collection. -/
def unrollIndent (column : Int) (scanMark : Mark) : ScanM Unit := do
  let s ← get
  if s.flowLevel == 0 then
    let mark := { scanMark with index := scanMark.index - 1 }
    let (indent, indents, ends) := unrollLoop column mark s.indents s.indent []
    set { s with indent, indents, queue := s.queue ++ ends }

/-- Opens a block collection at `column` when it is deeper than the current indentation: the
token goes before token `number` when given, else at the end of the queue. -/
def rollIndent (column : Int) (number : Option Nat) (kind : TokenKind) (mark : Mark) :
    ScanM Unit := do
  let s ← get
  if s.flowLevel == 0 && s.indent < column then
    set { s with indents := s.indent :: s.indents, indent := column }
    if s.indents.length + 1 > 10000 then scanError s.topKey.mark "exceeded max depth of 10000"
    let t : Token := ⟨kind, mark, mark⟩
    match number with
    | some n => insertAt (n - s.parsed) t
    | none => modify fun s => { s with queue := s.queue ++ [t] }

/-- Consumes a comment and the comments of the lines after it, when only blanks and empty
lines lie between them. -/
def commentLines (peek : Nat) : Nat → ScanM Unit
  | 0 => pure ()
  | fuel + 1 => do
    if peek ≥ 512 then return
    let c ← peekAt peek
    if isBlank c then commentLines (peek + 1) fuel
    else
      let s ← get
      let closeFlow := s.flowLevel > 0 && (c == ']' || c == '}')
      if closeFlow || isBreakOrEnd c then
        if isBreak c then commentLines (peek + 1) fuel
      else if c == '#' then
        let seen := s.mark.index + peek
        throughComment seen (← get).room
        commentLines 1 fuel
where
  /-- Moves to the end of the line of the comment at index `seen`. -/
  throughComment (seen : Nat) : Nat → ScanM Unit
    | 0 => pure ()
    | fuel + 1 => do
      let c ← peekAt 0
      let s ← get
      if isBreakOrEnd c then
        if s.mark.index < seen then
          skipLine
          throughComment seen fuel
      else
        skip
        throughComment seen fuel

/-- Skips blanks, comments and line breaks up to the next token. Tabs are skipped inside flow
collections and where no key may start; a line break in a block allows a key. -/
def scanToNextToken : Nat → ScanM Unit
  | 0 => pure ()
  | fuel + 1 => do
    if (← get).mark.column == 0 && (← peekAt 0) == '\uFEFF' then skip
    let s ← get
    skipWhile (fun c => c == ' ' || ((s.flowLevel > 0 || !s.keyAllowed) && c == '\t')) s.room
    if (← peekAt 0) == '#' then commentLines 0 ((← get).room + 520)
    if isBreak (← peekAt 0) then
      skipLine
      modify fun s => if s.flowLevel == 0 then { s with keyAllowed := true } else s
      scanToNextToken fuel

/-- Consumes a comment after a token on the same line, with the blanks before it. -/
def scanLineComment : ScanM Unit := do
  if (← get).newlines > 0 then return
  let blanks ← countBlanks 0 512
  if blanks < 512 && (← peekAt blanks) == '#' then
    skipN blanks
    skipWhile (fun c => !isBreakOrEnd c) (← get).room
where
  /-- The number of blanks from offset `k`, at most 512. -/
  countBlanks (k : Nat) : Nat → ScanM Nat
    | 0 => pure k
    | fuel + 1 => do
      if isBlank (← peekAt k) then countBlanks (k + 1) fuel else pure k

/-- The stream start token. -/
def fetchStreamStart : ScanM Unit := do
  modify fun s =>
    { s with indent := -1, keys := s.keys.push {}, keyAllowed := true, started := true }
  let m := (← get).mark
  emit .streamStart m m

/-- The stream end token, on a new line; it closes the open block collections. -/
def fetchStreamEnd : ScanM Unit := do
  modify fun s =>
    if s.mark.column != 0 then { s with mark := { s.mark with column := 0, line := s.mark.line + 1 } }
    else s
  unrollIndent (-1) (← get).mark
  removeSimpleKey
  modify fun s => { s with keyAllowed := false, ended := true }
  let m := (← get).mark
  emit .streamEnd m m

/-- The number of a `%YAML` directive: one or two digits. -/
def versionNumber (start : Mark) : ScanM Nat := do
  let digits ← readWhile Char.isDigit "" 3
  if digits.length > 2 then scanError start "found extremely long version number"
  if digits.isEmpty then scanError start "did not find expected version number"
  pure (digits.foldl (fun n c => 10 * n + (c.toNat - '0'.toNat)) 0)

/-- A tag handle: `!`, `!!`, or `!` word `!`. In a tag token a handle without the closing `!`
is the start of the suffix. -/
def scanTagHandle (directive : Bool) (start : Mark) : ScanM String := do
  if (← peekAt 0) != '!' then scanError start "did not find expected '!'"
  skip
  let s ← readWhile isWordChar "!" (← get).room
  if (← peekAt 0) == '!' then
    skip
    pure (s.push '!')
  else
    if directive && s != "!" then scanError start "did not find expected '!'"
    pure s

/-- The bytes of a `%`-escaped UTF-8 character in a tag. -/
def uriEscapes (start : Mark) : Nat → Nat → List UInt8 → ScanM (List UInt8)
  | 0, _, acc => pure acc
  | fuel + 1, width, acc => do
    let c0 ← peekAt 0
    let c1 ← peekAt 1
    let c2 ← peekAt 2
    if !(c0 == '%' && isHexDigit c1 && isHexDigit c2) then
      scanError start "did not find URI escaped octet"
    let octet := hexDigitValue c1 * 16 + hexDigitValue c2
    let width ← if width == 0 then
        let w := if octet < 0x80 then 1 else if octet / 32 == 6 then 2
          else if octet / 16 == 14 then 3 else if octet / 8 == 30 then 4 else 0
        if w == 0 then scanError start "found an incorrect leading UTF-8 octet"
        pure w
      else
        if octet / 64 != 2 then scanError start "found an incorrect trailing UTF-8 octet"
        pure width
    skipN 3
    let acc := acc ++ [octet.toUInt8]
    if width == 1 then pure acc else uriEscapes start fuel (width - 1) acc


/-- Whether a character may appear in a tag: word characters and the punctuation of URIs,
commas and brackets included, so that a tag in a flow collection runs on over them. -/
def isUriChar (c : Char) : Bool :=
  isWordChar c || ";/?:@&=+$,.!~*'()[]%".contains c

/-- The characters of a tag after `head` (whose first character is dropped); a problem when
the tag is empty. -/
def scanTagUri (head : String) (start : Mark) : ScanM String := do
  let bytes ← loop ((head.drop 1).toString.toUTF8.toList) (← get).room
  if head.isEmpty && bytes.isEmpty then scanError start "did not find expected tag URI"
  pure (Text.lossy bytes)
where
  loop (acc : List UInt8) : Nat → ScanM (List UInt8)
    | 0 => pure acc
    | fuel + 1 => do
      let c ← peekAt 0
      if !isUriChar c then pure acc
      else if c == '%' then loop (acc ++ (← uriEscapes start 4 0 [])) fuel
      else
        skip
        loop (acc ++ c.toString.toUTF8.toList) fuel

/-- A directive: `%YAML major.minor` or `%TAG handle prefix`, then a comment or the end of the
line. -/
def scanDirective : ScanM Token := do
  let start := (← get).mark
  skip
  let name ← readWhile isWordChar "" (← get).room
  if name.isEmpty then scanError start "could not find expected directive name"
  if !isBlankOrEnd (← peekAt 0) then scanError start "found unexpected non-alphabetical character"
  let kind ← if name == "YAML" then do
      skipWhile isBlank (← get).room
      let major ← versionNumber start
      if (← peekAt 0) != '.' then scanError start "did not find expected digit or '.' character"
      skip
      let minor ← versionNumber start
      pure (TokenKind.versionDirective major minor)
    else if name == "TAG" then do
      skipWhile isBlank (← get).room
      let handle ← scanTagHandle true start
      if !isBlank (← peekAt 0) then scanError start "did not find expected whitespace"
      skipWhile isBlank (← get).room
      let pfx ← scanTagUri "" start
      if !isBlankOrEnd (← peekAt 0) then
        scanError start "did not find expected whitespace or line break"
      pure (TokenKind.tagDirective handle pfx)
    else scanError start "found unknown directive name"
  let stop := (← get).mark
  skipWhile isBlank (← get).room
  if (← peekAt 0) == '#' then skipWhile (fun c => !isBreakOrEnd c) (← get).room
  if !isBreakOrEnd (← peekAt 0) then
    scanError start "did not find expected comment or line break"
  skipLine
  pure ⟨kind, start, stop⟩

/-- A directive token; it closes the open block collections. -/
def fetchDirective : ScanM Unit := do
  unrollIndent (-1) (← get).mark
  removeSimpleKey
  modify fun s => { s with keyAllowed := false }
  let t ← scanDirective
  modify fun s => { s with queue := s.queue ++ [t] }

/-- A `---` or `...` token; it closes the open block collections. -/
def fetchDocumentIndicator (kind : TokenKind) : ScanM Unit := do
  unrollIndent (-1) (← get).mark
  removeSimpleKey
  modify fun s => { s with keyAllowed := false }
  let start := (← get).mark
  skipN 3
  emit kind start (← get).mark

/-- A `[` or `{` token: it may start a key, and a key may follow it. -/
def fetchFlowCollectionStart (kind : TokenKind) : ScanM Unit := do
  saveSimpleKey
  increaseFlowLevel
  modify fun s => { s with keyAllowed := true }
  let start := (← get).mark
  skip
  emit kind start (← get).mark

/-- A `]` or `}` token. -/
def fetchFlowCollectionEnd (kind : TokenKind) : ScanM Unit := do
  removeSimpleKey
  decreaseFlowLevel
  modify fun s => { s with keyAllowed := false }
  let start := (← get).mark
  skip
  emit kind start (← get).mark

/-- A `,` token. -/
def fetchFlowEntry : ScanM Unit := do
  removeSimpleKey
  modify fun s => { s with keyAllowed := true }
  let start := (← get).mark
  skip
  emit .flowEntry start (← get).mark

/-- A `-` token; in a block it may open a sequence, and must be where a key could start. -/
def fetchBlockEntry : ScanM Unit := do
  let s ← get
  if s.flowLevel == 0 then
    if !s.keyAllowed then scanError s.mark "block sequence entries are not allowed in this context"
    rollIndent s.mark.column none .blockSequenceStart s.mark
  removeSimpleKey
  modify fun s => { s with keyAllowed := true }
  let start := (← get).mark
  skip
  emit .blockEntry start (← get).mark

/-- A `?` token; in a block it may open a mapping, and must be where a key could start. -/
def fetchKey : ScanM Unit := do
  let s ← get
  if s.flowLevel == 0 then
    if !s.keyAllowed then scanError s.mark "mapping keys are not allowed in this context"
    rollIndent s.mark.column none .blockMappingStart s.mark
  removeSimpleKey
  modify fun s => { s with keyAllowed := s.flowLevel == 0 }
  let start := (← get).mark
  skip
  emit .key start (← get).mark

/-- A `:` token. After a possible key it puts the `KEY` token before the key (and opens a block
mapping at the key's column when needed); otherwise, in a block, it must be where a key could
start. -/
def fetchValue : ScanM Unit := do
  let s ← get
  let level := s.keys.size - 1
  let k := s.topKey
  if ← keyValid level then
    insertAt (k.number - s.parsed) ⟨.key, k.mark, k.mark⟩
    rollIndent k.mark.column (some k.number) .blockMappingStart k.mark
    modify fun s =>
      { s with keys := s.keys.modify level (fun k => { k with possible := false }),
               keyOfToken := forget k.number s.keyOfToken, keyAllowed := false }
  else
    let s ← get
    if s.flowLevel == 0 then
      if !s.keyAllowed then scanError s.mark "mapping values are not allowed in this context"
      rollIndent s.mark.column none .blockMappingStart s.mark
    modify fun s => { s with keyAllowed := s.flowLevel == 0 }
  let start := (← get).mark
  skip
  emit .value start (← get).mark

/-- An alias (`*name`) or anchor (`&name`): it may start a key. The name must be followed by a
blank or one of `?:,]}%@` and the backquote. -/
def fetchAnchor (isAlias : Bool) : ScanM Unit := do
  saveSimpleKey
  modify fun s => { s with keyAllowed := false }
  let start := (← get).mark
  skip
  let name ← readWhile isWordChar "" (← get).room
  let c ← peekAt 0
  if name.isEmpty || !(isBlankOrEnd c || "?:,]\x7d%@".contains c || c == '\x60') then
    scanError start "did not find expected alphabetic or numeric character"
  emit (if isAlias then .alias name else .anchor name) start (← get).mark

/-- A tag: verbatim `!<...>`, a handle and a suffix, or `!` alone; it may start a key. -/
def fetchTag : ScanM Unit := do
  saveSimpleKey
  modify fun s => { s with keyAllowed := false }
  let start := (← get).mark
  let (handle, suffix) ← if (← peekAt 1) == '<' then do
      skipN 2
      let suffix ← scanTagUri "" start
      if (← peekAt 0) != '>' then scanError start "did not find the expected '>'"
      skip
      pure ("", suffix)
    else do
      let handle ← scanTagHandle false start
      if handle.length > 1 && handle.startsWith "!" && handle.endsWith "!" then
        pure (handle, ← scanTagUri "" start)
      else
        let suffix ← scanTagUri handle start
        pure (if suffix.isEmpty then ("", "!") else ("!", suffix))
  let c ← peekAt 0
  if !isBlankOrEnd c then
    if (← get).flowLevel == 0 || c != ',' then
      scanError start "did not find expected whitespace or line break"
  emit (.tag handle suffix) start (← get).mark

/-- Skips the indentation and empty lines before a line of a block scalar, collecting the line
breaks; finds the indentation from the deepest of these lines when it is not given. -/
def blockScalarBreaks (start : Mark) (indent : Nat) (breaks : String) (deepest : Nat) :
    Nat → ScanM (Nat × String × Mark)
  | 0 => do pure (indent, breaks, (← get).mark)
  | fuel + 1 => do
    let stop := (← get).mark
    skipWhile' fuel
    let s ← get
    let deepest := max deepest s.mark.column
    let c ← peekAt 0
    if (indent == 0 || s.mark.column < indent) && c == '\t' then
      scanError start "found a tab character where an indentation space is expected"
    if isBreak c then
      let b ← readLine
      blockScalarBreaks start indent (breaks ++ b) deepest fuel
    else
      let indent := if indent != 0 then indent
        else max 1 (max deepest (((s.indent + 1).toNat)))
      pure (indent, breaks, stop)
where
  skipWhile' : Nat → ScanM Unit
    | 0 => pure ()
    | fuel + 1 => do
      let s ← get
      if (indent == 0 || s.mark.column < indent) && (← peekAt 0) == ' ' then
        skip
        skipWhile' fuel

/-- Reads the lines of a block scalar at its indentation, folding them when `literal` is
false. -/
def blockScalarLines (literal : Bool) (start : Mark) (indent : Nat) :
    Nat → String → String → String → Bool → ScanM (String × String × String)
  | 0, text, leading, trailing, _ => pure (text, leading, trailing)
  | fuel + 1, text, leading, trailing, leadingBlank => do
    let c ← peekAt 0
    if (← get).mark.column != indent || isEnd c then pure (text, leading, trailing)
    else
      let trailingBlank := isBlank c
      let text := if !literal && !leadingBlank && !trailingBlank && leading.startsWith "\n" then
          (if trailing.isEmpty then text.push ' ' else text)
        else text ++ leading
      let text := text ++ trailing
      let leadingBlank := isBlank c
      let text ← readWhile (fun c => !isBreakOrEnd c) text (← get).room
      let leading ← readLine
      let (_, trailing, _) ← blockScalarBreaks start indent "" 0 (← get).room
      blockScalarLines literal start indent fuel text leading trailing leadingBlank

/-- A literal (`|`) or folded (`>`) block scalar: an optional chomping indicator (`+`, `-`) and
indentation indicator (a digit from 1), in either order, a comment or the end of the line, then
the lines. -/
def scanBlockScalar (literal : Bool) : ScanM Token := do
  let start := (← get).mark
  skip
  let c ← peekAt 0
  let (chomping, increment) ← if c == '+' || c == '-' then do
      skip
      let d ← peekAt 0
      if d.isDigit then
        if d == '0' then scanError start "found an indentation indicator equal to 0"
        skip
        pure ((if c == '+' then 1 else -1 : Int), d.toNat - '0'.toNat)
      else pure ((if c == '+' then 1 else -1 : Int), 0)
    else if c.isDigit then do
      if c == '0' then scanError start "found an indentation indicator equal to 0"
      skip
      let d ← peekAt 0
      if d == '+' || d == '-' then
        skip
        pure ((if d == '+' then 1 else -1 : Int), c.toNat - '0'.toNat)
      else pure (0, c.toNat - '0'.toNat)
    else pure (0, 0)
  skipWhile isBlank (← get).room
  if (← peekAt 0) == '#' then skipWhile (fun c => !isBreakOrEnd c) (← get).room
  if !isBreakOrEnd (← peekAt 0) then
    scanError start "did not find expected comment or line break"
  skipLine
  let s ← get
  let indent := if increment > 0 then
      (if s.indent ≥ 0 then (s.indent + increment).toNat else increment) else 0
  let (indent, trailing, _) ← blockScalarBreaks start indent "" 0 (← get).room
  let (text, leading, trailing) ←
    blockScalarLines literal start indent (← get).room "" "" trailing false
  let text := if chomping != -1 then text ++ leading else text
  let text := if chomping == 1 then text ++ trailing else text
  pure ⟨.scalar text (if literal then .literal else .folded), start, (← get).mark⟩

/-- A block scalar token; a key may follow it. -/
def fetchBlockScalar (literal : Bool) : ScanM Unit := do
  removeSimpleKey
  modify fun s => { s with keyAllowed := true }
  let t ← scanBlockScalar literal
  modify fun s => { s with queue := s.queue ++ [t] }

/-- The character of a one-letter escape in a double-quoted scalar. -/
def escaped (c : Char) : Option Char :=
  match c with
  | '0' => some '\x00'
  | 'a' => some '\x07'
  | 'b' => some '\x08'
  | 't' => some '\t'
  | '\t' => some '\t'
  | 'n' => some '\n'
  | 'v' => some '\x0B'
  | 'f' => some '\x0C'
  | 'r' => some '\r'
  | 'e' => some '\x1B'
  | ' ' => some ' '
  | '"' => some '"'
  | '\'' => some '\''
  | '\\' => some '\\'
  | 'N' => some '\u0085'
  | '_' => some '\u00A0'
  | 'L' => some '\u2028'
  | 'P' => some '\u2029'
  | _ => none

/-- The value of `n` hexadecimal digits at the current position. -/
def hexCode (start : Mark) : Nat → Nat → ScanM Nat
  | 0, v => pure v
  | n + 1, v => do
    let c ← peekAt 0
    if !isHexDigit c then scanError start "did not find expected hexdecimal number"
    skip
    hexCode start n (16 * v + hexDigitValue c)

/-- The characters of a quoted scalar up to a blank, a line break, or its closing quote; whether
an escaped line break ended them. -/
def quotedRun (single : Bool) (start : Mark) :
    Nat → String → ScanM (String × Bool)
  | 0, text => pure (text, false)
  | fuel + 1, text => do
    let c ← peekAt 0
    let d ← peekAt 1
    if isBlankOrEnd c then pure (text, false)
    else if single && c == '\'' && d == '\'' then
      skipN 2
      quotedRun single start fuel (text.push '\'')
    else if single && c == '\'' then pure (text, false)
    else if !single && c == '"' then pure (text, false)
    else if !single && c == '\\' && isBreak d then
      skip
      skipLine
      pure (text, true)
    else if !single && c == '\\' then
      let length := if d == 'x' then 2 else if d == 'u' then 4 else if d == 'U' then 8 else 0
      if length > 0 then
        skipN 2
        -- the digits are checked before any is consumed
        let digits ← (List.range length).mapM fun k => peekAt k
        if !digits.all isHexDigit then
          scanError start "did not find expected hexdecimal number"
        let v ← hexCode start length 0
        if (0xD800 ≤ v && v ≤ 0xDFFF) || v > 0x10FFFF then
          scanError start "found invalid Unicode character escape code"
        quotedRun single start fuel (text.push (Char.ofNat v))
      else
        match escaped d with
        | some e =>
          skipN 2
          quotedRun single start fuel (text.push e)
        | none => scanError start "found unknown escape character"
    else
      skip
      quotedRun single start fuel (text.push c)

/-- Blanks and line breaks inside a scalar: the blanks kept when no line break comes, the first
line break, and the line breaks after it. `tabCheck` gives the indentation a tab may not
reach at the start of a continuation line. -/
def scalarBlanks (start : Mark) (tabCheck : Option Nat) :
    Nat → Bool → String → String → String → ScanM (Bool × String × String × String)
  | 0, leadingBlanks, whitespaces, leading, trailing =>
    pure (leadingBlanks, whitespaces, leading, trailing)
  | fuel + 1, leadingBlanks, whitespaces, leading, trailing => do
    let c ← peekAt 0
    if isBlank c then
      if let some indent := tabCheck then
        if leadingBlanks && (← get).mark.column < indent && c == '\t' then
          scanError start "found a tab character that violates indentation"
      skip
      let whitespaces := if leadingBlanks then whitespaces else whitespaces.push c
      scalarBlanks start tabCheck fuel leadingBlanks whitespaces leading trailing
    else if isBreak c then
      if leadingBlanks then
        let b ← readLine
        scalarBlanks start tabCheck fuel true whitespaces leading (trailing ++ b)
      else
        let b ← readLine
        scalarBlanks start tabCheck fuel true "" b trailing
    else pure (leadingBlanks, whitespaces, leading, trailing)

/-- Joins the text of a scalar across blanks: a single line break folds to a space, a line
break followed by empty lines gives those line breaks, blanks within a line stay. -/
def joinBlanks (text : String) (leadingBlanks : Bool) (whitespaces leading trailing : String) :
    String :=
  if leadingBlanks then
    if leading.startsWith "\n" then
      if trailing.isEmpty then text.push ' ' else text ++ trailing
    else text ++ leading ++ trailing
  else text ++ whitespaces

/-- Whether a document indicator (`---` or `...` and a blank) starts the current line here. -/
def atDocumentIndicator : ScanM Bool := do
  let s ← get
  let c0 ← peekAt 0
  let c1 ← peekAt 1
  let c2 ← peekAt 2
  let c3 ← peekAt 3
  pure (s.mark.column == 0 &&
    ((c0 == '-' && c1 == '-' && c2 == '-') || (c0 == '.' && c1 == '.' && c2 == '.')) &&
    isBlankOrEnd c3)

/-- The lines of a quoted scalar up to its closing quote. -/
def quotedLines (single : Bool) (start : Mark) : Nat → String → ScanM String
  | 0, text => pure text
  | fuel + 1, text => do
    if ← atDocumentIndicator then scanError start "found unexpected document indicator"
    if isEnd (← peekAt 0) then scanError start "found unexpected end of stream"
    let (text, escapedBreak) ← quotedRun single start (← get).room text
    let c ← peekAt 0
    if (single && c == '\'') || (!single && c == '"') then pure text
    else
      let (leadingBlanks, whitespaces, leading, trailing) ←
        scalarBlanks start none (← get).room escapedBreak "" "" ""
      quotedLines single start fuel (joinBlanks text leadingBlanks whitespaces leading trailing)

/-- A single- or double-quoted scalar token; it may start a key. -/
def fetchFlowScalar (single : Bool) : ScanM Unit := do
  saveSimpleKey
  modify fun s => { s with keyAllowed := false }
  let start := (← get).mark
  skip
  let text ← quotedLines single start (← get).room ""
  skip
  emit (.scalar text (if single then .singleQuoted else .doubleQuoted)) start (← get).mark

/-- The characters of a plain scalar up to a blank, a line break, `: `, or (inside a flow
collection) a flow indicator or `?`; the pending blanks are joined before the first of them. -/
def plainRun (flow : Bool) :
    Nat → String → Bool → String → String → String → Mark →
      ScanM (String × Bool × String × String × String × Mark)
  | 0, text, lb, ws, leading, trailing, stop => pure (text, lb, ws, leading, trailing, stop)
  | fuel + 1, text, lb, ws, leading, trailing, stop => do
    let c ← peekAt 0
    let d ← peekAt 1
    if isBlankOrEnd c || (c == ':' && isBlankOrEnd d) || (flow && ",?[]\x7b\x7d".contains c) then
      pure (text, lb, ws, leading, trailing, stop)
    else
      let text := if lb || !ws.isEmpty then joinBlanks text lb ws leading trailing else text
      skip
      plainRun flow fuel (text.push c) false "" "" "" (← get).mark

/-- The lines of a plain scalar; a continuation line must be indented deeper than the enclosing
block. -/
def plainLines (start : Mark) (indent : Nat) :
    Nat → String → Bool → String → String → String → Mark → ScanM (String × Bool × Mark)
  | 0, text, lb, _, _, _, stop => pure (text, lb, stop)
  | fuel + 1, text, lb, ws, leading, trailing, stop => do
    if ← atDocumentIndicator then return (text, lb, stop)
    if (← peekAt 0) == '#' then return (text, lb, stop)
    let s ← get
    let (text, lb, ws, leading, trailing, stop) ←
      plainRun (s.flowLevel > 0) s.room text lb ws leading trailing stop
    let c ← peekAt 0
    if !(isBlank c || isBreak c) then return (text, lb, stop)
    let (lb, ws, leading, trailing) ←
      scalarBlanks start (some indent) (← get).room lb ws leading trailing
    let s ← get
    if s.flowLevel == 0 && s.mark.column < indent then return (text, lb, stop)
    plainLines start indent fuel text lb ws leading trailing stop

/-- A plain scalar token; it may start a key, and one may start after it when it ends on a
later line. -/
def fetchPlainScalar : ScanM Unit := do
  saveSimpleKey
  modify fun s => { s with keyAllowed := false }
  let s ← get
  let start := s.mark
  let indent := (s.indent + 1).toNat
  let (text, leadingBlanks, stop) ← plainLines start indent s.room "" false "" "" "" start
  if leadingBlanks then modify fun s => { s with keyAllowed := true }
  emit (.scalar text .plain) start stop

/-- The token that starts with `c` (followed by `d`), after the blanks, comments and
indentation before it. -/
def fetchContent (c d : Char) : ScanM Unit := do
  let flow := (← get).flowLevel > 0
  if c == '[' then fetchFlowCollectionStart .flowSequenceStart
  else if c == '{' then fetchFlowCollectionStart .flowMappingStart
  else if c == ']' then fetchFlowCollectionEnd .flowSequenceEnd
  else if c == '}' then fetchFlowCollectionEnd .flowMappingEnd
  else if c == ',' then fetchFlowEntry
  else if c == '-' && isBlankOrEnd d then fetchBlockEntry
  else if c == '?' && (flow || isBlankOrEnd d) then fetchKey
  else if c == ':' && (flow || isBlankOrEnd d) then fetchValue
  else if c == '*' then fetchAnchor true
  else if c == '&' then fetchAnchor false
  else if c == '!' then fetchTag
  else if c == '|' && !flow then fetchBlockScalar true
  else if c == '>' && !flow then fetchBlockScalar false
  else if c == '\'' then fetchFlowScalar true
  else if c == '"' then fetchFlowScalar false
  else if !(isBlankOrEnd c || "-?:,[]\x7b\x7d#&*!|>'\"%@".contains c || c == '\x60') ||
      (c == '-' && !isBlank d) || (!flow && (c == '?' || c == ':') && !isBlankOrEnd d) then
    fetchPlainScalar
  else scanError (← get).mark "found character that cannot start any token"

/-- Makes the next token (or a few, when a key or the end of block collections come with it). -/
def fetchNextToken : ScanM Unit := do
  let _ ← peekAt 0
  if !(← get).started then
    fetchStreamStart
    return
  let scanMark := (← get).mark
  scanToNextToken (← get).room
  unrollIndent (← get).mark.column scanMark
  let c ← peekAt 0
  let d ← peekAt 1
  let e ← peekAt 2
  let f ← peekAt 3
  let atStart := (← get).mark.column == 0
  if isEnd c then fetchStreamEnd
  else if atStart && c == '%' then fetchDirective
  else if atStart && c == '-' && d == '-' && e == '-' && isBlankOrEnd f then
    fetchDocumentIndicator .documentStart
  else if atStart && c == '.' && d == '.' && e == '.' && isBlankOrEnd f then
    fetchDocumentIndicator .documentEnd
  else
    fetchContent c d
    match (← get).queue.getLast? with
    | some ⟨.blockEntry, _, _⟩ => pure ()
    | _ => scanLineComment

/-- Makes tokens until the queue holds three, and the head is no longer a possible key. -/
def fetchMoreTokens : Nat → ScanM Unit
  | 0 => pure ()
  | fuel + 1 => do
    let s ← get
    if s.queue.length ≥ 3 || s.ended then
      match List.lookup s.parsed s.keyOfToken with
      | none => return
      | some level => if !(← keyValid level) then return
    if (← get).ended then return
    fetchNextToken
    fetchMoreTokens fuel

/-- The token at the head of the queue, made when needed. -/
def peekToken : ScanM Token := do
  if !(← get).available then
    fetchMoreTokens ((← get).room + 4)
    modify fun s => { s with available := true }
  let s ← get
  match s.queue with
  | t :: _ => pure t
  | [] => pure ⟨.streamEnd, s.mark, s.mark⟩

/-- Takes the token at the head of the queue. -/
def skipToken : ScanM Unit :=
  modify fun s => { s with queue := s.queue.drop 1, parsed := s.parsed + 1, available := false }

end Yaml

end DecisionDiagrams
