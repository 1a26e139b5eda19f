/-
Command lines: finding the command and reading its flags.

A flag has a long name (`--format json`, `--format=json`) and possibly a one-letter short name
(`-t bdd`, `-tbdd`, `-t=bdd`); short switches combine (`-vt bdd`). A switch (a boolean flag)
takes no separate value: `--dot` sets it, `--dot=false` clears it. Flags and arguments may be
mixed; `--` ends the flags.

* `Flags.parse` — the values set and the arguments of a command line, or the first error.
* `Flags.words` — the words that are neither flags nor flag values, which name the command.
* `Flags.withoutFirst` — a command line without the first occurrence of the command's name.
-/
import DecisionDiagrams.Text.Quoted

namespace DecisionDiagrams

/-- The two kinds of flags. -/
inductive FlagKind
  | switch
  | value
  deriving DecidableEq, Repr, Inhabited

/-- A flag: its long name, its short name if any, and its kind. -/
structure FlagSpec where
  name : String
  short : Option Char
  kind : FlagKind
  deriving DecidableEq, Repr, Inhabited

/-- The flags set on a command line (the last value of a flag wins) and its arguments. -/
structure ParsedFlags where
  values : List (String × String)
  args : List String
  deriving Repr, Inhabited

namespace Flags

/-- The flag with a long name. -/
def byName (fs : List FlagSpec) (n : String) : Option FlagSpec :=
  fs.find? (·.name = n)

/-- The flag with a short name. -/
def byShort (fs : List FlagSpec) (c : Char) : Option FlagSpec :=
  fs.find? (·.short = some c)

/-- The truth values a switch accepts. -/
def readBool (s : String) : Option Bool :=
  if s ∈ ["1", "t", "T", "TRUE", "true", "True"] then some true
  else if s ∈ ["0", "f", "F", "FALSE", "false", "False"] then some false
  else none

/-- How a flag is named in errors: `-v, --verbose`, or `--dot` without a short name. -/
def displayName (f : FlagSpec) : String :=
  match f.short with
  | some c => "-" ++ String.singleton c ++ ", --" ++ f.name
  | none => "--" ++ f.name

/-- Sets a flag to a value, checking the values of switches. -/
def set (f : FlagSpec) (v : String) (p : ParsedFlags) : Except String ParsedFlags :=
  match f.kind with
  | .value => .ok { p with values := p.values ++ [(f.name, v)] }
  | .switch =>
    match readBool v with
    | some _ => .ok { p with values := p.values ++ [(f.name, v)] }
    | none => .error ("invalid argument " ++ Text.quote v ++ " for " ++
        Text.quote (displayName f) ++ " flag: strconv.ParseBool: parsing " ++ Text.quote v ++
        ": invalid syntax")

/-- A short name as the errors show it: the character, or for a character beyond ASCII the
character of its first byte. -/
def shownShort (c : Char) : String :=
  if c.toNat < 128 then Text.quoteChar c
  else Text.quoteChar (Char.ofNat (((String.singleton c).toUTF8.data[0]?).getD 0).toNat)

/-- Reads a run of short names (the text after `-`); `rest` is the rest of the command line.
Answers the flags set and the rest of the command line. -/
def shortRun (fs : List FlagSpec) : List Char → List String → ParsedFlags →
    Except String (ParsedFlags × List String)
  | [], rest, p => .ok (p, rest)
  | c :: more, rest, p =>
    if "test.".toList.isPrefixOf (c :: more) then .ok (p, rest)
    else match byShort fs c with
      | none => .error ("unknown shorthand flag: " ++ shownShort c ++ " in -" ++
          String.ofList (c :: more))
      | some f =>
        match more with
        | '=' :: v@(_ :: _) => (set f (String.ofList v) p).map fun p => (p, rest)
        | _ =>
          if f.kind = .switch then
            match set f "true" p with
            | .ok p => shortRun fs more rest p
            | .error e => .error e
          else if !more.isEmpty then (set f (String.ofList more) p).map fun p => (p, rest)
          else match rest with
            | v :: rest' => (set f v p).map fun p => (p, rest')
            | [] => .error ("flag needs an argument: " ++ Text.quoteChar c ++ " in -" ++
                String.singleton c)

/-- Reads a command line. -/
def parse (fs : List FlagSpec) : List String → ParsedFlags → Except String ParsedFlags
  | [], p => .ok p
  | s :: rest, p =>
    let cs := s.toList
    match cs with
    | '-' :: '-' :: [] => .ok { p with args := p.args ++ rest }
    | '-' :: '-' :: nameValue =>
      if nameValue.head? = some '-' ∨ nameValue.head? = some '=' then
        .error ("bad flag syntax: " ++ s)
      else
        let name := String.ofList (nameValue.takeWhile (· ≠ '='))
        let given : Option String := if nameValue.contains '=' then
            some (String.ofList ((nameValue.dropWhile (· ≠ '=')).drop 1)) else none
        match byName fs name with
        | none => .error ("unknown flag: --" ++ name)
        | some f =>
          match given with
          | some v => (set f v p).bind fun p => parse fs rest p
          | none =>
            if f.kind = .switch then (set f "true" p).bind fun p => parse fs rest p
            else match rest with
              | v :: rest' => (set f v p).bind fun p => parse fs rest' p
              | [] => .error ("flag needs an argument: " ++ s)
    | '-' :: shorts@(_ :: _) =>
      match shortRun fs shorts rest p with
      | .ok (p, rest') =>
        if rest'.length ≤ rest.length then parse fs rest' p else .ok p
      | .error e => .error e
    | _ => parse fs rest { p with args := p.args ++ [s] }
termination_by args => args.length
decreasing_by all_goals (simp_all; try omega)

/-- Whether a long name is a switch. -/
def isSwitch (fs : List FlagSpec) (name : String) : Bool :=
  match byName fs name with
  | some f => f.kind = .switch
  | none => false

/-- Whether a flag word takes the next word as its value: a long or one-letter (ASCII) flag
without `=` that is not a known switch. -/
def takesNext (fs : List FlagSpec) (s : String) : Bool :=
  let cs := s.toList
  if cs.contains '=' then false
  else match cs with
    | '-' :: '-' :: name => !isSwitch fs (String.ofList name)
    | ['-', c] =>
      if c.toNat ≥ 128 then false
      else match byShort fs c with
        | some f => f.kind ≠ .switch
        | none => true
    | _ => false

/-- The words of a command line that are neither flags nor flag values, up to `--`. -/
def words (fs : List FlagSpec) : List String → List String
  | [] => []
  | s :: rest =>
    if s = "--" then []
    else if takesNext fs s then
      match rest with
      | [] | [_] => []
      | _ :: rest' => words fs rest'
    else if !s.isEmpty ∧ !s.startsWith "-" then s :: words fs rest
    else words fs rest
termination_by args => args.length

/-- A command line without the first word equal to `x` (skipping flag values), up to `--`. -/
def withoutFirst (fs : List FlagSpec) (x : String) : List String → List String
  | [] => []
  | s :: rest =>
    if s = "--" then s :: rest
    else if takesNext fs s then
      match rest with
      | [] => [s]
      | v :: rest' => s :: v :: withoutFirst fs x rest'
    else if !s.startsWith "-" ∧ s = x then rest
    else s :: withoutFirst fs x rest
termination_by args => args.length

/-- The value of a flag, or its default. -/
def get (p : ParsedFlags) (name default : String) : String :=
  match (p.values.filter (·.1 = name)).getLast? with
  | some (_, v) => v
  | none => default

/-- The value of a switch. -/
def getSwitch (p : ParsedFlags) (name : String) : Bool :=
  (readBool (get p name "false")).getD false

end Flags

end DecisionDiagrams
