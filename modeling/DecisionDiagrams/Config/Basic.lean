/-
Settings: defaults, a YAML file, an address from the environment, and their validation.

* `Config.default` — address `:8000`, mode `release`, a cache of 100 diagrams, level `info`,
  format `text`, unlimited sifting, and no kernel settings.
* `Config.decode` — applies the first document of a YAML file to settings, through the shape
  of the settings (see `Yaml.decode`): known keys set their field, unknown keys are ignored,
  nulls leave a field as it was, a value of the wrong type is reported with its line and the
  rest is still applied.
* Text settings are byte sequences (`Text.Bytes`): a YAML `!!binary` value may set bytes that
  are not UTF-8; messages quote them with stray bytes in hex, and JSON shows U+FFFD for them.
* `Config.validate` — every problem of a set of settings, one per line.
* `Config.load` — the defaults, then the file if a path is given, then the address from the
  environment if one is set, then validation.
-/
import DecisionDiagrams.Yaml.Decode
import DecisionDiagrams.Config.Level
import DecisionDiagrams.Kernel.Basic
import DecisionDiagrams.Json.Basic

namespace DecisionDiagrams

/-- Settings of the HTTP server. -/
structure ServerConfig where
  addr : Text.Bytes
  mode : Text.Bytes
  deriving DecidableEq, Repr, Inhabited

/-- Settings of the diagram cache. -/
structure CacheConfig where
  capacity : Int
  deriving DecidableEq, Repr, Inhabited

/-- Settings of the log. -/
structure LogConfig where
  level : Text.Bytes
  format : Text.Bytes
  deriving DecidableEq, Repr, Inhabited

/-- Settings of sifting. -/
structure SiftConfig where
  maxPasses : Int
  deriving DecidableEq, Repr, Inhabited

/-- Settings of the kernels of the simplifiers; `0` or less means the kernel's default. -/
structure KernelConfig where
  nodesize : Int
  maxnodesize : Int
  cachesize : Int
  cacheratio : Int
  deriving DecidableEq, Repr, Inhabited

/-- All settings. -/
structure Config where
  server : ServerConfig
  cache : CacheConfig
  log : LogConfig
  sift : SiftConfig
  kernel : KernelConfig
  deriving DecidableEq, Repr, Inhabited

namespace KernelConfig

/-- The kernel limits of the settings: the values that are positive. -/
def limits (k : KernelConfig) : Limits :=
  { maxNodes := if k.maxnodesize > 0 then k.maxnodesize.toNat else 0,
    cacheSize := if k.cachesize > 0 then k.cachesize.toNat else 10000,
    cacheRatio := if k.cacheratio > 0 then k.cacheratio.toNat else 0 }

end KernelConfig

/-- The bound on sifting passes of the settings: a positive value, else none (`0`). -/
def SiftConfig.passes (s : SiftConfig) : Nat :=
  if s.maxPasses > 0 then s.maxPasses.toNat else 0

/-- What reading a path gives: the text of a file, nothing there, or a directory. -/
inductive FileRead where
  | text (s : String)
  | missing
  | directory
  deriving DecidableEq, Repr, Inhabited

namespace Config

/-- The default settings. -/
def default : Config :=
  { server := ⟨Text.bytesOf ":8000", Text.bytesOf "release"⟩, cache := ⟨100⟩,
    log := ⟨Text.bytesOf "info", Text.bytesOf "text"⟩, sift := ⟨0⟩, kernel := ⟨0, 0, 0, 0⟩ }

/-- The shape of the settings in a YAML file, with the type names its messages use. -/
def shape : Yaml.Shape :=
  .record "config.Config" [
    ("server", .record "config.ServerConfig" [("addr", .string), ("mode", .string)]),
    ("cache", .record "config.CacheConfig" [("capacity", .int)]),
    ("log", .record "config.LogConfig" [("level", .string), ("format", .string)]),
    ("sift", .record "config.SiftConfig" [("max_passes", .int)]),
    ("kernel", .record "config.KernelConfig" [("nodesize", .int), ("maxnodesize", .int),
      ("cachesize", .int), ("cacheratio", .int)])]

/-- Settings as a value of `shape`. -/
def toValue (c : Config) : Yaml.Value :=
  .record [
    ("server", .record [("addr", .string c.server.addr), ("mode", .string c.server.mode)]),
    ("cache", .record [("capacity", .int c.cache.capacity)]),
    ("log", .record [("level", .string c.log.level), ("format", .string c.log.format)]),
    ("sift", .record [("max_passes", .int c.sift.maxPasses)]),
    ("kernel", .record [("nodesize", .int c.kernel.nodesize),
      ("maxnodesize", .int c.kernel.maxnodesize), ("cachesize", .int c.kernel.cachesize),
      ("cacheratio", .int c.kernel.cacheratio)])]

/-- The settings of a value of `shape`; a part of another shape keeps the settings of `c`. -/
def ofValue (v : Yaml.Value) (c : Config) : Config :=
  let str (part name : String) (old : Text.Bytes) : Text.Bytes :=
    match (v.field part).field name with
    | .string s => s
    | _ => old
  let int (part name : String) (old : Int) : Int :=
    match (v.field part).field name with
    | .int i => i
    | _ => old
  { server := ⟨str "server" "addr" c.server.addr, str "server" "mode" c.server.mode⟩,
    cache := ⟨int "cache" "capacity" c.cache.capacity⟩,
    log := ⟨str "log" "level" c.log.level, str "log" "format" c.log.format⟩,
    sift := ⟨int "sift" "max_passes" c.sift.maxPasses⟩,
    kernel := ⟨int "kernel" "nodesize" c.kernel.nodesize,
      int "kernel" "maxnodesize" c.kernel.maxnodesize,
      int "kernel" "cachesize" c.kernel.cachesize,
      int "kernel" "cacheratio" c.kernel.cacheratio⟩ }

/-- Applies a YAML document to settings; answers the settings and the type problems. -/
def decode (doc : Yaml.Document) (c : Config) : Except String (Config × List String) :=
  match Yaml.decode doc shape (toValue c) with
  | .ok (v, problems) => .ok (ofValue v c, problems)
  | .error e => .error e

/-- The problems of a set of settings, in the order they are checked. -/
def problems (c : Config) : List String :=
  (if c.server.addr.isEmpty then ["server.addr must not be empty"] else []) ++
  (if c.server.mode ∈ ["debug", "release", "test"].map Text.bytesOf then []
    else ["server.mode " ++ Text.quoteBytes c.server.mode ++ " must be debug, release or test"]) ++
  (if c.cache.capacity ≤ 0 then
    ["cache.capacity must be positive, got " ++ toString c.cache.capacity] else []) ++
  (match Level.parse c.log.level with
    | .ok _ => []
    | .error e => [e]) ++
  (if c.log.format ∈ ["text", "json"].map Text.bytesOf then []
    else ["log.format " ++ Text.quoteBytes c.log.format ++ " must be text or json"]) ++
  (if c.sift.maxPasses < 0 then
    ["sift.max_passes must not be negative, got " ++ toString c.sift.maxPasses] else []) ++
  (if c.kernel.nodesize < 0 ∨ c.kernel.maxnodesize < 0 ∨ c.kernel.cachesize < 0 ∨
      c.kernel.cacheratio < 0 then ["kernel sizes must not be negative"] else [])

/-- Validation: the settings, or all their problems. -/
def validate (c : Config) : Except String Config :=
  match problems c with
  | [] => .ok c
  | ps => .error ("invalid configuration: " ++ "\n".intercalate ps)

/-- Settings from a YAML text: its first document applied to `c`. -/
def ofYaml (text : String) (c : Config) : Except String Config :=
  match Yaml.compose text with
  | .error e => .error e
  | .ok none => .ok c
  | .ok (some doc) =>
    match decode doc c with
    | .error e => .error e
    | .ok (c, []) => .ok c
    | .ok (_, errs) => .error ("yaml: unmarshal errors:\n  " ++ "\n  ".intercalate errs)

/-- Loads settings: the defaults, the file at `path` (read with `file`) when the path is not
empty, the address `env` when it is set and not empty, then validation. -/
def load (file : String → FileRead) (path : String) (env : Option String) :
    Except String Config := do
  let c ← if path.isEmpty then pure default
    else match file path with
      | .missing => throw ("reading config: open " ++ path ++ ": no such file or directory")
      | .directory => throw ("reading config: read " ++ path ++ ": is a directory")
      | .text text =>
        match ofYaml text default with
        | .ok c => pure c
        | .error e => throw ("parsing config " ++ path ++ ": " ++ e)
  let c := match env with
    | some a =>
      if a.isEmpty then c else { c with server := { c.server with addr := Text.bytesOf a } }
    | none => c
  validate c

/-- The JSON object of settings. -/
def toJson (c : Config) : Json :=
  .obj [("server", .obj [("addr", .str (Text.lossy c.server.addr)),
      ("mode", .str (Text.lossy c.server.mode))]),
    ("cache", .obj [("capacity", .num c.cache.capacity)]),
    ("log", .obj [("level", .str (Text.lossy c.log.level)),
      ("format", .str (Text.lossy c.log.format))]),
    ("sift", .obj [("max_passes", .num c.sift.maxPasses)]),
    ("kernel", .obj [("nodesize", .num c.kernel.nodesize),
      ("maxnodesize", .num c.kernel.maxnodesize), ("cachesize", .num c.kernel.cachesize),
      ("cacheratio", .num c.kernel.cacheratio)])]

end Config

end DecisionDiagrams
