/-
The HTTP interface of the diagram service.

Routes:
* `POST /api/bdd/generate` — makes a diagram (see `Service.generate`).
* `POST /api/export/json`, `/api/export/dot`, `/api/export/edges` — present a cached diagram.
* `GET /api/utils/health` — the number of cached formulas.
* `GET /api/utils/` — a banner.

A path that is not routed for its method, but would be with a trailing slash added or removed,
is redirected there (301 for `GET`, 307 otherwise); any other path is not found (404).
Paths are matched after percent-decoding, without their query.
-/
import DecisionDiagrams.Http.Request
import DecisionDiagrams.Service

namespace DecisionDiagrams

namespace Http

/-- The fields of a request for a diagram. -/
def generateFields : List String :=
  ["formula", "graph_type", "var_order", "auto_order", "eval_path"]

/-- The fields of a request for a cached diagram. -/
def exportFields : List String := ["formula", "graph_type"]

/-- The request id a handler answers with: the one sent, when it is not empty. -/
def handlerId (req : HttpRequest) : Option String :=
  match req.requestId with
  | some r => if r.isEmpty then none else some r
  | none => none

/-- The JSON of an ordering outcome in answers. -/
def siftSummary (r : Order.SiftResult) : Json :=
  .obj [("order", Json.strs r.order), ("size", .num r.cost), ("passes", .num r.passes),
    ("evaluations", .num r.evaluations)]

/-- `POST /api/bdd/generate`. -/
def generate (req : HttpRequest) : ServiceM HttpResponse := do
  let rid := handlerId req
  match decodeFields generateFields req.body with
  | none => return badRequest "Invalid request body" rid
  | some fs =>
    let gt := field fs "graph_type"
    match validate "GenerateRequest" [("GraphType", gt, graphTypes),
        ("AutoOrder", field fs "auto_order", ["freq", "ls"])] with
    | some msg => return badRequest msg rid
    | none =>
      let formula := field fs "formula"
      if (stripSpaces formula).isEmpty then return badRequest missingFormula rid
      let kind := match Kind.parse gt with
        | .ok k => k
        | .error _ => .robdd
      let r ← Service.generate ⟨formula, kind, field fs "var_order", field fs "auto_order",
        field fs "eval_path"⟩
      match r with
      | .error f => return fail f rid
      | .ok r =>
        let sift := match r.sift with
          | some s => [("sift", siftSummary s)]
          | none => []
        return jsonResponse 200 (.obj ([("status", .str "success"),
          ("graph_type", .str (graphType gt)), ("formula", .str r.formula),
          ("highlighted", if r.highlighted then .bool true else .null),
          ("graph", r.view.toJson)] ++ sift)) rid

/-- The kinds of export. -/
inductive Export
  | view
  | dot
  | edges
  deriving DecidableEq, Repr

/-- `POST /api/export/...`. -/
def exportDiagram (what : Export) (req : HttpRequest) : ServiceM HttpResponse := do
  let rid := handlerId req
  match decodeFields exportFields req.body with
  | none => return badRequest "Invalid request body" rid
  | some fs =>
    let gt := field fs "graph_type"
    match validate "ExportRequest" [("GraphType", gt, graphTypes)] with
    | some msg => return badRequest msg rid
    | none =>
      let formula := field fs "formula"
      if (stripSpaces formula).isEmpty then return badRequest missingFormula rid
      let kind := match Kind.parse gt with
        | .ok k => k
        | .error _ => .robdd
      let head : List (String × Json) := [("status", .str "success"),
        ("graph_type", .str (graphType gt)), ("formula", .str (stripSpaces formula))]
      match what with
      | .view =>
        match ← Service.view formula kind with
        | .error f => return fail f rid
        | .ok v => return jsonResponse 200 (.obj (head ++ [("graph", v.toJson)])) rid
      | .dot =>
        match ← Service.dot formula kind with
        | .error f => return fail f rid
        | .ok t => return ⟨200, "text/vnd.graphviz; charset=utf-8", t, rid⟩
      | .edges =>
        match ← Service.edges formula kind with
        | .error f => return fail f rid
        | .ok es => return jsonResponse 200 (.obj (head ++ [("edges", Edge.listJson es)])) rid

/-- The routes: method, path and handler. -/
def routes : List (String × String × (HttpRequest → ServiceM HttpResponse)) :=
  [("POST", "/api/bdd/generate", generate),
   ("POST", "/api/export/json", exportDiagram .view),
   ("POST", "/api/export/dot", exportDiagram .dot),
   ("POST", "/api/export/edges", exportDiagram .edges),
   ("GET", "/api/utils/health", fun _ => do
      return jsonResponse 200 (.obj [("status", .str "ok"),
        ("cached_formulas", .num (Service.size (← get)))]) none),
   ("GET", "/api/utils/", fun _ => pure ⟨200, "text/plain; charset=utf-8",
      "Welcome to the ROBDD generator", none⟩)]

/-- The value of a hexadecimal digit, if it is one. -/
def hexDigit? (c : Char) : Option Nat :=
  if c.isDigit then some (c.toNat - '0'.toNat)
  else if 'a' ≤ c.toLower ∧ c.toLower ≤ 'f' then some (c.toLower.toNat - 'a'.toNat + 10)
  else none

/-- The bytes of a path with its `%XX` escapes decoded. -/
def percentDecode : List Char → List UInt8
  | '%' :: a :: b :: rest =>
    match hexDigit? a, hexDigit? b with
    | some x, some y => (x * 16 + y).toUInt8 :: percentDecode rest
    | _, _ => '%'.toNat.toUInt8 :: percentDecode (a :: b :: rest)
  | c :: rest => (String.singleton c).toUTF8.toList ++ percentDecode rest
  | [] => []

/-- A path as it is routed: without its query, percent-decoded. -/
def routedPath (path : String) : String :=
  let raw := (path.splitOn "?").headD ""
  let bytes := percentDecode raw.toList
  match String.fromUTF8? (ByteArray.mk bytes.toArray) with
  | some s => s
  | none => raw

/-- The query of a path, with its question mark, if it has one. -/
def query (path : String) : String :=
  match path.splitOn "?" with
  | _ :: q :: more => "?" ++ "?".intercalate (q :: more)
  | _ => ""

/-- Escapes the characters of a URL that HTML gives a meaning to. -/
def htmlEscape (s : String) : String :=
  String.join (s.toList.map fun c =>
    match c with
    | '&' => "&amp;"
    | '<' => "&lt;"
    | '>' => "&gt;"
    | '"' => "&#34;"
    | '\'' => "&#39;"
    | c => String.singleton c)

/-- The redirection of a request to another path. -/
def redirect (method target : String) : HttpResponse :=
  if method = "GET" then
    ⟨301, "text/html; charset=utf-8",
      "<a href=\"" ++ htmlEscape target ++ "\">Moved Permanently</a>.\n\n", none⟩
  else if method = "HEAD" then ⟨307, "text/html; charset=utf-8", "", none⟩
  else ⟨307, "", "", none⟩

/-- Answers a request. -/
def serve (req : HttpRequest) : ServiceM HttpResponse := do
  let path := routedPath req.path
  match routes.find? fun (m, p, _) => m = req.method ∧ p = path with
  | some (_, _, h) => h req
  | none =>
    let routed (p : String) : Bool := routes.any fun (m, q, _) => m = req.method ∧ q = p
    let methodKnown := routes.any fun (m, _, _) => m = req.method
    let other := if path.endsWith "/" ∧ path.length > 1 then (path.dropEnd 1).toString
      else path ++ "/"
    if methodKnown ∧ path ≠ "/" ∧ routed other then
      return redirect req.method (other ++ query req.path)
    else return ⟨404, "text/plain", "404 page not found", none⟩

end Http

end DecisionDiagrams
