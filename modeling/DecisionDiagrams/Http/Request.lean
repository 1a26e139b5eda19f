/-
HTTP requests and responses of the diagram service, and the reading of request bodies.

A request body is a JSON object of string members. A member is matched to a field by its exact
name, else by its name without regard to ASCII case; unknown members are ignored and `null`
leaves a field empty. A body that is not a JSON value, or whose first value is neither an
object nor `null`, or that gives a field anything but a string or `null`, is invalid.

The fields `graph_type` and `auto_order` are checked against their allowed values (when not
empty); each field that fails is named in the answer.
-/
import DecisionDiagrams.Json.Read
import DecisionDiagrams.Failure

namespace DecisionDiagrams

/-- An HTTP request: the method, the path (with its query, if any), the body if one is sent,
and the request id header if one is sent. -/
structure HttpRequest where
  method : String
  path : String
  body : Option String
  requestId : Option String
  deriving Repr, Inhabited

/-- An HTTP response: the status, the content type (empty when none is set), the body, and the
request id header if the handler set one. -/
structure HttpResponse where
  status : Nat
  contentType : String
  body : String
  requestId : Option String
  deriving Repr, Inhabited

namespace Http

/-- The content type of JSON answers. -/
def jsonType : String := "application/json; charset=utf-8"

/-- A JSON answer; the body is written with HTML characters escaped. -/
def jsonResponse (status : Nat) (j : Json) (rid : Option String) : HttpResponse :=
  ⟨status, jsonType, Json.compact true j, rid⟩

/-- The body of an error answer. -/
def errorBody (message code : String) : Json :=
  .obj [("status", .str "error"), ("message", .str message), ("code", .str code)]

/-- A rejected request: status 400. -/
def badRequest (message : String) (rid : Option String) : HttpResponse :=
  jsonResponse 400 (errorBody message "INVALID_REQUEST") rid

/-- The message for a request without a formula. -/
def missingFormula : String := "Missing 'formula' field."

/-- The status and code of a failure of the service. -/
def failureCode (f : Failure) : Nat × String :=
  match f.cause with
  | .missingFormula => (400, "INVALID_REQUEST")
  | .notFormula _ => (400, "SYNTAX_ERROR")
  | .assignment .. => (400, "PARSE_ERROR")
  | .notFound _ => (404, "NOT_FOUND")
  | _ => (500, "INTERNAL_ERROR")

/-- The answer to a failure of the service. -/
def fail (f : Failure) (rid : Option String) : HttpResponse :=
  let (status, code) := failureCode f
  jsonResponse status (errorBody f.message code) rid

/-- ASCII lower case, for matching member names. -/
def foldName (s : String) : String :=
  String.ofList (s.toList.map Char.toLower)

/-- The field a member name sets: the field of that exact name, else the first field whose
name matches without regard to ASCII case. -/
def fieldOf (fields : List String) (name : String) : Option String :=
  if fields.contains name then some name
  else fields.find? fun f => foldName f = foldName name

/-- The string fields of a request body, each empty unless set, or `none` for an invalid body. -/
def decodeFields (fields : List String) (body : Option String) :
    Option (List (String × String)) :=
  let empty := fields.map fun f => (f, "")
  match body.map Json.readFirst with
  | some (.ok .null) => some empty
  | some (.ok (.obj members)) =>
    let step (acc : Option (List (String × String))) (m : String × Json) :
        Option (List (String × String)) :=
      match fieldOf fields m.1, m.2 with
      | none, _ => acc
      | some _, .null => acc
      | some f, .str s => acc.map fun fs => fs.map fun (g, v) => if g = f then (g, s) else (g, v)
      | some _, _ => none
    members.foldl step (some empty)
  | _ => none

/-- The value of a decoded field. -/
def field (fs : List (String × String)) (name : String) : String :=
  (fs.lookup name).getD ""

/-- The validation message of a field whose value is not one of the allowed values. -/
def oneOfMessage (structName fieldName : String) : String :=
  "Key: '" ++ structName ++ "." ++ fieldName ++ "' Error:Field validation for '" ++ fieldName ++
    "' failed on the 'oneof' tag"

/-- The validation failures of the checked fields, in field order: `(name, value, allowed)`. -/
def validate (structName : String) (checks : List (String × String × List String)) :
    Option String :=
  match checks.filter fun (_, v, allowed) => !v.isEmpty ∧ !allowed.contains v with
  | [] => none
  | bad => some ("\n".intercalate (bad.map fun (n, _, _) => oneOfMessage structName n))

/-- The graph types a request may name. -/
def graphTypes : List String := ["bdd", "robdd", "BDD", "ROBDD"]

/-- The graph type written in answers: the requested one, `robdd` when none. -/
def graphType (requested : String) : String :=
  if requested.isEmpty then "robdd" else requested

end Http

end DecisionDiagrams
