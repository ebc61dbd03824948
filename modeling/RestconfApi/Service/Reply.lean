import RestconfApi.Generate
import RestconfApi.Schema.Load
import RestconfApi.Service.Request

/-!
# Service: replies

The service answers three requests: whether it is alive, what its default settings are, and the
document for a schema. What goes wrong with a request is told in its reply; only a fault of the
service itself is a failure.
-/

namespace RestconfApi.Service

def version : String := "0.1.0"

/-- A request as it arrives: the method, the path, the query and the bytes of the body. -/
structure Call where
  method : String
  path : String
  query : String := ""
  body : List UInt8 := []

inductive Content where
  | nothing
  | json (d : Datum)
  | document (d : Document)
  | text (s : String)
  | violations (vs : List Violation)

/-- The media type of a content, if there is any content. -/
def Content.mediaType? : Content → Option String
  | .nothing => none
  | .text _ => some "application/x-yaml"
  | _ => some "application/json"

structure Reply where
  status : Nat
  content : Content

/-! ### Routes -/

inductive Route where
  | health
  | settings
  | generate
deriving DecidableEq, Repr

namespace Route

def path : Route → String
  | .health => "/health"
  | .settings => "/config/generator"
  | .generate => "/generate"

def method : Route → String
  | .generate => "POST"
  | _ => "GET"

/-- The route of a path, which a line feed may follow. -/
def ofPath? (path : String) : Option Route :=
  [Route.health, .settings, .generate].find? fun r => path = r.path || path = r.path ++ "\n"

end Route

/-! ### Errors -/

def detail (status : Nat) (text : String) : Reply :=
  ⟨status, .json (.object [("detail", .text text)])⟩

/-- The status and the title of the reply to a request that failed because of what was asked. -/
def refusal? : Failure → Option (Nat × String)
  | .schema _ => some (422, "SchemaError")
  | .leafref _ => some (422, "LeafrefResolutionError")
  | .selection _ => some (400, "GeneratorError")
  | .setting _ | .value _ | .calendar _ | .encoding _ => some (422, "Invalid configuration")
  | _ => none

/-- Fails if a value has no bytes to be sent as. -/
def checkBytes (d : Datum) : Except Failure Unit := do
  let _ ← (Text.Utf8.encode (Json.compact d)).mapError .encoding

def refusal (status : Nat) (title : String) (e : Failure) : Except Failure Reply := do
  let d := Datum.object [("error", .text title), ("detail", .text e.message)]
  checkBytes d
  .ok ⟨status, .json d⟩

/-- A reply whatever comes of it, except for faults of the service itself. -/
def orRefuse (x : Except Failure Reply) : Except Failure Reply :=
  match x with
  | .ok r => .ok r
  | .error e =>
    match refusal? e with
    | some (status, title) => refusal status title e
    | none => .error e

/-! ### Contents -/

def isFiniteScalar : Scalar → Bool
  | .float (.finite _ _ _) => true
  | .float _ => false
  | _ => true

mutual

/-- Whether all numbers of a value are finite. -/
def isFinite : Datum → Bool
  | .scalar s => isFiniteScalar s
  | .list items _ => areFinite items
  | .mapping entries _ => areFiniteEntries entries
  | .set items _ => items.all isFiniteScalar
  | .pair a b => isFinite a && isFinite b

def areFinite : List Datum → Bool
  | [] => true
  | d :: ds => isFinite d && areFinite ds

def areFiniteEntries : List (Scalar × Datum) → Bool
  | [] => true
  | (k, d) :: rest => isFiniteScalar k && isFinite d && areFiniteEntries rest

end

/-- The reply to a request with faults. It shows the values that were given, whose numbers have to be
finite. -/
def invalid (vs : List Violation) : Except Failure Reply :=
  if vs.all fun v => isFinite v.given then .ok ⟨422, .violations (Violation.sorted vs)⟩
  else .error (.value .noJsonNumber)

def health : Reply :=
  ⟨200, .json (.object [("status", .text "healthy"), ("version", .text version)])⟩

def settingsReply (s : Settings) : Reply :=
  ⟨200, .json (.object
    [("host", s.host), ("base_path", s.basePath), ("version", s.version),
     ("max_depth", s.maxDepth), ("strategy", .text s.strategy.name),
     ("elements", .texts (s.elements.map Element.name))])⟩

/-- The document that a request asks for, in its final order. -/
def documentReply (s : Settings) (format : Format) (r : Request) : Except Failure Reply := do
  let settings := { r.overrides.apply s with format }
  let schema ← (Schema.load r.schema).result
  let modules := r.modules.map Datum.text
  match format with
  | .yaml =>
    let text ← (generateText schema modules settings).result
    .ok ⟨200, .text text⟩
  | .json =>
    let d ← (generate schema modules settings).result
    let d ← d.sort?
    let value ← d.value?
    if isFinite value then do
      checkBytes value
      .ok ⟨200, .document d⟩
    else .error (.value .noJsonNumber)

/-- The reply to a request for a document. A body that cannot be read is refused first, then faulty default
settings, then all faults of query and body together. -/
def generateReply (defaults query : String) (body : List UInt8) : Except Failure Reply := do
  let answer (request : Checked Request) : Except Failure Reply := do
    let settings ← Settings.ofText defaults
    match Checked.both (Request.formatOf query) request with
    | .error vs => invalid vs
    | .ok (format, request) => documentReply settings format request
  match Request.Body.ofBytes body with
  | .unreadable => .ok (detail 400 "There was an error parsing the body")
  | .noJson place => invalid [⟨["body", toString place], "json_invalid", .null⟩]
  | .absent => answer (Checked.fault ["body"] "missing" .null)
  | .value d => answer (Request.ofDatum d)

/-- The reply to a call; `defaults` is the text of the default settings. -/
def reply (defaults : String) (c : Call) : Except Failure Reply :=
  match Route.ofPath? c.path with
  | some route =>
    if c.method ≠ route.method then .ok (detail 405 "Method Not Allowed")
    else
      match route with
      | .health => .ok health
      | .settings => orRefuse (settingsReply <$> Settings.ofText defaults)
      | .generate => orRefuse (generateReply defaults c.query c.body)
  | none =>
    let stem := (c.path.toList.reverse.dropWhile (· = '/')).reverse
    if c.path.toList.getLast? = some '/' && (Route.ofPath? (String.ofList stem)).isSome then
      .ok ⟨307, .nothing⟩
    else .ok (detail 404 "Not Found")

end RestconfApi.Service
