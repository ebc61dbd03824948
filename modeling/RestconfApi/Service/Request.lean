import RestconfApi.Json.Encoded
import RestconfApi.Service.Violation
import RestconfApi.Settings
import RestconfApi.Text.Percent

/-!
# Service: requests for a document

The body and the query of a request, checked, and the settings that they lead to.
-/

namespace RestconfApi.Service

/-- The settings that a request may override. -/
structure Overrides where
  host : Option String := none
  basePath : Option String := none
  version : Option String := none
  maxDepth : Option Int := none
  strategy : Option Strategy := none
  elements : Option (List Element) := none

/-- The settings with the given ones in place of the defaults. -/
def Overrides.apply (o : Overrides) (s : Settings) : Settings :=
  { s with
    host := (o.host.map Datum.text).getD s.host
    basePath := (o.basePath.map Datum.text).getD s.basePath
    version := (o.version.map Datum.text).getD s.version
    maxDepth := (o.maxDepth.map Datum.int).getD s.maxDepth
    strategy := o.strategy.getD s.strategy
    elements := (o.elements.map fun es => [Element.data, .rpc].filter es.contains).getD s.elements }

/-- A request for the document of some modules of a schema. -/
structure Request where
  schema : Datum
  modules : List String
  overrides : Overrides := {}

namespace Request

def strategyOf : List String → Datum → Checked Strategy :=
  Checked.choice Strategy.name [.optimizing, .unpacking]

def elementOf : List String → Datum → Checked Element := Checked.choice Element.name [.data, .rpc]

def overridesOf (place : List String) (d : Datum) : Checked Overrides :=
  match d with
  | .mapping _ _ =>
    let field {α : Type} (name : String) (check : List String → Datum → Checked α) :
        Checked (Option α) :=
      Checked.optional check (place ++ [name]) (d.field name)
    let texts :=
      Checked.both (field "host" Checked.text)
        (Checked.both (field "base_path" Checked.text) (field "version" Checked.text))
    let others :=
      Checked.both (field "max_depth" Checked.positive)
        (Checked.both (field "strategy" strategyOf) (field "elements" (Checked.list elementOf)))
    (Checked.both texts others).map
      fun ((host, basePath, version), (maxDepth, strategy, elements)) =>
        { host, basePath, version, maxDepth, strategy, elements }
  | _ => Checked.fault place "model_attributes_type" d

def mappingOf (place : List String) (d : Datum) : Checked Datum :=
  match d with
  | .mapping _ _ => .ok d
  | _ => Checked.fault place "dict_type" d

/-- A request from the value of its body. -/
def ofDatum (d : Datum) : Checked Request :=
  match d with
  | .mapping _ _ =>
    let required {α : Type} (name : String) (check : List String → Datum → Checked α) : Checked α :=
      if d.hasField name then check ["body", name] (d.field name)
      else Checked.fault ["body", name] "missing" d
    let overrides : Checked Overrides :=
      if d.hasField "options" then overridesOf ["body", "options"] (d.field "options") else .ok {}
    (Checked.both (required "schema" mappingOf)
        (Checked.both (required "modules" (Checked.list Checked.text)) overrides)).map
      fun (schema, modules, overrides) => { schema, modules, overrides }
  | _ => Checked.fault ["body"] "model_attributes_type" d

/-- What bytes are as a body: no body at all, a value, a text that is no JSON from a place on, or no text
that could be read. -/
inductive Body where
  | absent
  | value (d : Datum)
  | noJson (place : Nat)
  | unreadable

def Body.ofBytes (bytes : List UInt8) : Body :=
  if bytes.isEmpty then .absent
  else
    match (Json.textOf? bytes).map Json.read with
    | none => .unreadable
    | some (.ok d) => .value d
    | some (.error ⟨.tooManyDigits _, _⟩) => .unreadable
    | some (.error fault) => .noJson fault.place

/-- The format that a query asks for, the last one if there are several. -/
def formatOf (query : String) : Checked Format :=
  match ((Text.queryPairs query).filter fun (name, _) => name = "format").getLast? with
  | some (_, value) => Checked.choice Format.name [.yaml, .json] ["query", "format"] (.text value)
  | none => .ok .json

end Request

end RestconfApi.Service
