import RestconfApi.Schema.Basic

/-!
# Swagger: the document

A Swagger 2.0 document: operations under paths and named definitions. Definitions and operations point
at definitions by their bare names. `agrees` compares definitions with fields in any order.
-/

namespace RestconfApi

/-- The schema of a field, of a body or of a response. A property that was handed out before the
definition it points at existed awaits the definition of a node. -/
structure Property where
  type : Datum := .null
  format : Datum := .null
  ref : Option Name := none
  awaits : Option Address := none
  items : Option Property := none
  enum : List Datum := []
  description : Datum := .null
  readOnly : Bool := false
  extensions : Entries Scalar Datum := []
deriving Repr

/-- An object with inlined fields. -/
structure ObjectModel where
  properties : Entries Scalar Property := []
  required : List Name := []
  description : Datum := .null
  extensions : Entries Scalar Datum := []
deriving Repr

/-- A definition: another name for a definition, an object, or a composition of parts. -/
inductive Model where
  | reference (name : Name)
  | object (fields : ObjectModel)
  | composed (parts : List Model) (description : Datum)
deriving Repr

/-! ### Agreement -/

/-- Two maps agree when they have the same keys with agreeing values. -/
def Entries.agree {α : Type} (same : α → α → Bool) (m m' : Entries Scalar α) : Bool :=
  m.length == m'.length &&
    m.all fun (k, v) =>
      match m'.get? k with
      | some v' => same v v'
      | none => false

def Property.sameShape (p q : Property) : Bool :=
  p.type == q.type && p.format == q.format && p.ref == q.ref && p.awaits == q.awaits &&
    p.enum == q.enum && p.description == q.description && p.readOnly == q.readOnly &&
    Entries.agree (· == ·) p.extensions q.extensions

def Property.agrees : Property → Property → Bool
  | p@{ items := none, .. }, q => p.sameShape q && q.items.isNone
  | p@{ items := some i, .. }, q =>
    p.sameShape q &&
      match q.items with
      | some j => agrees i j
      | none => false

def ObjectModel.agrees (o o' : ObjectModel) : Bool :=
  Entries.agree Property.agrees o.properties o'.properties && o.required == o'.required &&
    o.description == o'.description && Entries.agree (· == ·) o.extensions o'.extensions

mutual

def Model.agrees : Model → Model → Bool
  | .reference r, .reference r' => r == r'
  | .object o, .object o' => o.agrees o'
  | .composed parts d, .composed parts' d' => d == d' && Model.agreeAll parts parts'
  | _, _ => false

def Model.agreeAll : List Model → List Model → Bool
  | [], [] => true
  | m :: ms, m' :: ms' => Model.agrees m m' && Model.agreeAll ms ms'
  | _, _ => false

end

/-! ### Operations -/

structure Parameter where
  name : Datum
  location : Datum
  required : Datum := .bool true
  description : Datum := .null
  type : Datum := .null
  format : Datum := .null
  schema : Option Property := none
deriving Repr

structure Response where
  description : Datum
  schema : Option Property := none
deriving Repr

structure Operation where
  operationId : Datum
  summary : Datum := .null
  description : Datum := .null
  tags : List Name := []
  parameters : List Parameter := []
  responses : Entries Scalar Response := []
deriving Repr

structure Info where
  title : Datum := .null
  description : Datum := .null
  version : Datum := .null
deriving Repr

/-- Paths and definitions have their names as keys; operations have those of their methods. -/
structure Document where
  info : Info := {}
  host : Datum := .null
  basePath : Datum := .null
  consumes : List Datum := []
  produces : List Datum := []
  paths : Entries Scalar (Entries Scalar Operation) := []
  definitions : Entries Scalar Model := []
deriving Repr

namespace Document

def addOperation (path method : Scalar) (o : Operation) (d : Document) : Document :=
  { d with paths := d.paths.put path (((d.paths.get? path).getD []).put method o) }

def addDefinition (name : Scalar) (m : Model) (d : Document) : Document :=
  { d with definitions := d.definitions.put name m }

end Document

end RestconfApi
