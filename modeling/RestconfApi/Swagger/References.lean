import RestconfApi.Datum.Order
import RestconfApi.Failure
import RestconfApi.Swagger.Basic

/-!
# Swagger: references between definitions

The names that a document points at, and the change of all of them by a function. A reference that is
a part of a part of a composition counts as text of its own: it is neither listed nor changed.
-/

namespace RestconfApi

/-! ### Names pointed at -/

/-- The names that a property and its items point at. -/
def Property.refs : Property → List Name
  | { ref, items := none, .. } => ref.toList
  | { ref, items := some p, .. } => ref.toList ++ p.refs

def ObjectModel.refs (o : ObjectModel) : List Name := o.properties.flatMap fun (_, p) => p.refs

namespace Model

mutual

/-- The names that the fields of a model point at. -/
def fieldRefs : Model → List Name
  | .reference _ => []
  | .object o => o.refs
  | .composed parts _ => fieldRefsAll parts

def fieldRefsAll : List Model → List Name
  | [] => []
  | m :: ms => fieldRefs m ++ fieldRefsAll ms

end

/-- The names that a definition, or a part of one, points at. -/
def partRefs : Model → List Name
  | .reference r => [r]
  | m => fieldRefs m

/-- The names that a definition points at, in their order. -/
def refs : Model → List Name
  | .composed parts _ => parts.flatMap partRefs
  | m => partRefs m

end Model

def Parameter.refs (p : Parameter) : List Name := (p.schema.map Property.refs).getD []

def Response.refs (r : Response) : List Name := (r.schema.map Property.refs).getD []

def Operation.refs (o : Operation) : List Name :=
  o.parameters.flatMap Parameter.refs ++ o.responses.flatMap fun (_, r) => r.refs

namespace Document

def operations (d : Document) : List Operation := d.paths.flatMap fun (_, os) => os.map Prod.snd

/-- Every name that an operation or a definition points at. -/
def refs (d : Document) : List Name :=
  d.operations.flatMap Operation.refs ++ d.definitions.flatMap fun (_, m) => m.refs

/-- Whether all names pointed at are keys, which can be looked up. -/
def hasKeyedRefs (d : Document) : Bool := d.refs.all (·.asKey?.isSome)

/-- The names pointed at, each once and in order. -/
def references (d : Document) : Except Failure (List Scalar) := do
  let names := Scalar.distinct (← d.refs.mapM Datum.key?)
  if Scalar.areOrdered names then .ok (Scalar.sorted names) else .error .wrongType

end Document

/-! ### Changing the names -/

variable (f : Name → Name)

/-- Changes a property and its items. -/
def Property.mapAll (f : Property → Property) : Property → Property
  | p@{ items := none, .. } => f p
  | p@{ items := some q, .. } => f { p with items := some (mapAll f q) }

def Property.mapRefs : Property → Property := Property.mapAll fun p => { p with ref := p.ref.map f }

def ObjectModel.mapProperties (g : Property → Property) (o : ObjectModel) : ObjectModel :=
  { o with properties := o.properties.map fun (k, p) => (k, g p) }

namespace Model

mutual

/-- Changes the properties of a model. -/
def mapProperties (g : Property → Property) : Model → Model
  | .reference r => .reference r
  | .object o => .object (o.mapProperties g)
  | .composed parts d => .composed (mapPropertiesAll g parts) d

def mapPropertiesAll (g : Property → Property) : List Model → List Model
  | [] => []
  | m :: ms => mapProperties g m :: mapPropertiesAll g ms

end

def mapPartRefs : Model → Model
  | .reference r => .reference (f r)
  | m => m.mapProperties (Property.mapRefs f)

def mapRefs : Model → Model
  | .composed parts d => .composed (parts.map (mapPartRefs f)) d
  | m => mapPartRefs f m

end Model

def Parameter.mapProperties (g : Property → Property) (p : Parameter) : Parameter :=
  { p with schema := p.schema.map g }

def Response.mapProperties (g : Property → Property) (r : Response) : Response :=
  { r with schema := r.schema.map g }

def Operation.mapProperties (g : Property → Property) (o : Operation) : Operation :=
  { o with
    parameters := o.parameters.map (Parameter.mapProperties g)
    responses := o.responses.map fun (code, r) => (code, r.mapProperties g) }

/-- The name that stands in place of another one. -/
def newName (names : Entries Scalar Name) (name : Name) : Name :=
  (name.asKey?.bind names.get?).getD name

namespace Document

/-- Changes the properties of all operations. -/
def mapOperations (g : Property → Property) (d : Document) : Document :=
  { d with
    paths := d.paths.map fun (path, os) => (path, os.map fun (method, o) => (method, o.mapProperties g)) }

/-- Changes every name that the document points at, each once. -/
def mapRefs (d : Document) : Document :=
  { d.mapOperations (Property.mapRefs f) with
    definitions := d.definitions.map fun (name, m) => (name, m.mapRefs f) }

/-- The document with the names that it points at replaced by others, if they can be looked up. -/
def rename (names : Entries Scalar Name) (d : Document) : Except Failure Document :=
  if d.hasKeyedRefs then .ok (d.mapRefs (newName names)) else .error .wrongType

end Document

end RestconfApi
