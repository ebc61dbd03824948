import RestconfApi.Failure
import RestconfApi.Swagger.Basic

/-!
# Swagger: documents as data

The value that a document is written as. Fields that say nothing are left out; extensions come last
and win over fields of the same name. Only a text can be written as a reference.
-/

namespace RestconfApi

/-- The place of a definition in the document. -/
def definitionRef (name : Name) : Datum := .text ("#/definitions/" ++ name.wording)

abbrev Fields := Entries Scalar Datum

def fieldOf (name : String) (d : Datum) : Fields := [(.text name, d)]

/-- A field that is left out when its value does not hold. -/
def fieldIf (name : String) (d : Datum) : Fields := if d.holds then fieldOf name d else []

/-- A field that is left out when there is nothing. -/
def fieldUnlessNull (name : String) (d : Datum) : Fields := if d.isNull then [] else fieldOf name d

/-- The fields with more of them put over. -/
def overlay (fields more : Fields) : Fields := more.foldl (fun m (k, v) => m.put k v) fields

namespace Property

/-- What a property shows when it points at no definition, given its items as data. -/
def shapeFields (p : Property) (items : Fields) : Fields :=
  fieldUnlessNull "type" p.type ++ fieldUnlessNull "format" p.format ++ items ++
    fieldIf "enum" (.list p.enum) ++ fieldIf "description" p.description ++
    fieldIf "readOnly" (.bool p.readOnly)

def withExtensions (p : Property) (items : Fields) : Datum :=
  let fields :=
    match p.ref with
    | some name => fieldOf "$ref" (definitionRef name)
    | none => p.shapeFields items
  .mapping (overlay fields p.extensions)

def toDatum : Property → Datum
  | p@{ items := none, .. } => p.withExtensions []
  | p@{ items := some q, .. } => p.withExtensions (fieldOf "items" (toDatum q))

/-- Whether what is shown of a property points at definitions by texts. -/
def isWritable : Property → Bool
  | { ref := some name, .. } => name.asText?.isSome
  | { ref := none, items := some q, .. } => q.isWritable
  | { ref := none, items := none, .. } => true

end Property

namespace ObjectModel

def toDatum (o : ObjectModel) : Datum :=
  let fields :=
    fieldOf "type" (.text "object") ++ fieldIf "description" o.description ++
      fieldIf "required" (.list o.required) ++
      fieldOf "properties" (.mapping (o.properties.map fun (name, p) => (name, p.toDatum)))
  .mapping (overlay fields o.extensions)

def isWritable (o : ObjectModel) : Bool := o.properties.all fun (_, p) => p.isWritable

end ObjectModel

namespace Model

mutual

def toDatum : Model → Datum
  | .reference name => .mapping (fieldOf "$ref" (definitionRef name))
  | .object o => o.toDatum
  | .composed parts description =>
    .mapping (fieldOf "allOf" (.list (toData parts)) ++ fieldIf "description" description)

def toData : List Model → List Datum
  | [] => []
  | m :: ms => toDatum m :: toData ms

end

mutual

def isWritable : Model → Bool
  | .reference name => name.asText?.isSome
  | .object o => o.isWritable
  | .composed parts _ => areWritable parts

def areWritable : List Model → Bool
  | [] => true
  | m :: ms => isWritable m && areWritable ms

end

end Model

namespace Parameter

def toDatum (p : Parameter) : Datum :=
  let shape :=
    match p.schema with
    | some s => fieldOf "schema" s.toDatum
    | none =>
      fieldOf "type" (if p.type.holds then p.type else .text "string") ++
        fieldUnlessNull "format" p.format
  .mapping
    (fieldOf "name" p.name ++ fieldOf "in" p.location ++ fieldOf "required" p.required ++
      fieldIf "description" p.description ++ shape)

def isWritable (p : Parameter) : Bool := p.schema.all Property.isWritable

end Parameter

namespace Response

def toDatum (r : Response) : Datum :=
  .mapping
    (fieldOf "description" r.description ++
      ((r.schema.map fun s => fieldOf "schema" s.toDatum).getD []))

def isWritable (r : Response) : Bool := r.schema.all Property.isWritable

end Response

namespace Operation

def toDatum (o : Operation) : Datum :=
  .mapping
    (fieldIf "tags" (.list o.tags) ++ fieldIf "summary" o.summary ++
      fieldIf "description" o.description ++ fieldOf "operationId" o.operationId ++
      fieldIf "parameters" (.list (o.parameters.map Parameter.toDatum)) ++
      fieldOf "responses" (.mapping (o.responses.map fun (code, r) => (code, r.toDatum))))

def isWritable (o : Operation) : Bool :=
  o.parameters.all Parameter.isWritable && o.responses.all fun (_, r) => r.isWritable

end Operation

def Info.toDatum (i : Info) : Datum :=
  .mapping
    (fieldUnlessNull "title" i.title ++ fieldUnlessNull "description" i.description ++
      fieldUnlessNull "version" i.version)

namespace Document

variable (d : Document)

def toDatum : Datum :=
  .mapping
    (fieldOf "swagger" (.text "2.0") ++ fieldOf "info" d.info.toDatum ++
      fieldUnlessNull "host" d.host ++ fieldUnlessNull "basePath" d.basePath ++
      fieldIf "consumes" (.list d.consumes) ++ fieldIf "produces" (.list d.produces) ++
      fieldOf "paths" (.mapping (d.paths.map fun (path, os) =>
        (path, .mapping (os.map fun (method, o) => (method, o.toDatum))))) ++
      fieldOf "definitions" (.mapping (d.definitions.map fun (name, m) => (name, m.toDatum))))

def isWritable : Bool :=
  (d.paths.all fun (_, os) => os.all fun (_, o) => o.isWritable) &&
    d.definitions.all fun (_, m) => m.isWritable

/-- The value of a document whose references are all texts. -/
def value? : Except Failure Datum := if d.isWritable then .ok d.toDatum else .error .wrongType

end Document

end RestconfApi
