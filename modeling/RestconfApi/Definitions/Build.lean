import RestconfApi.Definitions.LeafProperty
import RestconfApi.Definitions.Usage
import RestconfApi.Swagger.References

/-!
# Definitions: models and registration

The model of a node and its registration under a name. The models of grouping bodies and rpc payloads
are built on demand, while another model is built; those of data nodes only when the walk comes to
them.
-/

namespace RestconfApi.Definitions

open Building

variable (c : Scope)

/-! ### Names -/

/-- The names that the definition of a node may get, the preferred ones first: the node, its parent
with it, its module with it, and the last of these with the numbers up to `count`. -/
def candidates (p : Place) (count : Nat) : List Name :=
  let n := p.node
  let joined (names : List Name) : Name := .text (Text.join "." (names.map Datum.wording))
  let names :=
    match n.kind, p.above with
    | .grouping, _ => [c.groupings.displayName n.qname]
    | .input, rpc :: _ | .output, rpc :: _ =>
      [joined [rpc.name, n.name], joined [rpc.owner, rpc.name, n.name]]
    | _, _ =>
      let outer :=
        match p.dataParent? with
        | some parent => if parent.node.kind = .grouping then [] else [joined [parent.node.name, n.name]]
        | none => []
      [n.name] ++ outer ++ [joined [n.owner, n.name]]
  let last := (names.getLast?.getD .null).wording
  names ++ (List.range count).map fun i => .text (last ++ toString (i + 1))

/-- The first of some names that is free or already names a model that agrees. The names up to it have to
be keys. -/
def firstUsable (known : Entries Scalar Model) (model : Model) : List Name → Except Failure Scalar
  | [] => .error .endless
  | name :: names => do
    let key ← name.key?
    match known.get? key with
    | none => .ok key
    | some other => if other.agrees model then .ok key else firstUsable known model names

/-- Registers the model of a node under the first candidate that is usable. -/
def register (p : Place) (model : Model) : Building Scalar := do
  let known := (← get).document.definitions
  let name ← ofLogged (.ofExcept (firstUsable known model (candidates c p (known.length + 1))))
  if (known.get? name).isNone then
    modify fun d => { d with document := d.document.addDefinition name model }
    note .debug s!"registered definition {name.wording} for {p.schemaPath}"
  else note .debug s!"reusing definition {name.wording} for {p.schemaPath}"
  modify fun d => { d with names := d.names.put p.address name }
  pure name

/-! ### Models -/

/-- Defines a node and gives the name of its definition. -/
abbrev Define := Place → Building Scalar

/-- The name of the definition that a field of structural kind points at; nothing if the field stays an
untyped object. -/
def structuralRef (define : Define) (child : Place) : Building (Option Scalar) := do
  let d ← get
  match d.definitionName c child with
  | some name => pure (some name)
  | none =>
    let target := d.canonical c child
    let path := child.schemaPath
    if target.isWalked then do
      note .debug s!"{path} was not visited, emitting an untyped object"
      pure none
    else if target.address ∈ d.underway then do
      note .warning s!"{path} contains itself, emitting an untyped object"
      pure none
    else if !d.withinBound c target then do
      note .debug s!"{path} only occurs beyond the maximum depth, emitting an untyped object"
      pure none
    else do
      let name ← define child
      pure (some name)

/-- The property of a container or a list, given the definition it points at. -/
def structuralProperty (child : Place) (name : Option Scalar) : Property :=
  let n := child.node
  let item : Property :=
    match name with
    | some name => { ref := some (.scalar name) }
    | none => { type := .text "object" }
  let property : Property :=
    if n.kind = .list then { type := .text "array", items := some item } else item
  if property.ref.isNone then
    { property with description := n.description, readOnly := !n.config }
  else property

/-- The property of a child, nothing for kinds that are no fields. -/
def propertyFor (define : Define) (child : Place) : Building (Option Property) := do
  let n := child.node
  if n.kind.isTyped then
    let property ← ofLogged (c.schema.leafProperty child)
    pure (some property)
  else if n.kind = .anydata then
    pure (some { type := .text "object", description := n.description, readOnly := !n.config })
  else if n.kind.isStructural then
    let name ← structuralRef c define child
    pure (some (structuralProperty child name))
  else pure none

/-- Adds the property of a child to the model of `node`. -/
def addField (define : Define) (node : Node) (model : ObjectModel) (child : Place) :
    Building ObjectModel := do
  match ← propertyFor c define child with
  | none => pure model
  | some property =>
    let name := child.node.name
    let key ← ofLogged (.ofExcept name.key?)
    let isRequired := child.node.mandatory || node.keys.any (name == .text ·)
    pure
      { model with
        properties := model.properties.put key property
        required := if isRequired then model.required ++ [name] else model.required }

/-- The object of the given children of `node`. -/
def objectModel (define : Define) (node : Node) (children : List Place) : Building ObjectModel :=
  children.foldlM (addField c define node) { description := node.description }

/-! ### Shared groupings -/

/-- The grouping of a qualified name, which has to be there. -/
def groupingOf (qname : String) : Building Place :=
  match c.schema.groupingNamed? qname with
  | some g => pure g
  | none => fail (.schema (.lostGrouping qname))

/-- The first of some groupings that is shared and configuration exactly when `site` is. -/
def firstShared (site : Node) : List String → Building (Option String)
  | [] => pure none
  | qname :: rest => do
    if (← get).isShared qname then
      let g ← groupingOf c qname
      if g.node.config = site.config then pure (some qname) else firstShared site rest
    else firstShared site rest

/-- Tells the children that shared groupings supply from the others: the groupings, each once, and the
remaining children. -/
def partitionFields (site : Node) : List Place → Building (List String × List Place)
  | [] => pure ([], [])
  | child :: rest => do
    let supplier ← firstShared c site (c.schema.supplierChain child)
    let (suppliers, others) ← partitionFields site rest
    match supplier with
    | some qname => pure (qname :: suppliers.filter (· ≠ qname), others)
    | none => pure (suppliers, child :: others)

/-- Whether one of the other groupings uses `qname` and so brings its fields along. -/
def isIncluded (qname : String) : List String → Building Bool
  | [] => pure false
  | other :: rest => do
    if other ≠ qname then
      if ← ofLogged (c.groupings.isAncestorOf qname other) then pure true else isIncluded qname rest
    else isIncluded qname rest

/-- The model of a node: an object of all its fields, or a composition of the shared groupings that
supply some of them with an object of the others. -/
def buildModel (define : Define) (p : Place) : Building Model := do
  let children := p.dataChildren
  match c.strategy with
  | .unpacking => pure (.object (← objectModel c define p.node children))
  | .optimizing =>
    let (suppliers, others) ← partitionFields c p.node children
    let outer ← suppliers.filterM fun qname => do pure !(← isIncluded c qname suppliers)
    if outer.isEmpty then pure (.object (← objectModel c define p.node others))
    else
      let names ← outer.mapM fun qname => do
        let g ← groupingOf c qname
        define g
      let parts := names.map fun name => Model.reference (.scalar name)
      match others, parts with
      | [], [part] => pure part
      | [], _ => pure (.composed parts p.node.description)
      | _, _ =>
        let fields ← objectModel c define p.node others
        pure (.composed (parts ++ [.object fields]) p.node.description)

/-! ### Definitions -/

/-- Binds a node to the name of its definition and completes the properties that await it. -/
def bindName (p : Place) (name : Scalar) : Building Unit :=
  modify fun d =>
    { d with
      names := d.names.put p.address name
      completed :=
        match d.completed.get? p.address with
        | some _ => d.completed
        | none => d.completed.put p.address name }

/-- Registers the definition that stands for a node unless it is there already. The first argument
bounds how deep definitions demand each other. -/
def defineFrom : Nat → Define
  | 0, _ => fail .endless
  | fuel + 1, p => do
    let d ← get
    let target := d.canonical c p
    let name ←
      match d.names.get? target.address with
      | some name => pure name
      | none => do
        let model ← marked target.address (buildModel c (defineFrom fuel) target)
        register c target model
    bindName p name
    pure name

/-- The name of the definition of a node, which is registered if need be. While a definition is built
it can demand those of other nodes only, so that the size of the schema bounds their number. -/
def define : Define := defineFrom c (c.schema.size + 1)

/-- A property that points at the definition of a node. If there is none yet, the property awaits
it. -/
def reference (p : Place) : Building Property := do
  match (← get).definitionName c p with
  | some name => pure { ref := some (.scalar name) }
  | none => pure { awaits := some p.address }

/-- The document as it stands, with every property that awaited a definition completed. -/
def finished (d : Definitions) : Document :=
  d.document.mapOperations (Property.mapAll d.current)

end RestconfApi.Definitions
