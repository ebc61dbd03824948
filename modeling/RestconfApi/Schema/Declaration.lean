import RestconfApi.Failure
import RestconfApi.Schema.Basic

/-!
# Schema: declarations

The statements that a schema document declares, before any `uses` is expanded or augment applied. The
recursion follows the document: the children of a statement are found among its fields.
-/

namespace RestconfApi.Declaration

/-- Nodes that a module adds below a node of another one. -/
structure Augment where
  owner : Name
  target : Datum
  nodes : List Node

/-- What a loop over the value meets; what does not hold counts as an empty list. -/
def itemsOrNone (d : Datum) : Except Failure (List Datum) :=
  if d.holds then
    match d.items? with
    | some items => .ok items
    | none => .error .wrongType
  else .ok []

/-- The words of a text or the wordings of the items of a list. -/
def texts : Datum → Except Failure (List String)
  | .null => .ok []
  | .text s => .ok (Text.words s)
  | d =>
    match d.items? with
    | some items => items.mapM Datum.wording?
    | none => .error .wrongType

/-- The failure of a type that is none. -/
def badType (about : String) (spec : Datum) : Except Failure LeafType := do
  .error (.schema (.badType about (← spec.literal?)))

/-- The type that `about` is declared with: the name alone, or a name with a path and enumerated
values. A leafref needs a path. -/
def type (about : String) (spec : Datum) : Except Failure LeafType := do
  let named : LeafType ←
    match spec with
    | .text name => .ok { name := .text name }
    | .mapping _ _ =>
      if (spec.field "name").holds then do
        let values ← itemsOrNone (spec.field "enum")
        .ok ⟨spec.field "name", spec.field "path", ← values.mapM Datum.wording?⟩
      else badType about spec
    | _ => badType about spec
  if named.isLeafref && !named.path.holds then .error (.schema (.noPath about)) else .ok named

def kind (owner : Name) (d : Datum) : Except Failure Kind :=
  match d.asText?.bind Kind.ofName? with
  | some k => .ok k
  | none => do .error (.schema (.unknownKind (← d.wording?) owner.wording))

/-- A child of a choice that is no case stands for a case of its own name. -/
def inCase (owner : Name) (n : Node) : Node :=
  if n.kind = .case then n else { kind := .case, name := n.name, owner, children := [n] }

/-- The type that a statement of a kind that needs one is declared with. -/
def typeOf (owner : Name) (kind : Kind) (name : Name) (fields : Datum) : Except Failure (Option LeafType) :=
  if kind.isTyped then do
    let qname := (← owner.wording?) ++ ":" ++ (← name.wording?)
    if (fields.field "type").isNull then .error (.schema (.untyped kind qname))
    else (type qname (fields.field "type")).map some
  else .ok none

/-- The statement with the given fields and children that are declared already. -/
def withChildren (owner : Name) (kind : Kind) (name : Name) (fields : Datum)
    (children : List Node) : Except Failure Node := do
  let children := if kind = .choice then children.map (inCase owner) else children
  let type ← typeOf owner kind name fields
  let keys ← texts (fields.field "key")
  let uses ← texts (fields.field "uses")
  let config := fields.field "config"
  .ok
    { kind, name, owner, children, type, keys, uses
      description := fields.field "description"
      mandatory := (fields.field "mandatory").holds
      declaredConfig := if config.isNull then none else some config.holds }

/-- The kind that is given, or else read from the fields. -/
def kindOf (owner : Name) (kind? : Option Kind) (fields : Datum) : Except Failure Kind :=
  match kind? with
  | some k => .ok k
  | none => kind owner (fields.field "kind")

/-- The name that is given, or else read from the fields of a statement. -/
def nameOf (owner : Name) (kind : Kind) (name? : Option String) (fields : Datum) : Except Failure Name :=
  match name? with
  | some name => .ok (.text name)
  | none =>
    if (fields.field "name").holds then .ok (fields.field "name")
    else .error (.schema (.nameless kind owner.wording))

mutual

/-- The node that a statement of the module `owner` declares. The kind and the name are read from its
fields unless they are given. -/
def node (owner : Name) (kind? : Option Kind) (name? : Option String) :
    Datum → Except Failure Node
  | .mapping entries mark => do
    let fields := Datum.mapping entries mark
    let kind ← kindOf owner kind? fields
    let name ← nameOf owner kind name? fields
    let children ← childrenIn owner entries
    withChildren owner kind name fields children
  | d => do .error (.schema (.noStatement owner.wording (← d.literal?)))

/-- The nodes that the field `children` declares. -/
def childrenIn (owner : Name) : List (Scalar × Datum) → Except Failure (List Node)
  | [] => .ok []
  | (key, d) :: rest => if key == .text "children" then nodes owner d else childrenIn owner rest

/-- The nodes that the items of a value declare. -/
def nodes (owner : Name) : Datum → Except Failure (List Node)
  | .list items _ => nodesOf owner items
  | d => do
    match ← itemsOrNone d with
    | [] => .ok []
    | item :: _ => .error (.schema (.noStatement owner.wording (← item.literal?)))

def nodesOf (owner : Name) : List Datum → Except Failure (List Node)
  | [] => .ok []
  | d :: ds => do
    let n ← node owner none none d
    let ns ← nodesOf owner ds
    .ok (n :: ns)

end

/-! ### Rpcs, groupings and modules -/

def groupings (owner : Name) (ds : List Datum) : Except Failure (List Node) :=
  ds.mapM (node owner (some .grouping) none)

/-- The payload of an rpc, either a statement or just its children. -/
def payload (owner : Name) (kind : Kind) : Datum → Except Failure (List Node)
  | .null => .ok []
  | .mapping entries mark => do
    let n ← node owner (some kind) (some kind.name) (.mapping entries mark)
    .ok [n]
  | d => do
    let n ← node owner (some kind) (some kind.name) (.object [("children", d)])
    .ok [n]

def rpc (owner : Name) : Datum → Except Failure Node
  | .mapping entries mark => do
    let fields := Datum.mapping entries mark
    let n ← node owner (some .rpc) none fields
    let input ← payload owner .input (fields.field "input")
    let output ← payload owner .output (fields.field "output")
    .ok { n with children := n.children ++ input ++ output }
  | d => do .error (.schema (.noRpc owner.wording (← d.literal?)))

def typedefs (d : Datum) : Except Failure (Entries Scalar LeafType) :=
  if d.holds then
    match d with
    | .mapping entries _ => do
      let types ← entries.mapM fun (k, spec) => do
        let t ← type ("typedef " ++ k.wording) spec
        .ok (k, t)
      .ok (Entries.ofList types)
    | _ => .error .noMember
  else .ok []

def augment (owner : Name) (d : Datum) : Except Failure Augment :=
  if (d.field "target").holds then do
    let nodes ← nodes owner (d.field "children")
    .ok ⟨owner, d.field "target", nodes⟩
  else .error (.schema (.noTarget owner.wording))

/-- A module and its augments. Its short name is its name if no other is given. -/
def module (d : Datum) : Except Failure (Module × List Augment) :=
  if (d.field "name").holds then do
    let name := d.field "name"
    let typedefs ← typedefs (d.field "typedefs")
    let augments ← (← itemsOrNone (d.field "augments")).mapM (augment name)
    let data ← nodes name (d.field "data")
    let rpcs ← (← itemsOrNone (d.field "rpcs")).mapM (rpc name)
    let groupings ← groupings name (← itemsOrNone (d.field "groupings"))
    let shortName := d.field "prefix"
    .ok
      ({ name, typedefs, data, rpcs, groupings
         shortName := if shortName.holds then shortName else name
         uri := d.field "namespace"
         revision := d.field "revision"
         description := d.field "description" }, augments)
  else .error (.schema .namelessModule)

/-- All modules of a document, and their augments in the order of the document. -/
def document (d : Datum) : Except Failure (List Module × List Augment) :=
  match d with
  | .mapping _ _ => do
    let raw := d.field "modules"
    if !raw.holds then .error (.schema .noModules)
    else
      match raw.items? with
      | none => .error .wrongType
      | some items => do
        let modules ← items.mapM module
        .ok (modules.map (·.1), modules.flatMap (·.2))
  | _ => .error (.schema .noMapping)

end RestconfApi.Declaration
