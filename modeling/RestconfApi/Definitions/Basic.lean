import RestconfApi.Groupings
import RestconfApi.Schema.Provenance
import RestconfApi.Swagger.Basic

/-!
# Definitions: names and sharing

The definitions that are being built for a schema, and the node whose definition stands for another
one. Under the optimizing strategy a grouping that is used more than once is shared: copies of its
nodes are represented by their templates.
-/

namespace RestconfApi

inductive Strategy where
  | optimizing
  | unpacking
deriving DecidableEq, Repr

/-- What definitions are built from: the schema and its groupings, the strategy and the deepest level
of a walk, if there is one. -/
structure Scope where
  schema : Schema
  groupings : Groupings
  strategy : Strategy
  maxLevel : Option Nat := none

/-- The state of building. `names` binds nodes to definitions, `completed` says which name the
properties handed out for a node have got, `underway` are the nodes whose definition is being built.
`usages` counts the declared uses of each grouping, `copies` pairs templates with their copies in data
trees, `payload` are the templates of nodes in rpc payloads. -/
structure Definitions where
  document : Document := {}
  names : Entries Address Scalar := []
  completed : Entries Address Scalar := []
  underway : List Address := []
  usages : Entries String Nat := []
  bodiesCounted : Bool := false
  processed : List Name := []
  copies : List (Address × Place) := []
  payload : List Address := []
  records : List Record := []

/-- A step of building: what has been built stays when the step fails. -/
abbrev Building (α : Type) := ExceptT Failure (StateM Definitions) α

namespace Building

variable {α : Type}

def fail (e : Failure) : Building α := fun d => (.error e, d)

def ofLogged (x : Logged α) : Building α :=
  fun d => (x.result, { d with records := d.records ++ x.records })

def note (level : Level) (text : String) : Building Unit := ofLogged (Logged.write level text)

/-- Runs `x` with the node at `a` marked as underway, and takes the mark away whatever happens. -/
def marked (a : Address) (x : Building α) : Building α := fun d =>
  let marks := if a ∈ d.underway then d.underway else a :: d.underway
  let (result, d) := x { d with underway := marks }
  (result, { d with underway := d.underway.filter (· ≠ a) })

end Building

namespace Definitions

variable (c : Scope) (d : Definitions)

def usageCount (qname : String) : Nat := (d.usages.get? qname).getD 0

/-- A grouping used at two or more places. -/
def isShared (qname : String) : Bool := 1 < d.usageCount qname

/-- Whether the template of a copy may stand for `site`: the copy comes from a shared grouping, and
template and site are both configuration or both not. -/
def represents (site copy template : Place) : Bool :=
  match copy.node.source with
  | some source => d.isShared source && template.node.config == site.node.config
  | none => false

/-- The node whose definition stands for a node: the last of its templates that may. -/
def canonical (p : Place) : Place :=
  match c.strategy with
  | .unpacking => p
  | .optimizing =>
    let chain := c.schema.templates p
    ((p :: chain).zip chain).foldl
      (fun target (copy, template) => if d.represents p copy template then template else target) p

/-- The name of the definition that stands for a node, if there is one yet. A name that does not hold
counts only for the node whose definition it is. -/
def definitionName (p : Place) : Option Scalar :=
  match d.names.get? p.address with
  | some name =>
    if (Datum.scalar name).holds then some name else d.names.get? (d.canonical c p).address
  | none => d.names.get? (d.canonical c p).address

/-- Whether a template gets a definition at all: it belongs to an rpc payload, or a copy that it stands
for lies in a processed module and no deeper than the deepest level. -/
def withinBound (template : Place) : Bool :=
  match c.maxLevel with
  | none => true
  | some limit =>
    d.payload.contains template.address ||
      d.copies.any fun (a, copy) =>
        a == template.address && d.processed.contains copy.node.owner && copy.level ≤ limit &&
          (d.canonical c copy).address == template.address

/-- The property with the name that it has been waiting for, if that has come. -/
def current (p : Property) : Property :=
  match p.awaits.bind d.completed.get? with
  | some name => { p with ref := some (.scalar name), awaits := none }
  | none => p

end Definitions

/-- Whether the walk over data trees meets a node: it stands in no grouping and in no rpc. -/
def Place.isWalked (p : Place) : Bool := p.top.kind ≠ .grouping && p.top.kind ≠ .rpc

end RestconfApi
