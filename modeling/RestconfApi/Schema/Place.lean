import RestconfApi.Schema.Basic
import RestconfApi.Text.Blank

/-!
# Schema: places

A place is a node with its address and the nodes above it. Here are the ways from a place to others:
to its children, to its data children, which leaves out choices and cases, to its parents and to all
nodes below it.
-/

namespace RestconfApi

/-- A node where it stands; `above` holds the nodes around it, the nearest first. -/
structure Place where
  address : Address
  node : Node
  above : List Node

namespace Place

mutual

/-- The places of a node and of all below it, from the top down and from left to right. -/
def ofTree (a : Address) (above : List Node) : Node → List Place
  | ⟨s, cs⟩ => ⟨a, ⟨s, cs⟩, above⟩ :: ofTrees a (⟨s, cs⟩ :: above) 0 cs

/-- The same for the children of the node at `a` from the `i`-th on. -/
def ofTrees (a : Address) (above : List Node) (i : Nat) : List Node → List Place
  | [] => []
  | n :: ns => ofTree (a.child i) above n ++ ofTrees a above (i + 1) ns

end

/-- The places of the children of the node at `a` from the `i`-th on. -/
def ofChildren (a : Address) (above : List Node) (i : Nat) : List Node → List Place
  | [] => []
  | n :: ns => ⟨a.child i, n, above⟩ :: ofChildren a above (i + 1) ns

mutual

/-- The places that a child stands for in instance data: itself, or for a choice or a case what its
children stand for. -/
def dataOf (a : Address) (above : List Node) : Node → List Place
  | ⟨s, cs⟩ =>
    if s.kind.isTransparent then dataOfAll a (⟨s, cs⟩ :: above) 0 cs else [⟨a, ⟨s, cs⟩, above⟩]

def dataOfAll (a : Address) (above : List Node) (i : Nat) : List Node → List Place
  | [] => []
  | n :: ns => dataOf (a.child i) above n ++ dataOfAll a above (i + 1) ns

end

/-- The first data node of a name among the children of the node at `a` from the `i`-th on. -/
def named? (name : Name) (a : Address) (above : List Node) (i : Nat) (ns : List Node) :
    Option Place :=
  (dataOfAll a above i ns).find? fun p => p.node.name == name

/-- Goes down from a place by the positions of the children. -/
def descend : List Nat → Place → Option Place
  | [], p => some p
  | i :: is, p =>
    match p.node.children[i]? with
    | some n => descend is ⟨p.address.child i, n, p.node :: p.above⟩
    | none => none

variable (p : Place)

def children : List Place := ofChildren p.address (p.node :: p.above) 0 p.node.children

/-- The children as they appear in instance data. -/
def dataChildren : List Place := dataOfAll p.address (p.node :: p.above) 0 p.node.children

/-- The node itself and all nodes below it. -/
def nodes : List Place := ofTree p.address p.above p.node

def child? (name : Name) : Option Place :=
  named? name p.address (p.node :: p.above) 0 p.node.children

/-- The place `n` levels up among the nodes `above`. -/
def enclosing? (a : Address) : List Node → Nat → Option Place
  | [], _ => none
  | n :: above, levels =>
    if n.kind.isTransparent then enclosing? a above (levels + 1)
    else some ⟨{ a with path := a.path.take (a.path.length - (levels + 1)) }, n, above⟩

/-- The nearest node around that is no choice and no case. -/
def dataParent? : Option Place := enclosing? p.address p.above 0

/-- The nodes from the top statement down to this one. -/
def lineage : List Node := (p.node :: p.above).reverse

/-- The outermost node around, the node itself if it is a top statement. -/
def top : Node := p.above.getLast?.getD p.node

/-- The qualified names from the top statement down. -/
def schemaPath : String := "/" ++ Text.join "/" (p.lineage.map (·.qname))

def inGrouping : Bool := (p.node :: p.above).any (·.kind = .grouping)

/-- The level of a walk that meets the node: 1 for top statements, cases not counted. -/
def level : Nat := (p.above.filter (·.kind ≠ .case)).length + 1

end Place

/-! ### Finding places -/

/-- The data node or rpc of a name among the top statements of the module at position `i`. -/
def Module.topNamed? (m : Module) (i : Nat) (name : Name) : Option Place :=
  match Place.named? name (Address.top i .data) [] 0 m.data with
  | some p => some p
  | none => Place.named? name (Address.top i .rpcs) [] 0 m.rpcs

/-- The data node of a name among the top statements of the module at position `i`. -/
def Module.dataNode? (m : Module) (i : Nat) (name : Name) : Option Place :=
  Place.named? name (Address.top i .data) [] 0 m.data

namespace Schema

variable (s : Schema)

/-- The place at an address. -/
def place? (a : Address) : Option Place := do
  let m ← s.modules[a.module]?
  match a.path with
  | [] => none
  | i :: is =>
    let n ← (m.part a.part)[i]?
    Place.descend is ⟨(Address.top a.module a.part).child i, n, []⟩

/-- The places of the top statements of a part of the `i`-th module. -/
def tops (i : Nat) (part : Part) : List Place :=
  match s.modules[i]? with
  | some m => Place.ofChildren (Address.top i part) [] 0 (m.part part)
  | none => []

/-- The places of the groupings that can be found by name, in module order. -/
def groupings : List Place :=
  s.modules.zipIdx.flatMap fun (m, i) => Place.ofChildren (Address.top i .groupings) [] 0 m.listed

/-- The first module of a name, with its position. -/
def module? (name : Name) : Option (Module × Nat) := s.modules.zipIdx.find? (·.1.name == name)

/-- The first module of a name, or else the first with it as its short name. -/
def moduleByPrefix? (tag : Name) : Option (Module × Nat) :=
  match s.module? tag with
  | some found => some found
  | none => s.modules.zipIdx.find? (·.1.shortName == tag)

/-- The part of a name before its last colon, empty if there is none, and the part after it. -/
def splitName (ref : String) : String × String :=
  match Text.cutLast ':' ref.toList with
  | some (tag, name) => (String.ofList tag, String.ofList name)
  | none => ("", ref)

/-- The module that a name written in the module `owner` belongs to, and the local name. -/
def resolveName (ref : String) (owner : Name) : Option (Module × Nat) × Name :=
  let (tag, name) := splitName ref
  (if tag = "" then s.module? owner else s.moduleByPrefix? (.text tag), .text name)

/-- The grouping that a `uses` written in the module `owner` means. -/
def grouping? (ref : String) (owner : Name) : Option Place :=
  match s.resolveName ref owner with
  | (some (m, i), name) =>
    (Place.ofChildren (Address.top i .groupings) [] 0 m.listed).find? fun p => p.node.name == name
  | (none, _) => none

/-- The grouping of a qualified name, which is read up to its first colon. -/
def groupingNamed? (qname : String) : Option Place :=
  let (owner, name) :=
    match Text.cutFirst ':' qname.toList with
    | some (owner, name) => (String.ofList owner, String.ofList name)
    | none => (qname, "")
  s.grouping? name (.text owner)

def typedef? (ref : String) (owner : Name) : Option LeafType :=
  match s.resolveName ref owner with
  | (some (m, _), name) => name.asKey?.bind m.typedefs.get?
  | (none, _) => none

/-! ### Paths -/

/-- Drops everything from an opening bracket to the next closing one. `held` is what has been read
since the last opening bracket, last character first; it stays when no closing one follows. -/
def dropFrom : Option (List Char) → List Char → List Char
  | none, [] => []
  | some held, [] => held.reverse
  | none, c :: cs => if c = '[' then dropFrom (some ['[']) cs else c :: dropFrom none cs
  | some held, c :: cs => if c = ']' then dropFrom none cs else dropFrom (some (c :: held)) cs

/-- A path without its key predicates. -/
def dropPredicates (path : String) : String := String.ofList (dropFrom none path.toList)

/-- The node that a step leads to from `current`, which is nothing above all top statements; `owner` is the
module that a first step without a prefix means. -/
def step? (owner : Name) (step : String) (current : Option Place) : Option Place :=
  if step = ".." then current.bind Place.dataParent?
  else
    let (tag, name) := splitName step
    match current with
    | some p => p.child? (.text name)
    | none =>
      let tag : Name := if tag = "" then owner else .text tag
      if !tag.holds then none
      else (s.moduleByPrefix? tag).bind fun (m, i) => m.topNamed? i (.text name)

/-- Takes the steps of a path one after the other. -/
def follow (owner : Name) : List String → Option Place → Option Place
  | [], current => current
  | step :: steps, current =>
    let step := Text.trim step
    if step = "" || step = "." then follow owner steps current
    else
      match s.step? owner step current with
      | some p => follow owner steps (some p)
      | none => none

/-- The node that a path leads to: from the top of a module if it starts with a slash, else from
`context`. -/
def node? (path : String) (context : Option Place) : Option Place :=
  let cleaned := Text.trim (dropPredicates path)
  let owner := (context.map (·.node.owner)).getD .null
  if cleaned.toList.head? = some '/' then s.follow owner (Text.pieces '/' cleaned) none
  else
    match context with
    | some p => s.follow owner (Text.pieces '/' cleaned) (some p)
    | none => none

end Schema

end RestconfApi
