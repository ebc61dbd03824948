import RestconfApi.Yaml.Node
import RestconfApi.Yaml.ScalarValue

/-!
# YAML: reading

The value of a document. Plain scalars have the type of their form, mappings take over the entries of
those that they merge, and only scalars can be keys. The nodes are read level by level: scalars when they
are met, collections one after the other in the order in which they were met. A node that is met at several
places is one value, whose mark is the number of the node.
-/

namespace RestconfApi.Yaml

/-- The types of nodes that have a value. -/
inductive NodeType where
  | null
  | bool
  | int
  | float
  | bytes
  | time
  | text
  | sequence
  | mapping
  | set
  | pairs
  | merge
  | value
deriving DecidableEq, Repr

namespace NodeType

def ofImplicit? : Implicit → Option NodeType
  | .text => some .text
  | .bool => some .bool
  | .float => some .float
  | .int => some .int
  | .merge => some .merge
  | .null => some .null
  | .timestamp => some .time
  | .value => some .value
  | .indicator => none

def ofUri? (uri : String) : Option NodeType :=
  match uri with
  | "tag:yaml.org,2002:null" => some .null
  | "tag:yaml.org,2002:bool" => some .bool
  | "tag:yaml.org,2002:int" => some .int
  | "tag:yaml.org,2002:float" => some .float
  | "tag:yaml.org,2002:binary" => some .bytes
  | "tag:yaml.org,2002:timestamp" => some .time
  | "tag:yaml.org,2002:str" => some .text
  | "tag:yaml.org,2002:seq" => some .sequence
  | "tag:yaml.org,2002:map" => some .mapping
  | "tag:yaml.org,2002:set" => some .set
  | "tag:yaml.org,2002:omap" => some .pairs
  | "tag:yaml.org,2002:pairs" => some .pairs
  | "tag:yaml.org,2002:merge" => some .merge
  | "tag:yaml.org,2002:value" => some .value
  | _ => none

end NodeType

/-- The type of a node, nothing if its tag has no meaning. -/
def Node.type? : Node → Option NodeType
  | .scalar (.named uri) _ | .sequence (.named uri) _ | .mapping (.named uri) _ => NodeType.ofUri? uri
  | .scalar .plain text => NodeType.ofImplicit? (implicit text)
  | .scalar .quoted _ => some .text
  | .sequence _ _ => some .sequence
  | .mapping _ _ => some .mapping

def Node.entries : Node → List (NodeId × NodeId)
  | .mapping _ entries => entries
  | _ => []

/-- What a node has been read as: a scalar, or a collection of nodes. -/
inductive Content where
  | scalar (s : Scalar)
  | list (items : List NodeId)
  | mapping (entries : Entries Scalar NodeId)
  | set (items : List Scalar)
  | pairs (entries : List (NodeId × NodeId))

/-- The collection of a type before it is filled, nothing for the types of scalars. -/
def NodeType.collection? : NodeType → Option Content
  | .sequence => some (.list [])
  | .mapping => some (.mapping [])
  | .set => some (.set [])
  | .pairs => some (.pairs [])
  | _ => none

/-- The nodes of a document with what they have been read as, and the collections that are still to be
filled, the first one first. -/
structure Values where
  nodes : Array Node
  contents : Array (Option Content)
  pending : List NodeId := []

abbrev Valued (α : Type) := StateT Values (Except Failure) α

namespace Valued

def unreadable {α : Type} : Valued α := throw (.schema .unreadable)

def node (id : NodeId) : Valued Node := do return (← get).nodes.getD id .empty

def setNode (id : NodeId) (n : Node) : Valued Unit :=
  modify fun v => { v with nodes := v.nodes.setIfInBounds id n }

def setContent (id : NodeId) (c : Content) : Valued Unit :=
  modify fun v => { v with contents := v.contents.setIfInBounds id (some c) }

/-! ### Scalars -/

def isValueKey (nodes : Array Node) (id : NodeId) : Bool :=
  (nodes.getD id .empty).type? = some .value

/-- The text of a node that is read as a scalar: its own, or what a mapping has under an equals sign. -/
def textOf? (nodes : Array Node) : Nat → NodeId → Option String
  | 0, _ => none
  | fuel + 1, id =>
    match nodes.getD id .empty with
    | .scalar _ text => some text
    | .mapping _ entries =>
      (entries.find? fun (k, _) => isValueKey nodes k).bind fun (_, v) => textOf? nodes fuel v
    | .sequence _ _ => none

/-- The scalar of a type that a text writes. -/
def scalarOf (type : NodeType) (mark : Mark) (text : String) : Except Failure Scalar :=
  match type with
  | .null => .ok .null
  | .bool => .bool <$> boolValue text
  | .int => .int <$> intValue text
  | .float => .float <$> floatValue text
  | .bytes =>
    match Text.Base64.decode? text with
    | some b => .ok (.bytes b)
    | none => .error (.schema .unreadable)
  | .time => timeValue mark text
  | .text => .ok (.text text)
  | _ => .error (.schema .unreadable)

/-- Reads a node as a scalar. A time has to be written in the node itself. -/
def scalar (type : NodeType) (id : NodeId) : Valued Scalar := do
  let nodes := (← get).nodes
  match textOf? nodes (nodes.size + 1) id, nodes.getD id .empty, type with
  | some _, .mapping _ _, .time => throw .wrongType
  | some text, _, _ => liftM (scalarOf type (id + 1) text)
  | none, _, _ => unreadable

/-- Meets a node. A scalar is read when it is first met, and given; a collection has to wait. -/
def meet (id : NodeId) : Valued (Option Scalar) := do
  match (← get).contents.getD id none with
  | some (.scalar s) => pure (some s)
  | some _ => pure none
  | none =>
    match (← node id).type? with
    | none => unreadable
    | some type =>
      match type.collection? with
      | some start => do
        setContent id start
        modify fun v => { v with pending := v.pending ++ [id] }
        pure none
      | none => do
        let s ← scalar type id
        setContent id (.scalar s)
        pure (some s)

/-! ### Mappings -/

mutual

/-- Puts in front of the entries of a mapping those that it merges, which have been merged before. The
number bounds how deep mappings merge each other. -/
def merge : Nat → NodeId → Valued Unit
  | 0, _ => unreadable
  | fuel + 1, id => do
    let taken ← takeEntries fuel id (← node id).entries
    match ← node id with
    | .mapping tag entries => setNode id (.mapping tag (taken ++ entries))
    | _ => pure ()

/-- The entries that some entries of the node `id` merge; those with the mark for merging go, and a key
that is an equals sign is a text. -/
def takeEntries (fuel : Nat) (id : NodeId) : List (NodeId × NodeId) → Valued (List (NodeId × NodeId))
  | [] => pure []
  | (k, v) :: rest => do
    match (← node k).type? with
    | some .merge =>
      match ← node id with
      | .mapping tag entries => setNode id (.mapping tag (entries.erase (k, v)))
      | _ => pure ()
      let taken ←
        match ← node v with
        | .mapping _ _ => do
          merge fuel v
          pure (← node v).entries
        | .sequence _ items => takeLists fuel items
        | .scalar _ _ => unreadable
      let more ← takeEntries fuel id rest
      pure (taken ++ more)
    | some .value =>
      match ← node k with
      | .scalar _ text => setNode k (.scalar .quoted text)
      | _ => pure ()
      takeEntries fuel id rest
    | _ => takeEntries fuel id rest

/-- The entries of several mappings, those of the last one first. -/
def takeLists (fuel : Nat) : List NodeId → Valued (List (NodeId × NodeId))
  | [] => pure []
  | id :: ids => do
    match ← node id with
    | .mapping _ _ => merge fuel id
    | _ => unreadable
    let own := (← node id).entries
    let others ← takeLists fuel ids
    pure (others ++ own)

end

/-- The entries of a mapping after merging. -/
def mergedEntries (id : NodeId) : Valued (List (NodeId × NodeId)) := do
  let nodes := (← get).nodes
  merge (nodes.foldl (fun count n => count + n.entries.length) 1) id
  return (← node id).entries

/-- Meets the two nodes of an entry; the key has to be a scalar. A later value takes the place of an
earlier one. -/
def addEntry (read : Entries Scalar NodeId) (entry : NodeId × NodeId) :
    Valued (Entries Scalar NodeId) := do
  match ← meet entry.1 with
  | none => unreadable
  | some key =>
    let _ ← meet entry.2
    pure (read.put key entry.2)

/-! ### Collections -/

/-- The only entry of a node that stands for a pair. -/
def pairOf (id : NodeId) : Valued (NodeId × NodeId) := do
  match ← node id with
  | .mapping _ [(k, v)] =>
    let _ ← meet k
    let _ ← meet v
    pure (k, v)
  | _ => unreadable

/-- Fills a collection, which meets the nodes in it. -/
def fill (id : NodeId) : Valued Unit := do
  let n ← node id
  match n, n.type? with
  | .sequence _ items, some .sequence =>
    items.forM fun i => do let _ ← meet i
    setContent id (.list items)
  | .sequence _ items, some .pairs =>
    let entries ← items.mapM pairOf
    setContent id (.pairs entries)
  | .mapping _ _, some .mapping =>
    let entries ← (← mergedEntries id).foldlM addEntry []
    setContent id (.mapping entries)
  | .mapping _ _, some .set =>
    let entries ← (← mergedEntries id).foldlM addEntry []
    setContent id (.set entries.keys)
  | _, _ => unreadable

/-- Fills all collections that wait, up to a number of them. -/
def fillAll : Nat → Valued Unit
  | 0 => unreadable
  | fuel + 1 => do
    match (← get).pending with
    | [] => pure ()
    | id :: rest =>
      modify fun v => { v with pending := rest }
      fill id
      fillAll fuel

/-- Reads all nodes that can be reached from `root`. Each of them waits at most once. -/
def all (root : NodeId) : Valued Unit := do
  let _ ← meet root
  fillAll ((← get).nodes.size + 1)

end Valued

/-! ### Values -/

namespace Content

/-- A value with the word whether it holds a node of those around it. -/
structure Part where
  value : Datum
  isOpen : Bool

/-- The value of a node, with the values that are known already. `under` are the nodes around it; a node
that holds itself is followed twice, and then cut off as an empty collection. -/
def value (contents : Array (Option Content)) :
    Nat → List NodeId → NodeId → StateM (Array (Option Datum)) Part
  | 0, _, _ => pure ⟨.null, true⟩
  | fuel + 1, under, id => do
    let mark := id + 1
    match (← get).getD id none, contents.getD id none with
    | some d, _ => pure ⟨d, false⟩
    | none, none => pure ⟨.null, false⟩
    | none, some (.scalar s) => pure ⟨.scalar s, false⟩
    | none, some c =>
      let part (i : NodeId) := value contents fuel (id :: under) i
      let isCut := 1 < under.count id
      let (d, isOpen) ←
        match c with
        | .scalar s => pure (.scalar s, false)
        | .set items => pure (.set items mark, false)
        | .list items => do
          let parts ← if isCut then pure [] else items.mapM part
          pure (.list (parts.map (·.value)) mark, parts.any (·.isOpen))
        | .mapping entries => do
          let parts ←
            if isCut then pure [] else entries.mapM fun (k, i) => do pure (k, ← part i)
          pure (.mapping (parts.map fun (k, p) => (k, p.value)) mark, parts.any (·.2.isOpen))
        | .pairs entries => do
          let parts ←
            if isCut then pure [] else entries.mapM fun (i, j) => do pure (← part i, ← part j)
          pure
            (.list (parts.map fun (p, q) => .pair p.value q.value) mark,
              parts.any fun (p, q) => p.isOpen || q.isOpen)
      let isOpen := isOpen || under.contains id
      if !isOpen then modify fun known => known.setIfInBounds id (some d)
      pure ⟨d, isOpen⟩

end Content

/-- The value of a document. No way through its nodes is longer than twice their number. -/
def Graph.value (g : Graph) : Except Failure Datum := do
  let size := g.nodes.size
  let (_, values) ← (Valued.all g.root).run { nodes := g.nodes, contents := Array.replicate size none }
  let known := Array.replicate size none
  .ok ((Content.value values.contents (2 * size + 2) [] g.root).run known).1.value

/-- The value that a text writes; an empty one writes nothing. -/
def read (text : String) : Except Failure Datum :=
  match Graph.ofText text with
  | .ok (some g) => g.value
  | .ok none => .ok .null
  | .error .form => .error (.schema .unreadable)
  | .error (.code n) => .error (if n < 0x80000000 then .value .noCharacter else .overflow)

end RestconfApi.Yaml
