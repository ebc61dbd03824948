import RestconfApi.Entries
import RestconfApi.Yaml.Token

/-!
# YAML: nodes

The nodes of a document: scalars, sequences and mappings with their tags, in a table in which collections
name their nodes by number. A reference to an anchored node names the node itself, so that a node may be
met at many places and may even hold itself.
-/

namespace RestconfApi.Yaml

/-- The tag of a node: written out, or left to the form of a scalar if it is plain. -/
inductive Tag where
  | named (uri : String)
  | plain
  | quoted
deriving DecidableEq, Repr

/-- The number of a node in the table of its document. -/
abbrev NodeId := Nat

inductive Node where
  | scalar (tag : Tag) (text : String)
  | sequence (tag : Tag) (items : List NodeId)
  | mapping (tag : Tag) (entries : List (NodeId × NodeId))
deriving Repr

namespace Node

/-- The node that stands where nothing is written. -/
def empty : Node := .scalar .plain ""

instance : Inhabited Node := ⟨empty⟩

end Node

/-- A document: the table of its nodes and the number of the outermost one. -/
structure Graph where
  nodes : Array Node
  root : NodeId

/-- Where a document is read: the tokens to come and the fault that ends them early, what the tag handles
mean, the nodes so far and the anchored ones among them. -/
structure Reading where
  tokens : List Token
  fault : Option LexemeFault := none
  handles : Entries String String := []
  nodes : Array Node := #[]
  anchors : Entries String NodeId := []

abbrev Reads (α : Type) := StateT Reading (Except LexemeFault) α

namespace Reads

def fail {α : Type} : Reads α := throw .form

/-- The next token, if there is one; a fault shows only when all tokens before it are taken. -/
def peek? : Reads (Option Token) := do
  let r ← get
  match r.tokens.head?, r.fault with
  | none, some fault => throw fault
  | t, _ => pure t

def drop : Reads Unit := modify fun r => { r with tokens := r.tokens.tail }

/-- Takes a token if it is the next one. -/
def takes (t : Token) : Reads Bool := do
  if (← peek?) = some t then
    drop
    pure true
  else pure false

/-- Takes a token that has to be the next one. -/
def expect (t : Token) : Reads Unit := do
  if !(← takes t) then fail

/-! ### Properties of nodes -/

def anchor? : Reads (Option String) := do
  match ← peek? with
  | some (.anchor name) =>
    drop
    pure (some name)
  | _ => pure none

def tag? : Reads (Option (Option String × String)) := do
  match ← peek? with
  | some (.tag handle suffix) =>
    drop
    pure (some (handle, suffix))
  | _ => pure none

/-- A tag in full; its handle must be known. -/
def fullTag : Option String × String → Reads String
  | (none, suffix) => pure suffix
  | (some handle, suffix) => do
    match (← get).handles.get? handle with
    | some meaning => pure (meaning ++ suffix)
    | none => fail

/-- Anchor and tag, in either order. -/
def properties : Reads (Option String × Option String) := do
  match ← anchor? with
  | some name =>
    let tag ← tag?
    pure (some name, ← tag.mapM fullTag)
  | none =>
    let tag ← tag?
    let name ← if tag.isSome then anchor? else pure none
    pure (name, ← tag.mapM fullTag)

/-- The tag of a scalar. An exclamation mark alone leaves it to the form as if it were plain. -/
def scalarTag (tag : Option String) (isPlain : Bool) : Tag :=
  match tag with
  | some "!" => .plain
  | some uri => .named uri
  | none => if isPlain then .plain else .quoted

def collectionTag : Option String → Tag
  | some "!" | none => .plain
  | some uri => .named uri

/-- Gives a node a number. -/
def add (n : Node) : Reads NodeId := do
  let id := (← get).nodes.size
  modify fun r => { r with nodes := r.nodes.push n }
  pure id

/-- Reads a node that has its number, and its anchor if any, before what it holds is read. The anchor must
be new. -/
def anchored (name : Option String) (x : Reads Node) : Reads NodeId := do
  let id ← add .empty
  match name with
  | none => pure ()
  | some name =>
    if ((← get).anchors.get? name).isSome then fail
    modify fun r => { r with anchors := r.anchors.put name id }
  let n ← x
  modify fun r => { r with nodes := r.nodes.setIfInBounds id n }
  pure id

/-- The node that an anchor stands for. -/
def anchoredNode (name : String) : Reads NodeId := do
  match (← get).anchors.get? name with
  | some id => pure id
  | none => fail

/-- A node of which nothing but anchor or tag is written. -/
def bare (isAnchored : Bool) (tag : Option String) : Reads Node := do
  if isAnchored || tag.isSome then pure (.scalar (scalarTag tag true) "") else fail

/-! ### Nodes -/

/-- Where a node stands: whether blocks may start there, and whether the items of a sequence may stand
there without a block of their own. -/
structure Spot where
  inBlock : Bool
  takesItems : Bool

def inFlow : Spot := ⟨false, false⟩

def inBlock : Spot := ⟨true, false⟩

def afterKey : Spot := ⟨true, true⟩

mutual

/-- Reads a node; the number bounds how deep nodes stand in each other. -/
def node : Nat → Spot → Reads NodeId
  | 0, _ => fail
  | fuel + 1, spot => do
    match ← peek? with
    | some (.reference name) =>
      drop
      anchoredNode name
    | _ =>
      let (name, tag) ← properties
      let _ ← peek?
      anchored name (content fuel spot name.isSome tag)

def content : Nat → Spot → Bool → Option String → Reads Node
  | 0, _, _, _ => fail
  | fuel + 1, spot, isAnchored, tag => do
    match ← peek? with
    | some (.scalar text isPlain) =>
      drop
      pure (.scalar (scalarTag tag isPlain) text)
    | some .flowSequence =>
      drop
      .sequence (collectionTag tag) <$> flowItems fuel true
    | some .flowMapping =>
      drop
      .mapping (collectionTag tag) <$> flowEntries fuel true
    | some .blockSequence =>
      if spot.inBlock then
        drop
        .sequence (collectionTag tag) <$> blockItems fuel
      else bare isAnchored tag
    | some .blockMapping =>
      if spot.inBlock then
        drop
        .mapping (collectionTag tag) <$> blockEntries fuel
      else bare isAnchored tag
    | some .item =>
      if spot.takesItems then .sequence (collectionTag tag) <$> looseItems fuel
      else bare isAnchored tag
    | _ => bare isAnchored tag

/-- The node before one of the given tokens, empty if one of them follows at once. -/
def nodeBefore : Nat → Spot → List Token → Reads NodeId
  | 0, _, _ => fail
  | fuel + 1, spot, ts => do
    match ← peek? with
    | some t => if ts.contains t then add .empty else node fuel spot
    | none => node fuel spot

/-- The items of a block sequence. -/
def blockItems : Nat → Reads (List NodeId)
  | 0 => fail
  | fuel + 1 => do
    if ← takes .item then
      let n ← nodeBefore fuel inBlock [.item, .blockEnd]
      let ns ← blockItems fuel
      pure (n :: ns)
    else
      expect .blockEnd
      pure []

/-- The items of a sequence that stands no deeper than its key. -/
def looseItems : Nat → Reads (List NodeId)
  | 0 => fail
  | fuel + 1 => do
    if ← takes .item then
      let n ← nodeBefore fuel inBlock [.item, .key, .value, .blockEnd]
      let ns ← looseItems fuel
      pure (n :: ns)
    else pure []

/-- The value of an entry, empty if there is no colon. -/
def valueBefore : Nat → Spot → List Token → Reads NodeId
  | 0, _, _ => fail
  | fuel + 1, spot, ts => do
    if ← takes .value then nodeBefore fuel spot ts else add .empty

/-- The entries of a block mapping. -/
def blockEntries : Nat → Reads (List (NodeId × NodeId))
  | 0 => fail
  | fuel + 1 => do
    if ← takes .key then
      let ends := [.key, .value, .blockEnd]
      let k ← nodeBefore fuel afterKey ends
      let v ← valueBefore fuel afterKey ends
      let rest ← blockEntries fuel
      pure ((k, v) :: rest)
    else
      expect .blockEnd
      pure []

/-- The items of a sequence in brackets. An item may be a single entry of a mapping. -/
def flowItems : Nat → Bool → Reads (List NodeId)
  | 0, _ => fail
  | fuel + 1, isFirst => do
    if ← takes .flowSequenceEnd then pure []
    else
      if !isFirst then expect .entry
      if ← takes .key then
        let ends := [.entry, .flowSequenceEnd]
        let k ← nodeBefore fuel inFlow (.value :: ends)
        let v ← valueBefore fuel inFlow ends
        let n ← add (.mapping .plain [(k, v)])
        let ns ← flowItems fuel false
        pure (n :: ns)
      else if ← takes .flowSequenceEnd then pure []
      else
        let n ← node fuel inFlow
        let ns ← flowItems fuel false
        pure (n :: ns)

/-- The entries of a mapping in braces. A node without a mark before it is a key without a value. -/
def flowEntries : Nat → Bool → Reads (List (NodeId × NodeId))
  | 0, _ => fail
  | fuel + 1, isFirst => do
    if ← takes .flowMappingEnd then pure []
    else
      if !isFirst then expect .entry
      if ← takes .key then
        let ends := [.entry, .flowMappingEnd]
        let k ← nodeBefore fuel inFlow (.value :: ends)
        let v ← valueBefore fuel inFlow ends
        let rest ← flowEntries fuel false
        pure ((k, v) :: rest)
      else if ← takes .flowMappingEnd then pure []
      else
        let k ← node fuel inFlow
        let v ← add .empty
        let rest ← flowEntries fuel false
        pure ((k, v) :: rest)

end

/-! ### Documents -/

/-- Takes the directives before a document. The version may be given once and has to be 1; a handle may
be declared once. -/
def directives : Nat → Bool → Reads Unit
  | 0, _ => fail
  | fuel + 1, hasVersion => do
    match ← peek? with
    | some (.directive d) =>
      drop
      match d with
      | .version major => if hasVersion || major ≠ 1 then fail else directives fuel true
      | .handle name meaning =>
        if ((← get).handles.get? name).isSome then fail
        modify fun r => { r with handles := r.handles.put name meaning }
        directives fuel hasVersion
      | .other => directives fuel hasVersion
    | _ => pure ()

/-- The handles that need no declaration. -/
def knownHandles : Entries String String := [("!", "!"), ("!!", "tag:yaml.org,2002:")]

def addKnownHandles : Reads Unit :=
  modify fun r =>
    { r with
      handles := r.handles ++ knownHandles.filter fun (name, _) => (r.handles.get? name).isNone }

def skipEnds : Nat → Reads Unit
  | 0 => fail
  | fuel + 1 => do if ← takes .documentEnd then skipEnds fuel

/-- Whether the content of a document is missing. -/
def isBlank : Reads Bool := do
  match ← peek? with
  | none | some .documentStart | some .documentEnd | some (.directive _) => pure true
  | _ => pure false

/-- The only document of a text, if there is one. -/
def document (fuel : Nat) : Reads (Option NodeId) := do
  match ← peek? with
  | none => pure none
  | some t => do
    let isMarked :=
      match t with
      | .directive _ | .documentStart => true
      | _ => false
    if isMarked then
      directives fuel false
      expect .documentStart
    addKnownHandles
    let n ← if isMarked && (← isBlank) then add .empty else node fuel inBlock
    skipEnds fuel
    if (← peek?).isNone then pure (some n)
    else
      modify fun r => { r with handles := [] }
      directives fuel false
      fail

end Reads

/-- The document that a text holds, none if it is empty. -/
def Graph.ofText (text : String) : Except LexemeFault (Option Graph) := do
  let (ts, fault) := tokens text
  let (root, r) ← (Reads.document (4 * ts.length + 4)).run { tokens := ts, fault }
  .ok (root.map fun root => ⟨r.nodes, root⟩)

end RestconfApi.Yaml
