import RestconfApi.Datum.Literal
import RestconfApi.Entries
import RestconfApi.Schema.Kind

/-!
# Schema: statements, nodes and modules

The validated schema tree. A node is a statement with its children; nodes are told apart by their
address, the way to them from the top of a module, and a node copied out of a grouping knows the
address of the node it was copied from.
-/

namespace RestconfApi

/-- The declared type of a leaf: a built-in type or a typedef, the path of a leafref and the values of
an enumeration. -/
structure LeafType where
  name : Name
  path : Datum := .null
  enum : List String := []
deriving Repr

namespace LeafType

def isLeafref (t : LeafType) : Bool := t.name == .text "leafref"

/-- The path of a leafref, empty if none is given. -/
def target (t : LeafType) : Datum := if t.path.holds then t.path else .text ""

end LeafType

/-- The three lists of statements of a module. -/
inductive Part where
  | data
  | rpcs
  | groupings
deriving DecidableEq, Repr

/-- The way to a node: the position of the module, the part of it, and the positions from the top
statement down. -/
structure Address where
  module : Nat
  part : Part
  path : List Nat
deriving DecidableEq, Repr

namespace Address

/-- The address above all top statements of a part. -/
def top (m : Nat) (part : Part) : Address := ⟨m, part, []⟩

def child (a : Address) (i : Nat) : Address := { a with path := a.path ++ [i] }

end Address

/-- What a node says apart from its children. `owner` is the module that owns it, `declaredConfig` the
config flag written on it or on the node it was copied from, `addedBy` the grouping that supplied it to
its parent, `source` the grouping whose expansion made the copy, `template` the node it is a copy of,
and `typeOwner` the module whose typedefs its type means when that is not the owner. -/
structure Statement where
  kind : Kind
  name : Name
  owner : Name
  config : Bool := true
  declaredConfig : Option Bool := none
  description : Datum := .null
  keys : List String := []
  type : Option LeafType := none
  mandatory : Bool := false
  uses : List String := []
  addedBy : Option String := none
  source : Option String := none
  template : Option Address := none
  typeOwner : Datum := .null
deriving Repr

namespace Statement

/-- The name qualified by the module that owns the statement. -/
def qname (s : Statement) : String := s.owner.wording ++ ":" ++ s.name.wording

/-- The module whose typedefs the type of the statement refers to. -/
def typedefOwner (s : Statement) : Name := if s.typeOwner.holds then s.typeOwner else s.owner

end Statement

structure Node extends Statement where
  children : List Node := []
deriving Repr

namespace Node

mutual

/-- The number of nodes of a tree. -/
def size : Node → Nat
  | ⟨_, cs⟩ => sizeAll cs + 1

def sizeAll : List Node → Nat
  | [] => 0
  | n :: ns => size n + sizeAll ns

end

mutual

/-- Changes the statement of every node of a tree. -/
def mapStatements (f : Statement → Statement) : Node → Node
  | ⟨s, cs⟩ => ⟨f s, mapStatementsAll f cs⟩

def mapStatementsAll (f : Statement → Statement) : List Node → List Node
  | [] => []
  | n :: ns => mapStatements f n :: mapStatementsAll f ns

end

mutual

/-- The copy of the node at `a` that the expansion of `source` makes for the module `owner`. -/
def copyFor (owner : Name) (source : String) (a : Address) : Node → Node
  | ⟨s, cs⟩ =>
    ⟨{ s with owner, source := some source, template := some a, typeOwner := s.typedefOwner },
      copyAllFor owner source a 0 cs⟩

/-- The copies of the children of the node at `a`, from the `i`-th on. -/
def copyAllFor (owner : Name) (source : String) (a : Address) (i : Nat) : List Node → List Node
  | [] => []
  | n :: ns => copyFor owner source (a.child i) n :: copyAllFor owner source a (i + 1) ns

end

/-- Adds children below the node that the positions lead to. -/
def appendAt (added : List Node) : List Nat → Node → Node
  | [], n => { n with children := n.children ++ added }
  | i :: is, n => { n with children := n.children.modify i (appendAt added is) }

end Node

/-- A module with its statements. A retired module's groupings are no longer found by name. -/
structure Module where
  name : Name
  shortName : Name
  uri : Datum := .null
  revision : Datum := .null
  description : Datum := .null
  data : List Node := []
  rpcs : List Node := []
  groupings : List Node := []
  typedefs : Entries Scalar LeafType := []
  retired : Bool := false

namespace Module

def part (m : Module) : Part → List Node
  | .data => m.data
  | .rpcs => m.rpcs
  | .groupings => m.groupings

def mapPart (f : List Node → List Node) (m : Module) : Part → Module
  | .data => { m with data := f m.data }
  | .rpcs => { m with rpcs := f m.rpcs }
  | .groupings => { m with groupings := f m.groupings }

/-- The groupings that can be found by name. -/
def listed (m : Module) : List Node := if m.retired then [] else m.groupings

end Module

/-- All modules that can be referred to, also those for which nothing is generated. -/
structure Schema where
  modules : List Module := []

namespace Schema

def size (s : Schema) : Nat :=
  s.modules.foldl
    (fun n m => n + Node.sizeAll m.data + Node.sizeAll m.rpcs + Node.sizeAll m.groupings) 0

/-- Adds children below the node at an address. -/
def appendAt (a : Address) (added : List Node) (s : Schema) : Schema :=
  match a.path with
  | [] => s
  | i :: is =>
    { s with
      modules := s.modules.modify a.module fun m =>
        m.mapPart (fun ns => ns.modify i (Node.appendAt added is)) a.part }

/-- Takes the groupings of the `i`-th module out of all look-ups. -/
def retire (i : Nat) (s : Schema) : Schema :=
  { s with modules := s.modules.modify i fun m => { m with retired := true } }

end Schema

end RestconfApi
