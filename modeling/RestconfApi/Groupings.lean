import RestconfApi.Logged
import RestconfApi.Schema.Place

/-!
# Groupings: names and ancestry

Every grouping of a schema with the name of its definition and the groupings it uses. A local name
that belongs to several groupings is qualified for all of them.
-/

namespace RestconfApi

/-- The groupings by qualified name: their display names, and for each the groupings that the
grouping statement itself uses. -/
structure Groupings where
  names : Entries String Name
  parents : Entries String (List String)

namespace Groupings

/-- The display name of a grouping among all groupings. -/
def displayNameIn (all : List Place) (g : Place) : Name :=
  let namesakes := (all.filter fun h => h.node.name == g.node.name).map (·.node.qname)
  if (Text.distinct namesakes).length < 2 then g.node.name else .text g.node.qname

def namesOf (s : Schema) : Entries String Name :=
  Entries.ofList (s.groupings.map fun g => (g.node.qname, displayNameIn s.groupings g))

/-- Records that the grouping `qname` uses what `ref` means in the module `owner`. -/
def addUse (s : Schema) (qname : String) (owner : Name) (parents : Entries String (List String))
    (ref : String) : Logged (Entries String (List String)) :=
  match s.grouping? ref owner with
  | some target =>
    let known := (parents.get? qname).getD []
    let used := target.node.qname
    pure (parents.put qname (if used ∈ known then known else known ++ [used]))
  | none => do
    let problem := "Hierarchy creation problem. No grouping with name " ++ ref
    Logged.write .warning (problem ++ " found. Ignoring hierarchy relation.")
    pure parents

/-- The groupings of a schema, whose names have to be keys. -/
def ofSchema (s : Schema) : Logged Groupings := do
  s.groupings.forM fun g => do let _ ← Logged.ofExcept g.node.name.key?
  let start := Entries.ofList (s.groupings.map fun g => (g.node.qname, ([] : List String)))
  let parents ← s.groupings.foldlM
    (fun parents g => g.node.uses.foldlM (addUse s g.node.qname g.node.owner) parents) start
  pure ⟨namesOf s, parents⟩

variable (g : Groupings)

/-- The name of a grouping's definition; an unknown name stands for itself. -/
def displayName (qname : String) : Name := (g.names.get? qname).getD (.text qname)

/-- The groupings that the grouping `qname` uses, in order of first use. -/
def usedBy (qname : String) : List String := (g.parents.get? qname).getD []

def parentsOf (qname : String) : List String := Text.sorted (g.usedBy qname)

/-- Searches for `candidate` among what can be reached from the pending names. -/
def reaches (candidate : String) : Nat → List String → List String → Bool
  | 0, _, _ => false
  | _, _, [] => false
  | fuel + 1, visited, name :: pending =>
    if name = candidate then true
    else if name ∈ visited then reaches candidate fuel visited pending
    else reaches candidate fuel (name :: visited) (g.usedBy name ++ pending)

/-- More than the number of names that a search can have pending in all. -/
def searchBound : Nat :=
  2 * g.parents.foldl (fun n (_, used) => n + used.length) 0 + 1

/-- Whether the grouping `qname` uses `candidate`, directly or through other groupings. -/
def isAncestorOf (candidate qname : String) : Logged Bool :=
  match g.parents.get? qname with
  | some used => pure (g.reaches candidate g.searchBound [qname] used)
  | none => do
    Logged.write .warning s!"Node not found for name {qname}"
    pure false

end Groupings

end RestconfApi
