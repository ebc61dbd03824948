import RestconfApi.Logged
import RestconfApi.Schema.Declaration
import RestconfApi.Schema.Place

/-!
# Schema: expansion of uses statements and augments

A node that uses a grouping gets a copy of every node of the grouping's expanded body, after its own
children and in the order of its `uses`. Groupings are expanded once, on first use; a grouping met
again while it is being expanded is an error. Augments come after all expansions.
-/

namespace RestconfApi.Expansion

/-- The groupings expanded so far, by address. -/
abbrev Expanded := Entries Address Node

abbrev Expanding (α : Type) := StateT Expanded Logged α

def fail {α : Type} (e : Failure) : Expanding α := fun _ => Logged.fail e

/-- What a `uses` of the statement adds: copies of the body of its grouping, nothing when there is no
such grouping. `supply` gives the expanded grouping. -/
def supplied (schema : Schema) (supply : Place → Expanding Node) (path : List String) (s : Statement)
    (ref : String) : Expanding (List Node) :=
  match schema.grouping? ref s.owner with
  | none => do
    let site := "/" ++ Text.join "/" path
    Logged.write .warning s!"No grouping named {ref} found for {site}. Ignoring uses statement."
    pure []
  | some g => do
    let body ← supply g
    let qname := g.node.qname
    let copies := Node.copyAllFor s.owner qname g.address 0 body.children
    pure (copies.map fun n => { n with addedBy := some qname })

mutual

/-- A node with all `uses` in it expanded; `above` holds the qualified names around it. -/
def node (schema : Schema) (supply : Place → Expanding Node) (above : List String) :
    Node → Expanding Node
  | ⟨s, cs⟩ => do
    let path := above ++ [s.qname]
    let children ← nodes schema supply path cs
    let copies ← s.uses.mapM (supplied schema supply path s)
    pure ⟨s, children ++ copies.flatten⟩

def nodes (schema : Schema) (supply : Place → Expanding Node) (above : List String) :
    List Node → Expanding (List Node)
  | [] => pure []
  | n :: ns => do
    let n ← node schema supply above n
    let ns ← nodes schema supply above ns
    pure (n :: ns)

end

/-- The expanded grouping at a place. `under` holds the groupings that are being expanded, whose
number is less than the first argument. -/
def grouping (schema : Schema) : Nat → List String → Place → Expanding Node
  | 0, under, p => fail (.schema (.circular (under ++ [p.node.qname])))
  | fuel + 1, under, p => do
    match (← get).get? p.address with
    | some n => pure n
    | none =>
      let qname := p.node.qname
      if qname ∈ under then fail (.schema (.circular (under ++ [qname])))
      else
        let n ← node schema (grouping schema fuel (under ++ [qname])) [] p.node
        modify (Entries.put p.address n)
        pure n

/-- Gives the expanded grouping at a place, with fuel for every grouping to be under expansion. -/
def supply (schema : Schema) : Place → Expanding Node :=
  grouping schema (schema.groupings.length + 1) []

/-- The `i`-th module with its groupings, its data nodes and its rpcs expanded. -/
def module (schema : Schema) (m : Module) (i : Nat) : Expanding Module := do
  let groupings ← (schema.tops i .groupings).mapM (supply schema)
  let data ← nodes schema (supply schema) [] m.data
  let rpcs ← nodes schema (supply schema) [] m.rpcs
  pure { m with groupings, data, rpcs }

/-- Adds the expanded nodes of an augment below its target; `declared` is the schema before all
expansions. -/
def augment (declared : Schema) (schema : Schema) (a : Declaration.Augment) : Expanding Schema := do
  match a.target.asText? with
  | none => fail .wrongType
  | some target =>
    let owner := a.owner.wording
    match schema.node? target none with
    | none => fail (.schema (.lostTarget target owner))
    | some p =>
      let added ← nodes declared (supply declared) [] a.nodes
      let count := a.nodes.length
      Logged.write .debug s!"module {owner} augments {p.schemaPath} with {count} nodes"
      pure (schema.appendAt p.address added)

/-- All modules expanded in their order, and then the augments applied in theirs. -/
def schema (declared : Schema) (augments : List Declaration.Augment) : Logged Schema := do
  let run : Expanding Schema := do
    let modules ← declared.modules.zipIdx.mapM fun (m, i) => module declared m i
    augments.foldlM (augment declared) ⟨modules⟩
  let (s, _) ← run []
  pure s

end RestconfApi.Expansion
