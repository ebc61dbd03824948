import RestconfApi.Schema.Place

/-!
# Schema: provenance of copies

The chain of templates behind a node and the groupings that supplied it to its parent.
-/

namespace RestconfApi.Schema

variable (s : Schema)

/-- The templates behind a node, up to a number of them. -/
def templatesFrom : Nat → Place → List Place
  | 0, _ => []
  | fuel + 1, p =>
    match p.node.template.bind s.place? with
    | some t => t :: templatesFrom fuel t
    | none => []

/-- The node that a copy was made from, the node that one was made from, and so on. No chain without
repetition is longer than the schema. -/
def templates (p : Place) : List Place := s.templatesFrom s.size p

/-- The groupings that supplied a node to its parent, the outermost first: a node that came from `G`,
where `G` itself had it from `H`, yields `[G, H]`. -/
def supplierChain (p : Place) : List String :=
  ((p :: s.templates p).map (·.node.addedBy)).takeWhile (·.isSome) |>.filterMap id

end RestconfApi.Schema
