import RestconfApi.Definitions.Basic

/-!
# Definitions: usage of groupings

Before any definition is built, the declared uses of groupings in the selected modules and in all
grouping bodies are counted, and the copies in the selected modules recorded.
-/

namespace RestconfApi.Definitions

variable (s : Schema)

/-- Counts the uses that a node declares itself; copies declare none. -/
def countUses (d : Definitions) (p : Place) : Definitions :=
  if p.node.template.isSome then d
  else
    p.node.uses.foldl
      (fun d ref =>
        match s.grouping? ref p.node.owner with
        | some g =>
          let qname := g.node.qname
          { d with usages := d.usages.put qname (d.usageCount qname + 1) }
        | none => d) d

/-- Records a copy with each of its templates. -/
def recordCopy (inPayload : Bool) (d : Definitions) (p : Place) : Definitions :=
  (s.templates p).foldl
    (fun d template =>
      if inPayload then { d with payload := d.payload ++ [template.address] }
      else { d with copies := d.copies ++ [(template.address, p)] }) d

/-- Counts the uses in all grouping bodies, the first time only. -/
def countBodies (d : Definitions) : Definitions :=
  if d.bodiesCounted then d
  else { (s.groupings.flatMap Place.nodes).foldl (countUses s) d with bodiesCounted := true }

def processTree (d : Definitions) (top : Place) : Definitions :=
  top.nodes.foldl
    (fun d p => recordCopy s (top.node.kind = .rpc) (countUses s d p) p) d

/-- Counts and records what the `i`-th module holds. Its name has to be a key. -/
def processModule (i : Nat) : Building Unit := do
  match s.modules[i]? with
  | none => pure ()
  | some m =>
    modify (countBodies s)
    match m.name.asKey? with
    | none => Building.fail .wrongType
    | some _ =>
      modify fun d =>
        let processed := if d.processed.contains m.name then d.processed else d.processed ++ [m.name]
        (s.tops i .data ++ s.tops i .rpcs).foldl (processTree s) { d with processed }

end RestconfApi.Definitions
