import RestconfApi.Logged
import RestconfApi.Swagger.References

/-!
# Swagger: folding of aliases

A definition that adds nothing to a single parent definition is removed and all references to it are
pointed at the parent. Folding goes on until no such definition is left; definitions that alias each
other in a circle stay.
-/

namespace RestconfApi

/-- Each alias with the definition it stands for. -/
abbrev Aliases := Entries Scalar Name

namespace Aliases

/-- What a name stands for, if it is an alias. -/
def next? (r : Aliases) (name : Name) : Option Name := name.asKey?.bind r.get?

/-- Follows the aliases from a name. `seen` are the names on the way so far; a name met again ends the
way. -/
def follow (r : Aliases) : Nat → List Name → Name → Name
  | 0, _, name => name
  | fuel + 1, seen, name =>
    if seen.contains name then name
    else
      match r.next? name with
      | some next => follow r fuel (name :: seen) next
      | none => name

/-- What a name finally stands for. -/
def resolve (r : Aliases) (name : Name) : Name := follow r (r.length + 1) [] name

/-- The aliases that stand for an alias again: their way runs into a circle. -/
def circular (r : Aliases) : List Scalar :=
  r.keys.filter fun name => (r.next? (r.resolve (.scalar name))).isSome

end Aliases

/-- The name that a model is a reference to. -/
def Model.reference? : Model → Option Name
  | .reference name => some name
  | _ => none

def Model.isFieldless : Model → Bool
  | .object o => o.properties.isEmpty
  | _ => false

/-- The definition that a model adds nothing to. -/
def Model.singleParent? : Model → Option Name
  | .reference name => some name
  | .composed parts _ =>
    match parts.filterMap reference? with
    | [name] => if (parts.filter (·.reference?.isNone)).all isFieldless then some name else none
    | _ => none
  | .object _ => none

namespace Document

variable (d : Document)

def hasDefinition (name : Name) : Bool := name.asKey?.any d.definitions.keys.contains

/-- The definitions that only stand for another one of the document. -/
def aliases : Aliases :=
  d.definitions.filterMap fun (name, m) =>
    match m.singleParent? with
    | some parent =>
      if !parent.isNull && !(parent == .scalar name) && d.hasDefinition parent then some (name, parent)
      else none
    | none => none

/-- The document without some aliases, their names replaced everywhere. -/
def replace (r : Aliases) : Document :=
  let d := d.mapRefs r.resolve
  { d with definitions := d.definitions.filter fun (name, _) => !r.keys.contains name }

/-- The aliases that are folded: those that run into no circle. -/
def foldable : Aliases :=
  let all := d.aliases
  let kept := all.circular
  all.filter fun (name, _) => !kept.contains name

/-- Reports the aliases that stay. -/
def foldWarnings : List Record :=
  let all := d.aliases
  all.circular.map fun name =>
    let parent := ((all.get? name).getD .null).wording
    ⟨.warning, s!"Definition {name.wording} aliases itself through {parent}, keeping it"⟩

/-- Folds up to a number of times, and reports what it does. -/
def foldFrom : Nat → Document → Document × List Record
  | 0, d => (d, [])
  | fuel + 1, d =>
    let folded := d.foldable
    if folded.isEmpty then (d, d.foldWarnings)
    else
      let notes := folded.map fun (name, parent) =>
        ⟨.debug, s!"Replacing empty definition {name.wording} with {parent.wording}"⟩
      let (folded, more) := foldFrom fuel (d.replace folded)
      (folded, d.foldWarnings ++ notes ++ more)

/-- The document with all aliases folded. Each time at least one definition goes, so that there are no
more times than definitions. -/
def foldAliases : Document × List Record := foldFrom (d.definitions.length + 1) d

/-- Whether a definition stands for one whose name is no key. -/
def hasUnkeyedParent : Bool :=
  d.definitions.any fun (_, m) => m.singleParent?.any (·.asKey?.isNone)

/-- The document with all aliases folded, if its references are keys or none of them is looked at. -/
def foldAliases? : Logged Document :=
  if d.hasKeyedRefs then
    let (folded, records) := d.foldAliases
    ⟨records, .ok folded⟩
  else if d.hasUnkeyedParent then Logged.fail .wrongType
  else ⟨d.foldWarnings, if d.foldable.isEmpty then .ok d else .error .wrongType⟩

end Document

end RestconfApi
