import RestconfApi.Schema.Typing
import RestconfApi.Swagger.Basic

/-!
# Definitions: properties of leaves

The property of a leaf or a leaf-list has the type of the leaf that it finally points at. The path of a
leafref is kept in the extension `x-path`.
-/

namespace RestconfApi.Schema

variable (s : Schema)

/-- A leafref in the body of a grouping may only resolve where the grouping is used; there it counts as
`string`. -/
def concreteOrString (p : Place) (t : LeafType) : Logged Resolved :=
  tryCatch (s.concrete p t) fun e =>
    match e with
    | .leafref _ =>
      if p.inGrouping then do
        Logged.write .warning
          s!"Cannot resolve leafref {p.schemaPath} inside grouping, using string"
        pure (string [])
      else Logged.fail e
    | _ => Logged.fail e

/-- The property of a typed node. -/
def leafProperty (p : Place) : Logged Property :=
  match p.node.type with
  | none => Logged.fail (.leafref (.untyped p.schemaPath))
  | some t => do
    let reference ← s.effective t p.node.typedefOwner
    let r ← s.concreteOrString p t
    let (type, format) := (builtin? r.type.name).getD ("string", none)
    let value : Property :=
      { type := .text type, format := .ofText? format, enum := r.enum.map Datum.text }
    let property : Property :=
      if p.node.kind = .leafList then { type := .text "array", items := some value } else value
    pure
      { property with
        extensions := if reference.type.isLeafref then [(.text "x-path", reference.type.path)] else []
        description := p.node.description
        readOnly := !p.node.config }

end RestconfApi.Schema
