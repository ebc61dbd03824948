import RestconfApi.Logged
import RestconfApi.Schema.Place

/-!
# Schema: types of leaves

Typedefs are followed to a built-in type, and leafrefs to the leaf they finally point at. A type that
no typedef explains, or that is its own explanation, counts as `string`.
-/

namespace RestconfApi

/-- The built-in types with the type and the format they have in a Swagger document. -/
def builtinTypes : List (String × String × Option String) := [
  ("int8", "integer", some "int32"),
  ("int16", "integer", some "int32"),
  ("int32", "integer", some "int32"),
  ("uint8", "integer", some "int32"),
  ("uint16", "integer", some "int32"),
  ("int64", "integer", some "int64"),
  ("uint32", "integer", some "int64"),
  ("uint64", "integer", some "int64"),
  ("decimal64", "number", some "double"),
  ("boolean", "boolean", none),
  ("empty", "boolean", none),
  ("binary", "string", some "byte"),
  ("string", "string", none),
  ("enumeration", "string", none),
  ("bits", "string", none),
  ("identityref", "string", none),
  ("instance-identifier", "string", none),
  ("union", "string", none),
  ("leafref", "string", none)]

def builtin? (name : Name) : Option (String × Option String) :=
  name.asText?.bind fun s => (builtinTypes.find? (·.1 = s)).map (·.2)

/-- A built-in type with the enumerated values found on the way to it. -/
structure Resolved where
  type : LeafType
  enum : List String
deriving Repr

namespace Schema

variable (s : Schema)

/-- More than the number of pairs of a module and a type name that a typedef chain can pass through. -/
def typedefBound : Nat :=
  (s.modules.foldl (fun n m => n + m.typedefs.length) 1) * (s.modules.length + 1) + 1

def string (enum : List String) : Resolved := ⟨⟨.text "string", .null, []⟩, enum⟩

/-- The text that a typedef is looked up by in the module `owner`. Other values name no type. -/
def typeName (name owner : Name) : Except Failure String := do
  let _ ← name.key?
  let _ ← owner.key?
  match name with
  | .text s => .ok s
  | .scalar (.bytes _) => .error .wrongType
  | _ => .error .noMember

/-- Follows typedefs from a type that is written in the module `owner`. `seen` are the names met so
far with the modules they were met in, `enum` the first enumerated values. No chain is longer than
`typedefBound`. -/
def effectiveFrom : Nat → List (Name × String) → List String → LeafType → Name → Logged Resolved
  | 0, _, _, _, _ => Logged.fail .endless
  | fuel + 1, seen, enum, t, owner =>
    if (builtin? t.name).isSome then pure ⟨t, enum⟩
    else do
      let name ← Logged.ofExcept (typeName t.name owner)
      let place := owner.wording
      if seen.contains (owner, name) then do
        Logged.write .warning s!"Circular typedef {name} in module {place}, using string"
        pure (string enum)
      else
        match s.typedef? name owner with
        | none => do
          Logged.write .debug s!"Unknown type {name} in module {place}, using string"
          pure (string enum)
        | some base =>
          let tag := (splitName name).1
          let next :=
            if tag = "" then owner else ((s.moduleByPrefix? (.text tag)).map (·.1.name)).getD owner
          let enum := if enum.isEmpty then base.enum else enum
          effectiveFrom fuel ((owner, name) :: seen) enum base next

/-- The built-in type behind a type that is written in the module `owner`. -/
def effective (t : LeafType) (owner : Name) : Logged Resolved :=
  s.effectiveFrom s.typedefBound [] t.enum t owner

/-- Follows leafrefs from `p`, whose type is `r`. `seen` are the leaves passed so far, `start` is the
path of the first one. No more leaves are passed than there are nodes. -/
def concreteFrom (start : String) : Nat → List Address → Place → Resolved → Logged Resolved
  | 0, _, _, _ => Logged.fail .endless
  | fuel + 1, seen, p, r =>
    if !r.type.isLeafref then pure r
    else if p.address ∈ seen then Logged.fail (.leafref (.circular start r.type.target.wording))
    else do
      let path ← Logged.ofExcept r.type.target.text?
      let unresolved : LeafrefFault := .unresolved r.type.path p.schemaPath
      match s.node? path (some p) with
      | none => Logged.fail (.leafref unresolved)
      | some target =>
        match target.node.type with
        | none => Logged.fail (.leafref unresolved)
        | some t => do
          let path := r.type.path.wording
          Logged.write .debug s!"leafref {path} resolved to {target.schemaPath}"
          let r ← s.effective t target.node.typedefOwner
          concreteFrom start fuel (p.address :: seen) target r

/-- The type of the leaf that a leafref finally points at; the type itself if it is no leafref. -/
def concrete (p : Place) (t : LeafType) : Logged Resolved := do
  let r ← s.effective t p.node.typedefOwner
  s.concreteFrom p.schemaPath (s.size + 2) [] p r

end Schema

end RestconfApi
