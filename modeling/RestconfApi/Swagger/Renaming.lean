import RestconfApi.Swagger.Folding

/-!
# Swagger: renaming up to a fault

A name that is no key cannot be looked up, and a change of names stops where it meets one. What it has
changed before stays changed: the properties of the operations come first, then those of the
definitions, and last the definitions that are references and the parts of compositions.
-/

namespace RestconfApi

/-! ### A walk over the names -/

section Walk

variable {m : Type → Type} [Monad m] (f : Name → m Name)

def Property.walkRef (p : Property) : m Property := do
  match p.ref with
  | some name => pure { p with ref := some (← f name) }
  | none => pure p

def Property.walkRefs : Property → m Property
  | p@{ items := none, .. } => p.walkRef f
  | p@{ items := some q, .. } => do
    let p ← p.walkRef f
    let q ← walkRefs q
    pure { p with items := some q }

def ObjectModel.walkRefs (o : ObjectModel) : m ObjectModel := do
  let properties ← o.properties.mapM fun (k, p) => do
    let p ← p.walkRefs f
    pure (k, p)
  pure { o with properties }

namespace Model

mutual

/-- Visits the properties of a model. -/
def walkFields : Model → m Model
  | .reference name => pure (.reference name)
  | .object o => .object <$> o.walkRefs f
  | .composed parts d => do
    let parts ← walkFieldsAll parts
    pure (.composed parts d)

def walkFieldsAll : List Model → m (List Model)
  | [] => pure []
  | m :: ms => do
    let m ← walkFields m
    let ms ← walkFieldsAll ms
    pure (m :: ms)

end

def walkPart : Model → m Model
  | .reference name => .reference <$> f name
  | m => pure m

/-- Visits a model that is a reference, or the parts of a composition that are. -/
def walkParts : Model → m Model
  | .composed parts d => do
    let parts ← parts.mapM (walkPart f)
    pure (.composed parts d)
  | m => walkPart f m

end Model

def Parameter.walkRefs (p : Parameter) : m Parameter := do
  match p.schema with
  | some s => pure { p with schema := some (← s.walkRefs f) }
  | none => pure p

def Response.walkRefs (r : Response) : m Response := do
  match r.schema with
  | some s => pure { r with schema := some (← s.walkRefs f) }
  | none => pure r

def Operation.walkRefs (o : Operation) : m Operation := do
  let parameters ← o.parameters.mapM (Parameter.walkRefs f)
  let responses ← o.responses.mapM fun (code, r) => do
    let r ← r.walkRefs f
    pure (code, r)
  pure { o with parameters, responses }

/-- Visits all names that a document points at. -/
def Document.walkRefs (d : Document) : m Document := do
  let paths ← d.paths.mapM fun (path, os) => do
    let os ← os.mapM fun (method, o) => do
      let o ← o.walkRefs f
      pure (method, o)
    pure (path, os)
  let definitions ← d.definitions.mapM fun (name, m) => do
    let m ← m.walkFields f
    pure (name, m)
  let definitions ← definitions.mapM fun (name, m) => do
    let m ← m.walkParts f
    pure (name, m)
  pure { d with paths, definitions }

end Walk

/-! ### Stopping -/

/-- Changes a name unless the walk has stopped; a name that is no key stops it. -/
def changeUnlessStopped (f : Name → Name) (name : Name) : StateM Bool Name := do
  if (← get) then pure name
  else if name.asKey?.isSome then pure (f name)
  else do
    set true
    pure name

namespace Document

/-- The document with its names changed up to the first that is no key. -/
def mapRefsUpToFault (f : Name → Name) (d : Document) : Document :=
  ((d.walkRefs (changeUnlessStopped f)).run false).1

/-- What renaming leaves of a document with a name that is no key. -/
def renamedUpToFault (names : Entries Scalar Name) (d : Document) : Document :=
  d.mapRefsUpToFault (newName names)

/-- What folding leaves of a document with a name that is no key. -/
def foldedUpToFault (d : Document) : Document :=
  if d.hasUnkeyedParent then d else d.mapRefsUpToFault d.foldable.resolve

end Document

end RestconfApi
