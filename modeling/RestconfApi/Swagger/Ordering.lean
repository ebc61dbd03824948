import RestconfApi.Swagger.References

/-!
# Swagger: order of definitions and paths

Definitions in the order of their dependencies: a definition comes after those it points at, unless
they point back at it, and what the dependencies leave open is decided by the names. Paths are ordered
by name.
-/

namespace RestconfApi.Document

variable (d : Document)

/-- The definitions that a definition points at, each once and by name. -/
def dependencies (name : Scalar) : List Scalar :=
  match d.definitions.get? name with
  | some m => Scalar.sorted (Scalar.distinct (m.refs.filterMap Datum.asKey?))
  | none => []

/-- Adds a definition after those it depends on. `under` are the definitions whose dependencies are
being added, `done` those added so far. -/
def visit : Nat → List Scalar → List Scalar → Scalar → List Scalar
  | 0, _, done, _ => done
  | fuel + 1, under, done, name =>
    let under := name :: under
    let done := (d.dependencies name).foldl
      (fun done dep =>
        if d.definitions.keys.contains dep && !done.contains dep && !under.contains dep then
          visit fuel under done dep
        else done) done
    done ++ [name]

/-- The names of the definitions, dependencies first. -/
def orderedNames : List Scalar :=
  (Scalar.sorted d.definitions.keys).foldl
    (fun done name =>
      if done.contains name then done else d.visit (d.definitions.length + 1) [] done name) []

def sortDefinitions : Document :=
  { d with
    definitions := d.orderedNames.filterMap fun name => (d.definitions.get? name).map (name, ·) }

/-- The document with its paths in the order of their names. -/
def sortPaths : Document :=
  { d with
    paths := (Scalar.sorted d.paths.keys).filterMap fun path => (d.paths.get? path).map (path, ·) }

/-- The document in its final order: definitions by dependency and paths by name. -/
def sort : Document := d.sortDefinitions.sortPaths

/-! ### Names without an order -/

/-- Whether the names that a definition points at are keys that can be compared. -/
def areComparable (names : List Name) : Bool :=
  names.all (·.asKey?.isSome) &&
    Scalar.areOrdered (Scalar.distinct (names.filterMap Datum.asKey?))

/-- The document with its definitions in order, if their names and references have one. -/
def sortDefinitions? : Except Failure Document :=
  if Scalar.areOrdered d.definitions.keys && d.definitions.all fun (_, m) => areComparable m.refs then
    .ok d.sortDefinitions
  else .error .wrongType

/-- The document with its paths in order, if their names have one. -/
def sortPaths? : Except Failure Document :=
  if Scalar.areOrdered d.paths.keys then .ok d.sortPaths else .error .wrongType

/-- The document in its final order, if there is one. -/
def sort? : Except Failure Document := d.sortDefinitions? >>= sortPaths?

end RestconfApi.Document
