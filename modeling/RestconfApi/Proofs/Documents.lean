import RestconfApi.Failure

/-!
# Small schema documents

Documents that show what a statement means, put together from a few kinds of statements, and what a test of a result
says about it.
-/

namespace RestconfApi

theorem exists_of_any {α : Type} {x : Except Failure α} {test : α → Bool} (h : x.toOption.any test = true) :
    ∃ a, x = .ok a ∧ test a = true := by
  cases x with
  | ok a => exact ⟨a, rfl, h⟩
  | error e => cases h

theorem exists_of_isNone {α : Type} {x : Except Failure α} (h : x.toOption.isNone = true) : ∃ e, x = .error e := by
  cases x with
  | ok a => cases h
  | error e => exact ⟨e, rfl⟩

theorem exists_of_isSome {α : Type} {x : Except Failure α} (h : x.toOption.isSome = true) : ∃ a, x = .ok a := by
  cases x with
  | ok a => exact ⟨a, rfl⟩
  | error e => cases h

namespace Example

def statement (kind name : String) (fields : List (String × Datum)) : Datum :=
  .object ([("kind", .text kind), ("name", .text name)] ++ fields)

def leaf (name : String) (fields : List (String × Datum) := []) : Datum :=
  statement "leaf" name (("type", .text "string") :: fields)

def leafref (name path : String) : Datum :=
  statement "leaf" name [("type", .object [("name", .text "leafref"), ("path", .text path)])]

def grouping (name : String) (children : List Datum) : Datum :=
  .object [("name", .text name), ("children", .list children)]

def container (name : String) (uses : List String) (children : List Datum := []) : Datum :=
  statement "container" name [("uses", .texts uses), ("children", .list children)]

/-- An rpc with an input that uses groupings. -/
def rpc (name : String) (uses : List String) (children : List Datum := []) : Datum :=
  .object [("name", .text name),
    ("input", .object [("uses", .texts uses), ("children", .list children)])]

def module (name : String) (fields : List (String × List Datum)) : Datum :=
  .object (("name", .text name) :: fields.map fun (field, items) => (field, Datum.list items))

/-- A document with the one module `m`. -/
def document (fields : List (String × List Datum)) : Datum :=
  .object [("modules", .list [module "m" fields])]

end Example

end RestconfApi
