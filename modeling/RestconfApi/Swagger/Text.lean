import RestconfApi.Failure
import RestconfApi.Json.Writer
import RestconfApi.Swagger.Ordering
import RestconfApi.Swagger.Render
import RestconfApi.Yaml.Writer

/-!
# Swagger: the text of a document

A document is written as JSON or as YAML, its fields in the order in which it has them.
-/

namespace RestconfApi

inductive Format where
  | yaml
  | json
deriving DecidableEq, Repr

def Format.name : Format → String
  | .yaml => "yaml"
  | .json => "json"

/-- The text of a value in a format. -/
def Format.write (value : Datum) : Format → Except Failure String
  | .json => do
    Json.check [] value
    .ok (Json.indented value ++ "\n")
  | .yaml => Yaml.write value

/-- The text of a document in a format. -/
def Document.text (f : Format) (d : Document) : Except Failure String := d.value? >>= f.write

end RestconfApi
