import RestconfApi.Json.Reader
import RestconfApi.Schema.Load
import RestconfApi.Text.Lowercase
import RestconfApi.Yaml.Reader

/-!
# Schema: documents in files

A file whose name ends in `.json` holds JSON and any other YAML. A document that holds nothing counts
as an empty one.
-/

namespace RestconfApi.Schema

/-- The ending of a file name from its last dot on; a name that starts or ends with that dot has
none. -/
def suffix (file : String) : String :=
  let name := (Text.pieces '/' file).getLast?.getD ""
  match Text.cutLast '.' name.toList with
  | some (stem, ending) =>
    if stem.isEmpty || ending.isEmpty then "" else String.ofList ('.' :: ending)
  | none => ""

/-- The characters of a file as lines that all end in a line feed. -/
def unifyBreaks : List Char → List Char
  | '\r' :: '\n' :: cs => '\n' :: unifyBreaks cs
  | '\r' :: cs => '\n' :: unifyBreaks cs
  | c :: cs => c :: unifyBreaks cs
  | [] => []

/-- The value that the text of a file writes. -/
def decode (file text : String) : Except Failure Datum :=
  let text := String.ofList (unifyBreaks text.toList)
  if Text.lower (suffix file) = ".json" then
    match Json.read text with
    | .ok d => .ok d
    | .error ⟨.tooManyDigits count, _⟩ => .error (.value (.tooManyDigits count))
    | .error fault => .error (.schema (.undecodable file (fault.message text)))
  else Yaml.read text

/-- The schema in a file. -/
def loadText (file text : String) : Logged Schema := do
  let d ← Logged.ofExcept (decode file text)
  load (if d.holds then d else .mapping [])

end RestconfApi.Schema
