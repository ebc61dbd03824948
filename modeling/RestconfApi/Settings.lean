import RestconfApi.Definitions.Basic
import RestconfApi.Path.Segment
import RestconfApi.Swagger.Text
import RestconfApi.Text.Integer
import RestconfApi.Text.Lowercase

/-!
# Settings of a generation

Every choice of a generation with its default, the check of given values, and the reading of settings
from a text of the form `key=value,...`.
-/

namespace RestconfApi

/-- The categories of statements that get paths. -/
inductive Element where
  | data
  | rpc
deriving DecidableEq, Repr

def Element.name : Element → String
  | .data => "data"
  | .rpc => "rpc"

def Strategy.name : Strategy → String
  | .optimizing => "optimizing"
  | .unpacking => "unpacking"

/-- Changes of the finished document. -/
inductive Postprocessor where
  | foldAliases
  | sortDefinitions
  | sort
deriving DecidableEq, Repr

/-- The settings of a generation. `maxDepth` is the number of levels that are walked, nothing for all
of them. Without tag rules operations are tagged with the top node of their path. -/
structure Settings where
  host : Datum := .text "localhost:8080"
  basePath : Datum := .text "/restconf"
  consumes : Datum := .text "application/json"
  produces : Datum := .text "application/json"
  version : Datum := .text "1.0.0-SNAPSHOT"
  format : Format := .yaml
  elements : List Element := [.data, .rpc]
  maxDepth : Datum := .null
  strategy : Strategy := .optimizing
  tagRules : List TagRule := []
  postprocessors : List Postprocessor := [.foldAliases, .sortDefinitions]
deriving Repr

namespace Settings

/-- The choice of a given name; `type` is what the choices are called. -/
def choice {α : Type} (type : String) (name : α → String) (all : List α) (d : Datum) :
    Except Failure α :=
  match d.asText?.bind fun s => all.find? (name · = s) with
  | some a => .ok a
  | none => do
    let literal ← d.literal?
    .error (.setting (.noChoice literal type))

def format? : Datum → Except Failure Format := choice "Format" Format.name [.yaml, .json]

def strategy? : Datum → Except Failure Strategy :=
  choice "Strategy" Strategy.name [.optimizing, .unpacking]

def element? : Datum → Except Failure Element := choice "Elements" Element.name [.data, .rpc]

/-- The named elements, each once and in alphabetical order. -/
def elements? (d : Datum) : Except Failure (List Element) :=
  match d.items? with
  | none => .error .wrongType
  | some items => do
    let given ← items.mapM element?
    .ok ([Element.data, .rpc].filter given.contains)

/-- Whether a number of levels is below one. Only numbers can be compared. -/
def belowOne : Datum → Except Failure Bool
  | .bool b => .ok (!b)
  | .int n => .ok (n < 1)
  | .float x =>
    match x with
    | .finite negative m e => .ok (negative || m * power 2 e < power 2 (-e))
    | .infinite negative => .ok negative
    | .nan => .ok false
  | _ => .error .wrongType

def depth? (d : Datum) : Except Failure Datum :=
  if d.isNull then .ok .null
  else do
    if ← belowOne d then do
      let wording ← d.wording?
      .error (.setting (.noDepth wording))
    else .ok d

/-- Settings as they are given, not checked yet. -/
structure Draft where
  base : Settings := {}
  format : Datum := .text "yaml"
  strategy : Datum := .text "optimizing"
  elements : Datum := .texts ["data", "rpc"]
  maxDepth : Datum := .null

def Draft.check (d : Draft) : Except Failure Settings := do
  let format ← format? d.format
  let strategy ← strategy? d.strategy
  let elements ← elements? d.elements
  let maxDepth ← depth? d.maxDepth
  .ok { d.base with format, strategy, elements, maxDepth }

/-- Gives one of the plain settings a value; nothing for other names. -/
def Draft.put (name : String) (value : Datum) (d : Draft) : Option Draft :=
  match name with
  | "host" => some { d with base := { d.base with host := value } }
  | "base_path" => some { d with base := { d.base with basePath := value } }
  | "consumes" => some { d with base := { d.base with consumes := value } }
  | "produces" => some { d with base := { d.base with produces := value } }
  | "version" => some { d with base := { d.base with version := value } }
  | "format" => some { d with format := value }
  | "strategy" => some { d with strategy := value }
  | "elements" => some { d with elements := value }
  | "max_depth" => some { d with maxDepth := value }
  | _ => none

/-! ### Limits of a walk -/

/-- The greatest whole number that is not above a finite number. -/
def floor (negative : Bool) (m : Nat) (e : Int) : Int :=
  let n : Int := (m * power 2 e : Nat)
  Int.fdiv (if negative then -n else n) (power 2 (-e) : Nat)

/-- The number of levels after which a walk stops. A number that is not whole stops none. -/
def walkLimit (s : Settings) : Option Nat :=
  match s.maxDepth with
  | .int n => some n.toNat
  | .bool b => some (if b then 1 else 0)
  | .float x => x.toInt?.map Int.toNat
  | _ => none

/-- The deepest level at which a node of a grouping body still counts. No level comes up to the power that
stands for infinity. -/
def levelLimit (s : Settings) : Option Nat :=
  match s.maxDepth with
  | .int n => some n.toNat
  | .bool b => some (if b then 1 else 0)
  | .float (.finite negative m e) => some (floor negative m e).toNat
  | .float (.infinite _) => some (power 2 1024)
  | .float .nan => some 0
  | _ => none

/-! ### Settings from a text -/

/-- The elements that a text names, with plus signs between them. -/
def parseElements (s : String) : Except Failure (List Element) := do
  let names := ((Text.pieces '+' s).map Text.trim).filter (· ≠ "")
  elements? (.texts (names.map Text.lower))

/-- A number of levels; an empty text and `unbounded` mean all of them. -/
def parseDepth (value : String) : Except Failure Datum :=
  let word := Text.lower value
  if word = "" || word = "unbounded" then .ok .null
  else
    match Text.whole 10 value with
    | .ok n => .ok (.int n)
    | .error fault => .error (.value (.ofWhole 10 value fault))

/-- Takes over one `key=value`. What has no equals sign or no known key is passed over. -/
def putPair (d : Draft) (pair : String) : Except Failure Draft :=
  match Text.cutFirst '=' pair.toList with
  | none => .ok d
  | some (key, value) => do
    let key := Text.trim (String.ofList key)
    let value := Text.trim (String.ofList value)
    if key = "max_depth" then
      let depth ← parseDepth value
      .ok { d with maxDepth := depth }
    else if key = "elements" then
      let elements ← parseElements value
      .ok { d with elements := .texts (elements.map Element.name) }
    else
      let value := if key = "format" || key = "strategy" then Text.lower value else value
      .ok ((d.put key (.text value)).getD d)

/-- The settings that a text gives, with commas between them. -/
def ofText (s : String) : Except Failure Settings := do
  let draft ← (Text.pieces ',' s).foldlM putPair ({} : Draft)
  draft.check

end Settings

end RestconfApi
