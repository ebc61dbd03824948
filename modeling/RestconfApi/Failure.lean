import RestconfApi.Datum.Literal
import RestconfApi.Schema.Kind

/-!
# Failures

Why a run ends without a result: the causes by their kind, each with one wording.
-/

namespace RestconfApi

/-- What can be wrong with a schema document. -/
inductive SchemaFault where
  | noMapping
  | noModules
  | namelessModule
  | noTarget (owner : String)
  | noStatement (owner literal : String)
  | noRpc (owner literal : String)
  | unknownKind (wording owner : String)
  | nameless (kind : Kind) (owner : String)
  | untyped (kind : Kind) (qname : String)
  | badType (about literal : String)
  | noPath (about : String)
  | circular (qnames : List String)
  | lostTarget (path owner : String)
  | lostGrouping (qname : String)
  | undecodable (file reason : String)
  | unreadable
deriving DecidableEq, Repr

def SchemaFault.message : SchemaFault → String
  | .noMapping => "Schema document must be a mapping with a 'modules' list"
  | .noModules => "Schema document declares no modules"
  | .namelessModule => "Encountered module without a name"
  | .noTarget owner => s!"augment in module {owner} needs a target path"
  | .noStatement owner literal => s!"Statement in module {owner} must be a mapping, got {literal}"
  | .noRpc owner literal => s!"rpc in module {owner} must be a mapping, got {literal}"
  | .unknownKind wording owner => s!"Unknown statement kind '{wording}' in module {owner}"
  | .nameless kind owner => s!"Encountered anonymous {kind.name} statement in module {owner}"
  | .untyped kind qname => s!"{kind.name} {qname} has no type"
  | .badType about literal => s!"Invalid type specification for {about}: {literal}"
  | .noPath about => s!"leafref type of {about} has no path"
  | .circular qnames => "Circular grouping usage: " ++ Text.join " -> " qnames
  | .lostTarget path owner => s!"augment target {path} of module {owner} not found"
  | .lostGrouping qname => s!"grouping {qname} disappeared from the schema context"
  | .undecodable file reason => s!"Cannot decode schema document {file}: {reason}"
  | .unreadable => "Cannot decode"

/-- Why a leafref has no type. -/
inductive LeafrefFault where
  | untyped (leaf : String)
  | circular (start target : String)
  | unresolved (target : Datum) (leaf : String)
deriving Repr

namespace LeafrefFault

def message : LeafrefFault → String
  | .untyped leaf => s!"{leaf} has no declared type"
  | .circular start _ => s!"Circular leafref chain starting at {start}"
  | .unresolved target leaf => s!"Cannot resolve leafref path {target.wording} of {leaf}"

/-- The path at which the chain breaks. -/
def path : LeafrefFault → String
  | .untyped leaf => leaf
  | .circular _ target => target
  | .unresolved target _ => target.asText?.getD ""

end LeafrefFault

/-- Why there is nothing to generate. -/
inductive SelectionFault where
  | noModules
  | nothingSelected
  | unknownModule (name : String)
deriving DecidableEq, Repr

def SelectionFault.message : SelectionFault → String
  | .noModules => "No modules found in the context."
  | .nothingSelected => "No modules to generate has been specified"
  | .unknownModule name => s!"Module {name} is not part of the schema context"

/-- A setting that is not among its values. -/
inductive SettingFault where
  | noChoice (literal type : String)
  | noDepth (wording : String)
deriving DecidableEq, Repr

def SettingFault.message : SettingFault → String
  | .noChoice literal type => s!"{literal} is not a valid {type}"
  | .noDepth wording => s!"max_depth must be a positive integer or None, got {wording}"

/-- A value that cannot be read or cannot be written. -/
inductive ValueFault where
  | noInteger (base : Nat) (literal : String)
  | noDecimal (literal : String)
  | tooManyDigits (count : Nat)
  | tooLongToShow
  | noCharacter
  | holdsItself
  | noJsonNumber
deriving DecidableEq, Repr

namespace ValueFault

def digitLimit : String := s!"Exceeds the limit ({Text.maxDigits} digits) for integer string conversion"

def message : ValueFault → String
  | .noInteger base literal => s!"invalid literal for int() with base {base}: {literal}"
  | .noDecimal literal => s!"could not convert string to float: {literal}"
  | .tooManyDigits count =>
    digitLimit ++ s!": value has {count} digits; use sys.set_int_max_str_digits() to increase the limit"
  | .tooLongToShow => digitLimit ++ "; use sys.set_int_max_str_digits() to increase the limit"
  | .noCharacter => "chr() arg not in range(0x110000)"
  | .holdsItself => "Circular reference detected"
  | .noJsonNumber => "Out of range float values are not JSON compliant"

/-- Why a text is no whole number to a base. Of one that has not the form, the literal is shown up to
200 characters. -/
def ofWhole (base : Nat) (s : String) : Text.WholeFault → ValueFault
  | .form => .noInteger base (String.ofList ((Text.quoted s).toList.take 200))
  | .digits count => .tooManyDigits count

end ValueFault

/-- A part of a date or of a time that is out of its range. -/
inductive CalendarFault where
  | year (n : Nat)
  | month
  | day
  | hour
  | minute
  | second
  | zone (seconds : Int)
deriving DecidableEq, Repr

namespace CalendarFault

/-- A span of time in days, which may be negative, and seconds of a day. -/
def spanLiteral (seconds : Int) : String :=
  let days := Int.fdiv seconds 86400
  let rest := Int.fmod seconds 86400
  let parts :=
    (if days = 0 then [] else [s!"days={days}"]) ++ (if rest = 0 then [] else [s!"seconds={rest}"])
  "datetime.timedelta(" ++ Text.join ", " parts ++ ")"

def message : CalendarFault → String
  | .year n => s!"year {n} is out of range"
  | .month => "month must be in 1..12"
  | .day => "day is out of range for month"
  | .hour => "hour must be in 0..23"
  | .minute => "minute must be in 0..59"
  | .second => "second must be in 0..59"
  | .zone seconds =>
    "offset must be a timedelta strictly between -timedelta(hours=24) and timedelta(hours=24), not " ++
      spanLiteral seconds ++ "."

end CalendarFault

/-- A path of the file system that cannot be used, written as a literal. -/
inductive FileFault where
  | absent (literal : String)
  | directory (literal : String)
  | throughFile (literal : String)
  | tooLong (literal : String)
  | holdsNul
deriving DecidableEq, Repr

def FileFault.message : FileFault → String
  | .absent literal => s!"[Errno 2] No such file or directory: {literal}"
  | .directory literal => s!"[Errno 21] Is a directory: {literal}"
  | .throughFile literal => s!"[Errno 20] Not a directory: {literal}"
  | .tooLong literal => s!"[Errno 36] File name too long: {literal}"
  | .holdsNul => "embedded null byte"

/-- Bytes that are no UTF-8 text, or halves of surrogate pairs in a text, which UTF-8 cannot write. -/
inductive EncodingFault where
  | byte (hex : String) (position : Nat) (reason : String)
  | bytes (first last : Nat) (reason : String)
  | half (hex : String) (position : Nat)
  | halves (first last : Nat)
deriving DecidableEq, Repr

def EncodingFault.message : EncodingFault → String
  | .byte hex position reason =>
    s!"'utf-8' codec can't decode byte 0x{hex} in position {position}: {reason}"
  | .bytes first last reason =>
    s!"'utf-8' codec can't decode bytes in position {first}-{last}: {reason}"
  | .half hex position =>
    s!"'utf-8' codec can't encode character '\\u{hex}' in position {position}: surrogates not allowed"
  | .halves first last =>
    s!"'utf-8' codec can't encode characters in position {first}-{last}: surrogates not allowed"

/-- Why a run fails. `wrongType` is a value of a type that the operation has no meaning for,
`noMember` a value that lacks what is asked of it, `outOfRange` a position outside a list, `noKey` a word
outside a table, `overflow` a number outside of all range and `noNode` a path to no node. -/
inductive Failure where
  | schema (fault : SchemaFault)
  | leafref (fault : LeafrefFault)
  | selection (fault : SelectionFault)
  | setting (fault : SettingFault)
  | value (fault : ValueFault)
  | calendar (fault : CalendarFault)
  | file (fault : FileFault)
  | encoding (fault : EncodingFault)
  | notConfigured
  | endless
  | wrongType
  | noMember
  | outOfRange
  | noKey
  | overflow
  | noNode
deriving Repr

instance : Inhabited Failure := ⟨.endless⟩

/-- The wording of a failure; the last ones have none. -/
def Failure.message : Failure → String
  | .schema fault => fault.message
  | .leafref fault => fault.message
  | .selection fault => fault.message
  | .setting fault => fault.message
  | .value fault => fault.message
  | .calendar fault => fault.message
  | .file fault => fault.message
  | .encoding fault => fault.message
  | .notConfigured => "PathHandlerBuilder.configure() must be called before for_module()"
  | .endless => "maximum recursion depth exceeded"
  | .wrongType | .noMember | .outOfRange | .noKey | .overflow | .noNode => ""

/-- Steps that succeed one after the other succeed each. -/
theorem Failure.ok_of_bind {α β : Type} {x : Except Failure α} {f : α → Except Failure β} {b : β}
    (h : (x >>= f) = .ok b) : ∃ a, x = .ok a ∧ f a = .ok b := by
  cases x with
  | error e => cases h
  | ok a => exact ⟨a, rfl, h⟩

namespace Datum

/-- The literal of a value, if it can be shown. -/
def literal? (d : Datum) : Except Failure String :=
  if d.isShowable then .ok d.literal else .error (.value .tooLongToShow)

/-- The wording of a value, if it can be shown. -/
def wording? (d : Datum) : Except Failure String :=
  if d.isShowable then .ok d.wording else .error (.value .tooLongToShow)

/-- A text; values of other types have no meaning where one is asked for. -/
def text? (d : Datum) : Except Failure String :=
  match d with
  | .text s => .ok s
  | _ => .error .wrongType

/-- The value as a key, which has to be a scalar. -/
def key? (d : Datum) : Except Failure Scalar :=
  match d with
  | .scalar s => .ok s
  | _ => .error .wrongType

end Datum

end RestconfApi
