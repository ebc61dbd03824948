import RestconfApi.Datum.Basic
import RestconfApi.Number.Shortest
import RestconfApi.Text.Integer
import RestconfApi.Text.Quoted

/-!
# Data: values in messages

`literal` shows a value as messages quote it, texts in quotes. `wording` is the same for all values
but texts, which stand for themselves. Whole numbers of more digits than may be written cannot be shown.
-/

namespace RestconfApi

/-- `n` in base 10 with at least `width` digits. -/
def padded (width n : Nat) : String :=
  let digits := toString n
  Double.zeroText (width - digits.length) ++ digits

def Double.literal (x : Double) : String := x.text "inf" "nan"

namespace Instant

def dateWording (year month day : Nat) : String :=
  padded 4 year ++ "-" ++ padded 2 month ++ "-" ++ padded 2 day

/-- The offset of a zone: hours and minutes, and seconds if there are any. -/
def zoneWording (offset : Int) : String :=
  let n := offset.natAbs
  (if offset < 0 then "-" else "+") ++ padded 2 (n / 3600) ++ ":" ++ padded 2 (n / 60 % 60) ++
    (if n % 60 = 0 then "" else ":" ++ padded 2 (n % 60))

/-- Date and time with a blank or another mark between them. -/
def wording (mark : String) (t : Instant) : String :=
  dateWording t.year t.month t.day ++ mark ++ padded 2 t.hour ++ ":" ++ padded 2 t.minute ++ ":" ++
    padded 2 t.second ++ (if t.micro = 0 then "" else "." ++ padded 6 t.micro) ++
    (t.zone.map zoneWording).getD ""

def zoneLiteral (offset : Int) : String :=
  if offset = 0 then ", tzinfo=datetime.timezone.utc"
  else
    let days := Int.fdiv offset 86400
    let seconds := Int.fmod offset 86400
    let parts := (if days = 0 then [] else [s!"days={days}"]) ++
      (if seconds = 0 then [] else [s!"seconds={seconds}"])
    ", tzinfo=datetime.timezone(datetime.timedelta(" ++ Text.join ", " parts ++ "))"

def literal (t : Instant) : String :=
  let seconds := if t.second = 0 ∧ t.micro = 0 then [] else [t.second]
  let micros := if t.micro = 0 then [] else [t.micro]
  let numbers := [t.year, t.month, t.day, t.hour, t.minute] ++ seconds ++ micros
  "datetime.datetime(" ++ Text.join ", " (numbers.map toString) ++
    (t.zone.map zoneLiteral).getD "" ++ ")"

end Instant

namespace Scalar

def bytesLiteral (b : List UInt8) : String :=
  let chars := b.map fun n => Char.ofNat n.toNat
  let quote := Text.quoteChar chars
  let mark := String.ofList [quote]
  let escape (c : Char) : String :=
    if c.toNat < 0x7f then Text.escapeChar quote c else "\\x" ++ Text.hex 2 c.toNat
  "b" ++ mark ++ String.join (chars.map escape) ++ mark

def literal : Scalar → String
  | .null => "None"
  | .bool b => if b then "True" else "False"
  | .int n => toString n
  | .float x => x.literal
  | .text s => Text.quoted s
  | .bytes b => bytesLiteral b
  | .date y m d _ => s!"datetime.date({y}, {m}, {d})"
  | .instant t _ => t.literal

def wording : Scalar → String
  | .text s => s
  | .date y m d _ => Instant.dateWording y m d
  | .instant t _ => t.wording " "
  | s => s.literal

end Scalar

/-- Whether a scalar can be shown. -/
def Scalar.isShowable : Scalar → Bool
  | .int n => n.natAbs.log2 < 3 * Text.maxDigits || n.natAbs < power 10 Text.maxDigits
  | _ => true

namespace Datum

mutual

/-- The literal of a value inside of the values with the marks `under`. Of a value that holds itself only
the brackets are shown. -/
def literalUnder (under : List Mark) : Datum → String
  | .scalar s => s.literal
  | .list items mark =>
    if mark ≠ 0 ∧ mark ∈ under then "[...]"
    else "[" ++ Text.join ", " (literals (mark :: under) items) ++ "]"
  | .mapping entries mark =>
    if mark ≠ 0 ∧ mark ∈ under then "\x7b...\x7d"
    else "\x7b" ++ Text.join ", " (entryLiterals (mark :: under) entries) ++ "\x7d"
  | .set items _ =>
    if items.isEmpty then "set()" else "\x7b" ++ Text.join ", " (items.map Scalar.literal) ++ "\x7d"
  | .pair a b => "(" ++ literalUnder under a ++ ", " ++ literalUnder under b ++ ")"

def literals (under : List Mark) : List Datum → List String
  | [] => []
  | d :: ds => literalUnder under d :: literals under ds

def entryLiterals (under : List Mark) : List (Scalar × Datum) → List String
  | [] => []
  | (k, d) :: rest => (k.literal ++ ": " ++ literalUnder under d) :: entryLiterals under rest

end

def literal (d : Datum) : String := d.literalUnder []

def wording : Datum → String
  | .scalar s => s.wording
  | d => d.literal

mutual

/-- Whether a value can be shown: none of its whole numbers has too many digits. -/
def isShowable : Datum → Bool
  | .scalar s => s.isShowable
  | .list items _ => areShowable items
  | .mapping entries _ => areShowableEntries entries
  | .set items _ => items.all Scalar.isShowable
  | .pair a b => a.isShowable && b.isShowable

def areShowable : List Datum → Bool
  | [] => true
  | d :: ds => d.isShowable && areShowable ds

def areShowableEntries : List (Scalar × Datum) → Bool
  | [] => true
  | (k, d) :: rest => k.isShowable && d.isShowable && areShowableEntries rest

end

end Datum

end RestconfApi
