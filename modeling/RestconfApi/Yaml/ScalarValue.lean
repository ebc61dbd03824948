import RestconfApi.Failure
import RestconfApi.Text.Base64
import RestconfApi.Text.Decimal
import RestconfApi.Text.Lowercase
import RestconfApi.Yaml.Implicit

/-!
# YAML: values of scalars

What the text of a scalar means once its type is known. A text that its form gave a type is read with
the rules of that form; a text that was tagged with the type may be none of them.
-/

namespace RestconfApi.Yaml

/-! ### Numbers -/

/-- A whole number to a base. Of a text that is none, the literal is shown up to 200 characters. -/
def inBase (base : Nat) (cs : List Char) : Except Failure Int :=
  match Text.whole base (String.ofList cs) with
  | .ok n => .ok n
  | .error fault => .error (.value (ValueFault.ofWhole base (String.ofList cs) fault))

/-- A whole number to the base that its first characters tell; colons separate places to the base
60. -/
def magnitude (cs : List Char) : Except Failure Int :=
  match cs with
  | [] => .error .outOfRange
  | ['0'] => .ok 0
  | '0' :: 'b' :: rest => inBase 2 rest
  | '0' :: 'x' :: rest => inBase 16 rest
  | '0' :: _ => inBase 8 cs
  | _ =>
    if cs.contains ':' then do
      let places ← (Text.splitOn ':' cs).mapM (inBase 10)
      .ok (places.foldl (fun n d => 60 * n + d) 0)
    else inBase 10 cs

def intValue (s : String) : Except Failure Int := do
  let cs := s.toList.filter (· ≠ '_')
  if cs.isEmpty then .error .outOfRange
  else
    let (negative, cs) := Text.signed cs
    let n ← magnitude cs
    .ok (if negative then -n else n)

def decimalValue (cs : List Char) : Except Failure Double :=
  match Text.decimal? (String.ofList cs) with
  | some x => .ok x
  | none => .error (.value (.noDecimal (Text.quoted (String.ofList cs))))

/-- The sum of places to the base 60, the lowest first; `base` is the worth of the first one. Each step is
rounded. -/
def sixtiethsSum (sum : Double) (base : Nat) : List Double → Except Failure Double
  | [] => .ok sum
  | place :: places =>
    match Double.ofNat? base with
    | some worth => sixtiethsSum (sum.add (place.mul worth)) (60 * base) places
    | none => .error .overflow

def floatValue (s : String) : Except Failure Double := do
  let cs := (Text.lower (String.ofList (s.toList.filter (· ≠ '_')))).toList
  if cs.isEmpty then .error .outOfRange
  else
    let (negative, cs) := Text.signed cs
    let x ←
      if cs = ".inf".toList then .ok (.infinite false)
      else if cs = ".nan".toList then .ok .nan
      else if cs.contains ':' then do
        let places ← (Text.splitOn ':' cs).mapM decimalValue
        sixtiethsSum (.zero false) 1 places.reverse
      else decimalValue cs
    .ok (if negative then x.neg else x)

/-! ### Truth -/

/-- The truth value of a word. -/
def boolValue (s : String) : Except Failure Bool :=
  let word := Text.lower s
  if ["yes", "true", "on"].contains word then .ok true
  else if ["no", "false", "off"].contains word then .ok false
  else .error .noKey

/-! ### Dates and times -/

def checkDate (year month day : Nat) : Except Failure Unit :=
  if year < 1 || 9999 < year then .error (.calendar (.year year))
  else if month < 1 || 12 < month then .error (.calendar .month)
  else if day < 1 || Calendar.daysIn year month < day then .error (.calendar .day)
  else .ok ()

def checkTime (hour minute second : Nat) : Except Failure Unit :=
  if 23 < hour then .error (.calendar .hour)
  else if 59 < minute then .error (.calendar .minute)
  else if 59 < second then .error (.calendar .second)
  else .ok ()

/-- The number at the start of a text and what follows it. -/
def leadingNat (cs : List Char) : Nat × List Char :=
  let isDigit (c : Char) : Bool := '0' ≤ c && c ≤ '9'
  let digits := cs.takeWhile isDigit
  (Text.valueOf 10 digits, cs.dropWhile isDigit)

/-- The first six places of a fraction of a second. -/
def micros (cs : List Char) : Nat × List Char :=
  match cs with
  | '.' :: cs =>
    let isDigit (c : Char) : Bool := '0' ≤ c && c ≤ '9'
    let digits := (cs.takeWhile isDigit).take 6
    (Text.valueOf 10 digits * Nat.pow 10 (6 - digits.length), cs.dropWhile isDigit)
  | cs => (0, cs)

/-- The offset of a time zone in seconds. -/
def zone (cs : List Char) : Except Failure (Option Int) :=
  match cs.dropWhile (fun c => c = ' ' || c = '\t') with
  | [] => .ok none
  | 'Z' :: _ => .ok (some 0)
  | c :: cs =>
    let (hours, cs) := leadingNat cs
    let (minutes, _) := leadingNat (cs.drop 1)
    let size : Int := 3600 * hours + 60 * minutes
    let offset := if c = '-' then -size else size
    if 86400 ≤ size then .error (.calendar (.zone offset)) else .ok (some offset)

/-- Whether a text has the form of a date or a time. Here months and days may have one digit. -/
def isTime (s : String) : Bool :=
  let short : Text.Pattern :=
    Text.Pattern.all [digit, digit, digit, digit, Text.Pattern.lit "-", digit,
      Text.Pattern.opt digit, Text.Pattern.lit "-", digit, Text.Pattern.opt digit]
  short.accepts s || timeForm.accepts s

/-- A date, or a time with its date. A line feed at the end does not count. -/
def timeValue (mark : Mark) (s : String) : Except Failure Scalar := do
  let s := withoutBreak s
  if !isTime s then .error .noMember
  else
    let (year, cs) := leadingNat s.toList
    let (month, cs) := leadingNat (cs.drop 1)
    let (day, cs) := leadingNat (cs.drop 1)
    if cs.isEmpty then
      checkDate year month day
      .ok (.date year month day mark)
    else
      let isDigit (c : Char) : Bool := '0' ≤ c && c ≤ '9'
      let (hour, cs) := leadingNat (cs.dropWhile (!isDigit ·))
      let (minute, cs) := leadingNat (cs.drop 1)
      let (second, cs) := leadingNat (cs.drop 1)
      let (micro, cs) := micros cs
      let zone ← zone cs
      checkDate year month day
      checkTime hour minute second
      .ok (.instant { year, month, day, hour, minute, second, micro, zone } mark)

end RestconfApi.Yaml
