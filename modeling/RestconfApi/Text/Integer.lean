import RestconfApi.Text.Blank

/-!
# Text: whole numbers

Decimal digits of every script and the reading of whole numbers to a base: blanks around the number, a
sign, the mark of the base and single underscores between digits are allowed. A number to a base that is
no power of two may have at most 4300 digits.
-/

namespace RestconfApi.Text

/-- The zeros of the decimal digits; the other nine digits of a script follow its zero. -/
def zeros : List Nat := [
  0x30, 0x660, 0x6f0, 0x7c0, 0x966, 0x9e6, 0xa66, 0xae6, 0xb66, 0xbe6, 0xc66, 0xce6, 0xd66,
  0xde6, 0xe50, 0xed0, 0xf20, 0x1040, 0x1090, 0x17e0, 0x1810, 0x1946, 0x19d0, 0x1a80, 0x1a90,
  0x1b50, 0x1bb0, 0x1c40, 0x1c50, 0xa620, 0xa8d0, 0xa900, 0xa9d0, 0xa9f0, 0xaa50, 0xabf0, 0xff10,
  0x104a0, 0x10d30, 0x11066, 0x110f0, 0x11136, 0x111d0, 0x112f0, 0x11450, 0x114d0, 0x11650,
  0x116c0, 0x11730, 0x118e0, 0x11950, 0x11c50, 0x11d50, 0x11da0, 0x16a60, 0x16ac0, 0x16b50,
  0x1d7ce, 0x1d7d8, 0x1d7e2, 0x1d7ec, 0x1d7f6, 0x1e140, 0x1e2f0, 0x1e950, 0x1fbf0]

/-- The value of a decimal digit of any script. -/
def decimalValue? (c : Char) : Option Nat :=
  (zeros.find? fun z => z ≤ c.toNat && c.toNat < z + 10).map (c.toNat - ·)

/-- A character of a number in ASCII: blanks outside of ASCII are spaces and decimal digits keep their
value; what else is outside belongs to no number. -/
def numberChar (c : Char) : Char :=
  if c.toNat < 0x80 then c
  else if isBlank c then ' '
  else
    match decimalValue? c with
    | some d => Char.ofNat ('0'.toNat + d)
    | none => '?'

/-- The blanks that may stand around a number. -/
def isSpace (c : Char) : Bool := c = ' ' || ('\t' ≤ c && c ≤ '\r')

/-- The value of a digit or a letter as a digit. -/
def alphanumericValue? (c : Char) : Option Nat :=
  if '0' ≤ c && c ≤ '9' then some (c.toNat - '0'.toNat)
  else if 'a' ≤ c && c ≤ 'z' then some (c.toNat - 'a'.toNat + 10)
  else if 'A' ≤ c && c ≤ 'Z' then some (c.toNat - 'A'.toNat + 10)
  else none

/-- The value of a digit to a base. -/
def digitValue? (base : Nat) (c : Char) : Option Nat := (alphanumericValue? c).filter (· < base)

/-- The sign of a number, which may be left out, and what follows it. -/
def signed : List Char → Bool × List Char
  | '-' :: cs => (true, cs)
  | '+' :: cs => (false, cs)
  | cs => (false, cs)

/-- The letter that marks a base after a zero. -/
def baseLetter? : Nat → Option Char
  | 2 => some 'b'
  | 8 => some 'o'
  | 16 => some 'x'
  | _ => none

/-- The number without the mark of its base, which an underscore may follow. -/
def dropBaseMark (base : Nat) : List Char → List Char
  | '0' :: c :: cs =>
    if baseLetter? base = some c.toLower then
      match cs with
      | '_' :: cs => cs
      | cs => cs
    else '0' :: c :: cs
  | cs => cs

/-- Digits with single underscores between them. -/
def isGrouped : List Char → Bool
  | [] | ['_'] => false
  | '_' :: _ => false
  | [_] => true
  | _ :: '_' :: cs => isGrouped cs
  | _ :: cs => isGrouped cs

def valueOf (base : Nat) (digits : List Char) : Nat :=
  digits.foldl (fun n c => base * n + (digitValue? base c).getD 0) 0

/-- The most digits that a number may be read from or written with. -/
def maxDigits : Nat := 4300

/-- Why a text writes no whole number: it has not the form of one, or too many digits. -/
inductive WholeFault where
  | form
  | digits (count : Nat)
deriving DecidableEq, Repr

/-- The whole number to a base that a text writes. -/
def whole (base : Nat) (s : String) : Except WholeFault Int :=
  let (negative, cs) := signed ((s.toList.map numberChar).dropWhile isSpace)
  let (run, rest) := (dropBaseMark base cs).span fun c => c = '_' || (digitValue? base c).isSome
  let digits := run.filter (· ≠ '_')
  if !isGrouped run then .error .form
  else if (baseLetter? base).isNone && maxDigits < digits.length then .error (.digits digits.length)
  else if !rest.all isSpace then .error .form
  else
    let n := valueOf base digits
    .ok (if negative then -(n : Int) else n)

end RestconfApi.Text
