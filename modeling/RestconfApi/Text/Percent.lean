import RestconfApi.Text.Blank

/-!
# Text: percent encoding

Bytes written as a percent sign with two hexadecimal digits, and the pairs of a query.
-/

namespace RestconfApi.Text

def hexDigit? (c : Char) : Option Nat :=
  if '0' ≤ c && c ≤ '9' then some (c.toNat - '0'.toNat)
  else if 'a' ≤ c && c ≤ 'f' then some (c.toNat - 'a'.toNat + 10)
  else if 'A' ≤ c && c ≤ 'F' then some (c.toNat - 'A'.toNat + 10)
  else none

/-- The bytes of a text, its escapes decoded. -/
def percentBytes : List Char → List UInt8
  | '%' :: a :: b :: rest =>
    match hexDigit? a, hexDigit? b with
    | some high, some low => UInt8.ofNat (16 * high + low) :: percentBytes rest
    | _, _ => 0x25 :: percentBytes (a :: b :: rest)
  | c :: cs => (String.singleton c).toUTF8.toList ++ percentBytes cs
  | [] => []

/-- The text without its escapes. One whose bytes are no text stays as it is. -/
def percentDecoded (s : String) : String :=
  (String.fromUTF8? ⟨(percentBytes s.toList).toArray⟩).getD s

/-- The names and values of a query, in which plus signs stand for blanks. -/
def queryPairs (query : String) : List (String × String) :=
  let decoded (cs : List Char) : String :=
    percentDecoded (String.ofList (cs.map fun c => if c = '+' then ' ' else c))
  ((pieces '&' query).filter (· ≠ "")).map fun pair =>
    match cutFirst '=' pair.toList with
    | some (name, value) => (decoded name, decoded value)
    | none => (decoded pair.toList, "")

end RestconfApi.Text
