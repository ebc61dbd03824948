import RestconfApi.Number.Double
import RestconfApi.Text.Integer

/-!
# Text: decimal numbers

The reading of floating point numbers: digits with a point somewhere, a power of ten, and the words for
what is not finite. Blanks around the number and a sign are allowed.
-/

namespace RestconfApi.Text

/-- The power of ten that follows the digits of a number; nothing left out counts as zero. -/
def power? : List Char → Option Int
  | [] => some 0
  | c :: cs =>
    let (negative, digits) := signed cs
    if (c = 'e' || c = 'E') && !digits.isEmpty && digits.all (digitValue? 10 · |>.isSome) then
      let n := valueOf 10 digits
      some (if negative then -(n : Int) else n)
    else none

/-- The number that unsigned characters without blanks write. -/
def unsignedDecimal? (negative : Bool) (cs : List Char) : Option Double :=
  let isDigit (c : Char) : Bool := (digitValue? 10 c).isSome
  let word := cs.map Char.toLower
  if word = "inf".toList || word = "infinity".toList then some (.infinite negative)
  else if word = "nan".toList then some .nan
  else
    let (head, rest) := cs.span isDigit
    let (fraction, rest) :=
      match rest with
      | '.' :: rest => rest.span isDigit
      | rest => ([], rest)
    if head.isEmpty && fraction.isEmpty then none
    else
      (power? rest).map fun n =>
        Double.ofDecimal negative (valueOf 10 (head ++ fraction)) (n - fraction.length)

/-- The floating point number that a text writes. -/
def decimal? (s : String) : Option Double :=
  let cs := (s.toList.map numberChar).dropWhile isSpace
  let cs := (cs.reverse.dropWhile isSpace).reverse
  let (negative, cs) := signed cs
  unsignedDecimal? negative cs

end RestconfApi.Text
