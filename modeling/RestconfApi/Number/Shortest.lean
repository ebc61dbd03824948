import RestconfApi.Number.Double

/-!
# Numbers: shortest decimal text

The fewest decimal digits that read back as the same number, the nearest of those, and their text:
positional from `0.0001` up to sixteen digits before the point, with an exponent otherwise.
-/

namespace RestconfApi.Double

/-- The numbers that round to `m * 2 ^ e`, in units of `2 ^ (e - 2)`: both ends, which belong to the
interval when `m` is even. -/
def interval (m : Nat) (e : Int) : Nat × Nat :=
  (if m = power 2 52 ∧ -1074 < e then 4 * m - 1 else 4 * m - 2, 4 * m + 2)

/-- Compares `a * 2 ^ e` with `b * 10 ^ k`. -/
def compareScaled (a : Nat) (e : Int) (b : Nat) (k : Int) : Ordering :=
  compare (a * power 2 e * power 10 (-k)) (b * power 10 k * power 2 (-e))

/-- `d * 10 ^ k` rounds to `m * 2 ^ e`. -/
def readsBack (m : Nat) (e : Int) (d : Nat) (k : Int) : Bool :=
  let (lo, hi) := interval m e
  let low := compareScaled lo (e - 2) d k
  let high := compareScaled hi (e - 2) d k
  if m % 2 == 0 then low != .gt && high != .lt else low == .lt && high == .gt

def digitCount (n : Nat) : Nat := (Nat.toDigits 10 n).length

/-- The position of the decimal point: the `p` with `10 ^ (p - 1) ≤ m * 2 ^ e < 10 ^ p`. -/
def pointPosition (m : Nat) (e : Int) : Int :=
  let whole := m * power 2 e / power 2 (-e)
  if whole ≠ 0 then digitCount whole
  else
    let zeros := (List.range 330).find? fun (k : Nat) => compareScaled m e 1 (-(k : Int)) != .lt
    1 - (zeros.getD 330 : Int)

/-- The neighbour of `m * 2 ^ e` on the grid `10 ^ k` that reads back, the nearer one of two. -/
def onGrid (m : Nat) (e k : Int) : Option Nat :=
  let n := m * power 2 e * power 10 (-k)
  let d := power 10 k * power 2 (-e)
  let below := n / d
  let nearest := roundDiv n d
  let other := if nearest = below then below + 1 else below
  [nearest, other].find? fun c => readsBack m e c k

/-- Removes the zeros at the end of `d`, of which there are fewer than `fuel`. -/
def stripZeros : Nat → Nat → Int → Nat × Int
  | 0, d, k => (d, k)
  | fuel + 1, d, k => if d ≠ 0 ∧ d % 10 = 0 then stripZeros fuel (d / 10) (k + 1) else (d, k)

/-- The shortest decimal `d * 10 ^ k` for `m * 2 ^ e`, which is not zero. -/
def shortest (m : Nat) (e : Int) : Nat × Int :=
  let p := pointPosition m e
  let grids := (List.range 17).map fun (i : Nat) => p - (i : Int) - 1
  match grids.findSome? fun k => (onGrid m e k).map (·, k) with
  | some (d, k) => stripZeros 20 d k
  | none => (m, e)

def zeroText (n : Nat) : String := String.ofList (List.replicate n '0')

/-- The text of `d * 10 ^ k`. -/
def decimalText (d : Nat) (k : Int) : String :=
  let digits := toString d
  let size := digits.length
  let point : Int := size + k
  if -4 < point && point ≤ 16 then
    if point ≤ 0 then "0." ++ zeroText (-point).toNat ++ digits
    else if (size : Int) ≤ point then digits ++ zeroText (point.toNat - size) ++ ".0"
    else
      String.ofList (digits.toList.take point.toNat) ++ "." ++
        String.ofList (digits.toList.drop point.toNat)
  else
    let power := point - 1
    let size := toString power.natAbs
    let mantissa :=
      match digits.toList with
      | [] => ""
      | [c] => String.ofList [c]
      | c :: cs => String.ofList (c :: '.' :: cs)
    mantissa ++ "e" ++ (if power < 0 then "-" else "+") ++
      (if size.length < 2 then "0" ++ size else size)

/-- The text of a number, with the words for what is not finite. -/
def text (infinity nan : String) : Double → String
  | .finite negative m e =>
    let sign := if negative then "-" else ""
    if m = 0 then sign ++ "0.0"
    else
      let (d, k) := shortest m e
      sign ++ decimalText d k
  | .infinite negative => (if negative then "-" else "") ++ infinity
  | .nan => nan

end RestconfApi.Double
