/-!
# Text: base 64

Bytes as a text of letters, digits and two further signs, six bits to a character, and the bytes that
such a text writes.
-/

namespace RestconfApi.Text.Base64

/-- The value of a character. -/
def sextet? (c : Char) : Option Nat :=
  if 'A' ≤ c && c ≤ 'Z' then some (c.toNat - 'A'.toNat)
  else if 'a' ≤ c && c ≤ 'z' then some (c.toNat - 'a'.toNat + 26)
  else if '0' ≤ c && c ≤ '9' then some (c.toNat - '0'.toNat + 52)
  else if c = '+' then some 62
  else if c = '/' then some 63
  else none

/-- The character of a value below 64. -/
def charOf (n : Nat) : Char :=
  if n < 26 then Char.ofNat ('A'.toNat + n)
  else if n < 52 then Char.ofNat ('a'.toNat + (n - 26))
  else if n < 62 then Char.ofNat ('0'.toNat + (n - 52))
  else if n = 62 then '+'
  else '/'

/-! ### Reading -/

/-- The bytes of groups of four characters with six bits each; the last group may be shorter. -/
def bytesOf : List Nat → List UInt8
  | a :: b :: c :: d :: rest =>
    let n := ((a * 64 + b) * 64 + c) * 64 + d
    UInt8.ofNat (n / 65536) :: UInt8.ofNat (n / 256) :: UInt8.ofNat n :: bytesOf rest
  | [a, b, c] =>
    let n := (a * 64 + b) * 64 + c
    [UInt8.ofNat (n / 1024), UInt8.ofNat (n / 4)]
  | [a, b] => [UInt8.ofNat ((a * 64 + b) / 16)]
  | _ => []

/-- The values of the characters up to the padding that completes a group of four. `count` is the number
of characters in the current group and `pads` that of the padding signs since the last one of them. Other
characters are passed over; so are padding signs where a group has less than two characters. -/
def sextets? (count pads : Nat) : List Char → Option (List Nat)
  | [] => if count = 0 then some [] else none
  | c :: cs =>
    if c = '=' then
      if count < 2 then sextets? count pads cs
      else if 4 ≤ count + pads + 1 then some []
      else sextets? count (pads + 1) cs
    else
      match sextet? c with
      | some n => (sextets? ((count + 1) % 4) 0 cs).map (n :: ·)
      | none => sextets? count pads cs

/-- The bytes that a text writes. -/
def decode? (s : String) : Option (List UInt8) :=
  if s.toList.any (0x7f < ·.toNat) then none else (sextets? 0 0 s.toList).map bytesOf

/-! ### Writing -/

/-- The characters of groups of three bytes; the last group is padded. -/
def charsOf : List UInt8 → List Char
  | a :: b :: c :: rest =>
    let n := (a.toNat * 256 + b.toNat) * 256 + c.toNat
    charOf (n / 262144) :: charOf (n / 4096 % 64) :: charOf (n / 64 % 64) :: charOf (n % 64) ::
      charsOf rest
  | [a, b] =>
    let n := (a.toNat * 256 + b.toNat) * 4
    [charOf (n / 4096), charOf (n / 64 % 64), charOf (n % 64), '=']
  | [a] =>
    let n := a.toNat * 16
    [charOf (n / 64), charOf (n % 64), '=', '=']
  | [] => []

/-- The characters in lines of 76; the number bounds the lines. -/
def linesOf : Nat → List Char → List String
  | 0, _ => []
  | count + 1, cs =>
    if cs.isEmpty then [] else String.ofList (cs.take 76) :: linesOf count (cs.drop 76)

/-- The lines that write bytes. -/
def encode (bytes : List UInt8) : List String :=
  let cs := charsOf bytes
  linesOf (cs.length / 76 + 1) cs

end RestconfApi.Text.Base64
