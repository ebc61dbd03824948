import RestconfApi.Json.Reader
import RestconfApi.Text.Utf8

/-!
# JSON: encoded texts

Bytes that hold JSON may be in any of the encodings of Unicode. A byte order mark tells which one it is, or
else the places of the zero bytes among the first ones, since JSON starts with an ASCII character.
-/

namespace RestconfApi.Json

inductive Encoding where
  | utf8
  | utf16 (isBig : Bool)
  | utf32 (isBig : Bool)
deriving DecidableEq, Repr

/-- The number that some bytes write together. -/
def ofBytes (isBig : Bool) (bs : List Nat) : Nat :=
  (if isBig then bs else bs.reverse).foldl (fun n b => 256 * n + b) 0

/-- The numbers of 16 bits that bytes write, if nothing is left over. -/
def units16? (isBig : Bool) : List Nat → Option (List Nat)
  | [] => some []
  | a :: b :: bs => (units16? isBig bs).map (ofBytes isBig [a, b] :: ·)
  | _ => none

/-- The numbers of 32 bits that bytes write, if nothing is left over. -/
def units32? (isBig : Bool) : List Nat → Option (List Nat)
  | [] => some []
  | a :: b :: c :: d :: bs => (units32? isBig bs).map (ofBytes isBig [a, b, c, d] :: ·)
  | _ => none

/-- The characters of numbers of 16 bits, of which two may write one character. -/
def ofUnits16 : List Nat → List Char
  | [] => []
  | [n] => [Text.ofCode n]
  | n :: m :: ns =>
    if Text.isHighHalf n && Text.isLowHalf m then Char.ofNat (Text.paired n m) :: ofUnits16 ns
    else Text.ofCode n :: ofUnits16 (m :: ns)

def ofUnits32? (ns : List Nat) : Option (List Char) :=
  if ns.all (· ≤ 0x10ffff) then some (ns.map Text.ofCode) else none

namespace Encoding

/-- The characters that bytes write, if they are in the encoding. -/
def decode? (bs : List Nat) : Encoding → Option (List Char)
  | .utf8 => (Text.Utf8.decodeFrom 0 bs).toOption
  | .utf16 isBig => (units16? isBig bs).map ofUnits16
  | .utf32 isBig => (units32? isBig bs).bind ofUnits32?

/-- The encoding that a byte order mark tells, and the bytes after the mark. -/
def marked? : List Nat → Option (Encoding × List Nat)
  | 0x00 :: 0x00 :: 0xfe :: 0xff :: bs => some (.utf32 true, bs)
  | 0xff :: 0xfe :: 0x00 :: 0x00 :: bs => some (.utf32 false, bs)
  | 0xfe :: 0xff :: bs => some (.utf16 true, bs)
  | 0xff :: 0xfe :: bs => some (.utf16 false, bs)
  | 0xef :: 0xbb :: 0xbf :: bs => some (.utf8, bs)
  | _ => none

/-- The encoding that the zeros among the first bytes tell. -/
def guessed : List Nat → Encoding
  | 0 :: 0 :: _ :: _ :: _ => .utf32 true
  | 0 :: _ :: _ :: _ :: _ => .utf16 true
  | _ :: 0 :: 0 :: 0 :: _ => .utf32 false
  | _ :: 0 :: _ :: _ :: _ => .utf16 false
  | [0, _] => .utf16 true
  | [_, 0] => .utf16 false
  | _ => .utf8

end Encoding

/-- The text that bytes hold, if they are in the encoding that they seem to be in. -/
def textOf? (bytes : List UInt8) : Option String :=
  let bs := bytes.map (·.toNat)
  let (encoding, bs) := (Encoding.marked? bs).getD (Encoding.guessed bs, bs)
  (encoding.decode? bs).map String.ofList

end RestconfApi.Json
