import RestconfApi.Failure
import RestconfApi.Text.Quoted

/-!
# Text: UTF-8

The text that bytes encode, or where and why they are no text. A sequence is refused at its first byte;
the bytes that count as wrong are those up to the one that cannot follow. A text has bytes unless it
holds halves of surrogate pairs, of which the first ones in a row are at fault.
-/

namespace RestconfApi.Text.Utf8

/-- How a sequence goes on after its first byte: the number of further bytes, the range of the second
one, and the part that the first byte has in the character. -/
structure Lead where
  tails : Nat
  low : Nat
  high : Nat
  bits : Nat

def lead? (b : Nat) : Option Lead :=
  if b < 0x80 then some ⟨0, 0, 0, b⟩
  else if 0xc2 ≤ b && b ≤ 0xdf then some ⟨1, 0x80, 0xbf, b - 0xc0⟩
  else if b == 0xe0 then some ⟨2, 0xa0, 0xbf, 0⟩
  else if b == 0xed then some ⟨2, 0x80, 0x9f, 0xd⟩
  else if 0xe1 ≤ b && b ≤ 0xef then some ⟨2, 0x80, 0xbf, b - 0xe0⟩
  else if b == 0xf0 then some ⟨3, 0x90, 0xbf, 0⟩
  else if 0xf1 ≤ b && b ≤ 0xf3 then some ⟨3, 0x80, 0xbf, b - 0xf0⟩
  else if b == 0xf4 then some ⟨3, 0x80, 0x8f, 4⟩
  else none

/-- The bytes that rightly follow a first byte, as many as there are. -/
def tailsOf (l : Lead) (bs : List Nat) : List Nat :=
  match bs.take l.tails with
  | [] => []
  | b :: more =>
    if l.low ≤ b && b ≤ l.high then b :: more.takeWhile (fun b => 0x80 ≤ b && b ≤ 0xbf) else []

/-- The character of a first byte and the bytes after it. -/
def charOf (l : Lead) (tails : List Nat) : Char :=
  Char.ofNat (tails.foldl (fun n b => 64 * n + (b - 0x80)) l.bits)

/-- The fault of `count + 1` bytes from a position on. -/
def fault (first position count : Nat) (reason : String) : EncodingFault :=
  if count = 0 then .byte (hex 2 first) position reason else .bytes position (position + count) reason

/-- Decodes the bytes from a position on. -/
def decodeFrom (position : Nat) : List Nat → Except EncodingFault (List Char)
  | [] => .ok []
  | b :: bs =>
    match lead? b with
    | none => .error (fault b position 0 "invalid start byte")
    | some l =>
      let tails := tailsOf l bs
      if tails.length = l.tails then do
        let cs ← decodeFrom (position + 1 + tails.length) (bs.drop tails.length)
        .ok (charOf l tails :: cs)
      else if tails.length = bs.length then
        .error (fault b position tails.length "unexpected end of data")
      else .error (fault b position tails.length "invalid continuation byte")
termination_by bs => bs.length
decreasing_by
  simp only [List.length_cons, List.length_drop]
  omega

def decode (bytes : List UInt8) : Except EncodingFault String :=
  (decodeFrom 0 (bytes.map (·.toNat))).map String.ofList

def encode (s : String) : Except EncodingFault (List UInt8) :=
  let before := s.toList.takeWhile fun c => !isHalf c
  match (s.toList.drop before.length).takeWhile isHalf with
  | [] => .ok s.toUTF8.toList
  | [c] => .error (.half (hex 4 (code c)) before.length)
  | cs => .error (.halves before.length (before.length + cs.length - 1))

end RestconfApi.Text.Utf8
