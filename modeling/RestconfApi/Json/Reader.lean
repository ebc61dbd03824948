import RestconfApi.Datum.Basic
import RestconfApi.Entries
import RestconfApi.Text.CodePoint
import RestconfApi.Text.Integer

/-!
# JSON: reading

A text read as one value. The words `NaN`, `Infinity` and `-Infinity` are numbers, whole numbers keep
all their digits, and of equal keys the last value stays at the place of the first. The mark of a list or
an object is the place after its opening bracket. What cannot be read is reported with its cause and its
place.
-/

namespace RestconfApi.Json

inductive Cause where
  | byteOrderMark
  | noValue
  | noPropertyName
  | noColon
  | noComma
  | extraData
  | unterminated
  | controlCharacter
  | escape
  | unicodeEscape
  | tooManyDigits (count : Nat)
deriving DecidableEq, Repr

def Cause.message : Cause → String
  | .byteOrderMark => "Unexpected UTF-8 BOM (decode using utf-8-sig)"
  | .noValue => "Expecting value"
  | .noPropertyName => "Expecting property name enclosed in double quotes"
  | .noColon => "Expecting ':' delimiter"
  | .noComma => "Expecting ',' delimiter"
  | .extraData => "Extra data"
  | .unterminated => "Unterminated string starting at"
  | .controlCharacter => "Invalid control character at"
  | .escape => "Invalid \\escape"
  | .unicodeEscape => "Invalid \\uXXXX escape"
  | .tooManyDigits _ => "Too many digits"

/-- What is wrong with a text, and at which character. -/
structure Fault where
  cause : Cause
  place : Nat
deriving DecidableEq, Repr

/-- The cause with the line, the column and the number of the character, columns and lines from 1. -/
def Fault.message (s : String) (f : Fault) : String :=
  let before := s.toList.take f.place
  let line := before.count '\n' + 1
  let column := (before.reverse.takeWhile (· ≠ '\n')).length + 1
  f.cause.message ++ s!": line {line} column {column} (char {f.place})"

/-- The rest of a text and the number of the characters before it. -/
structure Cursor where
  rest : List Char
  place : Nat

namespace Cursor

def fail {α : Type} (c : Cursor) (cause : Cause) : Except Fault α := .error ⟨cause, c.place⟩

def isSpace (c : Char) : Bool := c = ' ' || c = '\t' || c = '\n' || c = '\r'

def skipFrom : List Char → Nat → Cursor
  | [], n => ⟨[], n⟩
  | c :: cs, n => if isSpace c then skipFrom cs (n + 1) else ⟨c :: cs, n⟩

/-- The cursor after the blanks. -/
def skip (c : Cursor) : Cursor := skipFrom c.rest c.place

/-- The cursor `n` characters on. -/
def advance (c : Cursor) (n : Nat) : Cursor := ⟨c.rest.drop n, c.place + n⟩

end Cursor

/-! ### Texts -/

def hexValue? (c : Char) : Option Nat :=
  if '0' ≤ c ∧ c ≤ '9' then some (c.toNat - '0'.toNat)
  else if 'a' ≤ c ∧ c ≤ 'f' then some (c.toNat - 'a'.toNat + 10)
  else if 'A' ≤ c ∧ c ≤ 'F' then some (c.toNat - 'A'.toNat + 10)
  else none

/-- The UTF-16 unit that four digits write. -/
def unit? (a b c d : Char) : Option Nat := do
  let a ← hexValue? a
  let b ← hexValue? b
  let c ← hexValue? c
  let d ← hexValue? d
  some (((a * 16 + b) * 16 + c) * 16 + d)

def simpleEscape? (c : Char) : Option Char :=
  match c with
  | '"' => some '"'
  | '\\' => some '\\'
  | '/' => some '/'
  | 'b' => some '\x08'
  | 'f' => some '\x0c'
  | 'n' => some '\n'
  | 'r' => some '\r'
  | 't' => some '\t'
  | _ => none

/-- Reads a text up to its closing quote. `start` is the place of the opening quote, `read` holds the
characters so far, last one first. An escape of four digits needs a character after it. -/
def textFrom (start : Nat) (read : List Char) : List Char → Nat → Except Fault (String × Cursor)
  | [], _ => .error ⟨.unterminated, start⟩
  | '"' :: rest, n => .ok (String.ofList read.reverse, ⟨rest, n + 1⟩)
  | '\\' :: 'u' :: a :: b :: c :: d :: rest, n =>
    match rest, unit? a b c d with
    | [], _ => .error ⟨.unicodeEscape, n + 1⟩
    | _, none => .error ⟨.unicodeEscape, n + 1⟩
    | '\\' :: 'u' :: e :: f :: g :: h :: x :: rest, some u =>
      if Text.isHighHalf u then
        match unit? e f g h with
        | none => .error ⟨.unicodeEscape, n + 7⟩
        | some v =>
          if Text.isLowHalf v then textFrom start (Char.ofNat (Text.paired u v) :: read) (x :: rest) (n + 12)
          else textFrom start (Text.ofCode u :: read) ('\\' :: 'u' :: e :: f :: g :: h :: x :: rest) (n + 6)
      else textFrom start (Text.ofCode u :: read) ('\\' :: 'u' :: e :: f :: g :: h :: x :: rest) (n + 6)
    | rest, some u => textFrom start (Text.ofCode u :: read) rest (n + 6)
  | '\\' :: 'u' :: _, n => .error ⟨.unicodeEscape, n + 1⟩
  | ['\\'], _ => .error ⟨.unterminated, start⟩
  | '\\' :: c :: rest, n =>
    match simpleEscape? c with
    | some e => textFrom start (e :: read) rest (n + 2)
    | none => .error ⟨.escape, n⟩
  | c :: rest, n =>
    if c.toNat < 0x20 then .error ⟨.controlCharacter, n⟩ else textFrom start (c :: read) rest (n + 1)

/-! ### Numbers -/

def isDigit (c : Char) : Bool := '0' ≤ c && c ≤ '9'

def natOfDigits (cs : List Char) : Nat := cs.foldl (fun n c => 10 * n + (c.toNat - '0'.toNat)) 0

/-- The digits of a whole number: a zero stands alone. -/
def wholeDigits : List Char → List Char
  | '0' :: _ => ['0']
  | cs => cs.takeWhile isDigit

def fractionDigits : List Char → List Char
  | '.' :: cs => cs.takeWhile isDigit
  | _ => []

/-- The sign of an exponent, its digits, and the number of characters it takes, none without digits. -/
def exponent : List Char → Bool × List Char × Nat
  | c :: cs =>
    if c = 'e' || c = 'E' then
      let (negative, size, cs) :=
        match cs with
        | '-' :: cs => (true, 2, cs)
        | '+' :: cs => (false, 2, cs)
        | cs => (false, 1, cs)
      let digits := cs.takeWhile isDigit
      (negative, digits, if digits.isEmpty then 0 else size + digits.length)
    else (false, [], 0)
  | [] => (false, [], 0)

/-- The number at the start of a text and the count of its characters. -/
def number? (cs : List Char) : Option (Datum × Nat) :=
  let negative := cs.head? = some '-'
  let cs := if negative then cs.drop 1 else cs
  let whole := wholeDigits cs
  if whole.isEmpty then none
  else
    let cs := cs.drop whole.length
    let fraction := fractionDigits cs
    let fractionSize := if fraction.isEmpty then 0 else fraction.length + 1
    let (smaller, power, powerSize) := exponent (cs.drop fractionSize)
    let size := (if negative then 1 else 0) + whole.length + fractionSize + powerSize
    let digits := natOfDigits (whole ++ fraction)
    if fractionSize = 0 ∧ powerSize = 0 then
      some (.int (if negative then -(digits : Int) else digits), size)
    else
      let power : Int := natOfDigits power
      let power := (if smaller then -power else power) - fraction.length
      some (.float (Double.ofDecimal negative digits power), size)

/-! ### Values -/

def startsWith (word : String) (cs : List Char) : Bool := word.toList.isPrefixOf cs

def word? (cs : List Char) : Option (Datum × Nat) :=
  if startsWith "null" cs then some (.null, 4)
  else if startsWith "true" cs then some (.bool true, 4)
  else if startsWith "false" cs then some (.bool false, 5)
  else if startsWith "NaN" cs then some (.float .nan, 3)
  else if startsWith "Infinity" cs then some (.float (.infinite false), 8)
  else if startsWith "-Infinity" cs then some (.float (.infinite true), 9)
  else number? cs

mutual

/-- The value at the cursor, which stands on no blank. The first argument bounds the nesting. -/
def value : Nat → Cursor → Except Fault (Datum × Cursor)
  | 0, c => c.fail .noValue
  | fuel + 1, c =>
    let mark := c.place + 1
    match c.rest with
    | '"' :: rest => do
      let (s, c) ← textFrom c.place [] rest (c.place + 1)
      .ok (.text s, c)
    | '[' :: _ =>
      let c := (c.advance 1).skip
      match c.rest with
      | ']' :: _ => .ok (.list [] mark, c.advance 1)
      | _ => do
        let (items, c) ← elements fuel c
        .ok (.list items mark, c)
    | '\x7b' :: _ =>
      let c := (c.advance 1).skip
      match c.rest with
      | '\x7d' :: _ => .ok (.mapping [] mark, c.advance 1)
      | _ => do
        let (entries, c) ← members fuel [] c
        .ok (.mapping entries mark, c)
    | cs =>
      match word? cs with
      | some (.int m, n) =>
        let count := if m < 0 then n - 1 else n
        if Text.maxDigits < count then c.fail (.tooManyDigits count) else .ok (.int m, c.advance n)
      | some (d, n) => .ok (d, c.advance n)
      | none => c.fail .noValue

/-- The items of a list from the cursor to the closing bracket. -/
def elements : Nat → Cursor → Except Fault (List Datum × Cursor)
  | 0, c => c.fail .noValue
  | fuel + 1, c => do
    let (d, c) ← value fuel c
    let c := c.skip
    match c.rest with
    | ']' :: _ => .ok ([d], c.advance 1)
    | ',' :: _ => do
      let (ds, c) ← elements fuel (c.advance 1).skip
      .ok (d :: ds, c)
    | _ => c.fail .noComma

/-- The fields of an object from the cursor to the closing brace, after those already read. -/
def members : Nat → Entries Scalar Datum → Cursor → Except Fault (Entries Scalar Datum × Cursor)
  | 0, _, c => c.fail .noValue
  | fuel + 1, read, c =>
    match c.rest with
    | '"' :: rest => do
      let (name, c) ← textFrom c.place [] rest (c.place + 1)
      let c := c.skip
      match c.rest with
      | ':' :: _ => do
        let (d, c) ← value fuel (c.advance 1).skip
        let read := Entries.put (.text name) d read
        let c := c.skip
        match c.rest with
        | '\x7d' :: _ => .ok (read, c.advance 1)
        | ',' :: _ => members fuel read (c.advance 1).skip
        | _ => c.fail .noComma
      | _ => c.fail .noColon
    | _ => c.fail .noPropertyName

end

/-- The value that a text writes, blanks around it left out. -/
def read (s : String) : Except Fault Datum :=
  let cs := s.toList
  if cs.head? = some '\ufeff' then .error ⟨.byteOrderMark, 0⟩
  else do
    let (d, c) ← value (2 * cs.length + 2) (Cursor.skip ⟨cs, 0⟩)
    let c := c.skip
    if c.rest.isEmpty then .ok d else c.fail .extraData

end RestconfApi.Json
