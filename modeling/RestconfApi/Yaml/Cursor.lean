/-!
# YAML: characters and cursors

The classes of characters that the format tells apart, and a position in a text that counts lines and
columns.
-/

namespace RestconfApi.Yaml

def isBreak (c : Char) : Bool := c = '\n' || c = '\u0085' || c = '\u2028' || c = '\u2029'

/-- A line break as it is read: that of the C1 controls counts as a line feed. -/
def breakChar (c : Char) : Char := if c = '\u0085' then '\n' else c

/-- The end of a text, a blank or a line break. -/
def endsWord (c : Option Char) : Bool :=
  match c with
  | none => true
  | some c => isBreak c || c = ' ' || c = '\t' || c = '\r' || c = '\x00'

/-- The end of a text, a space or a line break. -/
def endsField (c : Option Char) : Bool :=
  match c with
  | none => true
  | some c => isBreak c || c = ' '

def isTab (c : Char) : Bool := c = ' ' || c = '\t'

/-- Characters of the names of anchors, directives and tag handles. -/
def isNameChar (c : Char) : Bool := c.isAlphanum || c = '-' || c = '_'

/-- Characters that a text may hold at all. -/
def isAllowed (c : Char) : Bool :=
  let n := c.toNat
  n == 0x9 || n == 0xa || n == 0xd || (0x20 ≤ n && n ≤ 0x7e) || n == 0x85 ||
    (0xa0 ≤ n && n ≤ 0xfffd) || 0x10000 ≤ n

/-- The rest of a text, with the number of characters before it and its line and column. A byte order
mark takes no column. -/
structure Cursor where
  rest : List Char
  index : Nat := 0
  line : Nat := 0
  column : Nat := 0

namespace Cursor

def ofString (s : String) : Cursor := { rest := s.toList }

/-- The next character, if there is one. -/
def head? (c : Cursor) : Option Char := c.rest.head?

/-- The character after the next one. -/
def second? (c : Cursor) : Option Char := c.rest.tail.head?

def step (c : Cursor) : Cursor :=
  match c.rest with
  | [] => c
  | ch :: rest =>
    if isBreak ch then ⟨rest, c.index + 1, c.line + 1, 0⟩
    else ⟨rest, c.index + 1, c.line, if ch = '\ufeff' then c.column else c.column + 1⟩

def skip : Nat → Cursor → Cursor
  | 0, c => c
  | n + 1, c => skip n c.step

/-- The longest run of such characters, and the cursor after it. -/
def run (p : Char → Bool) (c : Cursor) : List Char × Cursor :=
  let taken := c.rest.takeWhile p
  (taken, c.skip taken.length)

def skipWhile (p : Char → Bool) (c : Cursor) : Cursor := (c.run p).2

/-- Whether the next character is so. -/
def sees (p : Char → Bool) (c : Cursor) : Bool := c.head?.any p

/-- Whether a mark between documents follows. -/
def seesMark (mark : String) (c : Cursor) : Bool :=
  mark.toList.isPrefixOf c.rest && endsWord (c.rest.drop 3).head?

def seesDocumentMark (c : Cursor) : Bool := c.seesMark "---" || c.seesMark "..."

/-- The cursor after a comment, if there is one. -/
def skipComment (c : Cursor) : Cursor :=
  if c.head? = some '#' then c.skipWhile (!isBreak ·) else c

/-- The line break at the cursor, if there is one. -/
def lineBreak (c : Cursor) : List Char × Cursor :=
  match c.head? with
  | some ch => if isBreak ch then ([breakChar ch], c.step) else ([], c)
  | none => ([], c)

/-- The cursor after the rest of a line on which only a comment may stand. -/
def endLine? (c : Cursor) : Option Cursor :=
  let c := (c.skipWhile (· = ' ')).skipComment
  match c.head? with
  | none => some c
  | some ch => if isBreak ch then some c.step else none

end Cursor

end RestconfApi.Yaml
