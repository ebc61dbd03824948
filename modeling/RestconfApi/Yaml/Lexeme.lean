import RestconfApi.Text.CodePoint
import RestconfApi.Yaml.Cursor

/-!
# YAML: lexemes

The single marks of the format: plain, quoted and block scalars, anchors, tags and directives. Each is
read from a cursor that stands at its first character, and given with the cursor after it.
-/

namespace RestconfApi.Yaml

/-- Why a text has no lexeme at a place: its form, or a code that is beyond all characters. -/
inductive LexemeFault where
  | form
  | code (n : Nat)
deriving DecidableEq, Repr

/-- What is read if the form is right. -/
def inForm {α : Type} : Option α → Except LexemeFault α
  | some a => .ok a
  | none => .error .form

/-! ### Plain scalars -/

/-- The characters of a plain scalar up to the next blank. Inside brackets fewer characters are
plain. -/
def plainRun (inFlow : Bool) : List Char → List Char
  | [] => []
  | c :: cs =>
    let flowMark (c : Char) : Bool := inFlow && [',', '[', ']', '\x7b', '\x7d'].contains c
    if endsWord (some c) || flowMark c || (inFlow && c = '?') ||
        (c = ':' && (endsWord cs.head? || cs.head?.any flowMark)) then []
    else c :: plainRun inFlow cs

/-- The line breaks between two lines of a plain scalar, nothing before a mark between documents. The
number bounds the steps. -/
def plainBreaks : Nat → List Char → Cursor → Option (List Char) × Cursor
  | 0, read, c => (some read, c)
  | fuel + 1, read, c =>
    match c.head? with
    | some ' ' => plainBreaks fuel read c.step
    | some ch =>
      if isBreak ch then
        let c := c.step
        let read := read ++ [breakChar ch]
        if c.seesDocumentMark then (none, c) else plainBreaks fuel read c
      else (some read, c)
    | none => (some read, c)

/-- A line break and further ones as they are read: a single line feed is a blank. -/
def foldedBreaks (first : Char) (more : List Char) : List Char :=
  if first ≠ '\n' then first :: more else if more.isEmpty then [' '] else more

/-- The blanks between two words of a plain scalar, empty at its end, and whether they held a line
break. -/
def plainBlanks (c : Cursor) : List Char × Bool × Cursor :=
  let (blanks, c) := c.run (· = ' ')
  match c.head? with
  | some ch =>
    if isBreak ch then
      let c := c.step
      if c.seesDocumentMark then ([], true, c)
      else
        match plainBreaks c.rest.length [] c with
        | (some more, c) => (foldedBreaks (breakChar ch) more, true, c)
        | (none, c) => ([], true, c)
    else (blanks, false, c)
  | none => (blanks, false, c)

/-- Reads on after the characters `read` and the blanks `held`. -/
def plainFrom (inFlow : Bool) (indent : Int) :
    Nat → List Char → List Char → Bool → Cursor → List Char × Bool × Cursor
  | 0, read, _, broke, c => (read, broke, c)
  | fuel + 1, read, held, broke, c =>
    let taken := plainRun inFlow c.rest
    if c.head? = some '#' || taken.isEmpty then (read, broke, c)
    else
      let read := read ++ held ++ taken
      let (blanks, broke, c) := plainBlanks (c.skip taken.length)
      if blanks.isEmpty || c.head? = some '#' || (!inFlow && (c.column : Int) < indent) then
        (read, broke, c)
      else plainFrom inFlow indent fuel read blanks broke c

/-- A plain scalar in a block of the given indentation, and whether a line break follows it. -/
def plainScalar (inFlow : Bool) (indent : Int) (c : Cursor) : String × Bool × Cursor :=
  let (read, broke, c) := plainFrom inFlow (indent + 1) (c.rest.length + 1) [] [] false c
  (String.ofList read, broke, c)

/-! ### Quoted scalars -/

def escapes : List (Char × Char) := [
  ('0', '\x00'), ('a', '\x07'), ('b', '\x08'), ('t', '\t'), ('\t', '\t'), ('n', '\n'),
  ('v', '\x0b'), ('f', '\x0c'), ('r', '\r'), ('e', '\x1b'), (' ', ' '), ('"', '"'), ('\\', '\\'),
  ('/', '/'), ('N', '\u0085'), ('_', '\u00a0'), ('L', '\u2028'), ('P', '\u2029')]

def hexDigit? (c : Char) : Option Nat :=
  if '0' ≤ c && c ≤ '9' then some (c.toNat - '0'.toNat)
  else if 'a' ≤ c && c ≤ 'f' then some (c.toNat - 'a'.toNat + 10)
  else if 'A' ≤ c && c ≤ 'F' then some (c.toNat - 'A'.toNat + 10)
  else none

/-- The number of so many hexadecimal digits. -/
def hexNumber? (digits : Nat) (cs : List Char) : Option Nat := do
  let values ← (cs.take digits).mapM hexDigit?
  if values.length = digits then some (values.foldl (fun n d => 16 * n + d) 0) else none

def codeDigits? : Char → Option Nat
  | 'x' => some 2
  | 'u' => some 4
  | 'U' => some 8
  | _ => none

/-- The character of a code. -/
def charOfCode (n : Nat) : Except LexemeFault Char :=
  if 0x10ffff < n then .error (.code n) else .ok (Text.ofCode n)

/-- The line breaks between two lines of a quoted scalar, which no mark between documents may
interrupt. -/
def quotedBreaks : Nat → List Char → Cursor → Option (List Char × Cursor)
  | 0, _, _ => none
  | fuel + 1, read, c =>
    if c.seesDocumentMark then none
    else
      let c := c.skipWhile isTab
      match c.lineBreak with
      | ([], _) => some (read, c)
      | (lineBreak, c) => quotedBreaks fuel (read ++ lineBreak) c

/-- What a backslash and the characters after it stand for; the cursor stands after the backslash. -/
def escaped (c : Cursor) : Except LexemeFault (List Char × Cursor) := do
  let ch ← inForm c.head?
  match escapes.lookup ch with
  | some meant => .ok ([meant], c.step)
  | none =>
    match codeDigits? ch with
    | some digits =>
      let n ← inForm (hexNumber? digits c.rest.tail)
      let meant ← charOfCode n
      .ok ([meant], c.skip (digits + 1))
    | none =>
      if isBreak ch then inForm (quotedBreaks (c.rest.length + 1) [] c.step) else .error .form

/-- Blanks inside of quotes; those around a line break are dropped. -/
def quotedBlanks (c : Cursor) : Option (List Char × Cursor) :=
  let (blanks, c) := c.run isTab
  match c.head? with
  | none => none
  | some ch =>
    if isBreak ch then do
      let (more, c) ← quotedBreaks (c.rest.length + 1) [] c.step
      some (foldedBreaks (breakChar ch) more, c)
    else some (blanks, c)

/-- Reads on to the closing quote. -/
def quotedFrom (quote : Char) : Nat → List Char → Cursor → Except LexemeFault (List Char × Cursor)
  | 0, _, _ => .error .form
  | fuel + 1, read, c => do
    let ch ← inForm c.head?
    if ch = quote then
      if quote = '\'' && c.second? = some '\'' then quotedFrom quote fuel (read ++ ['\'']) (c.skip 2)
      else .ok (read, c.step)
    else if quote = '"' && ch = '\\' then
      let (meant, c) ← escaped c.step
      quotedFrom quote fuel (read ++ meant) c
    else if isTab ch || isBreak ch then
      let (blanks, c) ← inForm (quotedBlanks c)
      quotedFrom quote fuel (read ++ blanks) c
    else
      let (taken, c) := c.run fun ch => !(endsWord (some ch) || ch = '\'' || ch = '"' || ch = '\\')
      if taken.isEmpty then quotedFrom quote fuel (read ++ [ch]) c.step
      else quotedFrom quote fuel (read ++ taken) c

/-- A scalar between quotes. -/
def quotedScalar (quote : Char) (c : Cursor) : Except LexemeFault (String × Cursor) := do
  let (read, c) ← quotedFrom quote (c.rest.length + 1) [] c.step
  .ok (String.ofList read, c)

/-! ### Block scalars -/

/-- What happens to the line breaks at the end of a block scalar. -/
inductive Chomping where
  | strip
  | clip
  | keep
deriving DecidableEq, Repr

def chomping? : Option Char → Option Chomping
  | some '+' => some .keep
  | some '-' => some .strip
  | _ => none

/-- The digit that gives the indentation, nothing if there is none; zero is not allowed. -/
def indentDigit (c : Cursor) : Option (Option Nat × Cursor) :=
  match c.head? with
  | some ch =>
    if '0' < ch && ch ≤ '9' then some (some (ch.toNat - '0'.toNat), c.step)
    else if ch = '0' then none
    else some (none, c)
  | none => some (none, c)

/-- Chomping and indentation in either order. -/
def blockHeader (c : Cursor) : Option ((Chomping × Option Nat) × Cursor) :=
  match chomping? c.head? with
  | some chomping => do
    let (digit, c) ← indentDigit c.step
    some ((chomping, digit), c)
  | none => do
    let (digit, c) ← indentDigit c
    match digit, chomping? c.head? with
    | some _, some chomping => some ((chomping, digit), c.step)
    | _, _ => some ((.clip, digit), c)

/-- The line breaks before the first line of a block scalar, and the widest indentation among them. -/
def leadingBreaks : Nat → List Char → Nat → Cursor → List Char × Nat × Cursor
  | 0, read, widest, c => (read, widest, c)
  | fuel + 1, read, widest, c =>
    match c.head? with
    | some ' ' => leadingBreaks fuel read (max widest c.step.column) c.step
    | some ch =>
      if isBreak ch then leadingBreaks fuel (read ++ [breakChar ch]) widest c.step
      else (read, widest, c)
    | none => (read, widest, c)

/-- The cursor after the blanks before a column. -/
def skipIndent (indent : Nat) (c : Cursor) : Cursor :=
  let blanks := (c.rest.take (indent - c.column)).takeWhile (· = ' ')
  c.skip blanks.length

/-- The line breaks between two lines of a block scalar. -/
def blockBreaks (indent : Nat) : Nat → List Char → Cursor → List Char × Cursor
  | 0, read, c => (read, c)
  | fuel + 1, read, c =>
    let c := skipIndent indent c
    match c.lineBreak with
    | ([], _) => (read, c)
    | (lineBreak, c) => blockBreaks indent fuel (read ++ lineBreak) c

/-- The lines of a block scalar: what has been read, the line break after the last line and those after
it. -/
structure BlockText where
  read : List Char
  last : List Char
  breaks : List Char

/-- Reads the lines at an indentation. Folding turns a single line break between two lines that start
with no blank into a blank. -/
def blockLines (folds : Bool) (indent : Nat) : Nat → BlockText → Cursor → BlockText × Cursor
  | 0, t, c => (t, c)
  | fuel + 1, t, c =>
    if c.column ≠ indent || c.rest.isEmpty then (t, c)
    else
      let startsText := !c.sees isTab
      let (line, c) := c.run (!isBreak ·)
      let (last, c) := c.lineBreak
      let read := t.read ++ t.breaks ++ line
      let (breaks, c) := blockBreaks indent (c.rest.length + 1) [] c
      if c.column ≠ indent || c.rest.isEmpty then (⟨read, last, breaks⟩, c)
      else
        let joint :=
          if folds && last = ['\n'] && startsText && !c.sees isTab then
            if breaks.isEmpty then [' '] else []
          else last
        blockLines folds indent fuel ⟨read ++ joint, [], breaks⟩ c

/-- A block scalar below a block of the given indentation. -/
def blockScalar (folds : Bool) (indent : Int) (c : Cursor) : Option (String × Cursor) := do
  let ((chomping, digit), c) ← blockHeader c.step
  if !endsField c.head? then none
  else
    let c ← c.endLine?
    let least := (max 1 (indent + 1)).toNat
    let fuel := c.rest.length + 1
    let (indent, breaks, c) :=
      match digit with
      | none =>
        let (breaks, widest, c) := leadingBreaks fuel [] 0 c
        (max least widest, breaks, c)
      | some n =>
        let (breaks, c) := blockBreaks (least + n - 1) fuel [] c
        (least + n - 1, breaks, c)
    let (t, c) := blockLines folds indent fuel ⟨[], [], breaks⟩ c
    let ending :=
      match chomping with
      | .strip => []
      | .clip => t.last
      | .keep => t.last ++ t.breaks
    some (String.ofList (t.read ++ ending), c)

/-! ### Anchors and tags -/

/-- The name of an anchor or of a reference to one. -/
def anchorName (c : Cursor) : Option (String × Cursor) :=
  let (name, c) := c.step.run isNameChar
  let ends := endsWord c.head? ||
    c.sees ['?', ':', ',', ']', '\x7d', '%', '@', '\x60'].contains
  if name.isEmpty || !ends then none else some (String.ofList name, c)

/-- A tag handle: an exclamation mark, or a name between two of them. -/
def tagHandle (c : Cursor) : Option (String × Cursor) :=
  if c.head? ≠ some '!' then none
  else if c.second? = some ' ' then some ("!", c.step)
  else
    let (name, c) := c.step.run isNameChar
    if c.head? = some '!' then some ("!" ++ String.ofList name ++ "!", c.step) else none

/-- Characters of a tag besides letters and digits. -/
def tagMarks : List Char := "-;/?:@&=+$,_.!~*'()[]%".toList

/-- The bytes of a run of percent signs with two digits each. -/
def percentBytes : Nat → Cursor → Option (List UInt8 × Cursor)
  | 0, c => some ([], c)
  | fuel + 1, c =>
    if c.head? ≠ some '%' then some ([], c)
    else do
      let n ← hexNumber? 2 c.rest.tail
      let (more, c) ← percentBytes fuel (c.skip 3)
      some (UInt8.ofNat n :: more, c)

/-- The text of a tag, its escapes decoded. -/
def tagText : Nat → List Char → Cursor → Option (List Char × Cursor)
  | 0, read, c => some (read, c)
  | fuel + 1, read, c =>
    match c.head? with
    | some ch =>
      if ch = '%' then do
        let (bytes, c) ← percentBytes c.rest.length c
        let meant ← String.fromUTF8? ⟨bytes.toArray⟩
        tagText fuel (read ++ meant.toList) c
      else if ch.isAlphanum || tagMarks.contains ch then tagText fuel (read ++ [ch]) c.step
      else some (read, c)
    | none => some (read, c)

def tagUri (c : Cursor) : Option (String × Cursor) := do
  let (read, c') ← tagText (c.rest.length + 1) [] c
  if c'.index = c.index then none else some (String.ofList read, c')

/-- The tag of a node: its handle, unless it is written in full, and what follows. -/
def tag (c : Cursor) : Option ((Option String × String) × Cursor) := do
  let (found, c) ←
    if c.second? = some '<' then do
      let (uri, c) ← tagUri (c.skip 2)
      if c.head? = some '>' then some ((none, uri), c.step) else none
    else if endsWord c.second? then some ((none, "!"), c.step)
    else do
      let hasHandle := (c.rest.tail.takeWhile fun ch => !endsField (some ch)).contains '!'
      let (handle, c) ← if hasHandle then tagHandle c else some ("!", c.step)
      let (suffix, c) ← tagUri c
      some ((some handle, suffix), c)
  if endsField c.head? then some (found, c) else none

/-! ### Directives -/

/-- A line that starts with a percent sign: the version of the format, a tag handle with what it
stands for, or something else. -/
inductive Directive where
  | version (major : Nat)
  | handle (name meaning : String)
  | other
deriving DecidableEq, Repr

def decimal (c : Cursor) : Option (Nat × Cursor) :=
  let (digits, c) := c.run fun ch => '0' ≤ ch && ch ≤ '9'
  if digits.isEmpty then none
  else some (digits.foldl (fun n d => 10 * n + (d.toNat - '0'.toNat)) 0, c)

def versionDirective (c : Cursor) : Option (Directive × Cursor) := do
  let (major, c) ← decimal (c.skipWhile (· = ' '))
  if c.head? = some '.' then
    let (_, c) ← decimal c.step
    if endsField c.head? then some (.version major, c) else none
  else none

def handleDirective (c : Cursor) : Option (Directive × Cursor) := do
  let (name, c) ← tagHandle (c.skipWhile (· = ' '))
  if c.head? = some ' ' then
    let (meaning, c) ← tagUri (c.skipWhile (· = ' '))
    if endsField c.head? then some (.handle name meaning, c) else none
  else none

def directive (c : Cursor) : Option (Directive × Cursor) := do
  let (name, c) := c.step.run isNameChar
  if name.isEmpty || !endsField c.head? then none
  else
    let (found, c) ←
      match String.ofList name with
      | "YAML" => versionDirective c
      | "TAG" => handleDirective c
      | _ => some (.other, c.skipWhile (!isBreak ·))
    let c ← c.endLine?
    some (found, c)

end RestconfApi.Yaml
