import RestconfApi.Yaml.Lexeme

/-!
# YAML: tokens

The marks of a text with the structure that indentation gives it: where blocks start and end, and
which scalars are keys. That a node is a key shows only at the colon after it, so each place where a
key may start is kept open until then.
-/

namespace RestconfApi.Yaml

inductive Token where
  | directive (d : Directive)
  | documentStart
  | documentEnd
  | blockSequence
  | blockMapping
  | blockEnd
  | flowSequence
  | flowSequenceEnd
  | flowMapping
  | flowMappingEnd
  | entry
  | item
  | key
  | value
  | anchor (name : String)
  | reference (name : String)
  | tag (handle : Option String) (suffix : String)
  | scalar (text : String) (isPlain : Bool)
deriving DecidableEq, Repr

/-- A place where a key may start: the slot for its mark, whether there must be a key, and where in the
text it is. -/
structure OpenKey where
  slot : Nat
  isRequired : Bool
  index : Nat
  line : Nat
  column : Nat

/-- The tokens so far, a slot for each with those that stand before it, and what the next ones depend
on: the number of open brackets, the indentation of the current block and of those around it, whether
a key may start, and the open keys by the number of brackets around them. -/
structure Scan where
  cursor : Cursor
  slots : Array (List Token) := #[]
  brackets : Nat := 0
  indent : Int := -1
  outer : List Int := []
  allowsKey : Bool := true
  openKeys : List (Nat × OpenKey) := []

namespace Scan

def push (t : Token) (s : Scan) : Scan := { s with slots := s.slots.push [t] }

/-- The token of the next so many characters. -/
def mark (t : Token) (length : Nat) (s : Scan) : Scan :=
  { s.push t with cursor := s.cursor.skip length }

def inFlow (s : Scan) : Bool := s.brackets != 0

/-! ### Blocks -/

/-- Closes the blocks that are indented deeper than a column. -/
def closeFrom (column : Int) : List Int → Scan → Scan
  | [], s => s
  | i :: outer, s =>
    if column < s.indent then closeFrom column outer { s.push .blockEnd with indent := i, outer }
    else s

def close (column : Int) (s : Scan) : Scan := if s.inFlow then s else closeFrom column s.outer s

/-- Starts a block at a column if it is indented deeper than the current one. -/
def openBlock (t : Token) (column : Nat) (s : Scan) : Scan :=
  if s.indent < column then { s.push t with indent := column, outer := s.indent :: s.outer } else s

/-! ### Keys -/

/-- Gives up an open key; one that had to be a key is a fault. -/
def dropKey (s : Scan) : Option Scan :=
  match s.openKeys.lookup s.brackets with
  | none => some s
  | some k =>
    if k.isRequired then none
    else some { s with openKeys := s.openKeys.filter (·.1 ≠ s.brackets) }

/-- Gives up the keys that started on another line or too far back. -/
def dropStale (s : Scan) : Option Scan :=
  let isStale (k : OpenKey) : Bool := k.line ≠ s.cursor.line || k.index + 1024 < s.cursor.index
  if s.openKeys.any fun (_, k) => isStale k && k.isRequired then none
  else some { s with openKeys := s.openKeys.filter fun (_, k) => !isStale k }

/-- Keeps the place at the cursor open for a key, if one may start here. -/
def openKey (s : Scan) : Option Scan :=
  if !s.allowsKey then some s
  else do
    let s ← s.dropKey
    let c := s.cursor
    let k : OpenKey := ⟨s.slots.size, !s.inFlow && s.indent == c.column, c.index, c.line, c.column⟩
    some { s with slots := s.slots.push [], openKeys := (s.brackets, k) :: s.openKeys }

/-! ### The marks -/

/-- A mark that ends all blocks. -/
def boundary (s : Scan) : Option Scan := do
  let s ← (s.close (-1)).dropKey
  some { s with allowsKey := false }

def openBracket (t : Token) (s : Scan) : Option Scan := do
  let s ← s.openKey
  some { s.mark t 1 with brackets := s.brackets + 1, allowsKey := true }

def closeBracket (t : Token) (s : Scan) : Option Scan := do
  let s ← s.dropKey
  if s.brackets = 0 then none
  else some { s.mark t 1 with brackets := s.brackets - 1, allowsKey := false }

def entry (s : Scan) : Option Scan := do
  let s ← { s with allowsKey := true }.dropKey
  some (s.mark .entry 1)

/-- A mark that starts a block unless it stands between brackets. -/
def blockMark (block t : Token) (allowsKey : Bool) (s : Scan) : Option Scan := do
  if !s.inFlow && !s.allowsKey then none
  else
    let s := if s.inFlow then s else s.openBlock block s.cursor.column
    let s ← { s with allowsKey }.dropKey
    some (s.mark t 1)

/-- A colon: the open key, if there is one, turns out to be a key. -/
def value (s : Scan) : Option Scan :=
  match s.openKeys.lookup s.brackets with
  | none => s.blockMark .blockMapping .value (!s.inFlow)
  | some k =>
    let opens := !s.inFlow && s.indent < k.column
    let tokens := if opens then [Token.blockMapping, .key] else [.key]
    let s := { s with slots := s.slots.modify k.slot fun _ => tokens }
    let s := if opens then { s with indent := k.column, outer := s.indent :: s.outer } else s
    let s :=
      { s with openKeys := s.openKeys.filter (·.1 ≠ s.brackets), allowsKey := false }
    some (s.mark .value 1)

/-- A token at the start of which a key may start. -/
def node (read : Cursor → Option (Token × Cursor)) (s : Scan) : Option Scan := do
  let s ← s.openKey
  let (t, c) ← read s.cursor
  some { s.push t with cursor := c, allowsKey := false }

def plain (s : Scan) : Option Scan := do
  let s ← s.openKey
  let (text, broke, c) := plainScalar s.inFlow s.indent s.cursor
  some { s.push (.scalar text true) with cursor := c, allowsKey := broke }

def quoted (quote : Char) (s : Scan) : Except LexemeFault Scan := do
  let s ← inForm s.openKey
  let (text, c) ← quotedScalar quote s.cursor
  .ok { s.push (.scalar text false) with cursor := c, allowsKey := false }

def block (folds : Bool) (s : Scan) : Option Scan := do
  let s ← { s with allowsKey := true }.dropKey
  let (text, c) ← blockScalar folds s.indent s.cursor
  some { s.push (.scalar text false) with cursor := c }

def directive (s : Scan) : Option Scan := do
  let s ← s.boundary
  let (d, c) ← Yaml.directive s.cursor
  some { s.push (.directive d) with cursor := c }

def documentMark (t : Token) (s : Scan) : Option Scan := do
  let s ← s.boundary
  some (s.mark t 3)

/-! ### Reading on -/

/-- Passes over blanks, comments and line breaks. Outside of brackets a key may start on a new line. -/
def toNext : Nat → Scan → Scan
  | 0, s => s
  | fuel + 1, s =>
    let c := (s.cursor.skipWhile (· = ' ')).skipComment
    match c.lineBreak with
    | ([], _) => { s with cursor := c }
    | (_, c) => toNext fuel { s with cursor := c, allowsKey := s.allowsKey || !s.inFlow }

/-- Whether a plain scalar may start with the character at the cursor. -/
def startsPlain (s : Scan) (ch : Char) : Bool :=
  let marks := "-?:,[]\x7b\x7d#&*!|>'\"%@\x60".toList
  !(endsWord (some ch) || marks.contains ch) ||
    (!endsWord s.cursor.second? && (ch = '-' || (!s.inFlow && (ch = '?' || ch = ':'))))

/-- The token at the cursor, which is no scalar in quotes. -/
def nextBare (ch : Char) (s : Scan) : Option Scan :=
  let c := s.cursor
  let wordEnds := endsWord c.second?
  if c.column = 0 && ch = '%' then s.directive
  else if c.column = 0 && c.seesMark "---" then s.documentMark .documentStart
  else if c.column = 0 && c.seesMark "..." then s.documentMark .documentEnd
  else if ch = '[' then s.openBracket .flowSequence
  else if ch = '\x7b' then s.openBracket .flowMapping
  else if ch = ']' then s.closeBracket .flowSequenceEnd
  else if ch = '\x7d' then s.closeBracket .flowMappingEnd
  else if ch = ',' then s.entry
  else if ch = '-' && wordEnds then s.blockMark .blockSequence .item true
  else if ch = '?' && (s.inFlow || wordEnds) then s.blockMark .blockMapping .key (!s.inFlow)
  else if ch = ':' && (s.inFlow || wordEnds) then s.value
  else if ch = '*' then s.node fun c => (anchorName c).map fun (name, c) => (.reference name, c)
  else if ch = '&' then s.node fun c => (anchorName c).map fun (name, c) => (.anchor name, c)
  else if ch = '!' then
    s.node fun c => (Yaml.tag c).map fun ((handle, suffix), c) => (.tag handle suffix, c)
  else if ch = '|' && !s.inFlow then s.block false
  else if ch = '>' && !s.inFlow then s.block true
  else if s.startsPlain ch then s.plain
  else none

/-- The token at the cursor. -/
def next (ch : Char) (s : Scan) : Except LexemeFault Scan :=
  if ch = '\'' || ch = '"' then s.quoted ch else inForm (s.nextBare ch)

/-- Reads on by one mark, and tells whether the text ends there. -/
def fetch (s : Scan) : Except LexemeFault (Scan × Bool) := do
  let s ← inForm (toNext (s.cursor.rest.length + 1) s).dropStale
  let s := s.close s.cursor.column
  match s.cursor.head? with
  | none =>
    let s ← inForm s.boundary
    .ok (s, true)
  | some ch =>
    let s ← s.next ch
    .ok (s, false)

/-- The tokens that are certain: those before the places where a key may still turn out to start. -/
def certain (s : Scan) : List Token :=
  let keys := (s.dropStale.getD s).openKeys
  let count := keys.foldl (fun n (_, k) => min n k.slot) s.slots.size
  (s.slots.toList.take count).flatten

/-- Reads tokens to the end of the text or to a fault. Each takes at least one character. -/
def toEnd : Nat → Scan → List Token × Option LexemeFault
  | 0, s => (s.certain, some .form)
  | fuel + 1, s =>
    match s.fetch with
    | .error fault => (s.certain, some fault)
    | .ok (s, true) => (s.slots.toList.flatten, none)
    | .ok (s, false) => toEnd fuel s

end Scan

/-- The tokens of a text, with the fault that ends them early. -/
def tokens (text : String) : List Token × Option LexemeFault :=
  let cs := text.toList
  if !cs.all isAllowed then ([], some .form)
  else
    let cursor := Cursor.ofString text
    let cursor := if cs.head? = some '\ufeff' then cursor.step else cursor
    Scan.toEnd (cs.length + 1) { cursor }

end RestconfApi.Yaml
