import RestconfApi.Failure
import RestconfApi.Text.Base64
import RestconfApi.Yaml.Cursor
import RestconfApi.Yaml.Implicit

/-!
# YAML: writing

Values in block style. Texts stand plain where that leaves no doubt about them, else in single quotes
and, if they hold blanks before line breaks or characters that cannot be printed, in double quotes.
Texts are folded at blanks once a line is longer than eighty columns. A list stands no deeper than the
key it belongs to. A value with a mark that is met again is written once, with an anchor, and referred to
afterwards.
-/

namespace RestconfApi.Yaml

/-! ### Forms of a text -/

/-- Characters that only double quotes can hold. -/
def isSpecial (c : Char) : Bool :=
  let n := c.toNat
  Text.isHalf c || !(c = '\n' || (0x20 ≤ n && n ≤ 0x7e) || n == 0x85 ||
    (0xa0 ≤ n && n ≤ 0xfffd && n != 0xfeff) || (0x10000 ≤ n && n < 0x10ffff))

/-- Whether a character at the start of a text means something else there. -/
def leadingIndicator (c : Char) (next : Option Char) : Bool :=
  ['#', ',', '[', ']', '\x7b', '\x7d', '&', '*', '!', '|', '>', '\'', '"', '%', '@', '\x60'].contains c ||
    ((c = '?' || c = ':' || c = '-') && endsWord next)

/-- Whether a character inside of a text ends it or starts a comment. -/
def innerIndicator (previous c : Char) (next : Option Char) : Bool :=
  (c = ':' && endsWord next) || (c = '#' && endsWord (some previous))

/-- Whether some two characters in a row are so. -/
def anyPair (p : Char → Char → Bool) : List Char → Bool
  | a :: b :: cs => p a b || anyPair p (b :: cs)
  | _ => false

def anyInner (previous : Char) : List Char → Bool
  | [] => false
  | c :: cs => innerIndicator previous c cs.head? || anyInner c cs

def hasIndicator : List Char → Bool
  | [] => false
  | c :: cs =>
    "---".toList.isPrefixOf (c :: cs) || "...".toList.isPrefixOf (c :: cs) ||
      leadingIndicator c cs.head? || anyInner c cs

inductive Style where
  | plain
  | single
  | double
deriving DecidableEq, Repr

/-- A blank before a line break needs double quotes, as do special characters. -/
def needsDouble (cs : List Char) : Bool :=
  cs.any isSpecial || anyPair (fun a b => a = ' ' && isBreak b) cs ||
    anyPair (fun a b => isBreak a && b = ' ') cs

def edgeIsBlank (cs : List Char) : Bool :=
  let blank (c : Char) : Bool := c = ' ' || isBreak c
  cs.head?.any blank || cs.getLast?.any blank

/-- The style of a text outside of keys; a single line never needs more in a key. -/
def styleOf (s : String) : Style :=
  let cs := s.toList
  if needsDouble cs then .double
  else if implicit s ≠ .text || edgeIsBlank cs || cs.any isBreak || hasIndicator cs then .single
  else .plain

/-! ### The pen -/

/-- What has been written, and how the current line stands: its column, whether a blank was written
last, and whether nothing but indentation was. `anchors` names the values that are written once by their
marks, and `anchored` are those of them that have been. -/
structure Pen where
  out : String := ""
  column : Nat := 0
  afterBlank : Bool := true
  onlyIndented : Bool := true
  anchors : List (Mark × String) := []
  anchored : List Mark := []

namespace Pen

def put (s : String) (p : Pen) : Pen := { p with out := p.out ++ s, column := p.column + s.length }

def newline (mark : String) (p : Pen) : Pen :=
  { p with out := p.out ++ mark, column := 0, afterBlank := true, onlyIndented := true }

/-- Moves to an indentation, on a new line if the current one has gone past it. -/
def indentTo (indent : Nat) (p : Pen) : Pen :=
  let p :=
    if !p.onlyIndented || indent < p.column || (p.column == indent && !p.afterBlank) then p.newline "\n"
    else p
  if p.column < indent then
    { p.put (String.ofList (List.replicate (indent - p.column) ' ')) with afterBlank := true }
  else p

/-- Writes an indicator, after a blank if it needs one. -/
def indicator (s : String) (needsBlank keepsIndent : Bool) (p : Pen) : Pen :=
  let p := if p.afterBlank || !needsBlank then p.put s else p.put (" " ++ s)
  { p with afterBlank := false, onlyIndented := p.onlyIndented && keepsIndent }

def inText (p : Pen) : Pen := { p with afterBlank := false, onlyIndented := false }

def isFull (p : Pen) : Bool := 80 < p.column

/-- Writes the anchor of a value in front of it, or the reference that stands for a value that has been
written; then there is nothing left to write. -/
def refer (mark : Mark) (p : Pen) : Pen × Bool :=
  match p.anchors.lookup mark with
  | none => (p, false)
  | some name =>
    if p.anchored.contains mark then (p.indicator ("*" ++ name) true false, true)
    else ({ p.indicator ("&" ++ name) true false with anchored := mark :: p.anchored }, false)

end Pen

/-! ### Texts -/

/-- Where plain and quoted texts are written: the indentation of further lines and whether there may
be any. -/
structure Fold where
  indent : Nat
  folds : Bool

/-- Cuts a text into runs of blanks, of line breaks and of other characters. -/
def runs : List Char → List (List Char)
  | [] => []
  | c :: cs =>
    let kind (c : Char) : Nat := if c = ' ' then 0 else if isBreak c then 1 else 2
    match runs cs with
    | (d :: ds) :: rest => if kind c = kind d then (c :: d :: ds) :: rest else [c] :: (d :: ds) :: rest
    | rest => [c] :: rest

/-- Writes the runs of a plain text; a single blank may become a new line. -/
def plainRuns (f : Fold) : List (List Char) → Pen → Pen
  | [], p => p
  | run :: rest, p =>
    if run = [' '] && p.isFull && f.folds then plainRuns f rest (p.indentTo f.indent).inText
    else plainRuns f rest (p.put (String.ofList run))

def plain (f : Fold) (s : String) (p : Pen) : Pen :=
  if s = "" then p
  else
    let p := if p.afterBlank then p else p.put " "
    plainRuns f (runs s.toList) p.inText

/-- The line breaks of a run; the first one is doubled, since a single one would be read as a blank. -/
def breakRun (run : List Char) (p : Pen) : Pen :=
  let p := if run.head? = some '\n' then p.newline "\n" else p
  run.foldl (fun p c => p.newline (String.ofList [c])) p

/-- Writes the runs of a text in single quotes; `first` says that nothing has been written yet. -/
def singleRuns (f : Fold) : Bool → List (List Char) → Pen → Pen
  | _, [], p => p
  | first, run :: rest, p =>
    if run.any isBreak then singleRuns f false rest ((breakRun run p).indentTo f.indent)
    else if run = [' '] && p.isFull && f.folds && !first && !rest.isEmpty then
      singleRuns f false rest (p.indentTo f.indent)
    else
      let text := run.flatMap fun c => if c = '\'' then ['\'', '\''] else [c]
      singleRuns f false rest (p.put (String.ofList text))

def single (f : Fold) (s : String) (p : Pen) : Pen :=
  let p := p.indicator "'" true false
  (singleRuns f true (runs s.toList) p).indicator "'" false false

/-- Characters that stand for themselves in double quotes. -/
def isBare (c : Char) : Bool :=
  let n := c.toNat
  c ≠ '"' && c ≠ '\\' && !isBreak c && n != 0xfeff &&
    ((0x20 ≤ n && n ≤ 0x7e) || (0xa0 ≤ n && n ≤ 0xfffd))

def shortEscapes : List (Char × String) := [
  ('\x00', "0"), ('\x07', "a"), ('\x08', "b"), ('\x09', "t"), ('\n', "n"), ('\x0b', "v"),
  ('\x0c', "f"), ('\r', "r"), ('\x1b', "e"), ('"', "\""), ('\\', "\\"), ('\u0085', "N"),
  ('\u2028', "L"), ('\u2029', "P")]

def escape (c : Char) : String :=
  let n := Text.code c
  let upper (width : Nat) : String := (Text.hex width n).toUpper
  match shortEscapes.lookup c with
  | some s => "\\" ++ s
  | none =>
    if n ≤ 0xff then "\\x" ++ upper 2
    else if n ≤ 0xffff then "\\u" ++ upper 4
    else "\\U" ++ upper 8

/-- Ends the line inside of double quotes. A blank at the start of the next one is escaped. -/
def cutLine (f : Fold) (next : Char) (p : Pen) : Pen :=
  let p := ((p.put "\\").indentTo f.indent).inText
  if next = ' ' then p.put "\\" else p

/-- Writes a text in double quotes. `held` are characters still to be written, last one first; `first`
says that the character at hand is the first of the text. A line may be cut at a blank, or after an escape
that goes beyond the width, but not before the last character. -/
def doubleFrom (f : Fold) (first : Bool) (held : List Char) : List Char → Pen → Pen
  | [], p => p.put (String.ofList held.reverse)
  | c :: cs, p =>
    let inside := !first && !cs.isEmpty && f.folds
    if isBare c then
      let isFull := 80 < p.column + held.length
      if inside && c = ' ' && isFull then
        let p := cutLine f c (p.put (String.ofList held.reverse))
        doubleFrom f false [c] cs p
      else if inside && held.isEmpty && isFull then
        doubleFrom f false [c] cs (cutLine f c p)
      else doubleFrom f false (c :: held) cs p
    else
      let p := (p.put (String.ofList held.reverse)).put (escape c)
      if inside && 81 < p.column then doubleFrom f false [] cs (cutLine f (cs.headD 'x') p)
      else doubleFrom f false [] cs p

def double (f : Fold) (s : String) (p : Pen) : Pen :=
  let p := p.indicator "\"" true false
  (doubleFrom f true [] s.toList p).indicator "\"" false false

def styled (style : Style) (f : Fold) (s : String) (p : Pen) : Pen :=
  match style with
  | .plain => plain f s p
  | .single => single f s p
  | .double => double f s p

/-! ### Scalars -/

/-- The text of a floating point number, which always has a point. -/
def floatText (x : Double) : String :=
  match x with
  | .infinite negative => if negative then "-.inf" else ".inf"
  | .nan => ".nan"
  | x =>
    let cs := (x.text "" "").toList
    if cs.contains '.' then String.ofList cs
    else
      match Text.cutFirst 'e' cs with
      | some (mantissa, power) => String.ofList (mantissa ++ ".0e".toList ++ power)
      | none => String.ofList cs

def scalarText : Scalar → String
  | .null => "null"
  | .bool b => if b then "true" else "false"
  | .int n => toString n
  | .float x => floatText x
  | s => s.wording

/-- Writes bytes to the base 64, on lines of their own. -/
def binary (f : Fold) (bytes : List UInt8) (p : Pen) : Pen :=
  let p := p.indicator "!!binary" true false
  match Text.Base64.encode bytes with
  | [] => p.indicator "\"\"" true false
  | lines =>
    lines.foldl (fun p s => ((p.indentTo f.indent).put s).newline "\n")
      ((p.indicator "|" true false).newline "\n")

/-- Writes a scalar. Dates and times can be referred to. -/
def scalar (f : Fold) (s : Scalar) (p : Pen) : Pen :=
  let referred (mark : Mark) : Pen :=
    let (p, isDone) := p.refer mark
    if isDone then p else plain f (scalarText s) p
  match s with
  | .text t => styled (styleOf t) f t p
  | .bytes b => binary f b p
  | .date _ _ _ mark | .instant _ mark => referred mark
  | s => plain f (scalarText s) p

/-- The length of the tag that a key could be given. -/
def tagLength : Scalar → Nat
  | .float _ => "!!float".length
  | .bool _ | .null => "!!bool".length
  | .date _ _ _ _ | .instant _ _ => "!!timestamp".length
  | _ => "!!str".length

/-- Whether a key stands before its colon on one line; other keys are marked by a question mark. The
tag that a key could be given counts. -/
def isSimpleKey (s : Scalar) : Bool :=
  match s with
  | .text t => t ≠ "" && !t.toList.any isBreak && tagLength s + t.length < 128
  | .bytes _ => false
  | s => tagLength s + (scalarText s).length < 128

/-! ### Values -/

/-- The indentation of the items of a list. -/
def itemLevel (indent : Option Nat) (inMapping : Bool) (p : Pen) : Nat :=
  match indent with
  | none => 0
  | some n => if inMapping && !p.onlyIndented then n else n + 2

/-- Goes to where an item is written. -/
def startItem (level : Nat) (p : Pen) : Pen := (p.indentTo level).indicator "-" true true

/-- Writes a key, and goes to where its value is written. -/
def startEntry (level : Nat) (k : Scalar) (p : Pen) : Pen :=
  let p := p.indentTo level
  if isSimpleKey k then (scalar ⟨level + 2, false⟩ k p).indicator ":" false false
  else
    let p := scalar ⟨level + 2, true⟩ k (p.indicator "?" true true)
    (p.indentTo level).indicator ":" true true

mutual

/-- Writes a value after a key or a dash. `indent` is the indentation of the collection around it, and
`inMapping` says that this is a mapping. -/
def value (indent : Option Nat) (inMapping : Bool) : Datum → Pen → Pen
  | .scalar s, p => scalar ⟨(indent.map (· + 2)).getD 2, true⟩ s p
  | .list items mark, p =>
    let (p, isDone) := p.refer mark
    if isDone then p
    else if items.isEmpty then (p.indicator "[" true false).put "]"
    else listItems (itemLevel indent inMapping p) items p
  | .pair a b, p =>
    let level := itemLevel indent inMapping p
    let p := value (some level) false a (startItem level p)
    value (some level) false b (startItem level p)
  | .mapping entries mark, p =>
    let (p, isDone) := p.refer mark
    if isDone then p
    else if entries.isEmpty then (p.indicator "\x7b" true false).put "\x7d"
    else mappingEntries ((indent.map (· + 2)).getD 0) entries p
  | .set items mark, p =>
    let (p, isDone) := p.refer mark
    if isDone then p
    else
      let p := p.indicator "!!set" true false
      if items.isEmpty then (p.indicator "\x7b" true false).put "\x7d"
      else
        let level := (indent.map (· + 2)).getD 0
        items.foldl (fun p k => plain ⟨level + 2, true⟩ "null" (startEntry level k p)) p

def listItems (level : Nat) : List Datum → Pen → Pen
  | [], p => p
  | d :: ds, p => listItems level ds (value (some level) false d (startItem level p))

def mappingEntries (level : Nat) : List (Scalar × Datum) → Pen → Pen
  | [], p => p
  | (k, d) :: rest, p => mappingEntries level rest (value (some level) true d (startEntry level k p))

end

/-! ### Shared values -/

/-- What has been met of a value: the marks of its parts, and those that have been met again, by their
second meeting. -/
structure Meetings where
  seen : List Mark := []
  again : List Mark := []

/-- Meets a part with a mark, and what it holds if it is new. -/
def Meetings.meet (mark : Mark) (inside : Meetings → Meetings) (m : Meetings) : Meetings :=
  if mark = 0 then inside m
  else if !m.seen.contains mark then inside { m with seen := mark :: m.seen }
  else if m.again.contains mark then m
  else { m with again := m.again ++ [mark] }

def meetScalar (s : Scalar) (m : Meetings) : Meetings :=
  match s with
  | .date _ _ _ mark | .instant _ mark => m.meet mark id
  | _ => m

mutual

/-- Meets the parts of a value from its start to its end. -/
def meetParts : Datum → Meetings → Meetings
  | .scalar s, m => meetScalar s m
  | .list items mark, m => m.meet mark (meetItems items)
  | .mapping entries mark, m => m.meet mark (meetEntries entries)
  | .set items mark, m => m.meet mark fun m => items.foldl (fun m s => meetScalar s m) m
  | .pair a b, m => meetParts b (meetParts a m)

def meetItems : List Datum → Meetings → Meetings
  | [], m => m
  | d :: ds, m => meetItems ds (meetParts d m)

def meetEntries : List (Scalar × Datum) → Meetings → Meetings
  | [], m => m
  | (k, d) :: rest, m => meetEntries rest (meetParts d (meetScalar k m))

end

/-- The name of the `n`-th anchor. -/
def numberedAnchor (n : Nat) : String :=
  let digits := Nat.toDigits 10 n
  String.ofList ("id".toList ++ List.replicate (3 - digits.length) '0' ++ digits)

/-- The names of the values that are met again. -/
def anchorsOf (d : Datum) : List (Mark × String) :=
  (meetParts d {}).again.zipIdx.map fun (mark, i) => (mark, numberedAnchor (i + 1))

/-- The text of a value, with a line break at its end. -/
def write (d : Datum) : Except Failure String :=
  if d.isShowable then .ok ((value none false d { anchors := anchorsOf d }).indentTo 0).out
  else .error (.value .tooLongToShow)

end RestconfApi.Yaml
