import RestconfApi.Datum.Literal
import RestconfApi.Failure

/-!
# JSON: writing

Values written on indented lines or on a single one. Only quotes, backslashes and control characters
are escaped. JSON lacks dates, bytes and sets, and cannot show a value inside of itself.
-/

namespace RestconfApi

namespace Json

def escapeChar (c : Char) : String :=
  if c = '"' then "\\\""
  else if c = '\\' then "\\\\"
  else if c = '\n' then "\\n"
  else if c = '\r' then "\\r"
  else if c = '\t' then "\\t"
  else if c = '\x08' then "\\b"
  else if c = '\x0c' then "\\f"
  else if c.toNat < 0x20 then "\\u" ++ Text.hex 4 c.toNat
  else String.ofList [c]

def textLiteral (s : String) : String :=
  "\"" ++ String.join (s.toList.map escapeChar) ++ "\""

/-- The text that a key is written as, which for words and numbers is the one that they have as values. -/
def keyName : Scalar → String
  | .null => "null"
  | .bool b => if b then "true" else "false"
  | .int n => toString n
  | .float x => x.text "Infinity" "NaN"
  | s => s.wording

def keyText (s : Scalar) : String := textLiteral (keyName s)

/-- A scalar. What JSON lacks is written as a text. -/
def scalarText (s : Scalar) : String :=
  match s with
  | .null | .bool _ | .int _ | .float _ => keyName s
  | _ => keyText s

def indent (level : Nat) : String := "\n" ++ String.ofList (List.replicate (2 * level) ' ')

def checkScalar : Scalar → Except Failure Unit
  | .bytes _ | .date _ _ _ _ | .instant _ _ => .error .wrongType
  | s => if s.isShowable then .ok () else .error (.value .tooLongToShow)

mutual

/-- Fails with the first part of a value that cannot be written; `under` are the marks of the values
around. -/
def check (under : List Mark) : Datum → Except Failure Unit
  | .scalar s => checkScalar s
  | .list items mark =>
    if mark ≠ 0 ∧ mark ∈ under then .error (.value .holdsItself) else checkItems (mark :: under) items
  | .mapping entries mark =>
    if mark ≠ 0 ∧ mark ∈ under then .error (.value .holdsItself)
    else checkEntries (mark :: under) entries
  | .set _ _ => .error .wrongType
  | .pair a b => do
    check under a
    check under b

def checkItems (under : List Mark) : List Datum → Except Failure Unit
  | [] => .ok ()
  | d :: ds => do
    check under d
    checkItems under ds

def checkEntries (under : List Mark) : List (Scalar × Datum) → Except Failure Unit
  | [] => .ok ()
  | (k, d) :: rest => do
    checkScalar k
    check under d
    checkEntries under rest

end

mutual

/-- The value on lines of its own, nested two blanks deeper per level. -/
def lines (level : Nat) : Datum → String
  | .scalar s => scalarText s
  | .list [] _ => "[]"
  | .list items _ =>
    "[" ++ Text.join "," (itemLines (level + 1) items) ++ indent level ++ "]"
  | .mapping [] _ => "\x7b\x7d"
  | .mapping entries _ =>
    "\x7b" ++ Text.join "," (entryLines (level + 1) entries) ++ indent level ++ "\x7d"
  | .set items mark => textLiteral (Datum.set items mark).literal
  | .pair a b =>
    let items := [lines (level + 1) a, lines (level + 1) b].map (indent (level + 1) ++ ·)
    "[" ++ Text.join "," items ++ indent level ++ "]"

def itemLines (level : Nat) : List Datum → List String
  | [] => []
  | d :: ds => (indent level ++ lines level d) :: itemLines level ds

def entryLines (level : Nat) : List (Scalar × Datum) → List String
  | [] => []
  | (k, d) :: rest =>
    (indent level ++ keyText k ++ ": " ++ lines level d) :: entryLines level rest

end

def indented (d : Datum) : String := lines 0 d

mutual

/-- The value on a single line, with the given marks between items and before values. -/
def lineWith (comma colon : String) : Datum → String
  | .scalar s => scalarText s
  | .list items _ => "[" ++ Text.join comma (lineItems comma colon items) ++ "]"
  | .mapping entries _ => "\x7b" ++ Text.join comma (lineEntries comma colon entries) ++ "\x7d"
  | .set items mark => textLiteral (Datum.set items mark).literal
  | .pair a b => "[" ++ lineWith comma colon a ++ comma ++ lineWith comma colon b ++ "]"

def lineItems (comma colon : String) : List Datum → List String
  | [] => []
  | d :: ds => lineWith comma colon d :: lineItems comma colon ds

def lineEntries (comma colon : String) : List (Scalar × Datum) → List String
  | [] => []
  | (k, d) :: rest => (keyText k ++ colon ++ lineWith comma colon d) :: lineEntries comma colon rest

end

def line : Datum → String := lineWith ", " ": "

/-- The value on a single line without any blanks. -/
def compact : Datum → String := lineWith "," ":"

end Json

end RestconfApi
