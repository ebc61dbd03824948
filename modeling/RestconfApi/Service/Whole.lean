import RestconfApi.Text.Blank

/-!
# Service: whole numbers in texts

The whole number that a client writes as a text. Blanks around it, a plus sign, zeros in front, single
underscores between digits and a fraction of zeros do not count. What is left is a number as JSON has it, of
at most 4300 characters.
-/

namespace RestconfApi.Service.Whole

/-- Why a text writes no whole number: it has not the form of one, or is too long. -/
inductive Fault where
  | form
  | size
deriving DecidableEq, Repr

/-- The blanks that may stand around a number, which the information separators are not. -/
def isOuterBlank (c : Char) : Bool := Text.isBlank c && !('\x1c' ≤ c && c ≤ '\x1f')

def trimmed (cs : List Char) : List Char :=
  ((cs.dropWhile isOuterBlank).reverse.dropWhile isOuterBlank).reverse

/-- A plus sign is dropped, and refused before a minus sign. -/
def withoutPlus : List Char → Option (List Char)
  | '+' :: '-' :: _ => none
  | '+' :: cs => some cs
  | cs => some cs

/-- Whether a number that counts starts with a character: a sign or a digit above zero. -/
def startsNumber (c : Char) : Bool := c = '-' || ('1' ≤ c && c ≤ '9')

/-- The number after zeros and underscores, the last of which is `last`. It stays when nothing else or a
fraction follows. -/
def afterZeros (last : Char) : List Char → Option (List Char)
  | [] => some [last]
  | c :: cs =>
    if c = '0' || c = '_' then afterZeros c cs
    else if startsNumber c then some (c :: cs)
    else if c = '.' then some (last :: c :: cs)
    else none

def withoutZeros : List Char → Option (List Char)
  | '0' :: cs => afterZeros '0' cs
  | c :: cs => if startsNumber c then some (c :: cs) else none
  | [] => none

/-- The number without its point and the zeros after it. -/
def withoutFraction (cs : List Char) : List Char :=
  match Text.cutFirst '.' cs with
  | some (number, zeros) => if !zeros.isEmpty && zeros.all (· = '0') then number else cs
  | none => cs

/-- Whether underscores stand between other characters only, and one at a time. -/
def isGrouped : List Char → Bool
  | [] => true
  | ['_'] => false
  | '_' :: '_' :: _ => false
  | _ :: cs => isGrouped cs

/-- The number without its underscores. -/
def withoutUnderscores (cs : List Char) : Option (List Char) :=
  if cs.head? ≠ some '_' && isGrouped cs then some (cs.filter (· ≠ '_')) else none

def maxLength : Nat := 4300

def isDigit (c : Char) : Bool := '0' ≤ c && c ≤ '9'

/-- The number that characters write as JSON does. -/
def plain (cs : List Char) : Except Fault Int :=
  let (sign, digits) := cs.span (· = '-')
  let (run, rest) := digits.span isDigit
  if 1 < sign.length || run.isEmpty then .error .form
  else if run.head? = some '0' && run.length ≠ 1 then .error .form
  else if maxLength < sign.length + run.length then .error .size
  else if !rest.isEmpty then .error .form
  else
    let n := run.foldl (fun n c => 10 * n + (c.toNat - '0'.toNat)) 0
    .ok (if sign.isEmpty then (n : Int) else -(n : Int))

/-- The whole number that a text writes. -/
def ofText (s : String) : Except Fault Int :=
  let cleaned := do
    let cs ← withoutPlus (trimmed s.toList)
    let cs ← withoutZeros cs
    withoutUnderscores (withoutFraction cs)
  match cleaned with
  | some cs => plain cs
  | none => .error .form

end RestconfApi.Service.Whole
