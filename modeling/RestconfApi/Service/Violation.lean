import RestconfApi.Datum.Basic
import RestconfApi.Service.Whole
import RestconfApi.Text.CodePoint

/-!
# Service: violations

What is wrong with a request, each fault with its place and its kind, and the reading of single values
with the faults found in them.
-/

namespace RestconfApi.Service

/-- A fault: the names and positions that lead to the value, the kind of the fault, and the value that
was given, or if it is missing the one around. -/
structure Violation where
  place : List String
  kind : String
  given : Datum := .null
deriving Repr

/-- Whether a place comes before another one: by its first part that differs. -/
def placeBefore : List String → List String → Bool
  | [], [] => false
  | [], _ :: _ => true
  | _ :: _, [] => false
  | a :: as, b :: bs => a < b || (a == b && placeBefore as bs)

namespace Violation

def before (v w : Violation) : Bool :=
  placeBefore v.place w.place || (v.place == w.place && v.kind < w.kind)

def insert (v : Violation) : List Violation → List Violation
  | [] => [v]
  | w :: ws => if v.before w then v :: w :: ws else w :: insert v ws

/-- Violations in the order of their places. -/
def sorted (vs : List Violation) : List Violation := vs.foldr insert []

end Violation

/-- A value that was read, or the faults that were found. -/
abbrev Checked (α : Type) := Except (List Violation) α

namespace Checked

variable {α β : Type}

def fault (place : List String) (kind : String) (given : Datum) : Checked α :=
  .error [⟨place, kind, given⟩]

/-- Both values, or the faults of both. -/
def both (x : Checked α) (y : Checked β) : Checked (α × β) :=
  match x, y with
  | .ok a, .ok b => .ok (a, b)
  | .error vs, .ok _ => .error vs
  | .ok _, .error ws => .error ws
  | .error vs, .error ws => .error (vs ++ ws)

/-- Reads the items of a list from the `i`-th on, and gathers the faults of all. -/
def items (place : List String) (check : List String → Datum → Checked α) (i : Nat) :
    List Datum → Checked (List α)
  | [] => .ok []
  | d :: ds =>
    (both (check (place ++ [toString i]) d) (items place check (i + 1) ds)).map fun (a, as) => a :: as

def list (check : List String → Datum → Checked α) (place : List String) (d : Datum) :
    Checked (List α) :=
  match d with
  | .list ds _ => items place check 0 ds
  | _ => fault place "list_type" d

/-- A value that may be missing. -/
def optional (check : List String → Datum → Checked α) (place : List String) (d : Datum) :
    Checked (Option α) :=
  if d.isNull then .ok none else (check place d).map some

def text (place : List String) (d : Datum) : Checked String :=
  match d with
  | .text s => if s.toList.any Text.isHalf then fault place "string_unicode" d else .ok s
  | _ => fault place "string_type" d

/-- One of several values with names. -/
def choice (name : α → String) (all : List α) (place : List String) (d : Datum) : Checked α :=
  match d.asText?.bind fun s => all.find? (name · = s) with
  | some a => .ok a
  | none => fault place "enum" d

/-! ### Whole numbers -/

/-- A whole number: also one written as a text or with a point, and truth values count as 0 and 1. One
with a point has to fit into 64 bits. -/
def whole (place : List String) (d : Datum) : Checked Int :=
  match d with
  | .int n => .ok n
  | .bool b => .ok (if b then 1 else 0)
  | .float x =>
    match x with
    | .finite _ _ _ =>
      match x.toInt? with
      | some n => if n.natAbs < 0x8000000000000000 then .ok n else fault place "int_parsing_size" d
      | none => fault place "int_from_float" d
    | _ => fault place "finite_number" d
  | .text s =>
    match Whole.ofText s with
    | .ok n => .ok n
    | .error .size => fault place "int_parsing_size" d
    | .error .form => fault place "int_parsing" d
  | _ => fault place "int_type" d

/-- A whole number that is at least 1. -/
def positive (place : List String) (d : Datum) : Checked Int := do
  let n ← whole place d
  if n < 1 then fault place "greater_than_equal" d else .ok n

end Checked

end RestconfApi.Service
