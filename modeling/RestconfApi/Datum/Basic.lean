import RestconfApi.Datum.Instant
import RestconfApi.Number.Double

/-!
# Data: values of a document

The values that a JSON or YAML document holds: scalars, lists, mappings whose keys are scalars and keep
their order, sets of scalars and pairs. A value that stands at several places of a document has a mark, so
that it can be told from equal ones. Values agree when they mean the same, wherever they were written.
-/

namespace RestconfApi

/-- What tells values of a document apart that look the same: those with one mark are one value. Zero
marks a value that is met only where it stands. -/
abbrev Mark := Nat

inductive Scalar where
  | null
  | bool (b : Bool)
  | int (n : Int)
  | float (x : Double)
  | text (s : String)
  | bytes (b : List UInt8)
  | date (year month day : Nat) (mark : Mark := 0)
  | instant (t : Instant) (mark : Mark := 0)
deriving Repr

namespace Scalar

/-- What a scalar is as a key. Truth values and whole numbers with a point are whole numbers, and instants
with a zone are moments. -/
inductive Key where
  | null
  | number (n : Int)
  | float (x : Double)
  | text (s : String)
  | bytes (b : List UInt8)
  | date (year month day : Nat)
  | moment (micros : Int) (isZoned : Bool)
deriving DecidableEq, Repr

def key : Scalar → Key
  | .null => .null
  | .bool b => .number (if b then 1 else 0)
  | .int n => .number n
  | .float x =>
    match x.toInt? with
    | some n => .number n
    | none => .float x
  | .text s => .text s
  | .bytes b => .bytes b
  | .date y m d _ => .date y m d
  | .instant t _ => .moment t.moment t.zone.isSome

/-- Scalars agree when they are the same key. -/
instance : BEq Scalar := ⟨fun a b => decide (a.key = b.key)⟩

theorem beq_iff {a b : Scalar} : (a == b) = true ↔ a.key = b.key := decide_eq_true_iff

instance : EquivBEq Scalar where
  rfl := beq_iff.2 rfl
  symm h := beq_iff.2 (beq_iff.1 h).symm
  trans h h' := beq_iff.2 ((beq_iff.1 h).trans (beq_iff.1 h'))

@[simp] theorem text_beq_text (s t : String) : (Scalar.text s == Scalar.text t) = decide (s = t) := by
  by_cases h : s = t
  · subst h; simp
  · have : ¬(Scalar.text s == Scalar.text t) = true := fun e => h (Key.text.inj (beq_iff.1 e))
    simp [h, this]

end Scalar

inductive Datum where
  | scalar (s : Scalar)
  | list (items : List Datum) (mark : Mark := 0)
  | mapping (entries : List (Scalar × Datum)) (mark : Mark := 0)
  | set (items : List Scalar) (mark : Mark := 0)
  | pair (first second : Datum)
deriving Repr

namespace Datum

@[match_pattern] abbrev null : Datum := .scalar .null
@[match_pattern] abbrev bool (b : Bool) : Datum := .scalar (.bool b)
@[match_pattern] abbrev int (n : Int) : Datum := .scalar (.int n)
@[match_pattern] abbrev float (x : Double) : Datum := .scalar (.float x)
@[match_pattern] abbrev text (s : String) : Datum := .scalar (.text s)

instance : Inhabited Datum := ⟨null⟩

/-! ### Agreement -/

/-- The value under the first key that agrees with `key`, if there is one. -/
def lookup? (key : Scalar) : List (Scalar × Datum) → Option Datum
  | [] => none
  | (k, v) :: rest => if k == key then some v else lookup? key rest

mutual

/-- Whether two values mean the same. Entries of mappings and items of sets may stand in any order, and
marks do not count. -/
def agrees : Datum → Datum → Bool
  | .scalar s, .scalar t => s == t
  | .list as _, .list bs _ => agreeItems as bs
  | .mapping as _, .mapping bs _ => as.length == bs.length && agreeEntries as bs
  | .set as _, .set bs _ => as.length == bs.length && as.all bs.contains
  | .pair a b, .pair c d => agrees a c && agrees b d
  | _, _ => false

def agreeItems : List Datum → List Datum → Bool
  | [], [] => true
  | a :: as, b :: bs => agrees a b && agreeItems as bs
  | _, _ => false

def agreeEntries : List (Scalar × Datum) → List (Scalar × Datum) → Bool
  | [], _ => true
  | (k, a) :: as, bs =>
    (match lookup? k bs with
     | some b => agrees a b
     | none => false) && agreeEntries as bs

end

instance : BEq Datum := ⟨agrees⟩

@[simp] theorem text_beq_text (s t : String) : (Datum.text s == Datum.text t) = decide (s = t) :=
  Scalar.text_beq_text s t

theorem beq_scalar_iff {d : Datum} {k : Scalar} :
    (d == .scalar k) = true ↔ ∃ j, d = .scalar j ∧ (j == k) = true := by
  constructor
  · intro h
    cases d with
    | scalar j => exact ⟨j, rfl, h⟩
    | _ => simp [BEq.beq, agrees] at h
  · rintro ⟨j, rfl, h⟩
    exact h

theorem beq_scalar_trans {d : Datum} {j k : Scalar} (h : (d == .scalar j) = true)
    (hjk : (j == k) = true) : (d == .scalar k) = true := by
  obtain ⟨i, rfl, hi⟩ := beq_scalar_iff.mp h
  exact beq_scalar_iff.mpr ⟨i, rfl, BEq.trans hi hjk⟩

/-! ### Reading -/

def isNull : Datum → Bool
  | null => true
  | _ => false

/-- Nothing, `false`, zero and what is empty do not hold. -/
def holds : Datum → Bool
  | null => false
  | bool b => b
  | int n => n != 0
  | float x => !x.isZero
  | text s => s != ""
  | .scalar (.bytes b) => !b.isEmpty
  | .scalar _ => true
  | .list items _ => !items.isEmpty
  | .mapping entries _ => !entries.isEmpty
  | .set items _ => !items.isEmpty
  | .pair _ _ => true

/-- The value under a key, nothing if there is none. -/
def valueAt (key : Scalar) (entries : List (Scalar × Datum)) : Datum := (lookup? key entries).getD null

/-- The value of a field of a mapping, nothing if there is none. -/
def field (name : String) : Datum → Datum
  | .mapping entries _ => valueAt (.text name) entries
  | _ => null

/-- Whether a mapping has a field, be it empty. -/
def hasField (name : String) : Datum → Bool
  | .mapping entries _ => (lookup? (.text name) entries).isSome
  | _ => false

/-- What a loop over the value meets: the items of a list or a set, the characters of a text, the keys of
a mapping. Other values cannot be looped over. -/
def items? : Datum → Option (List Datum)
  | .list items _ => some items
  | text s => some (s.toList.map fun c => text (String.ofList [c]))
  | .scalar (.bytes b) => some (b.map fun n => int n.toNat)
  | .mapping entries _ => some (entries.map fun (k, _) => .scalar k)
  | .set items _ => some (items.map .scalar)
  | .pair a b => some [a, b]
  | _ => none

def asText? : Datum → Option String
  | text s => some s
  | _ => none

/-- The value as a key; only scalars are keys. -/
def asKey? : Datum → Option Scalar
  | .scalar s => some s
  | _ => none

/-- A mapping with texts as keys. -/
def object (fields : List (String × Datum)) : Datum :=
  .mapping (fields.map fun (name, value) => (.text name, value))

def texts (items : List String) : Datum := .list (items.map text)

def ofText? (s : Option String) : Datum := (s.map text).getD null

end Datum

/-- What a document gives as the name of something: a text, as a rule, but any value will do. -/
abbrev Name := Datum

end RestconfApi
