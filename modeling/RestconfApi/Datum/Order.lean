import RestconfApi.Datum.Basic

/-!
# Data: order of keys

Texts are ordered by code points and numbers by value. Keys of different kinds have no order, so that a
list of them can only be sorted when all are of one kind.
-/

namespace RestconfApi.Scalar

/-- The kinds of scalars that are ordered among themselves. -/
inductive Family where
  | text
  | number
  | bytes
  | date
  | moment (isZoned : Bool)
deriving DecidableEq, Repr

def family? : Scalar → Option Family
  | .null => none
  | .bool _ | .int _ | .float _ => some .number
  | .text _ => some .text
  | .bytes _ => some .bytes
  | .date _ _ _ _ => some .date
  | .instant t _ => some (.moment t.zone.isSome)

/-- A number as it is compared with others. -/
def amount : Scalar → Double
  | .bool b => .finite false (if b then 1 else 0) 0
  | .int n => .finite (n < 0) n.natAbs 0
  | .float x => x
  | _ => .nan

def before : Scalar → Scalar → Bool
  | .text s, .text t => s < t
  | .bytes b, .bytes c => b.map (·.toNat) < c.map (·.toNat)
  | .date y m d _, .date y' m' d' _ => [y, m, d] < [y', m', d']
  | .instant t _, .instant u _ => t.moment < u.moment
  | a, b => a.amount.below b.amount

def insertSorted (s : Scalar) : List Scalar → List Scalar
  | [] => [s]
  | t :: ts => if t.before s then t :: insertSorted s ts else s :: t :: ts

/-- Insertion sort. -/
def sorted : List Scalar → List Scalar
  | [] => []
  | s :: ts => insertSorted s (sorted ts)

/-- Whether all keys of a list can be compared with each other. -/
def areOrdered : List Scalar → Bool
  | [] | [_] => true
  | s :: ts => s.family?.isSome && ts.all (·.family? == s.family?)

/-- Keeps the first of agreeing keys. -/
def distinct : List Scalar → List Scalar
  | [] => []
  | s :: ts => s :: (distinct ts).filter fun t => !(t == s)

end RestconfApi.Scalar
