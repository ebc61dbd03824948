/-!
# Data: points in time

Dates of the Gregorian calendar and times of a day. Two instants with time zones are the same moment
when they are so in one zone.
-/

namespace RestconfApi

/-- A point in time, with the offset of its zone in seconds if it has one. -/
structure Instant where
  year : Nat
  month : Nat
  day : Nat
  hour : Nat
  minute : Nat
  second : Nat
  micro : Nat
  zone : Option Int
deriving DecidableEq, Repr

namespace Calendar

def isLeap (year : Nat) : Bool := year % 4 == 0 && (year % 100 != 0 || year % 400 == 0)

def daysIn (year month : Nat) : Nat :=
  if month = 2 then if isLeap year then 29 else 28
  else if [4, 6, 9, 11].contains month then 30
  else 31

/-- The number of days from the start of the calendar to a date. -/
def dayNumber (year month day : Nat) : Nat :=
  let past := year - 1
  365 * past + past / 4 - past / 100 + past / 400 +
    (List.range (month - 1)).foldl (fun n m => n + daysIn year (m + 1)) 0 + day

end Calendar

/-- The millionths of a second from the start of the calendar, without the offset of the zone. -/
def Instant.moment (t : Instant) : Int :=
  let minutes := (Calendar.dayNumber t.year t.month t.day * 24 + t.hour) * 60 + t.minute
  let seconds : Int := (minutes * 60 + t.second : Nat)
  (seconds - t.zone.getD 0) * 1000000 + t.micro

end RestconfApi
