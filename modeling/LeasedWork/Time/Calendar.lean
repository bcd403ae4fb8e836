/-!
# Calendar dates

The Gregorian calendar, extended to all years, with days numbered from the first of January of the
year zero. A day's year is estimated by the mean length of a year and corrected by at most one;
its month is found by walking the months' lengths.
-/

namespace LeasedWork

/-- A day of the calendar. Months and days of a month count from one. -/
structure Date where
  year : Int
  month : Nat
  day : Nat
  deriving DecidableEq, Repr

namespace Calendar

def isLeap (y : Int) : Bool := y % 4 == 0 && (y % 100 != 0 || y % 400 == 0)

/-- The lengths of a year's months. -/
def monthLengths (leap : Bool) : List Nat :=
  [31, if leap then 29 else 28, 31, 30, 31, 30, 31, 31, 30, 31, 30, 31]

/-- The days of the first `n` months of a year. -/
def daysBeforeMonth (leap : Bool) (n : Nat) : Nat := ((monthLengths leap).take n).foldr (· + ·) 0

/-- The days from the start of the year zero to the start of a year. -/
def daysBeforeYear (y : Int) : Int := 365 * y + (y + 3) / 4 - (y + 99) / 100 + (y + 399) / 400

/-- The days from the start of the year zero to the start of 1970. -/
def epochDay : Int := daysBeforeYear 1970

/-- The year of a day. -/
def yearOf (n : Int) : Int :=
  let y := n * 400 / 146097
  if n < daysBeforeYear y then y - 1 else if daysBeforeYear (y + 1) ≤ n then y + 1 else y

/-- How many of the given lengths pass before a day, and the day's place in the next one. -/
def locate : List Nat → Nat → Nat × Nat
  | [], n => (0, n)
  | l :: ls, n =>
    if n < l then (0, n) else ((locate ls (n - l)).1 + 1, (locate ls (n - l)).2)

end Calendar

namespace Date

open Calendar

/-- Whether the calendar has such a day. -/
def exists? (d : Date) : Bool :=
  match (monthLengths (isLeap d.year))[d.month - 1]? with
  | some l => 1 ≤ d.month && 1 ≤ d.day && d.day ≤ l
  | none => false

/-- The number of a day that exists. -/
def number (d : Date) : Int :=
  daysBeforeYear d.year + daysBeforeMonth (isLeap d.year) (d.month - 1) + (d.day - 1 : Nat)

/-- The day of a number. -/
def ofNumber (n : Int) : Date :=
  let y := yearOf n
  let (m, d) := locate (monthLengths (isLeap y)) (n - daysBeforeYear y).toNat
  ⟨y, m + 1, d + 1⟩

end Date

end LeasedWork
