import LeasedWork.Time.Instant

/-!
# Clocks

A clock is moved by hand. One of milliseconds counts in 64 bits and wraps around; where its count
lies outside the range of instants it shows the epoch. An exact clock holds an instant.
-/

namespace LeasedWork

/-- A clock that moves only when told to. -/
inductive Clock
  | ofMillis (count : Int64)
  | exact (time : Instant)
  deriving DecidableEq, Repr

namespace Clock

/-- A clock of milliseconds at an instant, rounded down. -/
def startingAt (t : Instant) : Clock := .ofMillis (Int64.ofInt t.millis)

def now : Clock → Instant
  | .ofMillis count => (Instant.ofMillis? count.toInt).getD .epoch
  | .exact time => time

def advance (d : Span) : Clock → Clock
  | .ofMillis count => .ofMillis (count + Int64.ofInt d.wholeMillis)
  | .exact time => .exact (time.after d)

def set (t : Instant) : Clock → Clock
  | .ofMillis _ => startingAt t
  | .exact _ => .exact t

end Clock

end LeasedWork
