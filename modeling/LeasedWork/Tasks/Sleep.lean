/-!
# Sleep

Whoever sleeps names a length of time, but nobody sleeps longer than thirty years at once: a greater
length ends with these. This is what the timer does with every such length, and not only where the
sum of `now` and the length would leave the range of its clock: a sleep of 35184372088832
milliseconds that starts at 0 is over at 946080000000. The bound is one of a sleep and not of a
deadline, which a shutdown may set later than that. Times are milliseconds since a fixed start.
-/

namespace LeasedWork

namespace Sleep

/-- The length of the longest sleep: thirty years of 365 days. -/
def longest : Nat := 946080000000

/-- When a sleep of some length ends that starts at `now`. -/
def wake (now length : Nat) : Nat := now + min length longest

end Sleep

end LeasedWork
