import LeasedWork.Time.Span

/-!
# Instants

An instant is a second counted from the start of 1970 and nanoseconds within it. A leap second
lengthens the second before it: nanoseconds from `10^9` on lie inside the leap second. Any second
can be lengthened, although the calendar inserts leap seconds only where a minute ends
(`Instant.Civil`). Instants are ordered by second and nanosecond, and range over the years -262143
to 262142.
-/

namespace LeasedWork

def secondsPerDay : Nat := 86400

/-- A moment of time. -/
structure Instant where
  /-- Seconds since the start of 1970. -/
  second : Int
  nano : Nat
  second_ge : -8334601228800 ≤ second := by decide
  second_le : second ≤ 8210266876799 := by decide
  nano_lt : nano < 2 * nanosPerSecond := by decide
  deriving DecidableEq, Repr

namespace Instant

theorem ext_fields {a b : Instant} (hs : a.second = b.second) (hn : a.nano = b.nano) : a = b := by
  cases a; cases b; cases hs; cases hn; rfl

def minSecond : Int := -8334601228800

def maxSecond : Int := 8210266876799

/-- The start of 1970. -/
def epoch : Instant := ⟨0, 0, by decide, by decide, by decide⟩

/-- The last nanosecond of the range, leap seconds apart. -/
def latest : Instant := ⟨8210266876799, 999999999, by decide, by decide, by decide⟩

/-- The instant of a second and a nanosecond, when both are in range. -/
def ofParts? (second : Int) (nano : Nat) : Option Instant :=
  if h : (minSecond ≤ second ∧ second ≤ maxSecond) ∧ nano < 2 * nanosPerSecond then
    some ⟨second, nano, h.1.1, h.1.2, h.2⟩
  else none

instance : LE Instant :=
  ⟨fun a b => a.second < b.second ∨ (a.second = b.second ∧ a.nano ≤ b.nano)⟩

instance : LT Instant :=
  ⟨fun a b => a.second < b.second ∨ (a.second = b.second ∧ a.nano < b.nano)⟩

instance (a b : Instant) : Decidable (a ≤ b) :=
  inferInstanceAs (Decidable (a.second < b.second ∨ (a.second = b.second ∧ a.nano ≤ b.nano)))

instance (a b : Instant) : Decidable (a < b) :=
  inferInstanceAs (Decidable (a.second < b.second ∨ (a.second = b.second ∧ a.nano < b.nano)))

theorem le_def {a b : Instant} :
    a ≤ b ↔ a.second < b.second ∨ (a.second = b.second ∧ a.nano ≤ b.nano) := Iff.rfl

theorem lt_def {a b : Instant} :
    a < b ↔ a.second < b.second ∨ (a.second = b.second ∧ a.nano < b.nano) := Iff.rfl

protected theorem le_refl (a : Instant) : a ≤ a := by rw [le_def]; omega

protected theorem le_trans {a b c : Instant} (h : a ≤ b) (h' : b ≤ c) : a ≤ c := by
  rw [le_def] at *; omega

protected theorem le_antisymm {a b : Instant} (h : a ≤ b) (h' : b ≤ a) : a = b := by
  rw [le_def] at h h'; exact ext_fields (by omega) (by omega)

protected theorem not_le {a b : Instant} : ¬ a ≤ b ↔ b < a := by
  rw [le_def, lt_def]; omega

/-- Inside a leap second. -/
def isLeap (t : Instant) : Bool := nanosPerSecond ≤ t.nano

/-- Of the civil calendar: a leap second ends a minute. -/
def Civil (t : Instant) : Prop := t.isLeap = true → t.second % 60 = 59

instance (t : Instant) : Decidable t.Civil :=
  inferInstanceAs (Decidable (t.isLeap = true → t.second % 60 = 59))

/-- Nanoseconds since the start of 1970; a leap second repeats those of the second after it. -/
def nanos (t : Instant) : Int := t.second * nanosPerSecond + t.nano

/-- The instant that is so many nanoseconds from the start of 1970. -/
def ofNanos? (n : Int) : Option Instant :=
  ofParts? (n / nanosPerSecond) (n % nanosPerSecond).toNat

/-- Milliseconds since the start of 1970, rounded down. -/
def millis (t : Instant) : Int := t.second * 1000 + (t.nano / nanosPerMilli : Nat)

/-- The instant that is so many milliseconds from the start of 1970. -/
def ofMillis? (ms : Int) : Option Instant := ofNanos? (ms * nanosPerMilli)

/-- The instant that comes a span later, at most `latest`. Inside a leap second the time may stay
there; a longer span starts from the same nanosecond of the second that the leap second
lengthens. -/
def after (t : Instant) (d : Span) : Instant :=
  if h : t.isLeap ∧ t.nano + d.nanos < 2 * nanosPerSecond then
    ⟨t.second, t.nano + d.nanos, t.second_ge, t.second_le, h.2⟩
  else
    (ofNanos? (t.second * nanosPerSecond + (t.nano % nanosPerSecond : Nat) + d.nanos)).getD latest

/-- The instant one second earlier, unless it lies before the range. -/
def secondBefore? (t : Instant) : Option Instant :=
  if t.isLeap then ofParts? t.second (t.nano - nanosPerSecond) else ofParts? (t.second - 1) t.nano

/-- The second of the day, from zero on. -/
def secondOfDay (t : Instant) : Int := t.second % secondsPerDay

/-- How many nanoseconds later an instant is than another. A leap second counts when the two lie on
different sides of it by the time of day; at the same second of the day only what has passed of the
leap second counts. -/
def nanosSince (t start : Instant) : Int :=
  let leap : Int :=
    if start.isLeap ∧ start.secondOfDay < t.secondOfDay then 1
    else if t.isLeap ∧ t.secondOfDay < start.secondOfDay then -1
    else 0
  t.nanos - start.nanos + leap * nanosPerSecond

/-- Whether a deadline has passed. It has at the deadline itself. -/
def hasElapsed (deadline now : Instant) : Bool := deadline ≤ now

end Instant

end LeasedWork
