import LeasedWork.Text.Decimal

/-!
# Spans of time

A span is a whole number of nanoseconds, at most `2^64 - 1` seconds and `999999999` nanoseconds.
-/

namespace LeasedWork

/-- The nanoseconds in a second. -/
abbrev nanosPerSecond : Nat := 1000000000

/-- The nanoseconds in a millisecond. -/
abbrev nanosPerMilli : Nat := 1000000

/-- The nanoseconds in a microsecond. -/
abbrev nanosPerMicro : Nat := 1000

/-- A length of time. -/
structure Span where
  nanos : Nat
  nanos_lt : nanos < UInt64.size * nanosPerSecond := by decide
  deriving DecidableEq, Repr

namespace Span

def zero : Span := ⟨0, by decide⟩

def longest : Span := ⟨UInt64.size * nanosPerSecond - 1, by decide⟩

/-- The span of so many nanoseconds, or the longest one. -/
def ofNanos (n : Nat) : Span :=
  if h : n < UInt64.size * nanosPerSecond then ⟨n, h⟩ else longest

/-- So many seconds. -/
def seconds (n : UInt64) : Span :=
  ⟨n.toNat * nanosPerSecond, by have := n.toNat_lt; unfold UInt64.size nanosPerSecond; omega⟩

/-- So many milliseconds. -/
def millis (n : Nat) : Span := ofNanos (n * nanosPerMilli)

/-- Whole seconds. -/
def wholeSeconds (d : Span) : Nat := d.nanos / nanosPerSecond

/-- The nanoseconds beyond whole seconds. -/
def restNanos (d : Span) : Nat := d.nanos % nanosPerSecond

/-- Whole milliseconds. -/
def wholeMillis (d : Span) : Nat := d.nanos / nanosPerMilli

def isZero (d : Span) : Bool := d.nanos == 0

instance : LE Span := ⟨fun a b => a.nanos ≤ b.nanos⟩

instance : LT Span := ⟨fun a b => a.nanos < b.nanos⟩

instance (a b : Span) : Decidable (a ≤ b) := inferInstanceAs (Decidable (a.nanos ≤ b.nanos))

instance (a b : Span) : Decidable (a < b) := inferInstanceAs (Decidable (a.nanos < b.nanos))

/-- `n` units of `10 ^ -width` as a whole part and the fraction digits that it needs. -/
def decimalText (width n : Nat) : String :=
  let unit := Nat.pow 10 width
  let whole := Decimal.natText (n / unit)
  if n % unit = 0 then whole
  else whole ++ "." ++ String.ofList (Decimal.fractionDigits width (n % unit))

/-- A span in the largest unit of which it has one: `1.5s`, `100ms`, `2µs`, `0ns`. -/
def text (d : Span) : String :=
  if nanosPerSecond ≤ d.nanos then decimalText 9 d.nanos ++ "s"
  else if nanosPerMilli ≤ d.nanos then decimalText 6 d.nanos ++ "ms"
  else if nanosPerMicro ≤ d.nanos then decimalText 3 d.nanos ++ "µs"
  else decimalText 0 d.nanos ++ "ns"

end Span

end LeasedWork
