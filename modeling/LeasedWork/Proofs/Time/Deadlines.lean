import LeasedWork.Time.Timestamp
import Mathlib.Algebra.Order.Group.Int
import Mathlib.Tactic.SplitIfs

/-! # Deadlines

A deadline is a time and a span after it.  Outside leap seconds an instant is its number of
nanoseconds (`Instant.ext_settled`, `Instant.le_iff_nanos_le`), and a deadline is the sum of the two
numbers or, where that lies beyond the range, the last instant of all (`Instant.nanos_after`).  All
that is said of leases follows from this one equation (`Instant.deadlines_exact`).

The sum can fail at two places.  A length that is added to a time has at most `2^63 - 1`
milliseconds, which a span may exceed; and the time that comes out may lie beyond the range.  Both
ways lead to the last instant, and no span falls between them (`Instant.plus_ofSpan`): a length that
is too great for the first is far too great for the second.
-/
namespace LeasedWork

/-! ## Lengths that can be added -/

/-- A length of time that can be added to a time: at most `2^63 - 1` milliseconds. -/
structure Delta where
  nanos : Nat
  nanos_le : nanos ≤ Int64.maxValue.toInt.toNat * nanosPerMilli

/-- The length of a span, if it can be added to a time. -/
def Delta.ofSpan? (d : Span) : Option Delta :=
  if h : d.nanos ≤ Int64.maxValue.toInt.toNat * nanosPerMilli then some ⟨d.nanos, h⟩ else none

namespace Instant

/-- The instant that comes a length later, if the range has it.  Inside a leap second the time may
stay there. -/
def plus? (t : Instant) (d : Delta) : Option Instant :=
  if t.isLeap ∧ t.nano + d.nanos < 2 * nanosPerSecond then ofParts? t.second (t.nano + d.nanos)
  else ofNanos? (t.second * nanosPerSecond + (t.nano % nanosPerSecond : Nat) + d.nanos)

variable {t u : Instant} {d e : Span} {n : Int}

/-! ## Instants as numbers -/

theorem parts_of_ofNanos? (h : ofNanos? n = some t) :
    t.second = n / nanosPerSecond ∧ (t.nano : Int) = n % nanosPerSecond := by
  unfold ofNanos? ofParts? at h
  obtain ⟨_, h⟩ := Option.dite_none_right_eq_some.mp h
  obtain rfl := Option.some.inj h
  exact ⟨rfl, Int.toNat_of_nonneg (Int.emod_nonneg n (by decide))⟩

theorem nano_lt_of_settled (h : t.isLeap = false) : t.nano < nanosPerSecond :=
  Nat.not_le.mp (of_decide_eq_false h)

theorem settled_of_ofNanos? (h : ofNanos? n = some t) : t.isLeap = false ∧ t.nanos = n := by
  obtain ⟨hsecond, hnano⟩ := parts_of_ofNanos? h
  unfold isLeap nanos nanosPerSecond at *
  exact ⟨decide_eq_false (by omega), by omega⟩

/-- The instants outside leap seconds are the nanoseconds from the first to the last of the
range. -/
theorem ofNanos_eq_none_iff :
    ofNanos? n = none ↔ n < minSecond * nanosPerSecond ∨ latest.nanos < n := by
  have hlatest : latest.nanos = 8210266876799999999999 := rfl
  unfold ofNanos? ofParts?
  rw [dite_eq_right_iff, hlatest]
  unfold minSecond maxSecond nanosPerSecond
  constructor
  · intro h
    by_contra hrange
    exact nomatch h ⟨by omega, by omega⟩
  · intro h hparts
    omega

/-- Outside leap seconds, the number of nanoseconds tells instants apart, -/
theorem ext_settled (ht : t.isLeap = false) (hu : u.isLeap = false) (h : t.nanos = u.nanos) :
    t = u := by
  have htn := nano_lt_of_settled ht
  have hun := nano_lt_of_settled hu
  unfold nanos nanosPerSecond at *
  exact ext_fields (by omega) (by omega)

/-- and orders them. -/
theorem le_iff_nanos_le (ht : t.isLeap = false) (hu : u.isLeap = false) :
    t ≤ u ↔ t.nanos ≤ u.nanos := by
  have htn := nano_lt_of_settled ht
  have hun := nano_lt_of_settled hu
  rw [le_def]
  unfold nanos nanosPerSecond at *
  omega

theorem nanos_le_latest (ht : t.isLeap = false) : t.nanos ≤ latest.nanos := by
  have htn := nano_lt_of_settled ht
  have hle := t.second_le
  have hlatest : latest.nanos = 8210266876799999999999 := rfl
  rw [hlatest]
  unfold nanos nanosPerSecond at *
  omega

theorem minNanos_le (t : Instant) : minSecond * nanosPerSecond ≤ t.nanos := by
  have hge := t.second_ge
  unfold nanos minSecond nanosPerSecond
  omega

/-- The span between two instants outside leap seconds is the difference of their numbers. -/
theorem nanosSince_of_settled (ht : t.isLeap = false) (hu : u.isLeap = false) :
    u.nanosSince t = u.nanos - t.nanos := by
  simp [nanosSince, ht, hu]

/-! ## Saturating sums -/

theorem after_of_settled (ht : t.isLeap = false) :
    t.after d = (ofNanos? (t.nanos + d.nanos)).getD latest := by
  have hstays : ¬ (t.isLeap = true ∧ t.nano + d.nanos < 2 * nanosPerSecond) := by simp [ht]
  rw [after, dif_neg hstays, Nat.mod_eq_of_lt (nano_lt_of_settled ht), nanos]

/-- **A deadline is an exact sum**, and the last instant where the sum lies beyond it. -/
theorem nanos_after (ht : t.isLeap = false) (d : Span) :
    (t.after d).isLeap = false ∧ (t.after d).nanos = min (t.nanos + d.nanos) latest.nanos := by
  rw [after_of_settled ht]
  cases hsum : ofNanos? (t.nanos + d.nanos) with
  | none =>
    have hmin := t.minNanos_le
    have hbeyond : latest.nanos < t.nanos + d.nanos := by
      rcases ofNanos_eq_none_iff.mp hsum with hlow | hhigh <;> omega
    refine ⟨rfl, ?_⟩
    rw [Option.getD_none]
    omega
  | some u =>
    obtain ⟨hu, hnanos⟩ := settled_of_ofNanos? hsum
    have hwithin := nanos_le_latest hu
    refine ⟨hu, ?_⟩
    rw [Option.getD_some]
    omega

/-- **Where the sum can fail.**  A span that is too long to be added to any time leads from every
time beyond the range. -/
theorem plus_ofSpan (t : Instant) (d : Span) :
    ((Delta.ofSpan? d).bind t.plus?).getD latest = t.after d := by
  have hge := t.second_ge
  have hparts : ∀ {nano} (hlt : nano < 2 * nanosPerSecond), ofParts? t.second nano =
      some ⟨t.second, nano, t.second_ge, t.second_le, hlt⟩ :=
    fun hlt => dif_pos ⟨⟨t.second_ge, t.second_le⟩, hlt⟩
  by_cases hd : d.nanos ≤ Int64.maxValue.toInt.toNat * nanosPerMilli
  · rw [Delta.ofSpan?, dif_pos hd, Option.bind_some, plus?, after]
    split_ifs with hstays
    · rw [hparts hstays.2, Option.getD_some]
    · rfl
  · have hmax : Int64.maxValue.toInt.toNat = 9223372036854775807 := rfl
    have hlatest : latest.nanos = 8210266876799999999999 := rfl
    have hmoves : ¬ (t.isLeap = true ∧ t.nano + d.nanos < 2 * nanosPerSecond) := by
      unfold nanosPerSecond nanosPerMilli at *
      omega
    have hnone : ofNanos? (t.second * nanosPerSecond + (t.nano % nanosPerSecond : Nat) + d.nanos) =
        none := by
      refine ofNanos_eq_none_iff.mpr (.inr ?_)
      unfold nanosPerSecond nanosPerMilli at *
      omega
    rw [Delta.ofSpan?, dif_neg hd, after, dif_neg hmoves, hnone]
    rfl

/-! ## What follows for leases -/

theorem le_after (ht : t.isLeap = false) (d : Span) : t ≤ t.after d := by
  obtain ⟨hleap, hnanos⟩ := nanos_after ht d
  have hlatest := nanos_le_latest ht
  rw [le_iff_nanos_le ht hleap, hnanos]
  omega

theorem after_le_after (ht : t.isLeap = false) (hu : u.isLeap = false) (htu : t ≤ u)
    (hde : d ≤ e) : t.after d ≤ u.after e := by
  obtain ⟨htd, hsum⟩ := nanos_after ht d
  obtain ⟨hue, hsum'⟩ := nanos_after hu e
  have hspans : d.nanos ≤ e.nanos := hde
  rw [le_iff_nanos_le ht hu] at htu
  rw [le_iff_nanos_le htd hue, hsum, hsum']
  omega

theorem after_after (ht : t.isLeap = false) {f : Span} (hf : f.nanos = d.nanos + e.nanos) :
    (t.after d).after e = t.after f := by
  obtain ⟨hd, hsum⟩ := nanos_after ht d
  obtain ⟨he, hsum'⟩ := nanos_after hd e
  obtain ⟨hf', hsum''⟩ := nanos_after ht f
  refine ext_settled he hf' ?_
  rw [hsum', hsum'', hsum, hf]
  omega

/-- Before the last instant, a deadline has passed when its span has. -/
theorem hasElapsed_after_iff (ht : t.isLeap = false) (hu : u.isLeap = false) (hlast : u < latest) :
    hasElapsed (t.after d) u = true ↔ (d.nanos : Int) ≤ u.nanosSince t := by
  obtain ⟨hd, hsum⟩ := nanos_after ht d
  have hbefore : ¬ latest.nanos ≤ u.nanos := by
    rw [← le_iff_nanos_le rfl hu, Instant.not_le]
    exact hlast
  rw [hasElapsed, decide_eq_true_iff, le_iff_nanos_le hd hu, hsum, nanosSince_of_settled ht hu]
  omega

/-- Inside a leap second just those deadlines have passed that had passed before it. -/
theorem hasElapsed_of_isLeap (ht : t.isLeap = false) (hu : u.isLeap = true) {v : Instant}
    (hsecond : v.second = u.second) (hnano : v.nano = nanosPerSecond - 1) :
    hasElapsed t u = hasElapsed t v := by
  have htn := nano_lt_of_settled ht
  have hun : nanosPerSecond ≤ u.nano := of_decide_eq_true hu
  unfold hasElapsed
  rw [decide_eq_decide, le_def, le_def]
  unfold nanosPerSecond at *
  omega

/-- **Leases are exact, and end with time at the latest.**  For every time outside leap seconds and
every span, the deadline lies outside leap seconds too, and is the exact sum in nanoseconds or the
last instant, whichever comes first; the sum fails at neither of its two places for any other
reason.  So a deadline is never before the time it is counted from; a later time or a longer span
never leads to an earlier one; two spans after one another lead where the span of both leads, if
there is one; and before the last instant a deadline has passed just when its span has.  A leap
second lets no deadline pass that had not passed when it began. -/
theorem deadlines_exact (t : Instant) (ht : t.isLeap = false) (d : Span) :
    ((Delta.ofSpan? d).bind t.plus?).getD latest = t.after d ∧
    (t.after d).isLeap = false ∧
    (t.after d).nanos = min (t.nanos + d.nanos) latest.nanos ∧
    t ≤ t.after d ∧
    (∀ u, u.isLeap = false → t ≤ u → ∀ e, d ≤ e → t.after d ≤ u.after e) ∧
    (∀ e f : Span, f.nanos = d.nanos + e.nanos → (t.after d).after e = t.after f) ∧
    (∀ u, u.isLeap = false → u < latest →
      (hasElapsed (t.after d) u = true ↔ (d.nanos : Int) ≤ u.nanosSince t)) ∧
    ∀ u v : Instant, u.isLeap = true → v.second = u.second → v.nano = nanosPerSecond - 1 →
      hasElapsed (t.after d) u = hasElapsed (t.after d) v := by
  obtain ⟨hsettled, hnanos⟩ := nanos_after ht d
  refine ⟨plus_ofSpan t d, hsettled, hnanos, le_after ht d, ?_, ?_, ?_, ?_⟩
  · exact fun u hu htu e hde => after_le_after ht hu htu hde
  · exact fun e f hf => after_after ht hf
  · exact fun u hu hlast => hasElapsed_after_iff ht hu hlast
  · exact fun u v hu hsecond hnano => hasElapsed_of_isLeap hsettled hu hsecond hnano

/-- A second and a half before the end of time. -/
def nearlyLatest : Instant := ⟨8210266876798, 499999999, by decide, by decide, by decide⟩

/-- A lease of two seconds ends with time, a second and a half later, and has not passed before. -/
theorem deadlines_exact_nearlyLatest :
    nearlyLatest.isLeap = false ∧ nearlyLatest.after (.seconds 2) = latest ∧
      ∀ u : Instant, u.isLeap = false → u < latest →
        hasElapsed (nearlyLatest.after (.seconds 2)) u = false := by
  obtain ⟨-, hsettled, hnanos, -, -, -, helapsed, -⟩ :=
    deadlines_exact nearlyLatest rfl (.seconds 2)
  refine ⟨rfl, ext_settled hsettled rfl (hnanos.trans (by decide)), fun u hu hlast => ?_⟩
  rw [← Bool.not_eq_true, helapsed u hu hlast, nanosSince_of_settled rfl hu]
  have hle := nanos_le_latest hu
  have hlatest : latest.nanos = 8210266876799999999999 := rfl
  have hnearly : nearlyLatest.nanos = 8210266876798499999999 := rfl
  have htwo : (Span.seconds 2).nanos = 2000000000 := rfl
  omega

/-- The range goes from the first second of the year -262143 to the last one of the year 262142. -/
example :
    Timestamp.ofString? "-262143-01-01T00:00:00Z" = ofParts? minSecond 0 ∧
      Timestamp.ofString? "+262142-12-31T23:59:59.999999999Z" = some latest := by
  decide +kernel

end Instant

end LeasedWork
