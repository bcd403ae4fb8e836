import LeasedWork.Time.Calendar
import Mathlib.Tactic.SplitIfs

/-! # The calendar counts every day once

`Date.ofNumber` finds, for every day number, a day that the calendar has (`Date.exists_ofNumber`)
and that `Date.number` counts back to the same number (`Date.number_ofNumber`).  The year is found
by an estimate that is off by at most one (`daysBeforeYear_estimate`); within the year the months'
lengths are walked (`locate_spec`).
-/
namespace LeasedWork

namespace Calendar

/-! ## Years -/

theorem daysBeforeYear_mono {y z : Int} (h : y ≤ z) : daysBeforeYear y ≤ daysBeforeYear z := by
  unfold daysBeforeYear
  omega

/-- The mean length of a year misses the year of a day by at most one. -/
theorem daysBeforeYear_estimate (n : Int) :
    daysBeforeYear (n * 400 / 146097 - 1) ≤ n ∧ n < daysBeforeYear (n * 400 / 146097 + 2) := by
  unfold daysBeforeYear
  constructor <;> omega

/-- **The year of a day.**  The day lies on or after the year's first day, and before the first
day of the next year. -/
theorem yearOf_spec (n : Int) :
    daysBeforeYear (yearOf n) ≤ n ∧ n < daysBeforeYear (yearOf n + 1) := by
  obtain ⟨hlow, hhigh⟩ := daysBeforeYear_estimate n
  unfold yearOf
  dsimp only
  split_ifs with h h'
  · exact ⟨hlow, by rwa [Int.sub_add_cancel]⟩
  · exact ⟨h', by rwa [Int.add_assoc]⟩
  · exact ⟨Int.not_lt.mp h, Int.not_le.mp h'⟩

theorem le_yearOf {y n : Int} (h : daysBeforeYear y ≤ n) : y ≤ yearOf n := by
  refine Int.not_lt.mp fun hlt => ?_
  have hmono := daysBeforeYear_mono (show yearOf n + 1 ≤ y from hlt)
  have := (yearOf_spec n).2
  omega

theorem yearOf_lt {y n : Int} (h : n < daysBeforeYear y) : yearOf n < y := by
  refine Int.not_le.mp fun hle => ?_
  have hmono := daysBeforeYear_mono hle
  have := (yearOf_spec n).1
  omega

/-! ## Months -/

theorem daysBeforeMonth_twelve (leap : Bool) :
    daysBeforeMonth leap 12 = (monthLengths leap).foldr (· + ·) 0 := by
  cases leap <;> rfl

/-- The lengths of a year's months add up to the year. -/
theorem daysBeforeYear_succ (y : Int) :
    daysBeforeYear (y + 1) = daysBeforeYear y + daysBeforeMonth (isLeap y) 12 := by
  unfold daysBeforeYear daysBeforeMonth isLeap monthLengths
  split_ifs with h <;> simp at h ⊢ <;> omega

theorem monthLength_le {leap : Bool} {m l : Nat} (h : (monthLengths leap)[m]? = some l) :
    m < 12 ∧ l ≤ 31 := by
  obtain ⟨hm, rfl⟩ := List.getElem?_eq_some_iff.mp h
  refine ⟨hm, ?_⟩
  have hall : ∀ l ∈ monthLengths leap, l ≤ 31 := by cases leap <;> decide
  exact hall _ (List.getElem_mem hm)

/-- Walking lengths finds the place of a day inside one of them. -/
theorem locate_spec (ls : List Nat) {n : Nat} (h : n < ls.foldr (· + ·) 0) :
    ∃ l, ls[(locate ls n).1]? = some l ∧ (locate ls n).2 < l ∧
      (ls.take (locate ls n).1).foldr (· + ·) 0 + (locate ls n).2 = n := by
  induction ls generalizing n with
  | nil => simp at h
  | cons l ls ih =>
    rw [List.foldr_cons] at h
    unfold locate
    split_ifs with hn
    · exact ⟨l, rfl, hn, Nat.zero_add n⟩
    · obtain ⟨l', hl', hlt, hsum⟩ := ih (n := n - l) (by omega)
      refine ⟨l', by simpa using hl', hlt, ?_⟩
      simp only [List.take_succ_cons, List.foldr_cons]
      omega

end Calendar

namespace Date

open Calendar

/-- The month and the day of the month of a day number. -/
theorem ofNumber_spec (n : Int) :
    ∃ m d l, ofNumber n = ⟨yearOf n, m + 1, d + 1⟩ ∧
      (monthLengths (isLeap (yearOf n)))[m]? = some l ∧ d < l ∧
      daysBeforeYear (yearOf n) + daysBeforeMonth (isLeap (yearOf n)) m + d = n := by
  obtain ⟨hlow, hhigh⟩ := yearOf_spec n
  rw [daysBeforeYear_succ] at hhigh
  have hlt : (n - daysBeforeYear (yearOf n)).toNat <
      (monthLengths (isLeap (yearOf n))).foldr (· + ·) 0 := by
    rw [← daysBeforeMonth_twelve]
    omega
  obtain ⟨l, hl, hd, hsum⟩ := locate_spec _ hlt
  refine ⟨(locate _ _).1, (locate _ _).2, l, rfl, hl, hd, ?_⟩
  unfold daysBeforeMonth
  omega

/-- **Day numbers name days of the calendar.** -/
theorem exists_ofNumber (n : Int) : (ofNumber n).exists? = true := by
  obtain ⟨m, d, l, hn, hl, hd, -⟩ := ofNumber_spec n
  rw [hn]
  simp only [exists?, Nat.add_sub_cancel, hl, Bool.and_eq_true, decide_eq_true_eq]
  omega

/-- **The day of a number counts back to it.** -/
theorem number_ofNumber (n : Int) : (ofNumber n).number = n := by
  obtain ⟨m, d, l, hn, -, -, hsum⟩ := ofNumber_spec n
  rw [hn]
  simpa only [number, Nat.add_sub_cancel] using hsum

theorem ofNumber_le (n : Int) : (ofNumber n).month ≤ 12 ∧ (ofNumber n).day ≤ 31 := by
  obtain ⟨m, d, l, hn, hl, hd, -⟩ := ofNumber_spec n
  obtain ⟨hm, hl31⟩ := monthLength_le hl
  rw [hn]
  exact ⟨hm, by dsimp only; omega⟩

end Date

end LeasedWork
