import LeasedWork.Proofs.Text.Numerals
import LeasedWork.Proofs.Time.Calendar
import LeasedWork.Time.Timestamp
import Mathlib.Tactic.NormNum

/-! # Written timestamps read back

The reader of timestamps takes far more than the writer writes.  This module follows it along a
written text, field by field: every field's scanner gives the field and stops where the next one
begins (`year_yearChars`, `number_padded`, `fraction_fractionChars`), the calendar day counts back
to its number, and so the whole text is read as the instant that was written: before the year zero,
beyond the year 9999, and inside a leap second where a minute ends.

A leap second that ends no minute is not in the calendar.  Its text shows the second that follows
it, and that is what is read (`ofString_text`, `Instant.reread`).  No text is read as such a leap
second (`civil_of_ofString`).
-/
namespace LeasedWork

namespace Instant

/-! ## What a text shows -/

/-- The instant that the text of an instant shows. A lengthened second that does not end a minute
is shown as the second after it. -/
def reread (t : Instant) : Instant :=
  if h : t.Civil then t
  else
    { second := t.second + 1
      nano := t.nano - nanosPerSecond
      second_ge := Int.le_trans t.second_ge (Int.le_add_one (Int.le_refl _))
      second_le := by
        have hle := t.second_le
        have hminute : t.second % 60 ≠ 59 := fun heq => h fun _ => heq
        omega
      nano_lt := Nat.lt_of_le_of_lt (Nat.sub_le _ _) t.nano_lt }

theorem reread_of_civil {t : Instant} (h : t.Civil) : t.reread = t := dif_pos h

theorem isLeap_of_not_civil {t : Instant} (h : ¬ t.Civil) : t.isLeap = true ∧ t.second % 60 ≠ 59 :=
  Classical.not_imp.mp h

theorem civil_of_not_isLeap {t : Instant} (h : t.isLeap = false) : t.Civil :=
  fun hleap => absurd (h.symm.trans hleap) Bool.false_ne_true

theorem civil_reread (t : Instant) : t.reread.Civil := by
  unfold reread
  split
  · assumption
  · refine civil_of_not_isLeap (decide_eq_false ?_)
    have hnano := t.nano_lt
    dsimp only
    omega

theorem reread_eq_iff {t : Instant} : t.reread = t ↔ t.Civil :=
  ⟨fun h => h ▸ t.civil_reread, reread_of_civil⟩

/-- A deadline is of the calendar if the time is from which it is counted. -/
theorem Civil.after {t : Instant} (h : t.Civil) (d : Span) : (t.after d).Civil := by
  unfold Instant.after
  split
  · rename_i hstays
    exact fun _ => h hstays.1
  · refine civil_of_not_isLeap (decide_eq_false ?_)
    cases hsum : ofNanos?
        (t.second * nanosPerSecond + (t.nano % nanosPerSecond : Nat) + d.nanos) with
    | none => decide
    | some u =>
      unfold ofNanos? ofParts? at hsum
      obtain ⟨_, hu⟩ := Option.dite_none_right_eq_some.mp hsum
      obtain rfl := Option.some.inj hu
      have hrange := Int.emod_lt_of_pos
        (t.second * nanosPerSecond + (t.nano % nanosPerSecond : Nat) + d.nanos)
        (show (0 : Int) < nanosPerSecond by decide)
      dsimp only [Option.getD_some]
      omega

end Instant

namespace Timestamp

open Decimal (isDigit isDigit_iff padded EndsDigits endsDigits_cons isDigit_of_mem_padded
  padded_ne_nil)

/-! ## Scanning one field -/

theorem isBlank_of_isDigit {c : Char} (h : isDigit c = true) : Text.isBlank c = false := by
  obtain ⟨hlow, hhigh⟩ := isDigit_iff.mp h
  simp only [Text.isBlank, Text.blankRanges, List.any_cons, List.any_nil, Bool.or_false,
    Bool.or_eq_false_iff, Bool.and_eq_false_iff, decide_eq_false_iff_not]
  omega

theorem trimStart_cons {c : Char} {cs : List Char} (h : Text.isBlank c = false) :
    Text.trimStart (c :: cs) = c :: cs := by
  rw [Text.trimStart, List.dropWhile_cons_of_neg (by simp [h])]

/-- Padded numerals begin with a digit. -/
theorem padded_eq_cons (width n : Nat) :
    ∃ d ds, padded width n = d :: ds ∧ isDigit d = true := by
  cases h : padded width n with
  | nil => exact absurd h (padded_ne_nil width n)
  | cons d ds => exact ⟨d, ds, rfl, isDigit_of_mem_padded (by rw [h]; exact List.mem_cons_self)⟩

theorem trimStart_padded (width n : Nat) (rest : List Char) :
    Text.trimStart (padded width n ++ rest) = padded width n ++ rest := by
  obtain ⟨d, ds, h, hd⟩ := padded_eq_cons width n
  rw [h, List.cons_append, trimStart_cons (isBlank_of_isDigit hd)]

theorem digits_append {most : Nat} {ds rest : List Char} (hds : ∀ d ∈ ds, isDigit d = true)
    (hne : ds ≠ []) (hlen : ds.length ≤ most) (hrest : EndsDigits rest) :
    digits most (ds ++ rest) = some (ds, rest) := by
  unfold digits
  rw [Decimal.takeWhile_digits_append hds hrest, List.take_of_length_le hlen]
  simp [hne]

/-- The rest of a text may hold digits of its own, so the bound may be any length. -/
theorem digits_padded (most width n : Nat) {rest : List Char}
    (hlen : (padded width n).length ≤ most) (hrest : EndsDigits rest) :
    digits most (padded width n ++ rest) = some (padded width n, rest) :=
  digits_append (fun _ => isDigit_of_mem_padded) (padded_ne_nil width n) hlen hrest

theorem number_padded {n : Nat} {rest : List Char} (h : n < 100) (hrest : EndsDigits rest) :
    number 2 (padded 2 n ++ rest) = some (n, rest) := by
  unfold number
  rw [trimStart_padded, digits_padded _ _ _ (Decimal.length_padded (by decide) (by omega)).le hrest]
  simp

theorem separator_cons {c : Char} {rest : List Char} (h : Text.isBlank c = false) :
    separator c (c :: rest) = some ((), rest) := by
  simp [separator, trimStart_cons h, oneOf]

/-- A signed year: the sign is taken off, and as many digits as there are. -/
theorem year_signed (negative : Bool) (n : Nat) {rest : List Char} (hrest : EndsDigits rest) :
    year ((if negative then '-' else '+') :: padded 4 n ++ rest) =
      some (if negative then -(n : Int) else n, rest) := by
  have hscan := digits_padded ((padded 4 n).length + rest.length) 4 n (by omega) hrest
  cases negative <;>
    simp [year, trimStart_cons (show Text.isBlank '-' = false by decide),
      trimStart_cons (show Text.isBlank '+' = false by decide), hscan]

/-- A year of four digits: the first of them is none of the signs. -/
theorem year_padded {n : Nat} {rest : List Char} (h : n < 10000) (hrest : EndsDigits rest) :
    year (padded 4 n ++ rest) = some ((n : Int), rest) := by
  obtain ⟨d, ds, hcons, hd⟩ := padded_eq_cons 4 n
  have hscan := digits_padded 4 4 n (Decimal.length_padded (by decide) h).le hrest
  have hminus : d ≠ '-' := by rintro rfl; exact absurd hd (by decide)
  have hplus : d ≠ '+' := by rintro rfl; exact absurd hd (by decide)
  unfold year
  rw [trimStart_padded]
  split
  · rw [hcons] at *
    exact absurd (List.cons.inj ‹_›).1 hminus
  · rw [hcons] at *
    exact absurd (List.cons.inj ‹_›).1 hplus
  · simp [hscan]

theorem oneOf_cons {allowed : List Char} {c : Char} (h : c ∈ allowed) (rest : List Char) :
    oneOf allowed (c :: rest) = some ((), rest) := if_pos h

/-- **The year** is read whatever its sign and its number of digits. -/
theorem year_yearChars (y : Int) {rest : List Char} (hrest : EndsDigits rest) :
    year (yearChars y ++ rest) = some (y, rest) := by
  unfold yearChars
  split_ifs with hfour hneg
  · rw [year_padded (by omega) hrest, Int.toNat_of_nonneg hfour.1]
  · have h := year_signed true y.natAbs hrest
    rw [if_pos rfl, if_pos rfl] at h
    rw [h]
    congr 2
    omega
  · have h := year_signed false y.natAbs hrest
    rw [if_neg (by decide), if_neg (by decide)] at h
    rw [h]
    congr 2
    omega

/-! ## Whole fields -/

theorem date_dateChars {d : Date} {rest : List Char} (hm : d.month < 100) (hd : d.day < 100)
    (hrest : EndsDigits rest) : date (dateChars d ++ rest) = some (d, rest) := by
  have hdash : EndsDigits ('-' :: (padded 2 d.month ++ '-' :: (padded 2 d.day ++ rest))) :=
    endsDigits_cons (by decide)
  have hdash' : EndsDigits ('-' :: (padded 2 d.day ++ rest)) := endsDigits_cons (by decide)
  simp only [date, dateChars, List.append_assoc, List.cons_append, Option.bind_eq_bind,
    year_yearChars d.year hdash, Option.bind_some,
    separator_cons (show Text.isBlank '-' = false by decide), number_padded hm hdash',
    number_padded hd hrest]
  rfl

theorem endsDigits_zone (rest : List Char) : EndsDigits ('Z' :: rest) := endsDigits_cons (by decide)

/-- A fraction of `width` digits counts units of the remaining power of ten. -/
theorem fraction_padded {width n : Nat} (hw : 0 < width) (hw9 : width ≤ 9) (h : n < 10 ^ width)
    (rest : List Char) :
    fraction ('.' :: padded width n ++ 'Z' :: rest) =
      some (n * 10 ^ (9 - width), 'Z' :: rest) := by
  have hlen := Decimal.length_padded hw h
  have hscan := digits_padded 9 width n (by omega) (endsDigits_zone rest)
  simp [fraction, hscan, hlen, List.dropWhile_cons_of_neg (show ¬ isDigit 'Z' = true by decide)]

/-- **The fraction** of a second, in whichever width it is exact. -/
theorem fraction_fractionChars {nano : Nat} (h : nano < nanosPerSecond) (rest : List Char) :
    fraction (fractionChars nano ++ 'Z' :: rest) = some (nano, 'Z' :: rest) := by
  unfold nanosPerSecond at h
  unfold fractionChars nanosPerMilli nanosPerMicro
  split_ifs with h0 h3 h6
  · rw [h0]
    rfl
  · rw [fraction_padded (by decide) (by decide) (by omega)]
    congr 2
    omega
  · rw [fraction_padded (by decide) (by decide) (by omega)]
    congr 2
    omega
  · rw [fraction_padded (by decide) (by decide) (by omega)]
    congr 2
    omega

theorem endsDigits_fractionChars (nano : Nat) (rest : List Char) :
    EndsDigits (fractionChars nano ++ 'Z' :: rest) := by
  unfold fractionChars
  split_ifs
  · exact endsDigits_zone rest
  all_goals exact endsDigits_cons (by decide)

/-! ## A whole text -/

/-- The fields of a written instant. -/
def fieldsOf (t : Instant) : Fields where
  date := Date.ofNumber (t.second / secondsPerDay + Calendar.epochDay)
  hour := (t.second % secondsPerDay).toNat / 3600
  minute := (t.second % secondsPerDay).toNat / 60 % 60
  second := (t.second % secondsPerDay).toNat % 60 + t.nano / nanosPerSecond
  nano := t.nano % nanosPerSecond
  offset := 0

theorem fields_chars (t : Instant) : fields? (chars t) = some (fieldsOf t) := by
  have hday := Date.ofNumber_le (t.second / secondsPerDay + Calendar.epochDay)
  have hnano := t.nano_lt
  have hsec : (t.second % secondsPerDay).toNat < 86400 := by unfold secondsPerDay; omega
  unfold fields? chars timeChars fieldsOf
  generalize Date.ofNumber (t.second / secondsPerDay + Calendar.epochDay) = d at *
  generalize (t.second % secondsPerDay).toNat = s at *
  have hshown : s % 60 + t.nano / nanosPerSecond < 100 := by unfold nanosPerSecond at *; omega
  have hfrac : t.nano % nanosPerSecond < nanosPerSecond := Nat.mod_lt _ (by decide)
  have hcolon : ∀ cs, EndsDigits (':' :: cs) := fun cs => endsDigits_cons (by decide)
  have hT : ∀ cs, EndsDigits ('T' :: cs) := fun cs => endsDigits_cons (by decide)
  have hsep : ∀ cs, separator ':' (':' :: cs) = some ((), cs) :=
    fun cs => separator_cons (by decide)
  simp only [List.append_assoc, List.cons_append, Option.bind_eq_bind, Option.bind_some,
    date_dateChars (show d.month < 100 by omega) (show d.day < 100 by omega) (hT _),
    number_padded (show s / 3600 < 100 by omega) (hcolon _),
    number_padded (show s / 60 % 60 < 100 by omega) (hcolon _), hsep,
    number_padded hshown (endsDigits_fractionChars _ _), fraction_fractionChars hfrac,
    oneOf_cons (show 'T' ∈ ['T', 't', ' '] by decide)]
  rfl

theorem ofParts_self (t : Instant) : Instant.ofParts? t.second t.nano = some t :=
  dif_pos ⟨⟨t.second_ge, t.second_le⟩, t.nano_lt⟩

theorem year_fieldsOf (t : Instant) :
    yearRange.1 ≤ (fieldsOf t).date.year ∧ (fieldsOf t).date.year ≤ yearRange.2 := by
  have hge := t.second_ge
  have hle := t.second_le
  have hfirst : Calendar.daysBeforeYear yearRange.1 ≤
      t.second / secondsPerDay + Calendar.epochDay := by
    unfold yearRange secondsPerDay Calendar.epochDay Calendar.daysBeforeYear
    omega
  have hlast : t.second / secondsPerDay + Calendar.epochDay <
      Calendar.daysBeforeYear (yearRange.2 + 1) := by
    unfold yearRange secondsPerDay Calendar.epochDay Calendar.daysBeforeYear
    omega
  exact ⟨Calendar.le_yearOf hfirst, Int.le_of_lt_add_one (Calendar.yearOf_lt hlast)⟩

/-- The second 60 is shown for a leap second of the calendar, and for no other. -/
theorem second_fieldsOf {t : Instant} (h : t.Civil) :
    (fieldsOf t).second = 60 ↔ nanosPerSecond ≤ t.nano := by
  have hnano := t.nano_lt
  unfold Instant.Civil Instant.isLeap at h
  rw [decide_eq_true_iff] at h
  unfold fieldsOf nanosPerSecond secondsPerDay at *
  dsimp only
  omega

theorem instant_fieldsOf {t : Instant} (h : t.Civil) : (fieldsOf t).instant? = some t := by
  obtain ⟨hfirst, hlast⟩ := year_fieldsOf t
  have hnano := t.nano_lt
  have hsixty := second_fieldsOf h
  have hnumber := Date.number_ofNumber (t.second / secondsPerDay + Calendar.epochDay)
  unfold Fields.instant?
  rw [if_pos, ← ofParts_self t]
  · simp only [hsixty]
    congr 1
    · unfold fieldsOf nanosPerSecond secondsPerDay at *
      dsimp only at *
      rw [hnumber]
      split_ifs <;> omega
    · unfold fieldsOf nanosPerSecond at *
      dsimp only
      split_ifs <;> omega
  · refine ⟨Date.exists_ofNumber _, hfirst, hlast, ?_⟩
    unfold Instant.Civil Instant.isLeap at h
    rw [decide_eq_true_iff] at h
    unfold fieldsOf nanosPerSecond secondsPerDay at *
    dsimp only
    omega

/-! ## Reading back -/

/-- What an instant is read back as is written alike. -/
theorem text_reread (t : Instant) : text t.reread = text t := by
  by_cases h : t.Civil
  · rw [Instant.reread_of_civil h]
  · obtain ⟨hleap, hminute⟩ := Instant.isLeap_of_not_civil h
    have hge : nanosPerSecond ≤ t.nano := of_decide_eq_true hleap
    have hlt := t.nano_lt
    unfold nanosPerSecond at *
    have hday : (t.second + 1) / secondsPerDay = t.second / secondsPerDay := by
      unfold secondsPerDay
      omega
    have hsecond : ((t.second + 1) % secondsPerDay).toNat =
        (t.second % secondsPerDay).toNat + 1 := by
      unfold secondsPerDay
      omega
    have hminute' : (t.second % secondsPerDay).toNat % 60 ≠ 59 := by
      unfold secondsPerDay
      omega
    rw [text, text, chars, chars, Instant.reread, dif_neg h]
    dsimp only
    rw [hday, hsecond]
    generalize (t.second % secondsPerDay).toNat = s at hminute'
    unfold timeChars nanosPerSecond
    rw [show (s + 1) / 3600 = s / 3600 by omega, show (s + 1) / 60 = s / 60 by omega,
      show (s + 1) % 60 + (t.nano - 1000000000) / 1000000000 =
        s % 60 + t.nano / 1000000000 by omega,
      show (t.nano - 1000000000) % 1000000000 = t.nano % 1000000000 by omega]

/-- **A written instant is read as the one that its text shows**, which is itself if it is of the
civil calendar. -/
theorem ofString_text (t : Instant) : ofString? (text t) = some t.reread := by
  rw [← text_reread, ofString?, text, String.toList_ofList, ofChars?, fields_chars,
    Option.bind_some, instant_fieldsOf t.civil_reread]

/-! ## Times that are read -/

/-- Offsets are of whole minutes. -/
theorem minutes_of_offset {cs rest : List Char} {n : Int} (h : offset cs = some (n, rest)) :
    n % 60 = 0 := by
  have hbody {cs : List Char} {x : Nat × List Char} (hx : offsetBody cs = some x) :
      x.1 % 60 = 0 := by
    unfold offsetBody at hx
    simp only [Option.bind_eq_bind, Option.bind_eq_some_iff] at hx
    obtain ⟨⟨hours, _⟩, -, ⟨minutes, _⟩, -, hx⟩ := hx
    obtain rfl := Option.some.inj hx
    dsimp only
    omega
  unfold offset at h
  split at h
  · cases h
    rfl
  · split at h
    · cases h
      rfl
    · cases h
      rfl
    all_goals first
      | (obtain ⟨x, hx, heq⟩ := Option.map_eq_some_iff.mp h
         have hminutes := hbody hx
         cases heq
         omega)
      | cases h

/-- A fraction is less than a second. -/
theorem lt_of_fraction {cs rest : List Char} {n : Nat} (h : fraction cs = some (n, rest)) :
    n < nanosPerSecond := by
  unfold fraction at h
  split at h
  · rename_i after
    obtain ⟨⟨ds, left⟩, hdigits, heq⟩ := Option.map_eq_some_iff.mp h
    cases heq
    unfold digits at hdigits
    dsimp only at hdigits
    split at hdigits
    · cases hdigits
    · cases hdigits
      have hlen : ((after.takeWhile isDigit).take 9).length ≤ 9 := List.length_take_le _ _
      have hall : ∀ d ∈ (after.takeWhile isDigit).take 9, isDigit d = true :=
        fun d hd => List.mem_takeWhile_imp (List.mem_of_mem_take hd)
      have hvalue := Decimal.value_lt hall
      calc _ < 10 ^ ((after.takeWhile isDigit).take 9).length *
              10 ^ (9 - ((after.takeWhile isDigit).take 9).length) :=
            Nat.mul_lt_mul_of_pos_right hvalue (Nat.pow_pos (by decide))
        _ = 10 ^ 9 := by rw [← Nat.pow_add, Nat.add_sub_cancel' hlen]
  · cases h
    decide

/-- **Whatever text is read as an instant**, the instant is of the civil calendar. -/
theorem civil_of_ofString {s : String} {t : Instant} (h : ofString? s = some t) : t.Civil := by
  obtain ⟨f, hf, ht⟩ := Option.bind_eq_some_iff.mp h
  have hfields : f.offset % 60 = 0 ∧ f.nano < nanosPerSecond := by
    unfold fields? at hf
    simp only [Option.bind_eq_bind, Option.bind_eq_some_iff] at hf
    obtain ⟨_, -, _, -, _, -, _, -, _, -, _, -, _, -, _, hnano, _, hoffset, hf⟩ := hf
    split at hf
    · obtain rfl := Option.some.inj hf
      exact ⟨minutes_of_offset hoffset, lt_of_fraction hnano⟩
    · cases hf
  obtain ⟨hoffset, hnano⟩ := hfields
  unfold Fields.instant? Instant.ofParts? at ht
  split at ht
  · obtain ⟨hparts, ht⟩ := Option.dite_none_right_eq_some.mp ht
    obtain rfl := Option.some.inj ht
    intro hleap
    have hge := of_decide_eq_true hleap
    dsimp only at hge ⊢
    -- Only a second of 60 is lengthened, and it is read as the last one of its minute.
    unfold secondsPerDay at *
    split_ifs at hge ⊢ <;> omega
  · cases ht

end Timestamp

end LeasedWork
