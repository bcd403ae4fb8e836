import LeasedWork.Proofs.Text.Numerals
import LeasedWork.Json.Numeral
import Mathlib.Data.Bool.Basic

/-! # How numbers are written

A number is written as an optional minus, digits of which a zero leads only when it stands alone, a
point with digits after it, and an exponent with or without a sign (`Numeral.Spelled`).  The reader
splits a text into the parts of a number when it is written like this, and only then
(`Numeral.parts_eq_some_iff`), and what it is made of are characters that belong to numbers.
Printed integers are written like this (`Numeral.exists_spelled_intChars`).
-/
namespace LeasedWork.Json.Numeral

open Decimal (isDigit EndsDigits)

variable {cs ds rest : List Char} {p : Parts}

/-- At least one digit. -/
def Digits (ds : List Char) : Prop := ds ≠ [] ∧ ∀ d ∈ ds, isDigit d = true

/-- How the digits after a point are written. -/
inductive SpelledFraction : List Char → List Char → Prop
  | absent : SpelledFraction [] []
  | digits {ds : List Char} (hds : Digits ds) : SpelledFraction ds ('.' :: ds)

/-- How an exponent is written. -/
inductive SpelledExponent : Option (Bool × List Char) → List Char → Prop
  | absent : SpelledExponent none []
  | bare {e : Char} {ds : List Char} (he : e = 'e' ∨ e = 'E') (hds : Digits ds) :
    SpelledExponent (some (false, ds)) (e :: ds)
  | plus {e : Char} {ds : List Char} (he : e = 'e' ∨ e = 'E') (hds : Digits ds) :
    SpelledExponent (some (false, ds)) (e :: '+' :: ds)
  | minus {e : Char} {ds : List Char} (he : e = 'e' ∨ e = 'E') (hds : Digits ds) :
    SpelledExponent (some (true, ds)) (e :: '-' :: ds)

/-- Digits whose first one is a zero only when it is the last one, too. -/
def Whole (ds : List Char) : Prop := Digits ds ∧ (ds.head? = some '0' → ds = ['0'])

/-- How a number of given parts is written. -/
inductive Spelled : Parts → List Char → Prop
  | intro {whole fraction point power : List Char} {exponent : Option (Bool × List Char)}
    (negative : Bool) (hwhole : Whole whole) (hfraction : SpelledFraction fraction point)
    (hexponent : SpelledExponent exponent power) :
    Spelled ⟨negative, whole, fraction, exponent⟩
      ((if negative then ['-'] else []) ++ whole ++ point ++ power)

/-! ## Digits -/

theorem digits_eq_some_iff :
    digits? cs = some (ds, rest) ↔ cs = ds ++ rest ∧ Digits ds ∧ EndsDigits rest := by
  unfold digits?
  dsimp only
  constructor
  · intro h
    split at h
    · cases h
    · rename_i hne
      obtain ⟨rfl, rfl⟩ := Prod.mk.inj (Option.some.inj h)
      refine ⟨List.takeWhile_append_dropWhile.symm, ⟨?_, fun d hd => ?_⟩, fun c hc => ?_⟩
      · simpa [List.isEmpty_iff] using hne
      · exact List.mem_takeWhile_imp hd
      · have := List.head?_dropWhile_not isDigit cs
        rw [Option.mem_def.mp hc] at this
        simpa using this
  · rintro ⟨rfl, ⟨hne, hds⟩, hrest⟩
    rw [Decimal.takeWhile_digits_append hds hrest, Decimal.dropWhile_digits_append hds hrest,
      if_neg (by simpa [List.isEmpty_iff] using hne)]

/-- Digits with nothing after them. -/
theorem Digits.digits_eq (h : Digits ds) : digits? ds = some (ds, []) :=
  digits_eq_some_iff.mpr ⟨(List.append_nil ds).symm, h, Decimal.endsDigits_nil⟩

theorem Digits.head_ne {c : Char} (h : Digits ds) (hc : isDigit c = false) :
    ∀ d ∈ ds.head?, d ≠ c := by
  rintro d hd rfl
  rw [h.2 d (List.mem_of_mem_head? hd)] at hc
  cases hc

/-! ## What follows the whole part -/

theorem fraction_sound (h : fraction? cs = some (ds, rest)) :
    ∃ point, cs = point ++ rest ∧ SpelledFraction ds point := by
  unfold fraction? at h
  split at h
  · obtain ⟨rfl, hds, -⟩ := digits_eq_some_iff.mp h
    exact ⟨_, rfl, .digits hds⟩
  · cases h
    exact ⟨[], rfl, .absent⟩

theorem SpelledFraction.fraction_eq {point : List Char} (h : SpelledFraction ds point)
    (hrest : EndsDigits rest) (hpoint : ∀ c ∈ rest.head?, c ≠ '.') :
    fraction? (point ++ rest) = some (ds, rest) := by
  cases h with
  | absent =>
    unfold fraction?
    split
    · rename_i heq
      exact absurd rfl (hpoint '.' (by rw [← List.nil_append rest, heq]; rfl))
    · rfl
  | digits hds => exact digits_eq_some_iff.mpr ⟨rfl, hds, hrest⟩

theorem exponent_sound {exponent : Option (Bool × List Char)}
    (h : exponent? cs = some (exponent, rest)) :
    ∃ power, cs = power ++ rest ∧ SpelledExponent exponent power := by
  -- All six spellings end in digits, and differ in what comes before them.
  have hmap : ∀ {negative : Bool} {after : List Char},
      (digits? after).map (fun split => (some (negative, split.1), split.2)) =
          some (exponent, rest) →
        ∃ ds, exponent = some (negative, ds) ∧ after = ds ++ rest ∧ Digits ds := by
    intro negative after hdigits
    obtain ⟨⟨ds, rest'⟩, hds, heq⟩ := Option.map_eq_some_iff.mp hdigits
    obtain ⟨rfl, rfl⟩ := Prod.mk.inj heq
    obtain ⟨rfl, hds, -⟩ := digits_eq_some_iff.mp hds
    exact ⟨ds, rfl, rfl, hds⟩
  unfold exponent? at h
  split at h
  · split at h
    all_goals
      obtain ⟨ds, rfl, rfl, hds⟩ := hmap h
    · exact ⟨_, rfl, .minus (.inl rfl) hds⟩
    · exact ⟨_, rfl, .plus (.inl rfl) hds⟩
    · exact ⟨_, rfl, .bare (.inl rfl) hds⟩
  · split at h
    all_goals
      obtain ⟨ds, rfl, rfl, hds⟩ := hmap h
    · exact ⟨_, rfl, .minus (.inr rfl) hds⟩
    · exact ⟨_, rfl, .plus (.inr rfl) hds⟩
    · exact ⟨_, rfl, .bare (.inr rfl) hds⟩
  · cases h
    exact ⟨[], rfl, .absent⟩

theorem SpelledExponent.exponent_eq {exponent : Option (Bool × List Char)} {power : List Char}
    (h : SpelledExponent exponent power) : exponent? power = some (exponent, []) := by
  cases h with
  | absent => rfl
  | bare he hds =>
    have hminus := hds.head_ne (c := '-') rfl
    have hplus := hds.head_ne (c := '+') rfl
    have hdigits := hds.digits_eq
    rename_i ds
    cases ds with
    | nil => exact absurd rfl hds.1
    | cons d ds =>
      have hd : d ≠ '-' := hminus d rfl
      have hd' : d ≠ '+' := hplus d rfl
      rcases he with rfl | rfl <;> simp [exponent?, hd, hd', hdigits]
  | plus he hds | minus he hds => rcases he with rfl | rfl <;> simp [exponent?, hds.digits_eq]

theorem SpelledExponent.head {exponent : Option (Bool × List Char)} {power : List Char}
    (h : SpelledExponent exponent power) : ∀ c ∈ power.head?, c = 'e' ∨ c = 'E' := by
  cases h with
  | absent => simp
  | bare he hds | plus he hds | minus he hds => simpa using he

/-! ## Whole numbers -/

theorem sign_sound {negative : Bool} (h : sign cs = (negative, rest)) :
    cs = (if negative then ['-'] else []) ++ rest := by
  unfold sign at h
  split at h <;> cases h <;> rfl

theorem Digits.sign_eq {negative : Bool} (h : Digits ds) :
    sign ((if negative then ['-'] else []) ++ (ds ++ rest)) = (negative, ds ++ rest) := by
  cases negative with
  | true => rfl
  | false =>
    have hhead := h.head_ne (c := '-') rfl
    cases ds with
    | nil => exact absurd rfl h.1
    | cons d ds =>
      have hd : d ≠ '-' := hhead d rfl
      simp [sign, hd]

theorem parts_sound (h : parts? cs = some p) : Spelled p cs := by
  unfold parts? at h
  cases hsign : sign cs with
  | mk negative afterSign =>
    simp only [hsign, Option.bind_eq_bind, Option.bind_eq_some_iff, Prod.exists] at h
    obtain ⟨whole, afterWhole, hwhole, h⟩ := h
    split at h
    · cases h
    · rename_i hzero
      simp only [Option.bind_eq_some_iff, Prod.exists] at h
      obtain ⟨fraction, afterFraction, hfraction, exponent, afterExponent, hexponent, h⟩ := h
      split at h
      · rename_i hempty
        obtain rfl := Option.some.inj h
        obtain rfl := List.isEmpty_iff.mp hempty
        obtain ⟨rfl, hdigits, -⟩ := digits_eq_some_iff.mp hwhole
        obtain ⟨point, rfl, hpoint⟩ := fraction_sound hfraction
        obtain ⟨power, rfl, hpower⟩ := exponent_sound hexponent
        rw [sign_sound hsign, List.append_nil, ← List.append_assoc, ← List.append_assoc]
        exact .intro _ ⟨hdigits, fun hhead => by_contra fun hne => hzero ⟨hhead, hne⟩⟩ hpoint hpower
      · cases h

theorem SpelledExponent.endsDigits {exponent : Option (Bool × List Char)} {power : List Char}
    (h : SpelledExponent exponent power) : EndsDigits power := by
  intro c hc
  rcases h.head c hc with rfl | rfl <;> rfl

theorem SpelledFraction.endsDigits {point : List Char} (h : SpelledFraction ds point)
    (hrest : EndsDigits rest) : EndsDigits (point ++ rest) := by
  cases h with
  | absent => exact hrest
  | digits _ => exact Decimal.endsDigits_cons rfl

theorem Spelled.parts_eq (h : Spelled p cs) : parts? cs = some p := by
  cases h with
  | @intro whole fraction point power exponent negative hwhole hpoint hpower =>
    have hdigits : digits? (whole ++ (point ++ power)) = some (whole, point ++ power) :=
      digits_eq_some_iff.mpr ⟨rfl, hwhole.1, hpoint.endsDigits hpower.endsDigits⟩
    have hfraction : fraction? (point ++ power) = some (fraction, power) := by
      refine hpoint.fraction_eq hpower.endsDigits fun c hc => ?_
      rcases hpower.head c hc with rfl | rfl <;> decide
    have hzero : ¬ (whole.head? = some '0' ∧ whole ≠ ['0']) := fun hz => hz.2 (hwhole.2 hz.1)
    rw [List.append_assoc, List.append_assoc]
    simp only [parts?, hwhole.1.sign_eq, hdigits, hzero, if_false, hfraction, hpower.exponent_eq,
      Option.bind_eq_bind, Option.bind_some]
    rfl

/-- **A text has the parts of a number when it is written like one.** -/
theorem parts_eq_some_iff : parts? cs = some p ↔ Spelled p cs :=
  ⟨parts_sound, Spelled.parts_eq⟩

/-- The number that the parts stand for. -/
def Parts.numeral (p : Parts) : Numeral :=
  match p.integer? with
  | some i => .integer i
  | none => .real p.real?

theorem read_eq_some_iff {n : Numeral} : read? cs = some n ↔ ∃ p, Spelled p cs ∧ p.numeral = n := by
  rw [read?, Option.map_eq_some_iff]
  simp only [parts_eq_some_iff]
  rfl

/-! ## Characters of numbers -/

theorem isNumeralChar_of_isDigit {c : Char} (h : isDigit c = true) : isNumeralChar c = true := by
  simp [isNumeralChar, h]

theorem Digits.isNumeralChar (h : Digits ds) : ∀ c ∈ ds, Numeral.isNumeralChar c = true :=
  fun c hc => isNumeralChar_of_isDigit (h.2 c hc)

theorem SpelledFraction.isNumeralChar {point : List Char} (h : SpelledFraction ds point) :
    ∀ c ∈ point, Numeral.isNumeralChar c = true := by
  cases h with
  | absent => simp
  | digits hds => exact List.forall_mem_cons.mpr ⟨rfl, hds.isNumeralChar⟩

theorem SpelledExponent.isNumeralChar {exponent : Option (Bool × List Char)} {power : List Char}
    (h : SpelledExponent exponent power) : ∀ c ∈ power, Numeral.isNumeralChar c = true := by
  have hletter : ∀ {e : Char}, e = 'e' ∨ e = 'E' → Numeral.isNumeralChar e = true := by
    rintro e (rfl | rfl) <;> rfl
  cases h with
  | absent => simp
  | bare he hds => exact List.forall_mem_cons.mpr ⟨hletter he, hds.isNumeralChar⟩
  | plus he hds | minus he hds =>
    exact List.forall_mem_cons.mpr
      ⟨hletter he, List.forall_mem_cons.mpr ⟨rfl, hds.isNumeralChar⟩⟩

theorem Spelled.isNumeralChar (h : Spelled p cs) : ∀ c ∈ cs, Numeral.isNumeralChar c = true := by
  cases h with
  | intro negative hwhole hpoint hpower =>
    simp only [List.forall_mem_append]
    refine ⟨⟨⟨?_, hwhole.1.isNumeralChar⟩, hpoint.isNumeralChar⟩, hpower.isNumeralChar⟩
    cases negative
    · simp
    · simp [Numeral.isNumeralChar]

/-- A number begins with a digit or with a minus. -/
theorem Spelled.eq_cons (h : Spelled p cs) :
    ∃ c rest, cs = c :: rest ∧ (isDigit c || c == '-') = true := by
  cases h with
  | @intro whole fraction point power exponent negative hwhole hpoint hpower =>
    cases negative with
    | true => exact ⟨_, _, rfl, by simp⟩
    | false =>
      cases whole with
      | nil => exact absurd rfl hwhole.1.1
      | cons d whole => exact ⟨_, _, rfl, by simp [hwhole.1.2 d List.mem_cons_self]⟩

/-! ## Printed numbers -/

theorem whole_natChars (n : Nat) : Whole (Decimal.natChars n) :=
  ⟨⟨Decimal.natChars_ne_nil n, fun _ => Decimal.isDigit_of_mem_natChars⟩, Decimal.natChars_head⟩

/-- **Integers of 64 bits** are printed as the integers they are. -/
theorem exists_spelled_intChars {i : Int} (h : Int64.minValue.toInt ≤ i ∧ i < UInt64.size) :
    ∃ p, Spelled p (Decimal.intChars i) ∧ p.numeral = .integer i := by
  obtain ⟨hlow, hhigh⟩ := h
  have hspelled : ∀ (negative : Bool) (n : Nat), Spelled ⟨negative, Decimal.natChars n, [], none⟩
      ((if negative then ['-'] else []) ++ Decimal.natChars n) := by
    intro negative n
    have hwhole := Spelled.intro negative (whole_natChars n) .absent .absent
    rwa [List.append_nil, List.append_nil] at hwhole
  cases i with
  | ofNat n =>
    have hn : n < UInt64.size := Int.ofNat_lt.mp hhigh
    refine ⟨_, hspelled false n, ?_⟩
    simp [Parts.numeral, Parts.integer?, hn]
  | negSucc n =>
    have hvalue : -(((n + 1 : Nat)) : Int) = Int.negSucc n := rfl
    refine ⟨_, hspelled true (n + 1), ?_⟩
    simp only [Parts.numeral, Parts.integer?, Decimal.value_natChars, List.isEmpty_nil,
      Option.isNone_none, true_and, if_true, hvalue]
    rw [if_pos ⟨Nat.succ_pos n, hlow⟩]

end LeasedWork.Json.Numeral
