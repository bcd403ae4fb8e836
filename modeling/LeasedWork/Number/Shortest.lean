import LeasedWork.Number.Binary64
import LeasedWork.Text.Decimal

/-!
# Shortest decimal text

A number is written with the fewest significant digits that read back as the same number, and of
those with the ones nearest to its value. `shortest` finds the digits in exact arithmetic: on the
grid of `n` significant digits only the two neighbours of the value can be the nearest that read
back, and the smallest `n` with a hit is the answer.
-/

namespace LeasedWork

/-- The decimal number `digits * 10 ^ exponent`. -/
structure Decimal.Scientific where
  digits : Nat
  exponent : Int
  deriving DecidableEq, Repr

/-- Which of two equally near shortest numerals is written. -/
inductive TieRule
  | even
  | up
  deriving DecidableEq, Repr

/-- Whether the upper of two equally near numerals is written, of which `low` is the lower. -/
def TieRule.takesUpper : TieRule → Nat → Bool
  | .even, low => low % 2 == 1
  | .up, _ => true

/-- Where a number is written without an exponent, whether it always shows a decimal point, and
which of two equally near numerals it gets. -/
structure DecimalStyle where
  /-- The least and the greatest exponent of ten that is written positionally. -/
  positional : Option (Int × Int)
  /-- A whole number is written with `.0` at its end. -/
  showsPoint : Bool
  tie : TieRule

namespace Binary64

/-- `10 ^ e`. -/
def tenTo : Int → Rat
  | .ofNat k => ((Nat.pow 10 k : Nat) : Rat)
  | .negSucc k => mkRat 1 (Nat.pow 10 (k + 1))

/-- The exponent of ten of a positive ratio's first significant digit. -/
def leadingExponent (num den : Nat) : Int :=
  if den ≤ num then ((Nat.toDigits 10 (num / den)).length : Int) - 1
  else
    match (List.range 400).find? fun k => den ≤ num * Nat.pow 10 k with
    | some k => -(k : Int)
    | none => 0

/-- The rationals that round to a positive finite number: from its lower to its upper end, the ends
included when the significand is even. -/
def roundsTo (x : Binary64) (q : Rat) : Bool :=
  let quarter := scaled 1 (x.power - 2)
  let below : Nat := if x.fraction = 0 ∧ 1 < x.exponentField then 1 else 2
  let low := ((4 * x.significand - below : Nat) : Rat) * quarter
  let high := ((4 * x.significand + 2 : Nat) : Rat) * quarter
  if x.significand % 2 = 0 then decide (low ≤ q) && decide (q ≤ high)
  else decide (low < q) && decide (q < high)

/-- The neighbour of the value on the grid of multiples of `10 ^ e` that reads back, the nearer one
of two. -/
def onGrid? (tie : TieRule) (x : Binary64) (e : Int) : Option Nat :=
  let v := x.magnitude
  let unit := tenTo e
  let low := (v / unit).floor.toNat
  let hits (n : Nat) : Bool := x.roundsTo ((n : Rat) * unit)
  let toLow := v - (low : Rat) * unit
  let toHigh := ((low + 1 : Nat) : Rat) * unit - v
  if hits low then
    if hits (low + 1) then
      if toHigh < toLow ∨ (toHigh = toLow ∧ tie.takesUpper low) then some (low + 1) else some low
    else some low
  else if hits (low + 1) then some (low + 1)
  else none

/-- Drops the zeros at the end of a numeral into its exponent. -/
def withoutZeros : Nat → Nat → Int → Decimal.Scientific
  | 0, n, e => ⟨n, e⟩
  | fuel + 1, n, e =>
    if n % 10 = 0 ∧ n ≠ 0 then withoutZeros fuel (n / 10) (e + 1) else ⟨n, e⟩

/-- The shortest decimal number that reads back as a positive finite number. -/
def shortest (tie : TieRule) (x : Binary64) : Decimal.Scientific :=
  let v := x.magnitude
  let lead := leadingExponent v.num.natAbs v.den
  let found := (List.range 17).findSome? fun (k : Nat) =>
    (x.onGrid? tie (lead - k)).map fun n => withoutZeros 20 n (lead - k)
  found.getD ⟨0, 0⟩

/-- Digits `ds` with the decimal point after the first `place` of them. -/
def positionalChars (showsPoint : Bool) (ds : List Char) (place : Int) : List Char :=
  if place ≤ 0 then '0' :: '.' :: (List.replicate (-place).toNat '0' ++ ds)
  else
    let whole := ds.take place.toNat
    let rest := ds.drop place.toNat
    let filled := whole ++ List.replicate (place.toNat - whole.length) '0'
    if rest.isEmpty then (if showsPoint then filled ++ ['.', '0'] else filled)
    else filled ++ '.' :: rest

/-- Digits `ds` with the point after the first of them and an exponent. -/
def exponentialChars (ds : List Char) (e : Int) : List Char :=
  let mantissa := match ds with
    | [] => []
    | [d] => [d]
    | d :: rest => d :: '.' :: rest
  let sign := if e < 0 then '-' else '+'
  mantissa ++ 'e' :: sign :: Decimal.natChars e.natAbs

/-- A number's text in a style. -/
def chars (style : DecimalStyle) (x : Binary64) : List Char :=
  if ¬ x.isFinite then
    if x.fraction ≠ 0 then "NaN".toList
    else if x.isNegative then "-inf".toList else "inf".toList
  else
    let body :=
      if x.isZero then positionalChars style.showsPoint ['0'] 1
      else
        let s := x.shortest style.tie
        let ds := Decimal.natChars s.digits
        let lead := s.exponent + ds.length - 1
        let isPositional := match style.positional with
          | none => true
          | some (least, greatest) => decide (least ≤ lead) && decide (lead ≤ greatest)
        if isPositional then positionalChars style.showsPoint ds (lead + 1)
        else exponentialChars ds lead
    if x.isNegative then '-' :: body else body

end Binary64

/-- Never an exponent, a decimal point only where a fraction follows, and the upper one of two
equally near numerals. -/
def DecimalStyle.plain : DecimalStyle := ⟨none, false, .up⟩

end LeasedWork
