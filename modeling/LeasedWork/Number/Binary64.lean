/-!
# Binary floating-point numbers

A 64-bit binary floating-point number as its bits: a sign, eleven bits of exponent and fifty-two
bits of fraction. The meaning of a finite number is the rational `toRat`, and every operation is
the exact one on rationals followed by one rounding to the nearest number, a tie going to the even
significand.
-/

namespace LeasedWork

/-- A 64-bit binary floating-point number. -/
structure Binary64 where
  bits : UInt64
  deriving DecidableEq, Repr

namespace Binary64

/-! ## Parts -/

/-- The weight of the sign's bit. -/
abbrev signBit : Nat := 0x8000000000000000

/-- The weight of the exponent's lowest bit. -/
abbrev exponentBit : Nat := 0x10000000000000

def isNegative (x : Binary64) : Bool := signBit ≤ x.bits.toNat

def exponentField (x : Binary64) : Nat := x.bits.toNat / exponentBit % 2048

def fraction (x : Binary64) : Nat := x.bits.toNat % exponentBit

/-- Neither infinite nor a NaN. -/
def isFinite (x : Binary64) : Bool := x.exponentField < 2047

/-- The whole number that a finite number's power of two scales. -/
def significand (x : Binary64) : Nat :=
  if x.exponentField = 0 then x.fraction else exponentBit + x.fraction

/-- The power of two that scales the significand. -/
def power (x : Binary64) : Int := (max x.exponentField 1 : Nat) - 1075

/-- `n * 2 ^ p`. -/
def scaled (n : Nat) (p : Int) : Rat :=
  match p with
  | .ofNat k => ((n * Nat.pow 2 k : Nat) : Rat)
  | .negSucc k => mkRat n (Nat.pow 2 (k + 1))

/-- The absolute value of a finite number. -/
def magnitude (x : Binary64) : Rat := scaled x.significand x.power

/-- The value of a finite number. -/
def toRat (x : Binary64) : Rat := if x.isNegative then -x.magnitude else x.magnitude

def isZero (x : Binary64) : Bool := x.bits.toNat % signBit == 0

/-! ## Rounding -/

/-- The whole number nearest to `num / den`, the even one of two. -/
def roundHalfEven (num den : Nat) : Nat :=
  let q := num / den
  let r := num % den
  if 2 * r < den then q else if den < 2 * r then q + 1 else q + q % 2

/-- `num / (den * 2 ^ p)` as a numerator and a denominator. -/
def unscaled (num den : Nat) : Int → Nat × Nat
  | .ofNat k => (num, den * Nat.pow 2 k)
  | .negSucc k => (num * Nat.pow 2 (k + 1), den)

/-- The power of two at which `num / den` has a significand of fifty-three bits, and at least the
power of the smallest numbers. -/
def fittingPower (num den : Nat) : Int :=
  let p : Int := (num.log2 : Int) - den.log2 - 53
  let (n, d) := unscaled num den p
  max (if 2 * exponentBit ≤ n / d then p + 1 else p) (-1074)

/-- The number nearest to the ratio `num / den`, which is infinite when the ratio is too large. -/
def ofRatio (negative : Bool) (num den : Nat) : Binary64 :=
  let sign := if negative then signBit else 0
  if num = 0 then ⟨UInt64.ofNat sign⟩
  else
    let p := fittingPower num den
    let (n, d) := unscaled num den p
    let body := (p + 1074).toNat * exponentBit + roundHalfEven n d
    ⟨UInt64.ofNat (sign + min body (2047 * exponentBit))⟩

def ofRat (q : Rat) : Binary64 := ofRatio (q < 0) q.num.natAbs q.den

def ofNat (n : Nat) : Binary64 := ofRatio false n 1

/-! ## Arithmetic of finite numbers -/

def neg (x : Binary64) : Binary64 :=
  ⟨UInt64.ofNat (if x.isNegative then x.bits.toNat - signBit else x.bits.toNat + signBit)⟩

def abs (x : Binary64) : Binary64 := if x.isNegative then x.neg else x

def add (x y : Binary64) : Binary64 := ofRat (x.toRat + y.toRat)

def sub (x y : Binary64) : Binary64 := ofRat (x.toRat - y.toRat)

def mul (x y : Binary64) : Binary64 := ofRat (x.toRat * y.toRat)

def div (x y : Binary64) : Binary64 := ofRat (x.toRat / y.toRat)

/-! ## Decimal exponents

A decimal numeral is read as a 64-bit whole number and a power of ten, and scaled by a single
multiplication or division, each of them rounded. -/

/-- The number nearest to a power of ten. -/
def powerOfTen (k : Nat) : Binary64 := ofNat (Nat.pow 10 k)

/-- Divides by `10 ^ k`, in steps of `10 ^ 308`, the largest finite power of ten. -/
def scaleDown (x : Binary64) (k : Nat) : Binary64 :=
  if h : k ≤ 308 then x.div (powerOfTen k)
  else if x.isZero then x
  else scaleDown (x.div (powerOfTen 308)) (k - 308)
  termination_by k

/-- Multiplies by `10 ^ k`, unless the product is too large for a finite number. -/
def scaleUp? (x : Binary64) (k : Nat) : Option Binary64 :=
  if x.isZero then some x
  else if 308 < k then none
  else
    let y := x.mul (powerOfTen k)
    if y.isFinite then some y else none

/-- `n * 10 ^ e` for a 64-bit `n`, when it is not too large. -/
def ofDecimal? (n : Nat) (e : Int) : Option Binary64 :=
  match e with
  | .ofNat k => scaleUp? (ofNat n) k
  | .negSucc k => some (scaleDown (ofNat n) (k + 1))

end Binary64

end LeasedWork
