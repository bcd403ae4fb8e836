import LeasedWork.Number.Binary64
import LeasedWork.Text.Decimal

/-!
# JSON numbers

A numeral without fraction and exponent whose value has 64 bits is an integer. Every other
numeral, `-0` among them, is a binary floating-point number: its digits are read into a 64-bit
whole number as far as they fit, and the power of ten is applied by one rounded operation. A
number too large to be finite is kept as `real none`, because a value that nobody reads may be of
any size.
-/

namespace LeasedWork.Json

/-- A number of a text. -/
inductive Numeral
  | integer (value : Int)
  | real (value : Option Binary64)
  deriving DecidableEq, Repr

namespace Numeral

/-- The characters that a numeral is made of. -/
def isNumeralChar (c : Char) : Bool :=
  Decimal.isDigit c || c == '-' || c == '+' || c == '.' || c == 'e' || c == 'E'

/-- The digits of a numeral by their place. -/
structure Parts where
  negative : Bool
  whole : List Char
  fraction : List Char
  /-- The exponent's sign, true for a minus, and its digits. -/
  exponent : Option (Bool × List Char)
  deriving DecidableEq, Repr

/-- The digits at the start of a text, unless there is none, and the text after them. -/
def digits? (cs : List Char) : Option (List Char × List Char) :=
  let ds := cs.takeWhile Decimal.isDigit
  if ds.isEmpty then none else some (ds, cs.dropWhile Decimal.isDigit)

def sign (cs : List Char) : Bool × List Char :=
  match cs with
  | '-' :: rest => (true, rest)
  | _ => (false, cs)

/-- The digits after a decimal point, if there is one. -/
def fraction? (cs : List Char) : Option (List Char × List Char) :=
  match cs with
  | '.' :: rest => digits? rest
  | _ => some ([], cs)

/-- The exponent, if there is one. -/
def exponent? (cs : List Char) : Option (Option (Bool × List Char) × List Char) :=
  match cs with
  | 'e' :: rest | 'E' :: rest =>
    match rest with
    | '-' :: rest => (digits? rest).map fun (ds, rest) => (some (true, ds), rest)
    | '+' :: rest => (digits? rest).map fun (ds, rest) => (some (false, ds), rest)
    | _ => (digits? rest).map fun (ds, rest) => (some (false, ds), rest)
  | _ => some (none, cs)

/-- Splits a numeral. A zero may lead the whole part only when it is all of it. -/
def parts? (cs : List Char) : Option Parts := do
  let (negative, cs) := sign cs
  let (whole, cs) ← digits? cs
  if whole.head? = some '0' ∧ whole ≠ ['0'] then none
  let (fraction, cs) ← fraction? cs
  let (exponent, cs) ← exponent? cs
  if cs.isEmpty then return ⟨negative, whole, fraction, exponent⟩ else none

/-- Reads digits after the number `acc` while it stays within 64 bits; the digits that are left. -/
def takeFitting (acc : Nat) : List Char → Nat × List Char
  | [] => (acc, [])
  | c :: cs =>
    if 10 * acc + Decimal.digitValue c < UInt64.size then
      takeFitting (10 * acc + Decimal.digitValue c) cs
    else (acc, c :: cs)

namespace Parts

def exponentValue (p : Parts) : Int :=
  match p.exponent with
  | none => 0
  | some (negative, ds) => if negative then -(Decimal.value ds : Int) else Decimal.value ds

/-- The floating-point number that the parts stand for, unless it is too large. -/
def real? (p : Parts) : Option Binary64 :=
  let (n, unread) := takeFitting 0 p.whole
  let (n, unreadFraction) := takeFitting n p.fraction
  let shift : Int := unread.length - ((p.fraction.length - unreadFraction.length : Nat) : Int)
  (Binary64.ofDecimal? n (shift + p.exponentValue)).map fun x => if p.negative then x.neg else x

/-- The integer that the parts stand for, when they are one of 64 bits. -/
def integer? (p : Parts) : Option Int :=
  if p.fraction.isEmpty ∧ p.exponent.isNone then
    let n := Decimal.value p.whole
    if p.negative then
      (if 0 < n ∧ Int64.minValue.toInt ≤ -(n : Int) then some (-(n : Int)) else none)
    else if n < UInt64.size then some n else none
  else none

end Parts

/-- Reads a whole text as one number. -/
def read? (cs : List Char) : Option Numeral :=
  (parts? cs).map fun p =>
    match p.integer? with
    | some i => .integer i
    | none => .real p.real?

end Numeral

end LeasedWork.Json
