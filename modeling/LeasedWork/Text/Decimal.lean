/-!
# Decimal numerals

Whole numbers as decimal text, and back. `natChars` and `intChars` write the shortest numeral and
`padded` at least a given number of digits. `readWord` reads an unsigned 64-bit number and names
the first fault it meets from the left; `readInt64?` reads a signed one.
-/

namespace LeasedWork.Decimal

/-- The ASCII digits. No other digit of Unicode counts. -/
def isDigit (c : Char) : Bool := '0'.toNat ≤ c.toNat && c.toNat ≤ '9'.toNat

/-- The value of an ASCII digit. -/
def digitValue (c : Char) : Nat := c.toNat - '0'.toNat

/-- The number that digits spell when they follow the number `acc`. -/
def valueFrom (acc : Nat) (cs : List Char) : Nat :=
  cs.foldl (fun n c => 10 * n + digitValue c) acc

/-- The number that digits spell. -/
def value (cs : List Char) : Nat := valueFrom 0 cs

/-! ## Writing -/

/-- The shortest numeral of a natural number. -/
def natChars (n : Nat) : List Char := Nat.toDigits 10 n

/-- The shortest numeral of an integer, with a sign when it is negative. -/
def intChars : Int → List Char
  | .ofNat n => natChars n
  | .negSucc n => '-' :: natChars (n + 1)

/-- A numeral of at least `width` digits, filled up with zeros on the left. -/
def padded (width n : Nat) : List Char :=
  List.replicate (width - (natChars n).length) '0' ++ natChars n

/-- The digits after a decimal point that `n` units of `10 ^ -width` need: none end in zero. -/
def fractionDigits (width n : Nat) : List Char :=
  ((padded width n).reverse.dropWhile (· == '0')).reverse

def natText (n : Nat) : String := String.ofList (natChars n)

/-! ## Reading -/

/-- Why a text is no numeral of the wanted range. -/
inductive NumeralFault
  | empty
  | invalidDigit
  | tooLarge
  deriving DecidableEq, Repr

def NumeralFault.message : NumeralFault → String
  | .empty => "cannot parse integer from empty string"
  | .invalidDigit => "invalid digit found in string"
  | .tooLarge => "number too large to fit in target type"

/-- Reads digits after the number `acc` while the value stays below `bound`. -/
def readBelow (bound acc : Nat) : List Char → Except NumeralFault Nat
  | [] => .ok acc
  | c :: cs =>
    if isDigit c then
      if 10 * acc + digitValue c < bound then readBelow bound (10 * acc + digitValue c) cs
      else .error .tooLarge
    else .error .invalidDigit

/-- An unsigned numeral below `bound`: an optional plus sign, then at least one digit. -/
def readUnsigned (bound : Nat) : List Char → Except NumeralFault Nat
  | [] => .error .empty
  | ['+'] => .error .invalidDigit
  | '+' :: cs => readBelow bound 0 cs
  | cs => readBelow bound 0 cs

/-- An unsigned 64-bit number. -/
def readWord (cs : List Char) : Except NumeralFault UInt64 :=
  (readUnsigned UInt64.size cs).map UInt64.ofNat

/-- A signed 64-bit number: an optional sign, then at least one digit. -/
def readInt64? : List Char → Option Int64
  | ['-'] => none
  | '-' :: cs =>
    (readBelow (Int64.minValue.toInt.natAbs + 1) 0 cs).toOption.map fun n =>
      Int64.ofInt (-(n : Int))
  | cs => (readUnsigned Int64.minValue.toInt.natAbs cs).toOption.map fun n => Int64.ofInt n

end LeasedWork.Decimal
