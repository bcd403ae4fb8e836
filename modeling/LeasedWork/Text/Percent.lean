/-!
# Percent-encoded segments

A path segment may hold no separator and no character that a store treats specially. `encode`
writes every such byte of a text's UTF-8 form as a percent sign and two hexadecimal digits, and
`decode` reads the bytes back. The names `.` and `..` mean a directory, so they are encoded whole.
-/

namespace LeasedWork.Percent

/-- Printable ASCII characters that a segment may not hold as they are. -/
def reserved : List Char := "/\\\x7b^\x7d%`]\">[~<#|*?".toList

/-- Whether a byte stands for itself in a segment. -/
def isKept (b : UInt8) : Bool :=
  32 ≤ b.toNat && b.toNat < 127 && !reserved.contains (Char.ofNat b.toNat)

def hexDigit (n : Nat) : Char := if n < 10 then Char.ofNat (48 + n) else Char.ofNat (55 + n)

/-- A byte as a percent sign and two hexadecimal digits. -/
def escaped (b : UInt8) : List Char := ['%', hexDigit (b.toNat / 16), hexDigit (b.toNat % 16)]

def encodeByte (b : UInt8) : List Char :=
  if isKept b then [Char.ofNat b.toNat] else escaped b

def encodeBytes (bs : List UInt8) : List Char := bs.flatMap encodeByte

/-- The bytes of a text. -/
def bytes (s : String) : List UInt8 := s.toUTF8.data.toList

/-- A text as a path segment. -/
def encode (s : String) : String :=
  if s = "." ∨ s = ".." then String.ofList ((bytes s).flatMap escaped)
  else String.ofList (encodeBytes (bytes s))

def hexValue? (c : Char) : Option Nat :=
  if 48 ≤ c.toNat ∧ c.toNat ≤ 57 then some (c.toNat - 48)
  else if 65 ≤ c.toNat ∧ c.toNat ≤ 70 then some (c.toNat - 55)
  else none

/-- The bytes that a segment stands for. -/
def decode : List Char → Option (List UInt8)
  | [] => some []
  | '%' :: a :: b :: rest => do
    let high ← hexValue? a
    let low ← hexValue? b
    let bs ← decode rest
    return UInt8.ofNat (16 * high + low) :: bs
  | c :: rest => do
    let bs ← decode rest
    if c = '%' ∨ 127 ≤ c.toNat then none else return UInt8.ofNat c.toNat :: bs

end LeasedWork.Percent
