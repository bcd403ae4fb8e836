import LeasedWork.Json.Value
import LeasedWork.Number.Shortest

/-!
# JSON text

A value is written without white space and its members in the order in which they are listed. A
text is written as it is, but for the quote, the backslash and the control characters below the
space. A floating-point number has its shortest digits, always shows that it is one, and has an
exponent below `1e-5` and from `1e16` on.
-/

namespace LeasedWork.Json

/-- Floating-point numbers are positional from `1e-5` up to but not including `1e16`. -/
def realStyle : DecimalStyle := ⟨some (-5, 15), true, .even⟩

def hexDigit (n : Nat) : Char := if n < 10 then Char.ofNat (48 + n) else Char.ofNat (87 + n)

/-- A character inside quotes. -/
def escapedChar (c : Char) : List Char :=
  match c with
  | '"' => ['\\', '"']
  | '\\' => ['\\', '\\']
  | '\x08' => ['\\', 'b']
  | '\t' => ['\\', 't']
  | '\n' => ['\\', 'n']
  | '\x0c' => ['\\', 'f']
  | '\r' => ['\\', 'r']
  | _ =>
    if c.toNat < 0x20 then
      ['\\', 'u', '0', '0', hexDigit (c.toNat / 16), hexDigit (c.toNat % 16)]
    else [c]

def quoted (s : String) : List Char := '"' :: (s.toList.flatMap escapedChar ++ ['"'])

mutual

/-- The text of a value. -/
def chars : Json → List Char
  | .null => "null".toList
  | .bool true => "true".toList
  | .bool false => "false".toList
  | .integer i => Decimal.intChars i
  | .real x => x.chars realStyle
  | .text s => quoted s
  | .array items => '[' :: (itemChars items ++ [']'])
  | .object members => '\x7b' :: (memberChars members ++ ['\x7d'])

/-- Values with commas between them. -/
def itemChars : List Json → List Char
  | [] => []
  | [x] => chars x
  | x :: y :: rest => chars x ++ ',' :: itemChars (y :: rest)

/-- Members with commas between them. -/
def memberChars : List (String × Json) → List Char
  | [] => []
  | [(name, x)] => quoted name ++ ':' :: chars x
  | (name, x) :: y :: rest => quoted name ++ ':' :: (chars x ++ ',' :: memberChars (y :: rest))

end

/-- The text of a value. -/
def print (j : Json) : String := String.ofList j.chars

end LeasedWork.Json
