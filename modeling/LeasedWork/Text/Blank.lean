/-!
# White space

The characters with Unicode's `White_Space` property, and text without them at its ends.
-/

namespace LeasedWork.Text

/-- The ranges of code points that are white space. -/
def blankRanges : List (Nat × Nat) :=
  [(0x09, 0x0d), (0x20, 0x20), (0x85, 0x85), (0xa0, 0xa0), (0x1680, 0x1680), (0x2000, 0x200a),
   (0x2028, 0x2029), (0x202f, 0x202f), (0x205f, 0x205f), (0x3000, 0x3000)]

def isBlank (c : Char) : Bool := blankRanges.any fun r => r.1 ≤ c.toNat && c.toNat ≤ r.2

def trimStart (cs : List Char) : List Char := cs.dropWhile isBlank

def trim (cs : List Char) : List Char := (trimStart (trimStart cs).reverse).reverse

/-- Text of white space only, the empty text included. -/
def isBlankText (s : String) : Bool := s.toList.all isBlank

end LeasedWork.Text
