import LeasedWork.Text.CaseTable

/-!
# Lower case

A text's lower case replaces each character by its own lower-case form. Two characters are
special: a capital I with a dot becomes an i and a combining dot, and a capital sigma at the end
of a word becomes a final sigma.
-/

namespace LeasedWork.Text

def CaseRun.contains (r : CaseRun) (n : Nat) : Bool :=
  r.first ≤ n && n ≤ r.last && (n - r.first) % r.stride == 0

/-- The lower-case form of a single character. -/
def lowerChar (c : Char) : Char :=
  match lowerRuns.find? (·.contains c.toNat) with
  | some r => Char.ofNat (c.toNat + r.distance).toNat
  | none => c

def isWithin (ranges : List (Nat × Nat)) (c : Char) : Bool :=
  ranges.any fun r => r.1 ≤ c.toNat && c.toNat ≤ r.2

/-- Whether the next character that is not passed over is a letter with a case. -/
def leadsToLetter (cs : List Char) : Bool :=
  match cs.dropWhile (isWithin ignorableRanges) with
  | c :: _ => isWithin casedRanges c
  | [] => false

/-- The lower case of a character between the ones before it, the nearest first, and the ones
after it. -/
def lowerInside (before : List Char) (c : Char) (after : List Char) : List Char :=
  if c = 'Σ' then (if leadsToLetter before && !leadsToLetter after then ['ς'] else ['σ'])
  else if c = 'İ' then ['i', '\u0307']
  else [lowerChar c]

def lowerFrom (before : List Char) : List Char → List Char
  | [] => []
  | c :: rest => lowerInside before c rest ++ lowerFrom (c :: before) rest

/-- The lower case of a text. -/
def lower (s : String) : String := String.ofList (lowerFrom [] s.toList)

end LeasedWork.Text
