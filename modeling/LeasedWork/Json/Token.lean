import LeasedWork.Json.Numeral

/-!
# JSON tokens

A text is read character by character into tokens. The reader's state says what the last
characters have begun: nothing, a word, a number or a quoted text. White space ends a word or a
number and is otherwise dropped.

A quoted text with an escape for half of a character (a surrogate without its partner) has no
value. It is kept as `text none`, because a value that nobody reads may hold it.
-/

namespace LeasedWork.Json

inductive Token
  | openBrace
  | closeBrace
  | openBracket
  | closeBracket
  | comma
  | colon
  | null
  | bool (b : Bool)
  | number (n : Numeral)
  | text (s : Option String)
  deriving DecidableEq, Repr

/-- JSON's own white space. -/
def isSpace (c : Char) : Bool := c == ' ' || c == '\n' || c == '\t' || c == '\r'

namespace Token

/-- The value of a hexadecimal digit of either case. -/
def hexValue? (c : Char) : Option Nat :=
  if '0' ≤ c ∧ c ≤ '9' then some (c.toNat - '0'.toNat)
  else if 'a' ≤ c ∧ c ≤ 'f' then some (c.toNat - 'a'.toNat + 10)
  else if 'A' ≤ c ∧ c ≤ 'F' then some (c.toNat - 'A'.toNat + 10)
  else none

/-- The character that a single letter stands for after a backslash. -/
def unescaped? (c : Char) : Option Char :=
  match c with
  | '"' => some '"'
  | '\\' => some '\\'
  | '/' => some '/'
  | 'b' => some '\x08'
  | 'f' => some '\x0c'
  | 'n' => some '\n'
  | 'r' => some '\r'
  | 't' => some '\t'
  | _ => none

/-- A quoted text as far as it has been read. -/
structure Quoted where
  /-- The characters so far, the last one first, unless some escape has no partner. -/
  chars : Option (List Char)
  /-- The first half of a character, whose second half must follow. -/
  half : Option Nat
  deriving DecidableEq, Repr

namespace Quoted

/-- An open first half has no partner when anything but a second half follows. -/
def settled (q : Quoted) : Option (List Char) :=
  match q.half with
  | none => q.chars
  | some _ => none

def push (q : Quoted) (c : Char) : Quoted := ⟨q.settled.map (c :: ·), none⟩

def isFirstHalf (n : Nat) : Bool := 0xd800 ≤ n && n < 0xdc00

def isSecondHalf (n : Nat) : Bool := 0xdc00 ≤ n && n < 0xe000

/-- The character that two halves make together. -/
def joined (first second : Nat) : Char :=
  Char.ofNat (0x10000 + (first - 0xd800) * 0x400 + (second - 0xdc00))

/-- Adds the sixteen bits of an escape. -/
def pushUnit (q : Quoted) (n : Nat) : Quoted :=
  if isFirstHalf n then ⟨q.settled, some n⟩
  else if isSecondHalf n then
    match q.half with
    | some first => ⟨q.chars.map (joined first n :: ·), none⟩
    | none => ⟨none, none⟩
  else q.push (Char.ofNat n)

def token (q : Quoted) : Token := .text (q.settled.map fun cs => String.ofList cs.reverse)

end Quoted

/-- What the last characters have begun. -/
inductive Mode
  | between
  /-- A word, its last letter first. -/
  | word (letters : List Char)
  /-- A number, its last character first. -/
  | number (chars : List Char)
  | quoted (q : Quoted)
  | escape (q : Quoted)
  /-- An escape by four digits: the value of those read, and how many are to come. -/
  | units (q : Quoted) (value left : Nat)
  deriving DecidableEq, Repr

/-- The reader's state: the tokens so far, the last one first, and what has been begun. -/
structure Reading where
  tokens : List Token
  mode : Mode
  deriving DecidableEq, Repr

def isLetter (c : Char) : Bool := 'a' ≤ c && c ≤ 'z'

def ofWord? (letters : List Char) : Option Token :=
  if letters = "null".toList then some .null
  else if letters = "true".toList then some (.bool true)
  else if letters = "false".toList then some (.bool false)
  else none

/-- The token that ends where no further character belongs to it. -/
def flush (r : Reading) : Option (List Token) :=
  match r.mode with
  | .between => some r.tokens
  | .word letters => (ofWord? letters.reverse).map (· :: r.tokens)
  | .number chars => (Numeral.read? chars.reverse).map (.number · :: r.tokens)
  | .quoted _ | .escape _ | .units _ _ _ => none

/-- Begins a token, or reads a whole one of a single character. -/
def start (tokens : List Token) (c : Char) : Option Reading :=
  match c with
  | '\x7b' => some ⟨.openBrace :: tokens, .between⟩
  | '\x7d' => some ⟨.closeBrace :: tokens, .between⟩
  | '[' => some ⟨.openBracket :: tokens, .between⟩
  | ']' => some ⟨.closeBracket :: tokens, .between⟩
  | ',' => some ⟨.comma :: tokens, .between⟩
  | ':' => some ⟨.colon :: tokens, .between⟩
  | '"' => some ⟨tokens, .quoted ⟨some [], none⟩⟩
  | _ =>
    if isSpace c then some ⟨tokens, .between⟩
    else if isLetter c then some ⟨tokens, .word [c]⟩
    else if Decimal.isDigit c || c == '-' then some ⟨tokens, .number [c]⟩
    else none

/-- Reads one character. -/
def step (r : Reading) (c : Char) : Option Reading :=
  match r.mode with
  | .between => start r.tokens c
  | .word letters =>
    if isLetter c then some ⟨r.tokens, .word (c :: letters)⟩
    else (flush r).bind fun tokens => start tokens c
  | .number chars =>
    if Numeral.isNumeralChar c then some ⟨r.tokens, .number (c :: chars)⟩
    else (flush r).bind fun tokens => start tokens c
  | .quoted q =>
    if c = '"' then some ⟨q.token :: r.tokens, .between⟩
    else if c = '\\' then some ⟨r.tokens, .escape q⟩
    else if c.toNat < 0x20 then none
    else some ⟨r.tokens, .quoted (q.push c)⟩
  | .escape q =>
    if c = 'u' then some ⟨r.tokens, .units q 0 4⟩
    else (unescaped? c).map fun d => ⟨r.tokens, .quoted (q.push d)⟩
  | .units q value left =>
    (hexValue? c).map fun d =>
      if left ≤ 1 then ⟨r.tokens, .quoted (q.pushUnit (16 * value + d))⟩
      else ⟨r.tokens, .units q (16 * value + d) (left - 1)⟩

/-- The tokens of a text. -/
def ofChars? (cs : List Char) : Option (List Token) :=
  ((cs.foldlM step ⟨[], .between⟩).bind flush).map List.reverse

end Token

end LeasedWork.Json
