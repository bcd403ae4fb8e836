import LeasedWork.Json.Token

/-!
# JSON trees

A tree is a JSON text as it stands: members in their order, names that occur twice, texts without
a value and numbers of any size. It is what a reader of a known structure looks at, because such a
reader skips what it does not know without judging it. `ofTokens?` reads a tree by a stack of the
arrays and objects that are open.
-/

namespace LeasedWork.Json

inductive Tree
  | null
  | bool (b : Bool)
  | number (n : Numeral)
  | text (s : Option String)
  | array (items : List Tree)
  | object (members : List (Option String × Tree))
  deriving Repr

namespace Tree

/-- An open array or object that waits for a value. What it holds already has its last entry
first. -/
inductive Frame
  | items (done : List Tree)
  | members (done : List (Option String × Tree)) (name : Option String)

/-- What may come next, and the containers that are open around it. -/
inductive Phase
  | value (outer : List Frame)
  /-- After an opening bracket. -/
  | firstItem (outer : List Frame)
  /-- After an opening brace. -/
  | firstName (outer : List Frame)
  /-- After a comma between members. -/
  | nextName (done : List (Option String × Tree)) (outer : List Frame)
  | colon (done : List (Option String × Tree)) (name : Option String) (outer : List Frame)
  | afterItem (done : List Tree) (outer : List Frame)
  | afterMember (done : List (Option String × Tree)) (outer : List Frame)
  | finished (t : Tree)

/-- Gives a value to the innermost open container. -/
def receive (t : Tree) : List Frame → Phase
  | [] => .finished t
  | .items done :: outer => .afterItem (t :: done) outer
  | .members done name :: outer => .afterMember ((name, t) :: done) outer

/-- Begins a value inside the containers of `outer`. -/
def startValue (outer : List Frame) : Token → Option Phase
  | .null => some (receive .null outer)
  | .bool b => some (receive (.bool b) outer)
  | .number n => some (receive (.number n) outer)
  | .text s => some (receive (.text s) outer)
  | .openBracket => some (.firstItem outer)
  | .openBrace => some (.firstName outer)
  | _ => none

/-- Reads one token. -/
def step : Phase → Token → Option Phase
  | .value outer, token => startValue outer token
  | .firstItem outer, .closeBracket => some (receive (.array []) outer)
  | .firstItem outer, token => startValue (.items [] :: outer) token
  | .firstName outer, .closeBrace => some (receive (.object []) outer)
  | .firstName outer, .text name => some (.colon [] name outer)
  | .nextName done outer, .text name => some (.colon done name outer)
  | .colon done name outer, .colon => some (.value (.members done name :: outer))
  | .afterItem done outer, .comma => some (.value (.items done :: outer))
  | .afterItem done outer, .closeBracket => some (receive (.array done.reverse) outer)
  | .afterMember done outer, .comma => some (.nextName done outer)
  | .afterMember done outer, .closeBrace => some (receive (.object done.reverse) outer)
  | _, _ => none

/-- The tree that tokens spell, all of them used. -/
def ofTokens? (tokens : List Token) : Option Tree :=
  match tokens.foldlM step (.value []) with
  | some (.finished t) => some t
  | _ => none

/-- The tree that a text spells. -/
def ofChars? (cs : List Char) : Option Tree := (Token.ofChars? cs).bind ofTokens?

def ofString? (s : String) : Option Tree := ofChars? s.toList

end Tree

end LeasedWork.Json
