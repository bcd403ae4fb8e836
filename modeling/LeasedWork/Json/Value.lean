import LeasedWork.Json.Tree

/-!
# JSON values

A value is what a JSON text means: an object maps names to values, so its members are kept in the
order of their names and of two members with one name the last counts. `ofTree?` finds the value
of a tree, which must hold only texts that have a value, finite numbers and at most `maxDepth`
levels of nesting.
-/

namespace LeasedWork

/-- A JSON value. -/
inductive Json
  | null
  | bool (b : Bool)
  | integer (i : Int)
  | real (x : Binary64)
  | text (s : String)
  | array (items : List Json)
  | object (members : List (String × Json))
  deriving Repr

namespace Json

/-- The members of an object. -/
abbrev Members := List (String × Json)

namespace Members

/-- Puts a member at its place in the order of names; it replaces one of the same name. -/
def insert (name : String) (value : Json) : Members → Members
  | [] => [(name, value)]
  | (other, old) :: rest =>
    if name = other then (name, value) :: rest
    else if name < other then (name, value) :: (other, old) :: rest
    else (other, old) :: insert name value rest

def get? (ms : Members) (name : String) : Option Json := List.lookup name ms

def ofList (entries : List (String × Json)) : Members :=
  entries.foldl (fun ms (name, value) => insert name value ms) []

end Members

/-- Arrays and objects may be nested this deep. -/
def maxDepth : Nat := 127

mutual

/-- The value of a tree whose arrays and objects may be nested `depth` deep. -/
def ofTree? (depth : Nat) : Tree → Option Json
  | .null => some .null
  | .bool b => some (.bool b)
  | .number (.integer i) => some (.integer i)
  | .number (.real x) => x.map .real
  | .text s => s.map .text
  | .array items => if depth = 0 then none else (ofItems? (depth - 1) items).map .array
  | .object members =>
    if depth = 0 then none
    else (ofMembers? (depth - 1) members).map fun ms => .object (Members.ofList ms)

def ofItems? (depth : Nat) : List Tree → Option (List Json)
  | [] => some []
  | t :: ts => do
    let x ← ofTree? depth t
    let xs ← ofItems? depth ts
    return x :: xs

def ofMembers? (depth : Nat) : List (Option String × Tree) → Option (List (String × Json))
  | [] => some []
  | (name, t) :: ts => do
    let name ← name
    let x ← ofTree? depth t
    let xs ← ofMembers? depth ts
    return (name, x) :: xs

end

/-- The value of a text. -/
def ofString? (s : String) : Option Json := (Tree.ofString? s).bind (ofTree? maxDepth)

/-- The members of an object. -/
def Members.ofTree? (t : Tree) : Option Members :=
  match Json.ofTree? maxDepth t with
  | some (.object ms) => some ms
  | _ => none

mutual

/-- A value as a tree. -/
def toTree : Json → Tree
  | .null => .null
  | .bool b => .bool b
  | .integer i => .number (.integer i)
  | .real x => .number (.real (some x))
  | .text s => .text (some s)
  | .array items => .array (itemsToTree items)
  | .object members => .object (membersToTree members)

def itemsToTree : List Json → List Tree
  | [] => []
  | x :: xs => toTree x :: itemsToTree xs

def membersToTree : List (String × Json) → List (Option String × Tree)
  | [] => []
  | (name, x) :: xs => (some name, toTree x) :: membersToTree xs

end

end Json

end LeasedWork
