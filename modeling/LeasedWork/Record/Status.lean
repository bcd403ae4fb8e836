/-!
# Status of a leased record
-/

namespace LeasedWork

/-- Where a leased record stands. -/
inductive Status
  | unassigned
  | assigned
  | closed
  | completed
  deriving DecidableEq, Repr

namespace Status

/-- A status in stored records. -/
def name : Status → String
  | .unassigned => "UNASSIGNED"
  | .assigned => "ASSIGNED"
  | .closed => "CLOSED"
  | .completed => "COMPLETED"

def all : List Status := [.unassigned, .assigned, .closed, .completed]

def ofName? (s : String) : Option Status := all.find? fun x => x.name == s

/-- Completed records stay completed. -/
def isTerminal : Status → Bool
  | .completed => true
  | _ => false

end Status

end LeasedWork
