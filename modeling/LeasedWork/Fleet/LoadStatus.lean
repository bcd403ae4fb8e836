import LeasedWork.Fleet.Contention
import LeasedWork.Json.Printer

/-!
# The load status of a collection

How far the export of a collection has come is counted in shared state. Whoever plans or loads
queries reads the counters, changes them and writes them back, and tries again when another node
was faster.
-/

namespace LeasedWork

/-- How far the export of a collection has come. -/
structure LoadStatus where
  totalPartitions : UInt64
  loadedPartitions : UInt64
  loadedRecords : UInt64
  /-- When a counter last changed, in milliseconds since the start of 1970. -/
  lastUpdate : Int64
  /-- All queries have been planned. -/
  totalComplete : Bool
  deriving DecidableEq, Repr

namespace LoadStatus

/-- The key of a collection's load status. -/
def keyOf (collection : String) : String := "EXPORT-" ++ collection

/-- Nothing counted yet. -/
def starting (now : Instant) : LoadStatus := ⟨0, 0, 0, Int64.ofInt now.millis, false⟩

/-- The members in their declared order. -/
def entries (s : LoadStatus) : List (String × Json) :=
  [("totalPartitions", Json.word s.totalPartitions),
   ("loadedPartitions", Json.word s.loadedPartitions),
   ("loadedRecords", Json.word s.loadedRecords),
   ("lastUpdateTimestamp", Json.signed s.lastUpdate),
   ("totalPartitionsComplete", .bool s.totalComplete)]

def toJson (s : LoadStatus) : Json := .object s.entries

/-- The counters as shared state. -/
def toMembers (s : LoadStatus) : Json.Members := .ofList s.entries

open Json in
/-- A counter that is missing is zero. -/
def read : Reads LoadStatus := fun t => do
  let f ← t.fields?
    ["totalPartitions", "loadedPartitions", "loadedRecords", "lastUpdateTimestamp",
     "totalPartitionsComplete"]
  let totalPartitions ← f.withDefault "totalPartitions" Read.word 0
  let loadedPartitions ← f.withDefault "loadedPartitions" Read.word 0
  let loadedRecords ← f.withDefault "loadedRecords" Read.word 0
  let lastUpdate ← f.withDefault "lastUpdateTimestamp" Read.signed 0
  let totalComplete ← f.withDefault "totalPartitionsComplete" Read.bool false
  return ⟨totalPartitions, loadedPartitions, loadedRecords, lastUpdate, totalComplete⟩

def ofMembers (ms : Json.Members) : Except Failure LoadStatus :=
  match read (Json.object ms).toTree with
  | some s => .ok s
  | none => .error .unreadable

/-- Every planned query has been loaded. -/
def isFullyLoaded (s : LoadStatus) : Bool :=
  s.totalComplete && s.totalPartitions ≤ s.loadedPartitions

/-! ## Changes -/

/-- Queries have been planned, perhaps the last ones. -/
def planned (created : UInt64) (isLast : Bool) (s : LoadStatus) : LoadStatus :=
  { s with totalPartitions := s.totalPartitions + created
           totalComplete := s.totalComplete || isLast }

/-- A query has been loaded. -/
def loaded (records : UInt64) (s : LoadStatus) : LoadStatus :=
  { s with loadedPartitions := s.loadedPartitions + 1, loadedRecords := s.loadedRecords + records }

def stamped (now : Instant) (s : LoadStatus) : LoadStatus :=
  { s with lastUpdate := Int64.ofInt now.millis }

variable {E : Interface}

/-- One attempt to change a collection's counters. Where there are none, nothing is done. -/
def attempt (n : Node) (collection : String) (change : LoadStatus → LoadStatus) :
    Node.Action E Unit := do
  match ← n.shared? (Partition.ofRecord sharedKind) (keyOf collection) with
  | none => return ()
  | some state => do
    let status ← Node.ofExcept (ofMembers state.values)
    let time ← Node.now
    let _ ← n.save (state.setProgress ((change status).stamped time).toMembers) none
    return ()

/-- Changes a collection's counters. -/
def update (n : Node) (collection : String) (change : LoadStatus → LoadStatus) :
    Node.Action E Unit := Contention.persist (attempt n collection change)

/-- Counts a loaded query and its records. -/
def recordLoaded (n : Node) (collection : String) (records : UInt64) : Node.Action E Unit :=
  update n collection (loaded records)

end LoadStatus

end LeasedWork
