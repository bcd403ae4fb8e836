import LeasedWork.Partition.Kind
import LeasedWork.Partition.Progress

/-!
# The built-in kinds

Nodes compete for the one leader partition; shared state is read and written by all of them; a
snapshot is exported once by planning queries, each of which is a partition of its own; a stream
is read for as long as there are changes.
-/

namespace LeasedWork

/-- The partition whose holder leads the nodes of a source. -/
abbrev leaderKind : PartitionKind where
  tag := "LEADER"
  leased := true
  Identity := Unit
  Progress := LeaderProgress
  key _ := Key.leader
  identify := Key.readLeader
  write := LeaderProgress.write
  read := LeaderProgress.read

/-- State that any node may change and none leases. -/
abbrev sharedKind : PartitionKind where
  tag := "GLOBAL"
  leased := false
  Identity := String
  Progress := Json.Members
  key name := name
  identify := .ok
  write := .object
  read := Json.Members.ofTree?

/-- The one-time export of a collection. -/
abbrev snapshotKind : PartitionKind where
  tag := "EXPORT"
  leased := true
  Identity := SnapshotId
  Progress := SnapshotProgress
  key := SnapshotId.key
  identify := SnapshotId.readKey
  write := SnapshotProgress.write
  read := SnapshotProgress.read

/-- The changes of a collection; the key is the collection. -/
abbrev streamKind : PartitionKind where
  tag := "STREAM"
  leased := true
  Identity := String
  Progress := StreamProgress
  key collection := collection
  identify := .ok
  write := StreamProgress.write
  read := StreamProgress.read

/-- A bounded part of an export. -/
abbrev queryKind : PartitionKind where
  tag := "DATA_QUERY"
  leased := true
  Identity := QueryId
  Progress := QueryProgress
  key := QueryId.key
  identify := QueryId.readKey
  write := QueryProgress.write
  read := QueryProgress.read

/-- The built-in kinds by name. -/
inductive BuiltIn
  | leader
  | shared
  | snapshot
  | stream
  | query
  deriving DecidableEq, Repr

namespace BuiltIn

@[reducible] def kind : BuiltIn → PartitionKind
  | .leader => leaderKind
  | .shared => sharedKind
  | .snapshot => snapshotKind
  | .stream => streamKind
  | .query => queryKind

def all : List BuiltIn := [.leader, .shared, .snapshot, .stream, .query]

def ofTag? (tag : String) : Option BuiltIn := all.find? fun b => b.kind.tag == tag

end BuiltIn

/-- A partition of one of the built-in kinds. -/
structure AnyPartition where
  builtIn : BuiltIn
  partition : Partition builtIn.kind

namespace AnyPartition

/-- The partition behind a record, by the record's tag. -/
def ofRecord (r : Record) : Except Failure AnyPartition :=
  match BuiltIn.ofTag? r.kind with
  | some b => (Partition.ofRecord b.kind r).map (AnyPartition.mk b)
  | none => .error (.unknownKind r.kind)

end AnyPartition

instance : Held AnyPartition where
  tag p := Held.tag p.partition
  key p := Held.key p.partition
  leased p := Held.leased p.partition
  progressText p := Held.progressText p.partition
  record p := Held.record p.partition
  adopt r p := ⟨p.builtIn, Held.adopt r p.partition⟩

/-! ## New partitions -/

/-- The leader partition before anything has been created. -/
def newLeader : Partition leaderKind := .detached () ⟨false⟩

/-- Shared state under a key. -/
def newShared (key : String) (values : Json.Members) : Partition sharedKind := .detached key values

/-- The export of a collection at a time. -/
def newSnapshot (id : SnapshotId) : Partition snapshotKind :=
  .detached id (.starting id.collection id.time)

def newStream (collection : String) (progress : StreamProgress) : Partition streamKind :=
  .detached collection progress

/-- A query that has loaded nothing. -/
def newQuery (id : QueryId) : Partition queryKind := .detached id .none

/-! ## Changes in hand -/

namespace Partition

/-- Whether the partitions of every collection have been created. -/
def isInitialized (p : Partition leaderKind) : Bool := p.progress.any (·.initialized)

def markInitialized (p : Partition leaderKind) : Partition leaderKind := p.setProgress ⟨true⟩

/-- The values of shared state, none when it has no progress. -/
def values (p : Partition sharedKind) : Json.Members := p.progress.getD []

/-- Puts a value under a name. -/
def insert (name : String) (value : Json) (p : Partition sharedKind) : Partition sharedKind :=
  p.setProgress (Json.Members.insert name value p.values)

def get? (name : String) (p : Partition sharedKind) : Option Json := p.values.get? name

/-- The unsigned number under a name, zero when there is none. -/
def count (name : String) (p : Partition sharedKind) : UInt64 :=
  match p.get? name with
  | some (.integer i) => if 0 ≤ i then UInt64.ofNat i.toNat else 0
  | _ => 0

/-- Moves a stream's position. A stream without progress has none to move. -/
def advance (token : Option String) (checkpoint : Checkpoint) (p : Partition streamKind) :
    Partition streamKind :=
  { p with progress := p.progress.map fun x =>
      { x with resumeToken := token, checkpoint := some checkpoint } }

/-- Sets a stream's token alone. -/
def resumeFrom (token : Option String) (p : Partition streamKind) : Partition streamKind :=
  { p with progress := p.progress.map fun x => { x with resumeToken := token } }

/-- Counts a loaded batch of records. -/
def recordBatch (records : UInt64) (p : Partition queryKind) : Partition queryKind :=
  let x := p.progress.getD .none
  p.setProgress { x with executedQueries := x.executedQueries + 1
                         loadedRecords := x.loadedRecords + records }

/-- Notes when loading was scheduled. -/
def startingAt (t : Instant) (p : Partition queryKind) : Partition queryKind :=
  p.setProgress { p.progress.getD .none with startTime := Int64.ofInt t.millis }

end Partition

end LeasedWork
