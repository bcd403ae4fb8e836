import LeasedWork.Record.Status
import LeasedWork.Time.Instant

/-!
# Partition records

A record is one unit of coordinated work as a store holds it. Its identity is the data source, the
kind of partition and the partition's key. A record with a status is leased: at most one owner
works on it at a time. A record without one is shared state, which no node ever leases.
-/

namespace LeasedWork

/-- What tells one record from another. -/
structure RecordId where
  source : String
  kind : String
  key : String
  deriving DecidableEq, Repr

/-- One unit of coordinated work. -/
structure Record where
  source : String
  kind : String
  key : String
  /-- Nothing for shared state. -/
  status : Option Status
  owner : Option String
  leaseExpiry : Option Instant
  reopenAt : Option Instant
  /-- How often the record has been closed. -/
  closedCount : UInt64
  /-- The partition's progress, as JSON text. -/
  progress : Option String
  /-- Counts the writes to the record, its creation included. -/
  version : UInt64
  createdAt : Instant
  completedAt : Option Instant
  readOnly : Bool
  deriving DecidableEq, Repr

namespace Record

def id (r : Record) : RecordId := ⟨r.source, r.kind, r.key⟩

/-- A new leased record. -/
def unassigned (id : RecordId) (progress : Option String) (createdAt : Instant) : Record where
  source := id.source
  kind := id.kind
  key := id.key
  status := some .unassigned
  owner := none
  leaseExpiry := none
  reopenAt := none
  closedCount := 0
  progress := progress
  version := 0
  createdAt := createdAt
  completedAt := none
  readOnly := false

/-- A new record of shared state. -/
def shared (id : RecordId) (progress : Option String) (createdAt : Instant) : Record :=
  { unassigned id progress createdAt with status := none, readOnly := true }

/-- The record as a store first keeps it. -/
def firstVersion (r : Record) : Record := { r with version := 1 }

/-- The record with its write counted. -/
def nextVersion (r : Record) : Record := { r with version := r.version + 1 }

/-- Given to an owner until a deadline. -/
def assign (owner : String) (expiry : Instant) (r : Record) : Record :=
  { r with status := some .assigned, owner := some owner, leaseExpiry := some expiry,
           reopenAt := none }

/-- Without an owner and a deadline. -/
def clearLease (r : Record) : Record := { r with owner := none, leaseExpiry := none }

/-- Whether the record has a status and, when a time is given, was completed at or after it. -/
def hasStatus (status : Status) (since : Option Instant) (r : Record) : Bool :=
  r.status == some status &&
    match since with
    | none => true
    | some t => r.completedAt.any fun done => t ≤ done

/-- Older records first, and of equally old ones the one of the lesser key. -/
def isOlder (a b : Record) : Bool :=
  a.createdAt < b.createdAt || (a.createdAt == b.createdAt && !(b.key < a.key))

/-- Records in the order in which lists of them are shown. -/
def sorted (rs : List Record) : List Record := rs.mergeSort isOlder

end Record

end LeasedWork
