import LeasedWork.Record.Lease
import LeasedWork.Store.Request

/-!
# A store in memory

A table holds at most one record of each identity and answers a request in one step, so that
claims and updates are atomic for all nodes that share it.
-/

namespace LeasedWork

/-- Records of distinct identities. -/
structure Table where
  rows : List Record
  deriving Repr

namespace Table

def empty : Table := ⟨[]⟩

def find? (t : Table) (id : RecordId) : Option Record := t.rows.find? fun r => r.id == id

def insert (r : Record) (t : Table) : Table := ⟨t.rows ++ [r]⟩

/-- Replaces the row of the same identity. -/
def replace (r : Record) (t : Table) : Table :=
  ⟨t.rows.map fun old => if old.id = r.id then r else old⟩

/-- The records of a source and kind. -/
def ofKind (source kind : String) (t : Table) : List Record :=
  t.rows.filter fun r => r.source == source && r.kind == kind

/-- The answer to a request at a time, and the table after it. -/
def answer (now : Instant) (request : Request) (t : Table) : request.Answer × Table :=
  match request with
  | .prepare => (.ok (), t)
  | .get id => (.ok (t.find? id), t)
  | .create r =>
    match t.find? r.id with
    | some _ => (.ok false, t)
    | none => (.ok true, t.insert r.firstVersion)
  | .update r =>
    match t.find? r.id with
    | some stored =>
      if stored.version = r.version then (.ok r.nextVersion, t.replace r.nextVersion)
      else (.error (.lostWriteOf r), t)
    | none => (.error (.lostWriteOf r), t)
  | .claim source kind owner lease =>
    match candidates now (t.ofKind source kind) with
    | r :: _ => (.ok (some (r.claimed owner now lease)), t.replace (r.claimed owner now lease))
    | [] => (.ok none, t)
  | .byStatus source kind status since =>
    (.ok (Record.sorted ((t.ofKind source kind).filter (·.hasStatus status since))), t)
  | .all source kind => (.ok (Record.sorted (t.ofKind source kind)), t)

/-- Lets every lease run out at a time. -/
def expireAll (expiry : Instant) (t : Table) : Table :=
  ⟨t.rows.map fun r =>
    if r.status = some .assigned then { r with leaseExpiry := some expiry } else r⟩

end Table

end LeasedWork
