import LeasedWork.Json.Printer
import LeasedWork.Record.Basic
import LeasedWork.Time.Timestamp

/-!
# Records as JSON

A record is stored as a JSON object with thirteen members, all of them written. A reader takes the
members in any order and fills in those that may be missing: all but the identity and the creation
time.
-/

namespace LeasedWork

namespace Status

def toJson (s : Status) : Json := .text s.name

def read : Json.Reads Status := Json.Read.choice ofName?

end Status

namespace Record

/-- The members of a stored record, in the order in which they are written. -/
def fieldNames : List String :=
  ["sourceIdentifier", "partitionType", "partitionKey", "status", "ownerId", "leaseExpiry",
   "reopenAt", "closedCount", "progressState", "version", "createdAt", "completedAt", "readOnly"]

def toJson (r : Record) : Json :=
  .object
    [("sourceIdentifier", .text r.source),
     ("partitionType", .text r.kind),
     ("partitionKey", .text r.key),
     ("status", Json.optional Status.toJson r.status),
     ("ownerId", Json.optional .text r.owner),
     ("leaseExpiry", Json.optional Timestamp.toJson r.leaseExpiry),
     ("reopenAt", Json.optional Timestamp.toJson r.reopenAt),
     ("closedCount", Json.word r.closedCount),
     ("progressState", Json.optional .text r.progress),
     ("version", Json.word r.version),
     ("createdAt", Timestamp.toJson r.createdAt),
     ("completedAt", Json.optional Timestamp.toJson r.completedAt),
     ("readOnly", .bool r.readOnly)]

/-- A record as it is stored. -/
def print (r : Record) : String := r.toJson.print

open Json in
def read : Reads Record := fun t => do
  let f ← t.fields? fieldNames
  let source ← f.required "sourceIdentifier" Read.text
  let kind ← f.required "partitionType" Read.text
  let key ← f.required "partitionKey" Read.text
  let status ← f.withDefault "status" (Read.optional Status.read) none
  let owner ← f.withDefault "ownerId" (Read.optional Read.text) none
  let leaseExpiry ← f.withDefault "leaseExpiry" (Read.optional Timestamp.read) none
  let reopenAt ← f.withDefault "reopenAt" (Read.optional Timestamp.read) none
  let closedCount ← f.withDefault "closedCount" Read.word 0
  let progress ← f.withDefault "progressState" (Read.optional Read.text) none
  let version ← f.withDefault "version" Read.word 0
  let createdAt ← f.required "createdAt" Timestamp.read
  let completedAt ← f.withDefault "completedAt" (Read.optional Timestamp.read) none
  let readOnly ← f.withDefault "readOnly" Read.bool false
  return { source, kind, key, status, owner, leaseExpiry, reopenAt, closedCount, progress,
           version, createdAt, completedAt, readOnly }

/-- The record that a text holds. -/
def parse? (s : String) : Option Record := (Json.Tree.ofString? s).bind read

end Record

end LeasedWork
