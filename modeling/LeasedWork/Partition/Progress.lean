import LeasedWork.Json.Fields
import LeasedWork.Time.Timestamp

/-!
# Progress of a partition

Each kind of partition keeps its progress in a structure of its own, written as JSON into the
record. `write` lists the members in their order and `read` is the matching reader.
-/

namespace LeasedWork

open Json

/-- Whether the partitions of every collection have been created. -/
structure LeaderProgress where
  initialized : Bool
  deriving DecidableEq, Repr

namespace LeaderProgress

def write (p : LeaderProgress) : Json := .object [("initialized", .bool p.initialized)]

def read : Reads LeaderProgress := fun t => do
  let f ← t.fields? ["initialized"]
  let initialized ← f.required "initialized" Read.bool
  return ⟨initialized⟩

end LeaderProgress

/-- What an export was started for. -/
structure SnapshotProgress where
  database : String
  collection : String
  time : Instant
  deriving DecidableEq, Repr

namespace SnapshotProgress

/-- The progress of a new export. A name has its database before its first dot, if it has one. -/
def starting (collection : String) (time : Instant) : SnapshotProgress :=
  let cs := collection.toList
  match cs.dropWhile (· != '.') with
  | [] => ⟨"", collection, time⟩
  | _ :: rest => ⟨String.ofList (cs.takeWhile (· != '.')), String.ofList rest, time⟩

def write (p : SnapshotProgress) : Json :=
  .object
    [("databaseName", .text p.database),
     ("collectionName", .text p.collection),
     ("exportTime", Timestamp.toJson p.time)]

def read : Reads SnapshotProgress := fun t => do
  let f ← t.fields? ["databaseName", "collectionName", "exportTime"]
  let database ← f.required "databaseName" Read.text
  let collection ← f.required "collectionName" Read.text
  let time ← f.required "exportTime" Timestamp.read
  return ⟨database, collection, time⟩

end SnapshotProgress

/-- A position inside a stream of changes. -/
structure Checkpoint where
  commit : UInt64
  operation : UInt64
  records : UInt64
  deriving DecidableEq, Repr

namespace Checkpoint

def write (c : Checkpoint) : Json :=
  .object
    [("commitNum", word c.commit), ("opNum", word c.operation), ("recordCount", word c.records)]

def read : Reads Checkpoint := fun t => do
  let f ← t.fields? ["commitNum", "opNum", "recordCount"]
  let commit ← f.required "commitNum" Read.word
  let operation ← f.required "opNum" Read.word
  let records ← f.required "recordCount" Read.word
  return ⟨commit, operation, records⟩

end Checkpoint

/-- How far a stream of changes has been read. -/
structure StreamProgress where
  /-- Where the stream begins, in milliseconds since the start of 1970. -/
  startTime : Int64
  resumeToken : Option String
  checkpoint : Option Checkpoint
  /-- Reading waits until the collection's export has been loaded. -/
  waitForExport : Bool
  deriving DecidableEq, Repr

namespace StreamProgress

/-- A token or checkpoint that is not there is not written. -/
def write (p : StreamProgress) : Json :=
  .object
    ([("startTime", signed p.startTime)]
      ++ (p.resumeToken.map fun token => ("resumeToken", Json.text token)).toList
      ++ (p.checkpoint.map fun c => ("checkpoint", c.write)).toList
      ++ [("waitForExport", .bool p.waitForExport)])

def read : Reads StreamProgress := fun t => do
  let f ← t.fields? ["startTime", "resumeToken", "checkpoint", "waitForExport"]
  let startTime ← f.required "startTime" Read.signed
  let resumeToken ← f.withDefault "resumeToken" (Read.optional Read.text) none
  let checkpoint ← f.withDefault "checkpoint" (Read.optional Checkpoint.read) none
  let waitForExport ← f.withDefault "waitForExport" Read.bool false
  return ⟨startTime, resumeToken, checkpoint, waitForExport⟩

end StreamProgress

/-- How much of a query's result has been loaded. -/
structure QueryProgress where
  executedQueries : UInt64
  loadedRecords : UInt64
  /-- When loading was scheduled, in milliseconds since the start of 1970. -/
  startTime : Int64
  deriving DecidableEq, Repr

namespace QueryProgress

def none : QueryProgress := ⟨0, 0, 0⟩

def write (p : QueryProgress) : Json :=
  .object
    [("executedQueries", word p.executedQueries),
     ("loadedRecords", word p.loadedRecords),
     ("startTime", signed p.startTime)]

def read : Reads QueryProgress := fun t => do
  let f ← t.fields? ["executedQueries", "loadedRecords", "startTime"]
  let executedQueries ← f.withDefault "executedQueries" Read.word 0
  let loadedRecords ← f.withDefault "loadedRecords" Read.word 0
  let startTime ← f.withDefault "startTime" Read.signed 0
  return ⟨executedQueries, loadedRecords, startTime⟩

end QueryProgress

end LeasedWork
