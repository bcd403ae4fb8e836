import LeasedWork.Json.Printer
import LeasedWork.Json.Fields

/-!
# Collections

What is to be done for a collection of a source: its export in parts of a given size, the reading
of its changes, or both.
-/

namespace LeasedWork

/-- What is to be done for a collection. -/
structure Collection where
  name : String
  /-- Items per query of the export, if there is one. -/
  exportSize : Option UInt64
  /-- The collection's changes are read. -/
  stream : Bool
  deriving DecidableEq, Repr

namespace Collection

open Json

/-- The members in their declared order. -/
def entries (c : Collection) : List (String × Json) :=
  [("collection", .text c.name),
   ("export", optional (fun size => .object [("partitionSize", word size)]) c.exportSize),
   ("stream", .bool c.stream)]

def toJson (c : Collection) : Json := .object c.entries

def readSize : Reads UInt64 := fun t => do
  let f ← t.fields? ["partitionSize"]
  f.required "partitionSize" Read.word

def read : Reads Collection := fun t => do
  let f ← t.fields? ["collection", "export", "stream"]
  let name ← f.required "collection" Read.text
  let exportSize ← f.withDefault "export" (Read.optional readSize) none
  let stream ← f.withDefault "stream" Read.bool false
  return ⟨name, exportSize, stream⟩

/-- The member of a collection's shared state that holds the time of its snapshot. -/
def snapshotMember : String := "snapshotTime"

/-- The collection's shared state when its snapshot is pinned. -/
def toMembers (c : Collection) (snapshotMillis : Int) : Members :=
  Members.insert snapshotMember (.integer snapshotMillis) (.ofList c.entries)

end Collection

end LeasedWork
