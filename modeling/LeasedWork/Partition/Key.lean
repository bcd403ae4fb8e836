import LeasedWork.Text.Decimal
import LeasedWork.Time.Instant

/-!
# Partition keys

A key carries what identifies a partition within its kind. A snapshot's key holds a collection, a
size and a time in milliseconds, with separators between them; the collection may hold separators
of its own, so the key is taken apart from its end. A query's key holds a collection and a query;
here the query may hold separators, so the key is taken apart from its start.
-/

namespace LeasedWork

/-- The separator inside composite keys and prefixed source names. -/
def keySeparator : Char := '|'

/-- Why a key does not fit its kind. -/
inductive KeyFault
  | notTheLeader
  | notASnapshot
  | sizeNotAnInteger
  | timeNotMillis
  | notAQuery
  deriving DecidableEq, Repr

def KeyFault.message : KeyFault → String
  | .notTheLeader => "leader key must be GLOBAL"
  | .notASnapshot => "expected collection|partitionSize|exportTimeMillis"
  | .sizeNotAnInteger => "partition size is not an integer"
  | .timeNotMillis => "export time is not epoch millis"
  | .notAQuery => "expected collection|query"

namespace Key

/-- What stands before and after the first separator. -/
def splitFirst? (cs : List Char) : Option (List Char × List Char) :=
  match cs.dropWhile (· != keySeparator) with
  | [] => none
  | _ :: rest => some (cs.takeWhile (· != keySeparator), rest)

/-- What stands before and after the last separator. -/
def splitLast? (cs : List Char) : Option (List Char × List Char) :=
  (splitFirst? cs.reverse).map fun (after, before) => (before.reverse, after.reverse)

/-- The key of the one leader partition. -/
def leader : String := "GLOBAL"

def readLeader (key : String) : Except KeyFault Unit :=
  if key = leader then .ok () else .error .notTheLeader

end Key

/-- What identifies a one-time export of a collection. -/
structure SnapshotId where
  collection : String
  /-- Items per query partition. -/
  size : UInt64
  time : Instant
  deriving DecidableEq, Repr

namespace SnapshotId

def keyChars (i : SnapshotId) : List Char :=
  i.collection.toList ++ keySeparator ::
    (Decimal.natChars i.size.toNat ++ keySeparator :: Decimal.intChars i.time.millis)

def key (i : SnapshotId) : String := String.ofList i.keyChars

def readKey (key : String) : Except KeyFault SnapshotId := do
  let some (front, millis) := Key.splitLast? key.toList | throw .notASnapshot
  let some (collection, size) := Key.splitLast? front | throw .notASnapshot
  let .ok size := Decimal.readWord size | throw .sizeNotAnInteger
  let some time := (Decimal.readInt64? millis).bind fun ms => Instant.ofMillis? ms.toInt
    | throw .timeNotMillis
  return ⟨String.ofList collection, size, time⟩

end SnapshotId

/-- What identifies a bounded part of an export. -/
structure QueryId where
  collection : String
  query : String
  deriving DecidableEq, Repr

namespace QueryId

def keyChars (i : QueryId) : List Char := i.collection.toList ++ keySeparator :: i.query.toList

def key (i : QueryId) : String := String.ofList i.keyChars

def readKey (key : String) : Except KeyFault QueryId := do
  let some (collection, query) := Key.splitFirst? key.toList | throw .notAQuery
  return ⟨String.ofList collection, String.ofList query⟩

end QueryId

end LeasedWork
