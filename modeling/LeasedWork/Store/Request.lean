import LeasedWork.Failure

/-!
# What a store is asked

A store keeps partition records. Every write is conditional: a record is created only where there
is none, and updated only while its stored version is the one that the writer last saw. A claim
picks the most urgent available record of a kind and assigns it in the same step.
-/

namespace LeasedWork

/-- A request to a store of records. -/
inductive Request
  /-- Makes the store ready for use. -/
  | prepare
  | get (id : RecordId)
  /-- Keeps a new record, unless there is one of the same identity. -/
  | create (record : Record)
  /-- Replaces the record of the same identity and version. -/
  | update (record : Record)
  /-- Assigns the first available record of a kind to an owner. -/
  | claim (source kind owner : String) (lease : Span)
  | byStatus (source kind : String) (status : Status) (since : Option Instant)
  | all (source kind : String)
  deriving Repr

namespace Request

/-- What a request gives when it does not fail. A successful update gives the record as it is now
stored. -/
@[reducible] def Reply : Request → Type
  | .prepare => Unit
  | .get _ => Option Record
  | .create _ => Bool
  | .update _ => Record
  | .claim _ _ _ _ => Option Record
  | .byStatus _ _ _ _ => List Record
  | .all _ _ => List Record

/-- The reply to a request, or why it failed. -/
abbrev Answer (r : Request) : Type := Except Failure r.Reply

end Request

end LeasedWork
