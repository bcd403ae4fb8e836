import LeasedWork.Record.Basic

/-!
# Leases

A record is available to any node when nobody holds it: its lease has run out, or it was never
assigned, or it was closed and its reopening time has come. `candidates` orders the available
records of a list by these three groups, then by age and key. `Transition` lists what the holder
of a record may do with it.
-/

namespace LeasedWork

/-- Why a record may be claimed, the most urgent reason first. -/
inductive Availability
  | expired
  | unassigned
  | reopened
  deriving DecidableEq, Repr

def Availability.rank : Availability → Nat
  | .expired => 0
  | .unassigned => 1
  | .reopened => 2

/-- A deadline that is missing has passed. -/
def hasPassed (now : Instant) : Option Instant → Bool
  | none => true
  | some t => t.hasElapsed now

namespace Record

/-- Why the record may be claimed at a time, if it may. -/
def availability (now : Instant) (r : Record) : Option Availability :=
  match r.status with
  | some .assigned => if hasPassed now r.leaseExpiry then some .expired else none
  | some .unassigned => some .unassigned
  | some .closed => if hasPassed now r.reopenAt then some .reopened else none
  | some .completed => none
  | none => none

def isAvailable (now : Instant) (r : Record) : Bool := (r.availability now).isSome

/-- The record as a claim leaves it. -/
def claimed (owner : String) (now : Instant) (lease : Span) (r : Record) : Record :=
  (r.assign owner (now.after lease)).nextVersion

end Record

/-- Whether the first of two available records is claimed before the second. -/
def Availability.precedes (a b : Availability × Record) : Bool :=
  a.1.rank < b.1.rank || (a.1.rank == b.1.rank && Record.isOlder a.2 b.2)

/-- The available records among those that a list of entries carries, in the order in which they
are to be claimed. -/
def candidates (now : Instant) (rs : List Record) : List Record :=
  ((rs.filterMap fun r => (r.availability now).map fun a => (a, r)).mergeSort
    Availability.precedes).map Prod.snd

/-- What the holder of a record may do with it. -/
inductive Transition
  /-- Keeps the record, and a leased one until the given span from now. -/
  | save (extension : Span)
  /-- Ends the work for good. -/
  | complete
  /-- Releases the record until a span from now; the closing that reaches the limit completes it. -/
  | close (reopenAfter : Span) (limit : Option UInt64)
  /-- Releases the record at once. -/
  | giveUp
  deriving DecidableEq, Repr

namespace Transition

/-- Whether only a leased record may make the transition. -/
def needsLease : Transition → Bool
  | .save _ => false
  | _ => true

def completed (now : Instant) (r : Record) : Record :=
  { r.clearLease with status := some .completed, reopenAt := none, completedAt := some now }

/-- The record as the transition leaves it, but for its version and progress. -/
def apply (now : Instant) (t : Transition) (r : Record) : Record :=
  match t with
  | .save extension =>
    if r.status.isSome then { r with leaseExpiry := some (now.after extension) } else r
  | .complete => completed now r
  | .close reopenAfter limit =>
    let counted := { r with closedCount := r.closedCount + 1 }
    if limit.any fun most => most ≤ counted.closedCount then completed now counted
    else { counted.clearLease with status := some .closed
                                   reopenAt := some (now.after reopenAfter) }
  | .giveUp => { r.clearLease with status := some .unassigned }

end Transition

end LeasedWork
