import LeasedWork.Fleet.Collection
import LeasedWork.Fleet.LoadStatus
import LeasedWork.Settings.Leader

/-!
# Election and bootstrap

The nodes of a source compete for its one leader partition. Who holds it creates the partitions of
every collection once and then renews the lease. A pass never fails: what goes wrong is left for
the next pass. A candidate that loses a renewal has lost its leadership and competes again.
-/

namespace LeasedWork

/-- A node that takes part in the election. -/
structure Candidate where
  node : Node
  collections : List Collection
  settings : LeaderSettings
  /-- The leader partition, while the node believes that it leads. -/
  held : Option (Partition leaderKind)
  /-- The leader partition's record is known to exist. -/
  hasCreated : Bool

namespace Candidate

variable {E : Interface}

def new (node : Node) (collections : List Collection) (settings : LeaderSettings) : Candidate :=
  ⟨node, collections, settings, none, false⟩

def isLeader (c : Candidate) : Bool := c.held.isSome

/-! ## Bootstrap -/

/-- A time without its part below a millisecond. -/
def snapshotOf (t : Instant) : Except Failure Instant :=
  match Instant.ofMillis? t.millis with
  | some s => .ok s
  | none => .error (.settings ("snapshot time " ++ Timestamp.spacedText t ++ " is out of range"))

/-- The time of a collection's snapshot that its shared state holds. -/
def pinnedTime (state : Option (Partition sharedKind)) : Option Instant := do
  let state ← state
  match state.get? Collection.snapshotMember with
  | some (.integer ms) =>
    if Int64.minValue.toInt ≤ ms ∧ ms ≤ Int64.maxValue.toInt then Instant.ofMillis? ms else none
  | _ => none

/-- Publishes a collection with the proposed time of its snapshot, or reads the time that an
earlier attempt has published. -/
def pinSnapshot (n : Node) (c : Collection) (proposed : Instant) : Node.Action E Instant := do
  if ← n.create (newShared c.name (c.toMembers proposed.millis)) then return proposed
  let state ← n.shared? (Partition.ofRecord sharedKind) c.name
  return (pinnedTime state).getD proposed

/-- Creates the partitions of a collection. -/
def createCollection (n : Node) (proposed : Instant) (c : Collection) : Node.Action E Unit := do
  let snapshot ← pinSnapshot n c proposed
  if let some size := c.exportSize then
    let _ ← n.create (newSnapshot ⟨c.name, size, snapshot⟩)
    let _ ← n.create (newShared (LoadStatus.keyOf c.name) (LoadStatus.starting snapshot).toMembers)
  if c.stream then
    let progress : StreamProgress := ⟨Int64.ofInt snapshot.millis, none, none, c.exportSize.isSome⟩
    let _ ← n.create (newStream c.name progress)

def createCollections (n : Node) (proposed : Instant) : List Collection → Node.Action E Unit
  | [] => return ()
  | c :: rest => do
    createCollection n proposed c
    createCollections n proposed rest

/-- Creates the partitions of all collections. Repeating it changes nothing that exists. -/
def bootstrap (c : Candidate) : Node.Action E Unit := do
  let time ← Node.now
  let proposed ← Node.ofExcept (snapshotOf time)
  createCollections c.node proposed c.collections

/-! ## A pass -/

/-- Sees to it that the leader partition has a record. -/
def ensureCreated (c : Candidate) : Node.Action E Candidate := do
  if c.hasCreated then return c
  let _ ← c.node.create newLeader
  return { c with hasCreated := true }

/-- Claims the leader partition, unless the node holds it. -/
def compete (c : Candidate) : Node.Action E Candidate := do
  if c.held.isSome then return c
  let held ← c.node.claim leaderKind none
  return { c with held := held }

/-- Bootstraps once: a leader whose partition says that nothing has been created. -/
def initialize? (c : Candidate) : Node.Action E Candidate := do
  match c.held with
  | none => return c
  | some p =>
    if p.isInitialized then return c
    c.bootstrap
    return { c with held := some p.markInitialized }

/-- Takes steps in turn until one fails, and keeps what the steps before it have done. -/
def takeSteps : List (Candidate → Node.Action E Candidate) → Candidate →
    Program (Node.interface E) Candidate
  | [], c => return c
  | step :: rest, c => do
    match ← (step c).run with
    | .ok c' => takeSteps rest c'
    | .error _ => return c

/-- Competes for the leader partition, and bootstraps where that is to be done. -/
def lead (c : Candidate) : Program (Node.interface E) Candidate :=
  takeSteps [ensureCreated, compete, initialize?] c

/-- Renews the leader's lease. A lost write ends the leadership; any other failure does not. -/
def renew (c : Candidate) : Program (Node.interface E) Candidate := do
  match c.held with
  | none => return c
  | some p =>
    match ← (c.node.save p (some c.settings.leaseExtension)).run with
    | .ok p' => return { c with held := some p' }
    | .error failure => return if failure.isLostWrite then { c with held := none } else c

/-- One pass of the election. -/
def pass (c : Candidate) : Program (Node.interface E) Candidate := do
  let c ← c.lead
  c.renew

/-- Gives the leadership up, whether or not the store learns of it. -/
def stepDown (c : Candidate) : Program (Node.interface E) Candidate := do
  match c.held with
  | none => return c
  | some p => do
    let _ ← (Node.giveUp p : Node.Action E _).run
    return { c with held := none }

end Candidate

end LeasedWork
