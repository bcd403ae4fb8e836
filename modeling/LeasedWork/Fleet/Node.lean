import LeasedWork.Partition.BuiltIn
import LeasedWork.Program.Basic
import LeasedWork.Record.Lease
import LeasedWork.Settings.Node
import LeasedWork.Store.Request

/-!
# Nodes

A node works on the partitions of one source under one owner name. Its operations are programs
that ask a store, a clock, and whatever else the caller's own interface `E` offers. Every write
carries the version that the node last saw, so a write that another node has overtaken is lost and
changes nothing; a node never repeats it by itself.
-/

namespace LeasedWork

/-- A node's view of a source. -/
structure Node where
  /-- The source's name inside the node's namespace. -/
  source : String
  owner : String
  /-- The lease of a claim and of a save that name none. -/
  lease : Span
  deriving DecidableEq, Repr

namespace Node

/-- What a node asks of its surroundings. -/
inductive Question (E : Interface)
  | store (request : Request)
  | now
  | pause (d : Span)
  | other (question : E.Question)

@[reducible] def Question.Answer {E : Interface} : Question E → Type
  | .store request => request.Answer
  | .now => Instant
  | .pause _ => Unit
  | .other question => E.Answer question

@[reducible] def interface (E : Interface) : Interface := ⟨Question E, Question.Answer⟩

/-- What a node does. -/
abbrev Action (E : Interface) (α : Type) : Type := ExceptT Failure (Program (interface E)) α

variable {E : Interface}

/-- A node of a source under the given settings. -/
def ofSettings (s : NodeSettings) (source : String) : Node :=
  ⟨s.sourceIdentifier source, s.owner, s.leaseTimeout⟩

def store (request : Request) : Action E request.Reply :=
  ExceptT.mk (Program.question (I := interface E) (.store request))

def now : Action E Instant := ExceptT.lift (Program.question (I := interface E) .now)

def pause (d : Span) : Program (interface E) Unit := Program.question (I := interface E) (.pause d)

/-- Gives the value of an operation that may refuse. -/
def ofExcept {α : Type} (x : Except Failure α) : Action E α := ExceptT.mk (pure x)

/-- Makes the store ready for use. -/
def prepare : Action E Unit := store .prepare

/-! ## Creation -/

/-- A record that the node is about to create: leased, or shared state. -/
def newRecord (n : Node) (kind key : String) (leased : Bool) (progress : Option String)
    (now : Instant) : Record :=
  if leased then .unassigned ⟨n.source, kind, key⟩ progress now
  else .shared ⟨n.source, kind, key⟩ progress now

/-- Creates a partition's record, unless there is one. Says whether there was none. -/
def create {k : PartitionKind} (n : Node) (p : Partition k) : Action E Bool := do
  let time ← now
  store (.create (n.newRecord k.tag p.key k.leased p.progressText time))

/-- Creates a record for each key, with the same progress. A key that has one counts as done. -/
def createEach (n : Node) (kind : String) (progress : Option String) : List String → Action E Unit
  | [] => return ()
  | key :: rest => do
    let time ← now
    let _ ← store (.create (n.newRecord kind key (kind ≠ sharedKind.tag) progress time))
    n.createEach kind progress rest

/-! ## Claims -/

/-- Claims the record of a kind that is next in line. -/
def claimRecord (n : Node) (kind : String) (lease : Option Span) : Action E (Option Record) :=
  store (.claim n.source kind n.owner (lease.getD n.lease))

/-- The partition behind a record, if there is one. -/
def build? {P : Type} (build : Record → Except Failure P) (r : Option Record) :
    Action E (Option P) :=
  match r with
  | none => return none
  | some r => some <$> ofExcept (build r)

/-- Claims a partition by the tag of its kind. Shared state cannot be claimed. -/
def claimAny {P : Type} (n : Node) (build : Record → Except Failure P) (tag : String)
    (lease : Option Span) : Action E (Option P) := do
  if tag = sharedKind.tag then throw (.notLeasable tag)
  let r ← n.claimRecord tag lease
  build? build r

/-- Claims a partition of a kind that is leased. -/
def claim (n : Node) (k : PartitionKind) (lease : Option Span) :
    Action E (Option (Partition k)) := do
  if !k.leased then throw (.notLeasable k.tag)
  let r ← n.claimRecord k.tag lease
  build? (Partition.ofRecord k) r

/-! ## Transitions -/

/-- The record that a transition asks the store to keep. -/
def proposal {P : Type} [Held P] (p : P) (t : Transition) (now : Instant) (r : Record) : Record :=
  t.apply now { r with progress := Held.progressText p }

/-- Makes a transition of a partition in hand, together with its progress. The partition takes up
the written record; a transition that fails leaves it as it was. -/
def transition {P : Type} [Held P] (p : P) (t : Transition) : Action E P := do
  if t.needsLease && !Held.leased p then throw (.notLeasable (Held.tag p))
  let time ← now
  match Held.record p with
  | none => throw (.noRecord (Held.tag p) (Held.key p))
  | some r => do
    let written ← store (.update (proposal p t time r))
    return Held.adopt written p

/-- Keeps a partition's progress and renews its lease. -/
def save {P : Type} [Held P] (n : Node) (p : P) (extension : Option Span) : Action E P :=
  transition p (.save (extension.getD n.lease))

/-- Ends a partition's work for good. -/
def complete {P : Type} [Held P] (p : P) : Action E P := transition p .complete

/-- Releases a partition until a span from now. -/
def close {P : Type} [Held P] (p : P) (reopenAfter : Span) (limit : Option UInt64) : Action E P :=
  transition p (.close reopenAfter limit)

/-- Releases a partition at once. -/
def giveUp {P : Type} [Held P] (p : P) : Action E P := transition p .giveUp

/-! ## Lookups -/

/-- The shared state under a key. -/
def shared? {P : Type} (n : Node) (build : Record → Except Failure P) (key : String) :
    Action E (Option P) := do
  let r ← store (.get ⟨n.source, sharedKind.tag, key⟩)
  build? build r

/-- The partitions of a kind that were completed at or after a time. -/
def completedSince {P : Type} (n : Node) (build : Record → Except Failure P) (kind : String)
    (since : Instant) : Action E (List P) := do
  let rs ← store (.byStatus n.source kind .completed (some since))
  ofExcept (rs.mapM build)

/-- All partitions of a kind, the oldest first. -/
def all {P : Type} (n : Node) (build : Record → Except Failure P) (kind : String) :
    Action E (List P) := do
  let rs ← store (.all n.source kind)
  ofExcept (rs.mapM build)

end Node

end LeasedWork
