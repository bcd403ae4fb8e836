import LeasedWork.Failure
import LeasedWork.Json.Printer
import LeasedWork.Partition.Key
import LeasedWork.Json.Fields

/-!
# Kinds of partition

A kind of partition fixes the tag of its records, whether they are leased, what its keys say and
how its progress is written. A `Partition` of a kind is what a node holds in its hands: the
identity that the key says, the progress, and the record behind them once there is one. `Held` is
what every partition in hand offers, whatever its kind.
-/

namespace LeasedWork

/-- A kind of partition. -/
structure PartitionKind where
  tag : String
  /-- Records of the kind have a status and are leased. -/
  leased : Bool
  Identity : Type
  Progress : Type
  key : Identity → String
  identify : String → Except KeyFault Identity
  write : Progress → Json
  read : Json.Reads Progress

/-- A partition of a kind as a node holds it. -/
structure Partition (k : PartitionKind) where
  identity : k.Identity
  progress : Option k.Progress
  /-- Nothing until the partition has been read from a store. -/
  record : Option Record

namespace Partition

variable {k : PartitionKind}

def key (p : Partition k) : String := k.key p.identity

/-- The progress as records keep it. -/
def progressText (p : Partition k) : Option String := p.progress.map fun x => (k.write x).print

/-- A partition without a record. -/
def detached (identity : k.Identity) (progress : k.Progress) : Partition k :=
  ⟨identity, some progress, none⟩

def setProgress (progress : k.Progress) (p : Partition k) : Partition k :=
  { p with progress := some progress }

/-- The progress of a record, which may have none. -/
def readProgress? (k : PartitionKind) (r : Record) : Except Failure (Option k.Progress) :=
  match r.progress with
  | none => .ok none
  | some text =>
    match (Json.Tree.ofString? text).bind k.read with
    | some x => .ok (some x)
    | none => .error .unreadable

/-- The partition behind a record: the tag must be the kind's own, then the key must fit, then the
progress. -/
def ofRecord (k : PartitionKind) (r : Record) : Except Failure (Partition k) :=
  if r.kind ≠ k.tag then .error (.unknownKind r.kind)
  else
    match k.identify r.key with
    | .error fault => .error (.invalidKey k.tag r.key fault.message)
    | .ok identity => (readProgress? k r).map fun progress => ⟨identity, progress, some r⟩

end Partition

/-- What a partition in a node's hands offers. -/
class Held (P : Type) where
  tag : P → String
  key : P → String
  leased : P → Bool
  progressText : P → Option String
  record : P → Option Record
  /-- Replaces the record after a write. -/
  adopt : Record → P → P

instance (k : PartitionKind) : Held (Partition k) where
  tag _ := k.tag
  key := Partition.key
  leased _ := k.leased
  progressText := Partition.progressText
  record := Partition.record
  adopt r p := { p with record := some r }

/-- A partition of an unknown kind: nothing but its record, always leased, with the stored text as
its progress. -/
structure BarePartition where
  record : Record
  deriving DecidableEq, Repr

instance : Held BarePartition where
  tag p := p.record.kind
  key p := p.record.key
  leased _ := true
  progressText p := p.record.progress
  record p := some p.record
  adopt r _ := ⟨r⟩

end LeasedWork
