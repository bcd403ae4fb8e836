import LeasedWork.Record.Lease
import LeasedWork.Record.Wire
import LeasedWork.Store.Bucket
import LeasedWork.Store.Request

/-!
# A store of objects

Each record is one object of a bucket, its JSON text. A request to the store is a program that
asks the bucket step by step: an update reads the record and replaces it on condition that its
object is unchanged, and a claim reads all records of the kind and tries the available ones in
their order until a replacement succeeds.
-/

namespace LeasedWork

/-- What a store of objects asks of its surroundings. -/
inductive ObjectQuestion
  | bucket (request : BucketRequest)
  | now

namespace ObjectQuestion

@[reducible] def Answer : ObjectQuestion → Type
  | .bucket request => request.Answer
  | .now => Instant

end ObjectQuestion

@[reducible] def objectInterface : Interface := ⟨ObjectQuestion, ObjectQuestion.Answer⟩

namespace ObjectStore

/-- A program over a bucket that may fail. -/
abbrev Job (α : Type) : Type := ExceptT Failure (Program objectInterface) α

/-- Asks the bucket, and sorts out refusals that mean something to the caller. -/
def ask (request : BucketRequest) : Program objectInterface request.Answer :=
  Program.question (I := objectInterface) (.bucket request)

def now : Program objectInterface Instant := Program.question (I := objectInterface) .now

/-- A record and the tag of the object that it was read from. -/
structure Versioned where
  record : Record
  tag : Nat
  deriving DecidableEq, Repr

/-- The record at a path, if there is an object. -/
def readAt (path : ObjectPath) : Job (Option Versioned) := do
  match ← ask (.get path) with
  | .ok object =>
    match Record.parse? object.text with
    | some r => return some ⟨r, object.tag⟩
    | none => throw .unreadable
  | .error .notFound => return none
  | .error fault => throw (.bucket fault)

/-- The records at some paths that are of a source and kind. -/
def readEach (source kind : String) : List ObjectPath → Job (List Versioned)
  | [] => return []
  | path :: rest => do
    let found ← readAt path
    let others ← readEach source kind rest
    match found with
    | some v =>
      if v.record.source = source ∧ v.record.kind = kind then return v :: others else return others
    | none => return others

/-- Every record of a source and kind, the oldest first. -/
def readAll (root : ObjectPath) (source kind : String) : Job (List Versioned) := do
  match ← ask (.list (ObjectPath.ofKind root source kind)) with
  | .ok paths =>
    let found ← readEach source kind paths
    return found.mergeSort fun a b => decide (a.record.createdAt ≤ b.record.createdAt)
  | .error fault => throw (.bucket fault)

/-- Replaces a record's object while it has the given tag. Nothing is written otherwise. -/
def replaceIfUnchanged (root : ObjectPath) (r : Record) (tag : Nat) : Job Bool := do
  match ← ask (.replace (ObjectPath.ofRecord root r.id) tag r.print) with
  | .ok _ => return true
  | .error .precondition | .error .notFound => return false
  | .error fault => throw (.bucket fault)

/-- Claims the first of some candidates whose object is unchanged. -/
def claimFirst (root : ObjectPath) (owner : String) (now : Instant) (lease : Span)
    (all : List Versioned) : List Record → Job (Option Record)
  | [] => return none
  | r :: rest =>
    match all.find? fun v => v.record.key == r.key with
    | none => claimFirst root owner now lease all rest
    | some v => do
      let claimed := r.claimed owner now lease
      if ← replaceIfUnchanged root claimed v.tag then return some claimed
      else claimFirst root owner now lease all rest

/-- The program that answers a request to the store below a root. -/
def job (root : ObjectPath) : (request : Request) → Job request.Reply
  | .prepare => do
    match ← ask (.list root) with
    | .ok _ => return ()
    | .error fault => throw (.bucket fault)
  | .get id => do
    let found ← readAt (ObjectPath.ofRecord root id)
    return found.map (·.record)
  | .create r => do
    match ← ask (.create (ObjectPath.ofRecord root r.id) r.firstVersion.print) with
    | .ok _ => return true
    | .error .alreadyExists => return false
    | .error fault => throw (.bucket fault)
  | .update r => do
    match ← readAt (ObjectPath.ofRecord root r.id) with
    | none => throw (.lostWriteOf r)
    | some stored =>
      if stored.record.version ≠ r.version then throw (.lostWriteOf r)
      if ← replaceIfUnchanged root r.nextVersion stored.tag then return r.nextVersion
      else throw (.lostWriteOf r)
  | .claim source kind owner lease => do
    let all ← readAll root source kind
    let time ← now
    claimFirst root owner time lease all (candidates time (all.map (·.record)))
  | .byStatus source kind status since => do
    let all ← readAll root source kind
    return (all.map (·.record)).filter (·.hasStatus status since)
  | .all source kind => do
    let all ← readAll root source kind
    return all.map (·.record)

end ObjectStore

end LeasedWork
