import LeasedWork.Fleet.Node
import LeasedWork.Rehearsal.Fault
import LeasedWork.Store.Directory
import LeasedWork.Store.Objects
import LeasedWork.Store.Table
import LeasedWork.Time.Clock

/-!
# The world of a rehearsal

A rehearsal runs nodes against one store under a clock that is set by hand. The world holds the
clock, what backs the store, the nodes by name, the faults that are planned, a list of the calls
that nodes have made and a log of what their work has seen. `World.handler` answers programs, and `World.playToPause`
runs one up to its next pause, so that other things may happen in the meantime.
-/

namespace LeasedWork.Rehearsal

/-- What a call asks a store for. Both kinds of listing are queries. -/
inductive StoreMethod
  | create
  | update
  | acquire
  | get
  | query
  deriving DecidableEq, Repr

/-- What a call asks a bucket for. -/
inductive BucketMethod
  | list
  | get
  | create
  | replace
  deriving DecidableEq, Repr

/-- What came of a listed call. -/
inductive CallResult
  | created (isNew : Bool)
  | version (n : UInt64)
  | claimed (key : Option String)
  | failed (f : Failure)
  deriving Repr

/-- A call that created, updated or claimed a record, or tried to. -/
structure CallEntry where
  method : StoreMethod
  kind : String
  key : Option String
  result : CallResult
  deriving Repr

/-- What the work on partitions has seen. -/
inductive LogEntry
  /-- A partition came to a processor. -/
  | processed (p : AnyPartition)
  /-- Another node claimed a partition, or found none. -/
  | rival (key : Option String)
  | failed (f : Failure)
  /-- A page was asked for. -/
  | page (collection : String) (size : UInt64) (cursor : Option String)

/-- What backs the store. -/
inductive Backing
  | table (t : Table)
  | objects (root : ObjectPath) (b : Bucket)
  | files (root : ObjectPath) (t : FileTree)

/-- A node, and whether it knows the kinds of partitions. -/
structure Member where
  node : Node
  isBare : Bool

structure World where
  clock : Clock
  backing : Backing
  /-- The nodes by name, each name once. -/
  members : List (String × Member)
  faults : List (Fault StoreMethod Stroke)
  bucketFaults : List (Fault BucketMethod BucketFault)
  /-- The last call first. -/
  calls : List CallEntry
  /-- The sources and kinds for which a record was ever to be created, in their order. -/
  known : List (String × String)
  /-- The last entry first. -/
  log : List LogEntry

namespace World

def starting (clock : Clock) (backing : Backing) : World :=
  ⟨clock, backing, [], [], [], [], [], []⟩

def now (w : World) : Instant := w.clock.now

/-- A node takes the place of the one of its name. -/
def join (name : String) (m : Member) (w : World) : World :=
  { w with members := (name, m) :: w.members.filter fun e => e.1 ≠ name }

/-- How many records or objects there are. -/
def size (w : World) : Nat :=
  match w.backing with
  | .table t => t.rows.length
  | .objects _ b => b.objects.length
  | .files _ t => t.files.length

/-! ## The bucket -/

/-- What a fault looks at in a request to the bucket. The key is the last segment of its path. -/
def bucketCall : BucketRequest → Call BucketMethod
  | .list above => ⟨.list, "", above.lastSegment?⟩
  | .get path => ⟨.get, "", path.lastSegment?⟩
  | .create path _ => ⟨.create, "", path.lastSegment?⟩
  | .replace path _ _ => ⟨.replace, "", path.lastSegment?⟩

/-- The bucket's answer, unless a fault strikes. -/
def answerBucket (request : BucketRequest) (w : World) : request.Answer × World :=
  match Fault.strike (bucketCall request) w.bucketFaults with
  | (some fault, faults) => (.error fault, { w with bucketFaults := faults })
  | (none, faults) =>
    let w := { w with bucketFaults := faults }
    match w.backing with
    | .objects root b =>
      ((b.answer request).1, { w with backing := .objects root (b.answer request).2 })
    | .files root t =>
      ((Directory.answer request t).1,
        { w with backing := .files root (Directory.answer request t).2 })
    | .table _ => (.error .generic, w)

def objectHandler : Handler objectInterface World where
  answer
    | .bucket request, w => w.answerBucket request
    | .now, w => (w.now, w)

/-! ## The store -/

/-- The answer of what backs the store. -/
def serve (request : Request) (w : World) : request.Answer × World :=
  match w.backing with
  | .table t =>
    ((t.answer w.now request).1, { w with backing := .table (t.answer w.now request).2 })
  | .objects root _ | .files root _ => Program.run objectHandler (ObjectStore.job root request).run w

/-- What a fault looks at in a request, and the record that it writes. Making the store ready is
never struck. -/
def storeCall : Request → Option (Call StoreMethod × Option Record)
  | .prepare => none
  | .get id => some (⟨.get, id.kind, some id.key⟩, none)
  | .create r => some (⟨.create, r.kind, some r.key⟩, some r)
  | .update r => some (⟨.update, r.kind, some r.key⟩, some r)
  | .claim _ kind _ _ => some (⟨.acquire, kind, none⟩, none)
  | .byStatus _ kind _ _ => some (⟨.query, kind, none⟩, none)
  | .all _ kind => some (⟨.query, kind, none⟩, none)

/-- The answer of the store, unless a fault strikes. -/
def attempt (request : Request) (w : World) : request.Answer × World :=
  match storeCall request with
  | none => w.serve request
  | some (call, written) =>
    match Fault.strike call w.faults with
    | (some stroke, faults) => (.error (stroke.failureFor written), { w with faults := faults })
    | (none, faults) => serve request { w with faults := faults }

/-- What came of a call, for the calls that are listed. -/
def result? : (request : Request) → request.Answer → Option CallResult
  | .create _, .ok isNew => some (.created isNew)
  | .update _, .ok r => some (.version r.version)
  | .claim _ _ _ _, .ok r => some (.claimed (r.map (·.key)))
  | .create _, .error f | .update _, .error f | .claim _ _ _ _, .error f => some (.failed f)
  | _, _ => none

/-- Notes a call in the list. -/
def noted (request : Request) (answer : request.Answer) (w : World) : World :=
  match storeCall request, result? request answer with
  | some (call, _), some result =>
    { w with calls := ⟨call.method, call.kind, call.key, result⟩ :: w.calls }
  | _, _ => w

/-- Puts a source and a kind at their place, the source first, unless they are there. -/
def insertTable (t : String × String) : List (String × String) → List (String × String)
  | [] => [t]
  | u :: rest =>
    if t = u then u :: rest
    else if t.1 < u.1 ∨ t.1 = u.1 ∧ t.2 < u.2 then t :: u :: rest
    else u :: insertTable t rest

/-- Remembers for which source and kind a record is to be created. -/
def acquainted (request : Request) (w : World) : World :=
  match request with
  | .create r =>
    { w with known := insertTable (r.source, r.kind) w.known }
  | _ => w

/-- The answer that nodes get to a request. -/
def answerStore (request : Request) (w : World) : request.Answer × World :=
  let (answer, w) := (w.acquainted request).attempt request
  (answer, w.noted request answer)

end World

/-! ## Questions of the work itself -/

/-- What is asked in a rehearsal besides what a node asks. -/
inductive ScriptQuestion
  | note (entry : LogEntry)
  /-- The world is changed while the work goes on. The answer is the world before. -/
  | change (f : World → World)

@[reducible] def ScriptQuestion.Answer : ScriptQuestion → Type
  | .note _ => Unit
  | .change _ => World

@[reducible] def script : Interface := ⟨ScriptQuestion, ScriptQuestion.Answer⟩

/-- Programs of a rehearsal. -/
abbrev Play (α : Type) : Type := Program (Node.interface script) α

def note (entry : LogEntry) : Play Unit :=
  Program.question (I := Node.interface script) (.other (.note entry))

def change (f : World → World) : Play World :=
  Program.question (I := Node.interface script) (.other (.change f))

/-- The world as it is. -/
def world : Play World := change id

def tick (d : Span) : Play Unit := do
  let _ ← change fun w => { w with clock := w.clock.advance d }
  return ()

/-- Where a program stands that may pause: at its end, or before a pause and what follows it. -/
inductive Interlude (α : Type)
  | finished (a : α)
  | paused (d : Span) (rest : Play α)

namespace World

/-- The answer to any question. Pauses take no time by the clock that is set by hand. -/
def handler : Handler (Node.interface script) World where
  answer
    | .store request, w => w.answerStore request
    | .now, w => (w.now, w)
    | .pause _, w => ((), w)
    | .other (.note entry), w => ((), { w with log := entry :: w.log })
    | .other (.change f), w => (w, f w)

/-- Runs a program to its next pause, or to its end if there is none. -/
def playToPause {α : Type} : Play α → World → Interlude α × World
  | .done a, w => (.finished a, w)
  | .ask (.pause d) next, w => (.paused d (next ()), w)
  | .ask q next, w => playToPause (next (handler.answer q w).1) (handler.answer q w).2

end World

end LeasedWork.Rehearsal
