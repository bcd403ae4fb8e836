import LeasedWork.Fleet.Election
import LeasedWork.Rehearsal.Script

/-!
# Steps

A rehearsal has a world and a shelf of candidates by name and of named slots for partitions and
records in hand. A `Step` does one thing with them: it is a program that asks the world, so that it
may pause while the world goes on. A step that fails may show what is in the slot after it. One
that lets work be done takes the whole log, whoever has written into it.
-/

namespace LeasedWork.Rehearsal

/-- A value under a name replaces the one before it. -/
def put {α : Type} (name : String) (value : α) (entries : List (String × α)) :
    List (String × α) :=
  (name, value) :: entries.filter fun e => e.1 ≠ name

def remove {α : Type} (name : String) (entries : List (String × α)) : List (String × α) :=
  entries.filter fun e => e.1 ≠ name

/-- What a rehearsal has at hand beside the world. -/
structure Shelf where
  candidates : List (String × Candidate)
  slots : List (String × InHand)
  records : List (String × Record)

def Shelf.empty : Shelf := ⟨[], [], []⟩

/-! ## Steps -/

/-- How a partition is looked for. -/
inductive Search
  /-- Claims a partition by the tag of its kind. -/
  | claim (kind : String) (lease : Option Span)
  /-- Claims a partition of a built-in kind. -/
  | claimTyped (kind : BuiltIn) (lease : Option Span)
  /-- Looks for shared state. -/
  | shared (key : String)
  /-- Looks for shared state as its own kind. -/
  | sharedTyped (key : String)

/-- What a node does with the partition in a slot. -/
inductive Deed
  | save (extension : Option Span)
  | complete
  | close (reopenAfter : Span) (limit : Option UInt64)
  | giveUp

/-- One thing to do. -/
inductive Step
  -- The surroundings.
  | advance (d : Span)
  | setClock (t : Instant)
  | node (name : String) (member : Member)
  | fault (f : Fault StoreMethod Stroke)
  | bucketFault (f : Fault BucketMethod BucketFault)
  | clearFaults
  | calls
  | dump
  -- Nodes.
  | prepare (node : String)
  | createEach (node kind : String) (keys : List String) (progress : Option String)
  | create (node : String) (p : AnyPartition)
  | search (node : String) (s : Search) (slot : Option String)
  | hold (slot : String) (p : AnyPartition)
  | copy (source slot : String)
  | change (slot : String) (c : Change)
  | deed (node slot : String) (d : Deed)
  | completedSince (node kind : String) (since : Instant)
  | all (node kind : String)
  | recordLoaded (node collection : String) (records : UInt64)
  -- The store.
  | storeGet (id : RecordId) (slot : Option String)
  | storeClaim (source kind owner : String) (lease : Span) (slot : Option String)
  | storeCreate (r : Record)
  | storeUpdate (slot : String) (patch : List (String × Json))
  | storeByStatus (source kind : String) (status : Status) (since : Option Instant)
  | storeAll (source kind : String)
  | expireAll
  | recordCount
  -- Objects.
  | objectPut (path text : String)
  | objectDelete (path : String)
  | objects
  -- Candidates and workers.
  | candidate (name node : String) (collections : List Collection) (settings : LeaderSettings)
  | candidatePass (name : String)
  | stepDown (name : String)
  | workerPass (node : String) (kind : BuiltIn) (settings : WorkerSettings) (passes : Nat)
      (turns : List Turn)
  | exportPass (node : String) (settings : WorkerSettings) (passes : Nat)
      (pages : List ScriptedPage)
  /-- A step that cannot be read. -/
  | unreadable

/-- What a step gives. -/
inductive Reply
  | nothing
  | time (t : Instant)
  | flag (b : Bool)
  | number (n : Nat)
  | node (n : Node) (now : Instant)
  | calls (entries : List CallEntry)
  | dump (tables : List (List Record))
  | partition (p : Option InHand)
  | partitions (ps : List InHand)
  | changed (result : ChangeResult) (p : InHand)
  | record (r : Option Record)
  | records (rs : List Record)
  | objects (os : List StoredObject)
  | candidate (c : Candidate)
  | passes (results : List (Except Failure Bool)) (unused : Nat) (log : List LogEntry)

/-- Why a step gives nothing. -/
inductive Refusal
  | failed (f : Failure)
  /-- The partition in the slot is as the failed step left it. -/
  | failedWithSlot (f : Failure) (p : InHand)
  | failedWithRecord (f : Failure) (r : Record)
  | wrongKind
  /-- The slot is empty, or nobody is a candidate by the name. -/
  | noSlot
  /-- The step names something else that is not there. -/
  | unknownName

/-- What a step does. -/
abbrev Move := ExceptT Refusal (StateT Shelf (Program (Node.interface script)))

namespace Move

def play {α : Type} (p : Play α) : Move α := ExceptT.lift (StateT.lift p)

/-- Lets a node act. -/
def act {α : Type} (a : Node.Action script α) : Move α := do
  match ← play a.run with
  | .ok x => return x
  | .error f => throw (.failed f)

/-- Asks the store as a node would. -/
def request (r : Request) : Move r.Reply := act (Node.store r)

/-- Changes the world and gives what it was before. -/
def changeWorld (f : World → World) : Move World := play (change f)

def world : Move World := play Rehearsal.world

/-- Gives the log and starts it anew. -/
def takeLog : Move (List LogEntry) := do
  let w ← changeWorld fun w => { w with log := [] }
  return w.log.reverse

def member (name : String) : Move Member := do
  match (← world).members.lookup name with
  | some m => return m
  | none => throw .unknownName

def slot (name : String) : Move InHand := do
  match (← get).slots.lookup name with
  | some p => return p
  | none => throw .noSlot

def setSlot (name : String) (p : InHand) : Move Unit :=
  modify fun b => { b with slots := put name p b.slots }

/-- Puts what was found into a slot, or empties the slot. -/
def keep (slot : Option String) (found : Option InHand) : Move Unit :=
  match slot, found with
  | some name, some p => setSlot name p
  | some name, none => modify fun b => { b with slots := remove name b.slots }
  | none, _ => return ()

/-- Puts a record that was found into a slot. -/
def keepRecord (slot : Option String) (found : Option Record) : Move Unit :=
  match slot, found with
  | some name, some r => modify fun b => { b with records := put name r b.records }
  | _, _ => return ()

/-- Partitions in the order of their records. -/
def sortedPartitions (ps : List InHand) : List InHand :=
  ps.mergeSort fun p q =>
    match Held.record p, Held.record q with
    | some r, some s => Record.isOlder r s
    | _, _ => true

def searching (m : Member) : Search → Node.Action script (Option InHand)
  | .claim kind lease => m.node.claimAny m.build kind lease
  | .claimTyped b lease => do
    let p ← m.node.claim b.kind lease
    return p.map fun p => .typed ⟨b, p⟩
  | .shared key => m.node.shared? m.build key
  | .sharedTyped key => do
    let p ← m.node.shared? (Partition.ofRecord sharedKind) key
    return p.map fun p => .typed ⟨.shared, p⟩

def doing (n : Node) (p : InHand) : Deed → Node.Action script InHand
  | .save extension => n.save p extension
  | .complete => Node.complete p
  | .close reopenAfter limit => Node.close p reopenAfter limit
  | .giveUp => Node.giveUp p

/-- Makes a change to a partition in hand. A bare partition takes nothing but a new progress. -/
def changing (c : Change) : InHand → Except ChangeFault (ChangeResult × InHand)
  | .typed ⟨b, p⟩ => (c.apply b p).map fun (result, p) => (result, .typed ⟨b, p⟩)
  | .bare ⟨r⟩ =>
    match c with
    | .setProgress (.text s) => .ok (.nothing, .bare ⟨{ r with progress := some s }⟩)
    | _ => .error .wrongKind

/-- A record with some members of its JSON form replaced. -/
def patched (patch : List (String × Json)) (r : Record) : Option Record :=
  match r.toJson with
  | .object members =>
    let entries := members.map fun (name, value) => (name, (patch.lookup name).getD value)
    Record.read (Json.object entries).toTree
  | _ => none

/-- The records of every source and kind that the world knows, past all faults. -/
def dumped : List (String × String) → Move (List (List Record))
  | [] => return []
  | (source, kind) :: rest => do
    let w ← changeWorld fun w => (w.serve (.all source kind)).2
    match (w.serve (.all source kind)).1 with
    | .error f => throw (.failed f)
    | .ok rs => return Record.sorted rs :: (← dumped rest)

/-- Passes in a row, with the state that they leave behind. -/
def passing {σ : Type} (pass : σ → Play (Except Failure Bool × σ)) :
    Nat → σ → Play (List (Except Failure Bool) × σ)
  | 0, s => return ([], s)
  | n + 1, s => do
    let (result, s) ← pass s
    let (others, s) ← passing pass n s
    return (result :: others, s)

/-- Lets a candidate act and keeps what becomes of it. -/
def withCandidate (name : String) (f : Candidate → Play Candidate) : Move Candidate := do
  match (← get).candidates.lookup name with
  | none => throw .noSlot
  | some c => do
    let c ← play (f c)
    modify fun b => { b with candidates := put name c b.candidates }
    return c

/-- Reads the path of an object. -/
def readPath (text : String) : Move ObjectPath :=
  match ObjectPath.parse? text with
  | some path => return path
  | none => throw (.failed (.bucket .invalidPath))

/-- Changes the world and gives the time after it. -/
def thenTime (f : World → World) : Move Reply := do
  let w ← changeWorld f
  return .time (f w).now

/-- Changes the world and gives nothing. -/
def thenNothing (f : World → World) : Move Reply := do
  let _ ← changeWorld f
  return .nothing

/-- What a step does. -/
def ofStep : Step → Move Reply
  | .advance d => thenTime fun w => { w with clock := w.clock.advance d }
  | .setClock t => thenTime fun w => { w with clock := w.clock.set t }
  | .node name m => do
    let w ← changeWorld (·.join name m)
    return .node m.node w.now
  | .fault f => thenNothing fun w => { w with faults := w.faults ++ [f] }
  | .bucketFault f => thenNothing fun w => { w with bucketFaults := w.bucketFaults ++ [f] }
  | .clearFaults => thenNothing fun w => { w with faults := [], bucketFaults := [] }
  | .calls => do
    let w ← changeWorld fun w => { w with calls := [] }
    return .calls w.calls.reverse
  | .dump => do return .dump (← dumped (← world).known)
  | .prepare node => do
    let _ ← member node
    act Node.prepare
    return .nothing
  | .createEach node kind keys progress => do
    let m ← member node
    act (m.node.createEach kind progress keys)
    return .nothing
  | .create node p => do
    let m ← member node
    return .flag (← act (m.node.create p.partition))
  | .search node s slot => do
    let m ← member node
    let found ← act (searching m s)
    keep slot found
    return .partition found
  | .hold slot p => do
    setSlot slot (.typed p)
    return .partition (some (.typed p))
  | .copy source name => do
    let p ← slot source
    setSlot name p
    return .partition (some p)
  | .change name c => do
    match changing c (← slot name) with
    | .ok (result, p) => do
      setSlot name p
      return .changed result p
    | .error .wrongKind => throw .wrongKind
    | .error .unreadable => throw (.failed .unreadable)
  | .deed node name d => do
    let m ← member node
    let p ← slot name
    match ← play (doing m.node p d).run with
    | .ok p => do
      setSlot name p
      return .partition (some p)
    | .error f => throw (.failedWithSlot f p)
  | .completedSince node kind since => do
    let m ← member node
    return .partitions (sortedPartitions (← act (m.node.completedSince m.build kind since)))
  | .all node kind => do
    let m ← member node
    return .partitions (sortedPartitions (← act (m.node.all m.build kind)))
  | .recordLoaded node collection records => do
    let m ← member node
    act (LoadStatus.recordLoaded m.node collection records)
    return .nothing
  | .storeGet id slot => do
    let r ← request (.get id)
    keepRecord slot r
    return .record r
  | .storeClaim source kind owner lease slot => do
    let r ← request (.claim source kind owner lease)
    keepRecord slot r
    return .record r
  | .storeCreate r => do return .flag (← request (.create r))
  | .storeUpdate name patch => do
    match (← get).records.lookup name with
    | none => throw .noSlot
    | some r =>
      match patched patch r with
      | none => throw (.failed .unreadable)
      | some r => do
        match ← play (Node.store (.update r) : Node.Action script _).run with
        | .ok r => do
          keepRecord (some name) (some r)
          return .record (some r)
        | .error f => throw (.failedWithRecord f r)
  | .storeByStatus source kind status since => do
    return .records (Record.sorted (← request (.byStatus source kind status since)))
  | .storeAll source kind => do return .records (Record.sorted (← request (.all source kind)))
  | .expireAll => do
    let w ← world
    match w.backing with
    | .table t =>
      let expiry := w.now.secondBefore?.getD w.now
      thenNothing fun w => { w with backing := .table (t.expireAll expiry) }
    | _ => throw .unknownName
  | .recordCount => do
    match (← world).backing with
    | .table t => return .number t.rows.length
    | _ => throw .unknownName
  | .objectPut path text => do
    let path ← readPath path
    match (← world).backing with
    | .objects root b =>
      thenNothing fun w => { w with backing := .objects root (b.put path text) }
    | _ => throw .unknownName
  | .objectDelete path => do
    let path ← readPath path
    match (← world).backing with
    | .objects root b =>
      thenNothing fun w => { w with backing := .objects root (b.delete path) }
    | _ => throw .unknownName
  | .objects => do
    match (← world).backing with
    | .objects _ b => return .objects b.sorted
    | _ => throw .unknownName
  | .candidate name node collections settings => do
    let m ← member node
    let c := Candidate.new m.node collections settings
    modify fun b => { b with candidates := put name c b.candidates }
    return .nothing
  | .candidatePass name => do return .candidate (← withCandidate name Candidate.pass)
  | .stepDown name => do return .candidate (← withCandidate name Candidate.stepDown)
  | .workerPass node kind settings passes turns => do
    let m ← member node
    let process := processor m.node kind
    let (results, left) ← play (passing (Work.pass m.node settings process) passes turns)
    return .passes results left.length (← takeLog)
  | .exportPass node settings passes pages => do
    let m ← member node
    let process := Planning.process m.node
    let (results, left) ← play (passing (Work.pass m.node settings process) passes (supplier pages))
    return .passes results left.pages.length (← takeLog)
  | .unreadable => throw (.failed .unreadable)

end Move

/-- Takes one step with what is on the shelf. -/
def Shelf.take (s : Step) (shelf : Shelf) : Play (Except Refusal Reply × Shelf) :=
  (Move.ofStep s).run.run shelf

end LeasedWork.Rehearsal
