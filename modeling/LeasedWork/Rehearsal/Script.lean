import LeasedWork.Fleet.Planning
import LeasedWork.Rehearsal.World

/-!
# Scripts

A script says what the work on partitions does: the changes it makes to a partition in hand, what
it asks its node to do, when it fails, and what happens elsewhere in the meantime. A processor
takes one turn of the script for each partition that it gets, and a supplier one page.
-/

namespace LeasedWork.Rehearsal

/-! ## Changes to a partition in hand -/

/-- A change to a partition in hand, or a look at it. -/
inductive Change
  | advance (token : Option String) (checkpoint : Json)
  | resumeFrom (token : Option String)
  | recordBatch (records : UInt64)
  | startingAt (t : Instant)
  | insert (name : String) (value : Json)
  | get (name : String)
  | count (name : String)
  | markInitialized
  | setProgress (value : Json)

/-- What a change gives. -/
inductive ChangeResult
  | nothing
  | flag (b : Bool)
  | found (value : Option Json)
  | number (n : UInt64)

/-- Why a change cannot be made. -/
inductive ChangeFault
  | wrongKind
  | unreadable
  deriving DecidableEq, Repr

/-- Makes a change to a partition of a built-in kind. -/
def Change.apply : (b : BuiltIn) → Change → Partition b.kind →
    Except ChangeFault (ChangeResult × Partition b.kind)
  | b, .setProgress value, p =>
    match b.kind.read value.toTree with
    | some progress => .ok (.nothing, p.setProgress progress)
    | none => .error .unreadable
  | .stream, .advance token checkpoint, p =>
    match Checkpoint.read checkpoint.toTree with
    | some c => .ok (.nothing, p.advance token c)
    | none => .error .unreadable
  | .stream, .resumeFrom token, p => .ok (.flag p.progress.isSome, p.resumeFrom token)
  | .query, .recordBatch records, p => .ok (.nothing, p.recordBatch records)
  | .query, .startingAt t, p => .ok (.nothing, p.startingAt t)
  | .shared, .insert name value, p => .ok (.nothing, p.insert name value)
  | .shared, .get name, p => .ok (.found (p.get? name), p)
  | .shared, .count name, p => .ok (.number (p.count name), p)
  | .leader, .markInitialized, p => .ok (.nothing, p.markInitialized)
  | _, _, _ => .error .wrongKind

/-- A change that cannot be made, as a failure of the work. -/
def ChangeFault.failure : ChangeFault → Failure
  | .wrongKind => .storage "WrongKind"
  | .unreadable => .unreadable

/-! ## Nodes of a rehearsal -/

/-- A partition in hand, of a built-in kind or bare. -/
inductive InHand
  | typed (p : AnyPartition)
  | bare (p : BarePartition)

instance : Held InHand where
  tag
    | .typed p => Held.tag p
    | .bare p => Held.tag p
  key
    | .typed p => Held.key p
    | .bare p => Held.key p
  leased
    | .typed p => Held.leased p
    | .bare p => Held.leased p
  progressText
    | .typed p => Held.progressText p
    | .bare p => Held.progressText p
  record
    | .typed p => Held.record p
    | .bare p => Held.record p
  adopt r
    | .typed p => .typed (Held.adopt r p)
    | .bare p => .bare (Held.adopt r p)

/-- How a node makes a partition of a record. -/
def Member.build (m : Member) (r : Record) : Except Failure InHand :=
  if m.isBare then .ok (.bare ⟨r⟩) else (AnyPartition.ofRecord r).map .typed

/-! ## What happens elsewhere -/

/-- Something that happens while a node works. -/
inductive Incident
  /-- The clock advances. -/
  | tick (d : Span)
  /-- The named node claims a partition of a kind. -/
  | rival (node kind : String)
  /-- The work fails. -/
  | fail (f : Failure)

def claimByRival (m : Member) (kind : String) : Play Unit := do
  match ← (m.node.claimAny m.build kind none : Node.Action script _).run with
  | .ok p => note (.rival (p.map Held.key))
  | .error f => note (.failed f)

/-- Lets incidents happen until the work fails. -/
def happen : List Incident → Play (Except Failure Unit)
  | [] => return .ok ()
  | .tick d :: rest => do
    tick d
    happen rest
  | .rival name kind :: rest => do
    match (← world).members.lookup name with
    | some m => claimByRival m kind
    | none => return .error (.storage "unknown node")
    happen rest
  | .fail f :: _ => return .error f

/-! ## Processors -/

/-- What the work on a partition does next. -/
inductive Act
  | change (c : Change)
  | save (extension : Option Span)
  | loaded (collection : String) (records : UInt64)
  | incident (i : Incident)

/-- What the work does with one partition. -/
structure Turn where
  acts : List Act
  outcome : Outcome

/-- Takes acts in turn until one fails, with the partition as it then is. -/
def takeActs (n : Node) (b : BuiltIn) (p : Partition b.kind) :
    List Act → Play (Except Failure Unit × Partition b.kind)
  | [] => return (.ok (), p)
  | .change c :: rest =>
    match c.apply b p with
    | .ok (_, p) => takeActs n b p rest
    | .error fault => return (.error fault.failure, p)
  | .save extension :: rest => do
    match ← (n.save p extension : Node.Action script _).run with
    | .ok p => takeActs n b p rest
    | .error f => return (.error f, p)
  | .loaded collection records :: rest => do
    match ← (LoadStatus.recordLoaded n collection records : Node.Action script _).run with
    | .ok _ => takeActs n b p rest
    | .error f => return (.error f, p)
  | .incident i :: rest => do
    match ← happen [i] with
    | .ok _ => takeActs n b p rest
    | .error f => return (.error f, p)

/-- Takes the script's next turn; without one the partition is completed at once. -/
def processor (n : Node) (b : BuiltIn) : Processor script b.kind (List Turn) :=
  fun p turns => do
    note (.processed ⟨b, p⟩)
    match turns with
    | [] => return ⟨.ok .completed, p, []⟩
    | turn :: rest => do
      let (result, p) ← takeActs n b p turn.acts
      return ⟨result.map fun _ => turn.outcome, p, rest⟩

/-! ## Suppliers -/

/-- A page and what happens while it is fetched. -/
structure ScriptedPage where
  incidents : List Incident
  page : Page

/-- Notes that a page is asked for. -/
def askForPage (p : Partition snapshotKind) (cursor : Option String) : Play Unit :=
  note (.page p.identity.collection p.identity.size cursor)

def supplier (pages : List ScriptedPage) : Supplier script where
  pages := pages.map fun page p cursor => ExceptT.mk do
    askForPage p cursor
    let result ← happen page.incidents
    return result.map fun _ => page.page
  refuse p cursor := do
    askForPage p cursor
    return .storage "no more pages"

end LeasedWork.Rehearsal
