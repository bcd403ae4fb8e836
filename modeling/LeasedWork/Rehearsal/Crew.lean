import LeasedWork.Tasks.Roster

/-!
# A crew of scripted tasks

A crew rehearses a roster: scripted tasks note the times at which they start, go on and stop, and
errands are run between them. Whoever runs the errands comes first at an instant: tasks that could
go on at the same time do so when the next errand takes time. A roster that is given up is replaced
by an empty one, and its tasks are watched on.
-/

namespace LeasedWork.Rehearsal

/-! ## Scripted tasks -/

/-- How a scripted task spends its time. -/
inductive Chore
  /-- Waits for the signal. -/
  | waits
  /-- Goes on after each pause until the signal is given. -/
  | polls (pause : Nat)
  /-- Takes its time whatever the signal says. -/
  | persists (time : Nat)
  /-- Breaks off after a time. -/
  | breaks (time : Nat)
  | returns
  deriving DecidableEq, Repr

/-- What a scripted task notes. -/
inductive Milestone
  | start
  | tick
  | stopping
  | done
  deriving DecidableEq, Repr

def Milestone.text : Milestone → String
  | start => "start"
  | tick => "tick"
  | stopping => "stopping"
  | done => "end"

/-- How far a scripted task has come. -/
inductive Stage
  | fresh
  | working
  | cleaning
  deriving DecidableEq, Repr

/-- A scripted task. -/
structure Errand where
  label : String
  chore : Chore
  /-- How long it takes to clean up. -/
  cleanup : Nat
  stage : Stage
  /-- What it has noted and when, the last note first. -/
  notes : List (Nat × Milestone)
  deriving DecidableEq, Repr

namespace Errand

def note (now : Nat) (m : Milestone) (e : Errand) : Errand :=
  { e with notes := (now, m) :: e.notes }

/-- Ends after cleaning up. -/
def leave (now : Nat) (e : Errand) : Resumed Errand :=
  if e.cleanup = 0 then .ends ((e.note now .stopping).note now .done)
  else .waits (.time (Sleep.wake now e.cleanup)) { e.note now .stopping with stage := .cleaning }

/-- Takes up the chore. -/
def work (now : Nat) (isStopped : Bool) (e : Errand) : Resumed Errand :=
  let e := { e with stage := .working }
  match e.chore with
  | .waits => if isStopped then e.leave now else .waits .stop e
  | .polls pause => if isStopped then e.leave now else .waits (.timeOrStop (Sleep.wake now pause)) e
  | .persists 0 => e.leave now
  | .persists time => .waits (.time (Sleep.wake now time)) e
  | .breaks 0 => .ends e
  | .breaks time => .waits (.time (Sleep.wake now time)) e
  | .returns => e.leave now

/-- How a scripted task goes on. -/
def resume : Behaviour Errand := fun now isStopped e =>
  match e.stage, e.chore with
  | .fresh, _ => (e.note now .start).work now isStopped
  | .working, .polls _ =>
    if isStopped then e.leave now else (e.note now .tick).work now isStopped
  | .working, .breaks _ => .ends e
  | .working, _ => e.leave now
  | .cleaning, _ => .ends (e.note now .done)

end Errand

/-! ## The crew -/

/-- Rosters at a time: the one in charge and those before it, the last one first. -/
structure Crew where
  now : Nat
  roster : Roster Errand
  older : List (Roster Errand)

/-- What is asked of a crew. -/
inductive Order
  | spawn (name : String) (e : Errand)
  | sleep (time : Nat)
  | shutdown (timeout : Nat)
  /-- Gives the roster up. -/
  | dispose

/-- What a crew shows after an order. -/
structure Muster where
  now : Nat
  count : Nat
  allRunning : Bool
  isShuttingDown : Bool
  /-- Whether the signal of the first roster is given. -/
  isFirstStopped : Bool
  /-- What was noted since the last order: times, labels and milestones, in their order. -/
  notes : List (Nat × String × Milestone)

namespace Crew

def starting : Crew := ⟨0, .empty, []⟩

def rosters (c : Crew) : List (Roster Errand) := c.roster :: c.older

/-- Lets all tasks run up to a later time. -/
def passTo (later : Nat) (c : Crew) : Crew where
  now := later
  roster := c.roster.runTo Errand.resume later c.now
  older := c.older.map (·.runTo Errand.resume later c.now)

/-- Carries out an order. -/
def obey (o : Order) (c : Crew) : Crew :=
  match o with
  | .spawn name e => { c with roster := c.roster.spawn c.now name e }
  | .sleep time => c.passTo (Sleep.wake c.now time)
  | .shutdown timeout =>
    let (r, later) := c.roster.shutdown Errand.resume timeout c.now
    { (passTo later c) with roster := r }
  | .dispose => { c with roster := .empty, older := c.roster.dispose c.now :: c.older }

/-- Notes by time, then by label, then by the text of the milestone. -/
def isBefore (a b : Nat × String × Milestone) : Bool :=
  a.1 < b.1 || a.1 == b.1 && (a.2.1 < b.2.1 || a.2.1 == b.2.1 && a.2.2.text < b.2.2.text)

def notesOf (e : Errand) : List (Nat × String × Milestone) :=
  e.notes.map fun (time, m) => (time, e.label, m)

def notes (c : Crew) : List (Nat × String × Milestone) :=
  (c.rosters.flatMap fun r => r.all.flatMap fun p => notesOf p.state).mergeSort
    fun a b => !isBefore b a

def muster (c : Crew) : Muster where
  now := c.now
  count := c.roster.count
  allRunning := c.roster.allRunning
  isShuttingDown := c.roster.isShuttingDown
  isFirstStopped := (c.rosters.getLast (by simp [rosters])).signal.isGiven
  notes := c.notes

/-- Forgets what was noted. -/
def clear (c : Crew) : Crew :=
  let f (r : Roster Errand) : Roster Errand := r.map fun e => { e with notes := [] }
  { c with roster := f c.roster, older := c.older.map f }

/-- What a crew shows after each of some orders. -/
def musters : List Order → Crew → List Muster
  | [], _ => []
  | o :: rest, c =>
    let c := c.obey o
    c.muster :: musters rest c.clear

end Crew

/-! ## A signal alone -/

/-- What comes of a sleep under a signal. -/
structure Vigil where
  slumber : Slumber
  /-- Whether the signal is given in the end. -/
  isGiven : Bool
  deriving DecidableEq, Repr

/-- A sleep of a length under a silent signal, with perhaps one notice at a time. A notice at the
start comes before the sleep. -/
def vigil (time : Nat) : Option (Nat × Notice) → Vigil
  | none => ⟨Signal.silent.sleep 0 time [], false⟩
  | some (0, notice) => ⟨(Signal.after notice).sleep 0 time [], (Signal.after notice).isGiven⟩
  | some (later, notice) =>
    ⟨Signal.silent.sleep 0 time [(later, notice)], (Signal.after notice).isGiven⟩

end LeasedWork.Rehearsal
