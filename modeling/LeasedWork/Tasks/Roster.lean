import LeasedWork.Tasks.Process
import LeasedWork.Tasks.Signal

/-!
# Rosters

A roster holds tasks by name and the signal that tells all of them to stop. A new task replaces
the one of its name. A shutdown gives the signal, waits for the tasks one after the other against
one deadline, and aborts those that are still running then; the tasks run on while another one is
waited for. No task outlives its roster.
-/

namespace LeasedWork

structure Roster (σ : Type) where
  /-- The tasks by name, each name once. -/
  tasks : List (String × Process σ)
  /-- The tasks that the roster no longer holds. -/
  past : List (Process σ)
  /-- When the signal to stop was given. -/
  stoppedAt : Option Nat

namespace Roster

variable {σ : Type}

/-- How long a shutdown waits that names no time: ten seconds. -/
def defaultTimeout : Nat := 10000

def empty : Roster σ := ⟨[], [], none⟩

def count (r : Roster σ) : Nat := r.tasks.length

def isShuttingDown (r : Roster σ) : Bool := r.stoppedAt.isSome

def allRunning (r : Roster σ) : Bool := r.tasks.all fun t => t.2.isRunning

/-- The signal that the tasks share. -/
def signal (r : Roster σ) : Signal := if r.isShuttingDown then .given else .silent

/-- Every task that was ever spawned. -/
def all (r : Roster σ) : List (Process σ) := r.tasks.map (·.2) ++ r.past

/-- Changes the states of all tasks that were ever spawned. -/
def map (f : σ → σ) (r : Roster σ) : Roster σ :=
  { r with tasks := r.tasks.map fun (name, p) => (name, p.map f), past := r.past.map (·.map f) }

/-- Adds a task in the place of the one of its name. Nothing is spawned during a shutdown. -/
def spawn (now : Nat) (name : String) (s : σ) (r : Roster σ) : Roster σ :=
  if r.isShuttingDown then r
  else
    { r with
      tasks := r.tasks.filter (fun t => t.1 ≠ name) ++ [(name, .starting now s)]
      past := r.past ++ (r.tasks.filter fun t => t.1 = name).map fun t => t.2.abort }

/-- Runs all tasks from `now` on through the instants before a limit. -/
def runTo (b : Behaviour σ) (limit now : Nat) (r : Roster σ) : Roster σ :=
  { r with
    tasks := r.tasks.map fun (name, p) => (name, p.runTo b r.stoppedAt limit now)
    past := r.past.map (·.runTo b r.stoppedAt limit now) }

/-- Waits for tasks in turn against one deadline. Gives the tasks and the time when the waiting is
over. -/
def awaitEach (b : Behaviour σ) (stoppedAt : Option Nat) (start deadline : Nat) :
    List (Process σ) → Nat → List (Process σ) × Nat
  | [], now => ([], now)
  | p :: rest, now =>
    let (p, now) := p.await b stoppedAt start deadline now
    let (others, now) := awaitEach b stoppedAt start deadline rest now
    (p :: others, now)

/-- Gives the signal at `now` and waits for all tasks. Gives the time when that is done. A second
shutdown does nothing.

Two things are idealised. The deadline is a natural number, so that there is one for every timeout;
a clock of bounded range has none for a timeout that leads beyond it, and the call does not return
then, but panics after it has given the signal. And the waiting is never broken off: a caller who
gave it up midway would leave the tasks not yet waited for to themselves, told to stop but held by
no roster, and `dispose` would not stop them either, because the roster is shutting down by then. -/
def shutdown (b : Behaviour σ) (timeout now : Nat) (r : Roster σ) : Roster σ × Nat :=
  if r.isShuttingDown then (r, now)
  else
    let (stopped, later) := awaitEach b (some now) now (now + timeout) (r.tasks.map (·.2)) now
    (⟨[], r.past.map (·.runTo b (some now) later now) ++ stopped, some now⟩, later)

/-- Gives the signal at `now` and stops all tasks where they are. -/
def dispose (now : Nat) (r : Roster σ) : Roster σ :=
  if r.isShuttingDown then r
  else ⟨[], r.past ++ r.tasks.map fun t => t.2.abort, some now⟩

end Roster

end LeasedWork
