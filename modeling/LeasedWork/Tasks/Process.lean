/-!
# Processes

A process is a task in virtual time. It runs at single instants, which take no time, and waits in
between: for a time, for the signal to stop, or for whichever comes first. `Process.runTo` runs it
through all instants before a limit. A process that has ended or was aborted does nothing more.
Times are milliseconds since a fixed start.
-/

namespace LeasedWork

/-- What a process waits for before it goes on. -/
inductive Wait
  | time (wake : Nat)
  | stop
  | timeOrStop (wake : Nat)
  deriving DecidableEq, Repr

namespace Wait

/-- When a wait ends, if ever, for a signal that is given at a time or not at all. -/
def end? (stoppedAt : Option Nat) : Wait → Option Nat
  | .time wake => some wake
  | .stop => stoppedAt
  | .timeOrStop wake => some (stoppedAt.elim wake (min wake))

end Wait

/-- What a process does after it has run at an instant. -/
inductive Resumed (σ : Type)
  | ends (state : σ)
  | waits (w : Wait) (state : σ)

/-- How a process goes on at an instant, where the signal to stop is given or not. -/
abbrev Behaviour (σ : Type) : Type := (now : Nat) → (isStopped : Bool) → σ → Resumed σ

/-- Where a process is. -/
inductive Process (σ : Type)
  | waiting (w : Wait) (state : σ)
  | ended (time : Nat) (state : σ)
  | aborted (state : σ)

namespace Process

variable {σ : Type}

/-- A process that is yet to run for the first time. -/
def starting (now : Nat) (s : σ) : Process σ := .waiting (.time now) s

def state : Process σ → σ
  | .waiting _ s | .ended _ s | .aborted s => s

def map (f : σ → σ) : Process σ → Process σ
  | .waiting w s => .waiting w (f s)
  | .ended time s => .ended time (f s)
  | .aborted s => .aborted (f s)

/-- Whether a process may still do something. -/
def isRunning : Process σ → Bool
  | .waiting _ _ => true
  | .ended _ _ => false
  | .aborted _ => false

/-- Stops a process where it is. -/
def abort : Process σ → Process σ
  | .waiting _ s => .aborted s
  | p => p

@[simp] theorem isRunning_abort (p : Process σ) : p.abort.isRunning = false := by
  cases p <;> rfl

/-- Runs a process from `now` on through the instants before a limit. Whenever it waits, at least a
millisecond passes. -/
def runTo (b : Behaviour σ) (stoppedAt : Option Nat) (limit now : Nat) :
    Process σ → Process σ
  | .waiting w s =>
    match w.end? stoppedAt with
    | none => .waiting w s
    | some wake =>
      if _h : max now wake < limit then
        match b (max now wake) (stoppedAt.any (· ≤ max now wake)) s with
        | .ends s => .ended (max now wake) s
        | .waits w s => runTo b stoppedAt limit (max now wake + 1) (.waiting w s)
      else .waiting w s
  | .ended time s => .ended time s
  | .aborted s => .aborted s
termination_by limit - now
decreasing_by omega

theorem runTo_eq_self {p : Process σ} (h : p.isRunning = false) (b : Behaviour σ)
    (stoppedAt : Option Nat) (limit now : Nat) : p.runTo b stoppedAt limit now = p := by
  cases p with
  | waiting w s => simp [isRunning] at h
  | ended time s => rw [runTo]
  | aborted s => rw [runTo]

/-- Waits from `now` on for a process that has run since `start`, and stops it at the deadline.
Gives the process and the time when the waiting is over. -/
def await (b : Behaviour σ) (stoppedAt : Option Nat) (start deadline now : Nat)
    (p : Process σ) : Process σ × Nat :=
  match p.runTo b stoppedAt deadline start with
  | .ended time s => (.ended time s, max now time)
  | q => (q.abort, max now deadline)

end Process

end LeasedWork
