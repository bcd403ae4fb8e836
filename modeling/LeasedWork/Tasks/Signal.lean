import LeasedWork.Tasks.Sleep

/-!
# The signal to stop

Tasks that run beside others share a signal which tells them to stop. It counts as given when the
last value that was sent says so, and also when nobody is left who could send one. A sleep under
the signal ends early as soon as the signal is given. Times are milliseconds since a fixed start.
-/

namespace LeasedWork

/-- What the holders of a signal know. -/
inductive Signal
  /-- Nothing was sent, or last that nobody has to stop. -/
  | silent
  /-- The last value that was sent says to stop. -/
  | given
  /-- The sender is gone. -/
  | orphaned
  deriving DecidableEq, Repr

/-- What a sender does. -/
inductive Notice
  | send (stop : Bool)
  | leave
  deriving DecidableEq, Repr

/-- How a sleep has ended. -/
structure Slumber where
  /-- The signal did not cut it short. -/
  isFull : Bool
  wokeAt : Nat
  deriving DecidableEq, Repr

namespace Signal

/-- Whether tasks have to stop. -/
def isGiven (s : Signal) : Bool := s ≠ silent

/-- The signal after its sender has done something. -/
def after : Notice → Signal
  | .send true => given
  | .send false => silent
  | .leave => orphaned

/-- A sleep that starts at `now` and would end at `wake`, while the sender does what is listed, in
the order of time. A signal that is given does not even let a sleep begin. -/
def sleepUntil (now wake : Nat) (s : Signal) : List (Nat × Notice) → Slumber
  | [] => if s.isGiven then ⟨false, now⟩ else ⟨true, wake⟩
  | (time, notice) :: rest =>
    if s.isGiven then ⟨false, now⟩
    else if wake ≤ time then ⟨true, wake⟩
    else (after notice).sleepUntil (max now time) wake rest

/-- A sleep of some length that starts at `now`, while the sender does what is listed. -/
def sleep (now length : Nat) (s : Signal) (notices : List (Nat × Notice)) : Slumber :=
  s.sleepUntil now (Sleep.wake now length) notices

end Signal

end LeasedWork
