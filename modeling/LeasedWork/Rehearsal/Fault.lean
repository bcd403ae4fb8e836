import LeasedWork.Failure

/-!
# Planned faults

A fault waits for calls of one method, and if it says so of one kind and one key. It lets a number
of matching calls pass and then strikes a number of times. Of several faults the first that
matches and has nothing to let pass strikes.
-/

namespace LeasedWork.Rehearsal

/-- A failure that waits for matching calls. -/
structure Fault (M F : Type) where
  method : M
  kind : Option String
  key : Option String
  /-- Matching calls that are still let pass. -/
  skip : Nat
  /-- How often the fault still strikes. -/
  count : Nat
  failure : F
  deriving Repr

/-- What a fault looks at in a call. Some calls have no key. -/
structure Call (M : Type) where
  method : M
  kind : String
  key : Option String
  deriving Repr

namespace Fault

variable {M F : Type} [DecidableEq M]

def applies (f : Fault M F) (c : Call M) : Bool :=
  f.method = c.method && 0 < f.count && f.kind.all (· == c.kind)
    && f.key.all fun key => c.key == some key

/-- The failure that a call meets, and the faults after it. -/
def strike (c : Call M) : List (Fault M F) → Option F × List (Fault M F)
  | [] => (none, [])
  | f :: rest =>
    if f.applies c then
      if f.skip = 0 then (some f.failure, { f with count := f.count - 1 } :: rest)
      else ((strike c rest).1, { f with skip := f.skip - 1 } :: (strike c rest).2)
    else ((strike c rest).1, f :: (strike c rest).2)

end Fault

/-- What a struck call fails with: a given failure, or the loss of the write that it attempts. -/
inductive Stroke
  | failure (f : Failure)
  | lostWrite
  deriving DecidableEq, Repr

/-- The failure of a call that writes the given record, if it writes one. -/
def Stroke.failureFor (written : Option Record) : Stroke → Failure
  | .failure f => f
  | .lostWrite =>
    match written with
    | some r => .lostWriteOf r
    | none => .storage "injected"

end LeasedWork.Rehearsal
