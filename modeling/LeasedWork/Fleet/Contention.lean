import LeasedWork.Fleet.Node

/-!
# Contention

Shared state may be changed by any node, so a lost write there only means to read again and try
again. The pauses between attempts double from twenty milliseconds up to two seconds, and each of
them lasts a little longer than that, so that an attempt does not fall on a round time.
-/

namespace LeasedWork

namespace Contention

/-- How often a lost write is tried again. -/
def retries : Nat := 8

/-- What every pause is longer by, in milliseconds. It is less than the shortest pause. -/
def spread : Nat := 10

/-- The pause before the attempt that follows `n` retries. -/
def delay (n : Nat) : Span := .millis (min (20 * Nat.pow 2 n) 2000 + spread)

/-- Tries an operation until it does something else than lose a write, and `left` times more at
most after its first attempt. -/
def persistFrom {E : Interface} {α : Type} (operation : Node.Action E α) :
    (done left : Nat) → Node.Action E α
  | _, 0 => operation
  | done, left + 1 => ExceptT.mk do
    match ← operation.run with
    | .ok a => return .ok a
    | .error failure =>
      if failure.isLostWrite then do
        Node.pause (delay done)
        (persistFrom operation (done + 1) left).run
      else return .error failure

/-- Tries an operation until it does something else than lose a write. -/
def persist {E : Interface} {α : Type} (operation : Node.Action E α) : Node.Action E α :=
  persistFrom operation 0 retries

end Contention

end LeasedWork
