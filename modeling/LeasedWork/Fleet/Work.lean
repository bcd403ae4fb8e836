import LeasedWork.Fleet.Node
import LeasedWork.Settings.Worker

/-!
# Work passes

A worker holds no partition between its passes. A pass claims one partition, hands it to a
processor and does with it what the processor says. A processor that loses a write has lost the
partition, which the pass then leaves alone; after any other failure the partition is given up and
the failure passed on.
-/

namespace LeasedWork

/-- What is to be done with a processed partition. -/
inductive Outcome
  | completed
  | closed (reopenAfter : Span)
  | released
  deriving DecidableEq, Repr

/-- What a processor leaves behind: its verdict, the partition as it has it in hand, and its own
state. -/
structure Processed (k : PartitionKind) (σ : Type) where
  verdict : Except Failure Outcome
  partition : Partition k
  state : σ

/-- The work on partitions of a kind, with a state that lasts from pass to pass. -/
abbrev Processor (E : Interface) (k : PartitionKind) (σ : Type) : Type :=
  Partition k → σ → Program (Node.interface E) (Processed k σ)

namespace Work

variable {E : Interface} {k : PartitionKind} {σ : Type}

/-- Does with a partition what the outcome says. -/
def apply (limit : Option UInt64) (p : Partition k) : Outcome → Node.Action E (Partition k)
  | .completed => Node.complete p
  | .closed reopenAfter => Node.close p reopenAfter limit
  | .released => Node.giveUp p

/-- Ends a pass after the processor has returned. -/
def finish (limit : Option UInt64) (done : Processed k σ) : Node.Action E Bool :=
  match done.verdict with
  | .ok outcome => do
    let _ ← apply limit done.partition outcome
    return true
  | .error failure =>
    if failure.isLostWrite then return true
    else ExceptT.mk do
      let _ ← (Node.giveUp done.partition : Node.Action E (Partition k)).run
      return .error failure

/-- One pass. Says whether there was a partition to work on. -/
def pass (n : Node) (settings : WorkerSettings) (process : Processor E k σ) (s : σ) :
    Program (Node.interface E) (Except Failure Bool × σ) := do
  match ← (n.claim k settings.leaseDuration : Node.Action E _).run with
  | .error failure => return (.error failure, s)
  | .ok none => return (.ok false, s)
  | .ok (some p) => do
    let done ← process p s
    let result ← (finish settings.maxClosedCount done).run
    return (result, done.state)

end Work

end LeasedWork
