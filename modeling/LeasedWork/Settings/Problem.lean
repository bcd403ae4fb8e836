import LeasedWork.Number.Shortest
import LeasedWork.Partition.Key
import LeasedWork.Time.Span

/-!
# Problems of settings

What may be wrong with settings that are complete, and how it is said.
-/

namespace LeasedWork

/-- Something wrong with settings. -/
inductive Problem
  | noOwner
  | noLeaseTimeout
  | separatorInNamespace (name : String)
  | noStoreRoot
  | noDirectory
  | noBucket
  | noRegion
  | noLeaderPoll
  | extensionTooShort (extension poll : Span)
  | noWorkerPoll
  | noWorkerLease
  | noClosings
  | jitterOutOfRange (factor : Binary64)
  deriving DecidableEq, Repr

namespace Problem

/-- The fraction as its shortest decimal number. -/
def factorText (x : Binary64) : String := String.ofList (x.chars .plain)

def message : Problem → String
  | .noOwner => "owner_id must not be empty"
  | .noLeaseTimeout => "lease_timeout must be greater than zero"
  | .separatorInNamespace name =>
    "partition_prefix '" ++ name ++ "' must not contain '" ++ keySeparator.toString ++ "'"
  | .noStoreRoot => "store_root must not be empty"
  | .noDirectory => "local store path must not be empty"
  | .noBucket => "S3 bucket must not be empty"
  | .noRegion => "S3 region must not be empty"
  | .noLeaderPoll => "leader poll_interval must be greater than zero"
  | .extensionTooShort extension poll =>
    "leader lease_extension (" ++ extension.text ++ ") must be greater than poll_interval ("
      ++ poll.text ++ ")"
  | .noWorkerPoll => "worker poll_interval must be greater than zero"
  | .noWorkerLease => "worker lease_duration must be greater than zero"
  | .noClosings => "worker max_closed_count must be at least 1"
  | .jitterOutOfRange factor => "worker jitter_factor (" ++ factorText factor ++ ") must be in [0, 1)"

/-- The problem, if the condition for it holds. -/
def when (condition : Bool) (p : Problem) : List Problem := if condition then [p] else []

end Problem

end LeasedWork
