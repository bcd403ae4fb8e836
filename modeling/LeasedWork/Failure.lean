import LeasedWork.Record.Basic
import LeasedWork.Text.Decimal

/-!
# Failures

Why an operation failed, its text, and what a caller may make of it. A lost write is an expected
outcome: another node changed the record first. A fatal failure is a mistake in the program or its
settings. A passing one may go away when the operation is tried again.
-/

namespace LeasedWork

/-- Why a bucket of objects refuses a request. -/
inductive BucketFault
  | generic
  | notFound
  | invalidPath
  | task
  | notSupported
  | alreadyExists
  | precondition
  | notModified
  | notImplemented
  | permissionDenied
  | unauthenticated
  | unknownSetting
  deriving DecidableEq, Repr

namespace BucketFault

/-- Whether the refusal may go away. -/
def isPassing : BucketFault → Bool
  | .generic | .task | .notModified => true
  | _ => false

end BucketFault

/-- What kept the operating system from reading or writing. -/
inductive IoCause
  | timedOut
  | interrupted
  | wouldBlock
  | connectionReset
  | connectionAborted
  | connectionRefused
  | brokenPipe
  | other
  deriving DecidableEq, Repr

/-- All causes but `other` may go away. -/
def IoCause.isPassing : IoCause → Bool
  | .other => false
  | _ => true

/-- Why a coordinated operation failed. -/
inductive Failure
  /-- The stored record is not the one that the caller last saw. -/
  | writeLost (kind key : String) (version : UInt64)
  | unknownKind (kind : String)
  | notLeasable (kind : String)
  /-- The partition was never created in a store or read from one. -/
  | noRecord (kind key : String)
  | invalidKey (kind key reason : String)
  | storage (text : String)
  | bucket (fault : BucketFault)
  | settings (text : String)
  /-- A JSON text does not hold what it should. -/
  | unreadable
  | io (cause : IoCause) (text : String)
  deriving DecidableEq, Repr

namespace Failure

/-- The write of a record was lost. -/
def lostWriteOf (r : Record) : Failure := .writeLost r.kind r.key r.version

/-- A failure in words. -/
def message : Failure → String
  | .writeLost kind key version =>
    "Conditional write lost for " ++ kind ++ "/" ++ key ++ ": expected version "
      ++ Decimal.natText version.toNat
  | .unknownKind kind => "Unsupported partition type '" ++ kind ++ "'"
  | .notLeasable kind => "Partition type '" ++ kind ++ "' cannot be acquired"
  | .noRecord kind key => "Partition " ++ kind ++ "/" ++ key ++ " has no store record"
  | .invalidKey kind key reason =>
    "Invalid partition key '" ++ key ++ "' for " ++ kind ++ ": " ++ reason
  | .storage text => "Storage error: " ++ text
  | .bucket _ => "Object store error"
  | .settings text => "Configuration error: " ++ text
  | .unreadable => "Serialization error"
  | .io _ text => "IO error: " ++ text

/-- Another node changed the record first. -/
def isLostWrite : Failure → Bool
  | .writeLost _ _ _ => true
  | _ => false

/-- A mistake in the program or its settings. -/
def isFatal : Failure → Bool
  | .unknownKind _ | .notLeasable _ | .invalidKey _ _ _ | .settings _ => true
  | _ => false

/-- The same operation may succeed when it is tried again. -/
def isPassing : Failure → Bool
  | .storage _ => true
  | .io cause _ => cause.isPassing
  | .bucket fault => fault.isPassing
  | _ => false

end Failure

end LeasedWork
