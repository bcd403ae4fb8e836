import LeasedWork.Settings.DataFolder
import LeasedWork.Settings.Environment
import LeasedWork.Text.Lower

/-!
# Settings of a node

A node has an owner name, a default lease, a place where records are kept, and optionally a
namespace that is put before every source.
-/

namespace LeasedWork

/-- Where records are kept. -/
inductive StoreChoice
  | memory
  | directory (path : String)
  | s3 (bucket region : String) (endpoint accessKey secretKey : Option String)
  deriving DecidableEq, Repr

namespace StoreChoice

def problems : StoreChoice → List Problem
  | .memory => []
  | .directory path => Problem.when (Text.isBlankText path) .noDirectory
  | .s3 bucket region _ _ _ =>
    Problem.when (Text.isBlankText bucket) .noBucket ++ Problem.when (Text.isBlankText region) .noRegion

/-- Opens the store. Only a directory can fail to open. -/
def openStore : StoreChoice → Except Failure Unit
  | .memory => .ok ()
  | .s3 _ _ _ _ _ => .ok ()
  | .directory path => DataFolder.openAt path

end StoreChoice

/-- Settings of a node. -/
structure NodeSettings where
  /-- Put before the name of every source, unless it is empty. -/
  sourceNamespace : Option String
  owner : String
  /-- The lease of a claim and of a save that name none. -/
  leaseTimeout : Span
  store : StoreChoice
  /-- The path below which a store of objects keeps its records. -/
  storeRoot : String
  deriving DecidableEq, Repr

namespace NodeSettings

def defaultLeaseSeconds : UInt64 := 600

def defaultRoot : String := "source-coordination"

def defaultDirectory : String := "/tmp/leasekeeper-data"

def defaultRegion : String := "us-east-1"

/-- The settings of a node that is given nothing but a name. -/
def default (owner : String) : NodeSettings :=
  ⟨none, owner, .seconds defaultLeaseSeconds, .memory, defaultRoot⟩

/-- A source's name inside the namespace. -/
def sourceIdentifier (s : NodeSettings) (source : String) : String :=
  match s.sourceNamespace with
  | none => source
  | some name => if name = "" then source else name ++ keySeparator.toString ++ source

def problems (s : NodeSettings) : List Problem :=
  Problem.when (Text.isBlankText s.owner) .noOwner
    ++ Problem.when s.leaseTimeout.isZero .noLeaseTimeout
    ++ (match s.sourceNamespace with
        | none => []
        | some name => Problem.when (name.toList.contains keySeparator) (.separatorInNamespace name))
    ++ Problem.when (Text.isBlankText s.storeRoot) .noStoreRoot
    ++ s.store.problems

/-- The store that an environment names. -/
def storeOf (env : Environment) : Except EnvironmentFault StoreChoice :=
  match Text.lower ((env "COORDINATION_STORE_TYPE").getD "memory") with
  | "memory" => .ok .memory
  | "local" => .ok (.directory ((env "COORDINATION_DATA_PATH").getD defaultDirectory))
  | "s3" =>
    match env "COORDINATION_S3_BUCKET" with
    | none => .error .noBucketNamed
    | some bucket =>
      let region := (env "AWS_REGION").or (env "AWS_DEFAULT_REGION")
      .ok (.s3 bucket (region.getD defaultRegion) (env "AWS_ENDPOINT") (env "AWS_ACCESS_KEY_ID")
        (env "AWS_SECRET_ACCESS_KEY"))
  | other => .error (.unknownStore other)

/-- The settings that an environment gives; a node that it does not name has the name `fallback`. -/
def ofEnvironment (fallback : String) (env : Environment) :
    Except EnvironmentFault NodeSettings := do
  let name := (env "COORDINATION_OWNER_ID").or (env "HOSTNAME")
  let leaseTimeout ← env.seconds? "COORDINATION_LEASE_TIMEOUT_SECS"
  let store ← storeOf env
  withoutProblems problems
    { sourceNamespace := (env "COORDINATION_PARTITION_PREFIX").filter (· ≠ "")
      owner := (name.filter fun s => !Text.isBlankText s).getD fallback
      leaseTimeout := leaseTimeout.getD (.seconds defaultLeaseSeconds)
      store := store
      storeRoot := (env "COORDINATION_STORE_ROOT").getD defaultRoot }

end NodeSettings

end LeasedWork
