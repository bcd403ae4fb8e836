import LeasedWork.Settings.Problem
import LeasedWork.Text.Blank

/-!
# Settings from an environment

An environment gives texts to some names. A number is read without the white space around it, and
a text that is no number is a fault, as is a problem of the settings that come out.
-/

namespace LeasedWork

/-- The text of each variable that is set. -/
abbrev Environment := String → Option String

/-- Why an environment gives no settings. -/
inductive EnvironmentFault
  | notANumber (name raw : String) (fault : Decimal.NumeralFault)
  | noBucketNamed
  | unknownStore (name : String)
  | problems (found : List Problem)
  deriving DecidableEq, Repr

def EnvironmentFault.message : EnvironmentFault → String
  | .notANumber name raw fault => "Invalid " ++ name ++ " '" ++ raw ++ "': " ++ fault.message
  | .noBucketNamed => "COORDINATION_S3_BUCKET must be set when COORDINATION_STORE_TYPE=s3"
  | .unknownStore name =>
    "Unknown COORDINATION_STORE_TYPE '" ++ name ++ "'. Valid types: memory, local, s3"
  | .problems found => "; ".intercalate (found.map Problem.message)

namespace Environment

/-- The number of a variable, if it is set. -/
def word? (env : Environment) (name : String) : Except EnvironmentFault (Option UInt64) :=
  match env name with
  | none => .ok none
  | some raw =>
    match Decimal.readWord (Text.trim raw.toList) with
    | .ok n => .ok (some n)
    | .error fault => .error (.notANumber name raw fault)

/-- The number of seconds of a variable, if it is set. -/
def seconds? (env : Environment) (name : String) : Except EnvironmentFault (Option Span) :=
  (env.word? name).map fun n => n.map Span.seconds

end Environment

/-- Settings without problems. -/
def withoutProblems {α : Type} (problems : α → List Problem) (settings : α) :
    Except EnvironmentFault α :=
  match problems settings with
  | [] => .ok settings
  | found => .error (.problems found)

end LeasedWork
