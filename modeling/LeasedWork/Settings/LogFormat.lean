import LeasedWork.Settings.Environment
import LeasedWork.Text.Lower

/-!
# The format of logs
-/

namespace LeasedWork

/-- How log lines are written: for people, or as JSON. -/
inductive LogFormat
  | pretty
  | json
  deriving DecidableEq, Repr

namespace LogFormat

def default : LogFormat := .pretty

def name : LogFormat → String
  | .pretty => "Pretty"
  | .json => "Json"

/-- The format that a text names in any letter case. -/
def ofText (s : String) : LogFormat := if Text.lower s = "json" then .json else .pretty

def ofEnvironment (env : Environment) : LogFormat := ((env "LOG_FORMAT").map ofText).getD default

end LogFormat

end LeasedWork
