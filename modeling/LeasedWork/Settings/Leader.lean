import LeasedWork.Settings.Environment

/-!
# Settings of the election

A leader renews its lease at every poll, for longer than until the next one.
-/

namespace LeasedWork

/-- How often a node tries to lead, and for how long a leader's lease is renewed. -/
structure LeaderSettings where
  pollInterval : Span
  leaseExtension : Span
  deriving DecidableEq, Repr

namespace LeaderSettings

def defaultPollSeconds : UInt64 := 60

def defaultExtensionSeconds : UInt64 := 180

def default : LeaderSettings := ⟨.seconds defaultPollSeconds, .seconds defaultExtensionSeconds⟩

def problems (s : LeaderSettings) : List Problem :=
  Problem.when s.pollInterval.isZero .noLeaderPoll
    ++ Problem.when (s.leaseExtension ≤ s.pollInterval)
      (.extensionTooShort s.leaseExtension s.pollInterval)

def ofEnvironment (env : Environment) : Except EnvironmentFault LeaderSettings := do
  let poll ← env.seconds? "LEADER_POLL_INTERVAL_SECS"
  let extension ← env.seconds? "LEADER_LEASE_EXTENSION_SECS"
  withoutProblems problems
    ⟨poll.getD default.pollInterval, extension.getD default.leaseExtension⟩

end LeaderSettings

end LeasedWork
