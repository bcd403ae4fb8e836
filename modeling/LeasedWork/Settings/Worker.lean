import LeasedWork.Settings.Environment

/-!
# Settings of a worker

A worker that finds no work sleeps for its poll interval, made longer or shorter by a random part
of it, so that workers do not poll in step. Spans are scaled in floating-point seconds and rounded
to nanoseconds.
-/

namespace LeasedWork

namespace Span

/-- The span in floating-point seconds. -/
def inSeconds (d : Span) : Binary64 :=
  (Binary64.ofNat d.wholeSeconds).add
    ((Binary64.ofNat d.restNanos).div (Binary64.ofNat nanosPerSecond))

/-- The nearest span to floating-point seconds, the even one of two, at most the longest. -/
def ofSeconds (x : Binary64) : Span :=
  if x.isFinite ∧ 0 ≤ x.toRat then
    let n := x.toRat * (nanosPerSecond : Rat)
    ofNanos (Binary64.roundHalfEven n.num.natAbs n.den)
  else zero

def scaled (d : Span) (x : Binary64) : Span := ofSeconds (x.mul d.inSeconds)

end Span

/-- Settings of a worker. -/
structure WorkerSettings where
  pollInterval : Span
  /-- The lease of a claim, if it is not the node's own. -/
  leaseDuration : Option Span
  /-- The closing with this number completes a partition. -/
  maxClosedCount : Option UInt64
  /-- The part of the poll interval by which it may vary. -/
  jitterFactor : Binary64
  deriving DecidableEq, Repr

namespace WorkerSettings

def defaultPollSeconds : UInt64 := 30

/-- Fifteen hundredths. -/
def defaultJitter : Binary64 := Binary64.ofRatio false 15 100

def default : WorkerSettings := ⟨.seconds defaultPollSeconds, none, none, defaultJitter⟩

/-- A factor lies from zero up to but not including one. -/
def isJitterFactor (x : Binary64) : Bool := x.isFinite && 0 ≤ x.toRat && x.toRat < 1

def problems (s : WorkerSettings) : List Problem :=
  Problem.when s.pollInterval.isZero .noWorkerPoll
    ++ Problem.when (s.leaseDuration.any Span.isZero) .noWorkerLease
    ++ Problem.when (s.maxClosedCount == some 0) .noClosings
    ++ Problem.when (!isJitterFactor s.jitterFactor) (.jitterOutOfRange s.jitterFactor)

def ofEnvironment (env : Environment) : Except EnvironmentFault WorkerSettings := do
  let poll ← env.seconds? "WORKER_POLL_INTERVAL_SECS"
  let lease ← env.seconds? "WORKER_LEASE_DURATION_SECS"
  let closings ← env.word? "WORKER_MAX_CLOSED_COUNT"
  withoutProblems problems ⟨poll.getD default.pollInterval, lease, closings, defaultJitter⟩

end WorkerSettings

namespace Jitter

open Binary64 (ofNat)

/-- The span varied by a part of it: `draw`, from zero to one, chooses between less and more. A
factor that is not positive leaves the span as it is. -/
def varied (base : Span) (factor draw : Binary64) : Span :=
  if factor.toRat ≤ 0 then base
  else
    let part := (((draw.mul (ofNat 2)).sub (ofNat 1)).mul factor).add (ofNat 1)
    base.scaled (if part.isNegative then ofNat 0 else part)

/-- Whether a span lies between the scaled spans of the least and the greatest draw. -/
def isWithin (base : Span) (factor : Binary64) (d : Span) : Bool :=
  let least := (ofNat 1).sub factor.abs
  base.scaled (if least.isNegative then ofNat 0 else least) ≤ d
    && d ≤ base.scaled ((ofNat 1).add factor.abs)

/-- Draws that are spread evenly: the middles of `n` equal parts. -/
def draws (n : Nat) : List Binary64 :=
  (List.range n).map fun k => Binary64.ofRatio false (2 * k + 1) (2 * n)

end Jitter

end LeasedWork
