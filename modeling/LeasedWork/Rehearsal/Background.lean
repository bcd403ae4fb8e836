import LeasedWork.Fleet.Election
import LeasedWork.Rehearsal.Script
import LeasedWork.Tasks.Roster

/-!
# Work in the background

Candidates and workers make pass after pass as tasks in virtual time, all of them in one world. A
task rests after a pass that leaves nothing to do at once, and the signal to stop ends its rest: it
finishes the pass that it is in and leaves. At one instant the tasks go on in the order in which
they began to wait. A `Site` is the world with its tasks. Whoever plays a program there comes
before the tasks at the same instant, and lets them go on while the program pauses. Times are
milliseconds since a fixed start; the clock that is set by hand does not move with them.
-/

namespace LeasedWork.Rehearsal

/-! ## Labour -/

/-- What is done in the background, with the state that lasts from pass to pass. -/
inductive Labour
  | lead (c : Candidate)
  | work (n : Node) (kind : BuiltIn) (settings : WorkerSettings) (turns : List Turn)
  | plan (n : Node) (settings : WorkerSettings) (s : Supplier script)

namespace Labour

/-- One pass. Says whether a rest follows: a candidate rests after each pass, a worker after one
that failed or found nothing. -/
def pass : Labour → Play (Bool × Labour)
  | .lead c => do
    let c ← Candidate.pass c
    return (true, .lead c)
  | .work n kind settings turns => do
    let (result, turns) ← Work.pass n settings (processor n kind) turns
    return (!(result matches .ok true), .work n kind settings turns)
  | .plan n settings s => do
    let (result, s) ← Work.pass n settings (Planning.process n) s
    return (!(result matches .ok true), .plan n settings s)

/-- How long a rest lasts. -/
def rest : Labour → Span
  | .lead c => c.settings.pollInterval
  | .work _ _ settings _ | .plan _ settings _ => settings.pollInterval

/-- What is done when there is to be no further pass: a candidate steps down. -/
def leave : Labour → Play Unit
  | .lead c => do
    let _ ← Candidate.stepDown c
    return ()
  | .work _ _ _ _ | .plan _ _ _ => return ()

/-- How many passes without a rest the state itself may still bring about. -/
def turnsLeft : Labour → Nat
  | .lead _ => 0
  | .work _ _ _ turns => turns.length
  | .plan _ _ s => s.pages.length

end Labour

/-! ## The loop of passes -/

/-- Where a task is while it waits. -/
inductive Loop
  /-- Before a pass. -/
  | ready (l : Labour)
  /-- At a pause in a pass, with the turns that were left before it. -/
  | inPass (turns : Nat) (rest : Play (Bool × Labour))
  /-- At a pause after the last pass. -/
  | leaving (rest : Play Unit)

namespace Loop

/-- Whole milliseconds that last at least as long as a span. -/
def millisFor (d : Span) : Nat := (d.nanos + (nanosPerMilli - 1)) / nanosPerMilli

/-- When a pause ends that starts at `now`. -/
def wake (now : Nat) (d : Span) : Nat := Sleep.wake now (millisFor d)

/-- Goes on with what is done after the last pass. -/
def depart (now : Nat) (p : Play Unit) (w : World) : Resumed (Loop × World) :=
  match w.playToPause p with
  | (.finished _, w) => .ends (.leaving (.done ()), w)
  | (.paused d rest, w) => .waits (.time (wake now d)) (.leaving rest, w)

/-- Goes on with a pass that had `turns` before it and makes at most `n` further ones until there is
a rest. A pass that no rest follows uses up a turn or completes a record, so that there are enough
of them. -/
def proceed (now : Nat) (isStopped : Bool) :
    (n turns : Nat) → Play (Bool × Labour) → World → Resumed (Loop × World)
  | n, turns, p, w =>
    match w.playToPause p with
    | (.paused d rest, w) => .waits (.time (wake now d)) (.inPass turns rest, w)
    | (.finished (rests, l), w) =>
      if isStopped then depart now l.leave w
      else if rests then .waits (.timeOrStop (wake now l.rest)) (.ready l, w)
      else
        match n with
        | 0 => .waits (.timeOrStop now) (.ready l, w)
        | n + 1 => proceed now isStopped n l.turnsLeft l.pass w

/-- How a task goes on at an instant. -/
def resume : Behaviour (Loop × World) := fun now isStopped (loop, w) =>
  match loop with
  | .ready l =>
    if isStopped then depart now l.leave w
    else proceed now isStopped (l.turnsLeft + w.size) l.turnsLeft l.pass w
  | .inPass turns rest => proceed now isStopped (turns + w.size) turns rest w
  | .leaving rest => depart now rest w

end Loop

/-! ## Tasks -/

/-- A task that waits. -/
structure Labourer where
  id : Nat
  wait : Wait
  /-- When it was told to stop. -/
  stoppedAt : Option Nat
  loop : Loop

namespace Labourer

/-- When the task goes on. -/
def wake? (t : Labourer) : Option Nat := t.wait.end? t.stoppedAt

/-- Whether the task goes on at an instant if it has not gone on before. -/
def isDue (now : Nat) (t : Labourer) : Bool := t.wake?.any (· ≤ now)

/-- Lets a task go on at an instant. It is gone when it ends. -/
def goOn (now : Nat) (t : Labourer) (w : World) : Option Labourer × World :=
  match Loop.resume now (t.stoppedAt.any (· ≤ now)) (t.loop, w) with
  | .ends (_, w) => (none, w)
  | .waits wait (loop, w) => (some { t with wait := wait, loop := loop }, w)

/-- Lets tasks go on in turn. Gives those that wait again. -/
def goOnEach (now : Nat) : List Labourer → World → List Labourer × World
  | [], w => ([], w)
  | t :: rest, w =>
    let (t, w) := t.goOn now w
    let (others, w) := goOnEach now rest w
    (t.toList ++ others, w)

end Labourer

/-! ## Sites -/

/-- The world and the tasks that work in it. -/
structure Site where
  now : Nat
  world : World
  /-- The tasks in the order in which they began to wait. -/
  tasks : List Labourer
  /-- How many tasks have ever begun. -/
  begun : Nat

namespace Site

def starting (w : World) : Site := ⟨0, w, [], 0⟩

/-- Whether a task is still there. -/
def has (id : Nat) (s : Site) : Bool := s.tasks.any (·.id = id)

/-- Lets all tasks go on that are due at an instant. -/
def runAt (instant : Nat) (s : Site) : Site :=
  let (renewed, w) := Labourer.goOnEach instant (s.tasks.filter (·.isDue instant)) s.world
  { s with
    now := instant
    world := w
    tasks := s.tasks.filter (fun t => !t.isDue instant) ++ renewed }

/-- Runs the tasks through the instants from `start` on up to a limit, which they do not reach, or
up to the instant after which it is enough. Whenever a task waits, at least a millisecond passes. -/
def passUntil (isEnough : Site → Bool) (limit start : Nat) (s : Site) : Site :=
  match (s.tasks.filterMap (·.wake?)).min? with
  | none => { s with now := max s.now limit }
  | some wake =>
    if _h : max start wake < limit then
      let s := s.runAt (max start wake)
      if isEnough s then s else passUntil isEnough limit (max start wake + 1) s
    else { s with now := max s.now limit }
termination_by limit - start

/-- Lets time pass up to an instant, before which the tasks go on. -/
def passTo (later : Nat) (s : Site) : Site := s.passUntil (fun _ => false) later s.now

/-- Plays a program, and lets the tasks go on in its pauses. -/
def play {α : Type} : Play α → Site → α × Site
  | .done a, s => (a, s)
  | .ask (.pause d) next, s => play (next ()) (s.passTo (Loop.wake s.now d))
  | .ask q next, s =>
    let (answer, w) := World.handler.answer q s.world
    play (next answer) { s with world := w }

/-- Begins a task, which goes on for the first time when time passes. Gives its number. -/
def begin (l : Labour) (s : Site) : Nat × Site :=
  (s.begun, { s with
    tasks := s.tasks ++ [⟨s.begun, .time s.now, none, .ready l⟩]
    begun := s.begun + 1 })

/-- Tells a task to stop. If it goes on at this instant for no other reason, it does so after all
others. -/
def tell (id : Nat) (s : Site) : Site :=
  let told (t : Labourer) : Labourer :=
    if t.id = id then { t with stoppedAt := some s.now } else t
  let isWoken (t : Labourer) : Bool := !t.isDue s.now && (told t).isDue s.now
  { s with tasks := (s.tasks.filter (!isWoken ·) ++ s.tasks.filter isWoken).map told }

/-- Tells a task to stop, waits for it as long as there is patience, and then aborts it. -/
def dismiss (id patience : Nat) (s : Site) : Site :=
  if s.has id then
    let s := (s.tell id).passUntil (fun s => !s.has id) (s.now + patience) s.now
    { s with tasks := s.tasks.filter (·.id ≠ id) }
  else s

/-- What the work has seen, in the order of time, and the site with its log started anew. -/
def takeLog (s : Site) : List LogEntry × Site :=
  (s.world.log.reverse, { s with world := { s.world with log := [] } })

end Site

end LeasedWork.Rehearsal
