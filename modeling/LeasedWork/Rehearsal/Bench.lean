import LeasedWork.Rehearsal.Background
import LeasedWork.Rehearsal.Step

/-!
# The bench

A bench holds all that a rehearsal works with: a site and a shelf. A scene of the rehearsal is a
step, or a shift: a task begins to work in the background, further scenes are played at set times,
and then the task is told to stop. Among these scenes there may be shifts again, so that several
tasks work at once. `Bench.play` gives the report on a scene.
-/

namespace LeasedWork.Rehearsal

/-! ## Scenes -/

/-- What works in the background during a shift. -/
inductive Duty
  | lead (candidate : String)
  | work (node : String) (kind : BuiltIn) (settings : WorkerSettings) (turns : List Turn)
  | plan (node : String) (settings : WorkerSettings) (pages : List ScriptedPage)

/-- What is played. -/
inductive Scene
  | step (s : Step)
  /-- The events are scenes at a time, in milliseconds since the start of the shift. The shutdown
  of a task that is on a roster does not wait for ever. -/
  | shift (duty : Duty) (events : List (Nat × List Scene)) (onRoster : Bool)

/-- What came of a scene. -/
inductive SceneReport
  | step (reply : Except Refusal Reply)
  /-- What came of the scenes of each event and what was logged up to then, whether the task was
  still running when it was told to stop, how far the clock has moved, in milliseconds, and what
  was logged in the end. -/
  | shift (events : List (List SceneReport × List LogEntry)) (wasRunning : Bool) (moved : Int)
      (log : List LogEntry)

/-! ## Playing -/

structure Bench where
  site : Site
  shelf : Shelf

namespace Bench

def starting (w : World) : Bench := ⟨.starting w, .empty⟩

/-- Begins a shift's task. A candidate is gone from the shelf after it. -/
def begin (duty : Duty) (b : Bench) : Except Refusal (Nat × Bench) :=
  let during (l : Labour) (shelf : Shelf) : Nat × Bench :=
    let (id, site) := b.site.begin l
    (id, ⟨site, shelf⟩)
  match duty with
  | .lead name =>
    match b.shelf.candidates.lookup name with
    | none => .error .noSlot
    | some c =>
      .ok (during (.lead c) { b.shelf with candidates := remove name b.shelf.candidates })
  | .work node kind settings turns =>
    match b.site.world.members.lookup node with
    | none => .error .unknownName
    | some m => .ok (during (.work m.node kind settings turns) b.shelf)
  | .plan node settings pages =>
    match b.site.world.members.lookup node with
    | none => .error .unknownName
    | some m => .ok (during (.plan m.node settings (supplier pages)) b.shelf)

/-- How long the end of a task is waited for. Off a roster it is as long as anything can last. -/
def patience (onRoster : Bool) : Nat := if onRoster then Roster.defaultTimeout else Sleep.longest

mutual

/-- Plays a scene from its start to its end. -/
def play : Scene → Bench → SceneReport × Bench
  | .step s, b =>
    let ((reply, shelf), site) := b.site.play (b.shelf.take s)
    (.step reply, ⟨site, shelf⟩)
  | .shift duty events onRoster, b =>
    match b.begin duty with
    | .error refusal => (.step (.error refusal), b)
    | .ok (id, c) =>
      let (reports, c) := playEvents b.site.now events c
      let (log, site) := (c.site.dismiss id (patience onRoster)).takeLog
      let moved := (site.world.now.nanosSince b.site.world.now).tdiv nanosPerMilli
      (.shift reports (c.site.has id) moved log, { c with site := site })

/-- Plays scenes at their times since `start`, and takes the log after each time. -/
def playEvents (start : Nat) :
    List (Nat × List Scene) → Bench → List (List SceneReport × List LogEntry) × Bench
  | [], b => ([], b)
  | (time, scenes) :: rest, b =>
    let (reports, b) := playAll scenes { b with site := b.site.passTo (start + time) }
    let (log, site) := b.site.takeLog
    let (others, b) := playEvents start rest { b with site := site }
    ((reports, log) :: others, b)

/-- Plays scenes in turn. -/
def playAll : List Scene → Bench → List SceneReport × Bench
  | [], b => ([], b)
  | s :: rest, b =>
    let (report, b) := play s b
    let (others, b) := playAll rest b
    (report :: others, b)

end

end Bench

end LeasedWork.Rehearsal
