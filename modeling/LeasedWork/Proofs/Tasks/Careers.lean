import LeasedWork.Proofs.Tasks.Shutdowns
import Mathlib.Data.List.Dedup
import Mathlib.Data.List.Perm.Basic

/-! # Careers

A task passes through several hands: the roster's table, the place of a task that was replaced, the
line of those a shutdown waits for, and the drop of the roster.  Its *career* is told beside all
that (`Roster.Career`): the task goes on by itself from the moment at which it was spawned, is told
to stop at some moment, and is cut off at another one, if it ever is.  No operation of the roster
reads it.

A `Roster.Chronicle` is a roster at a time with the careers of all tasks that were ever spawned on
it.  At every moment of every chronicle, also while a sleep or a shutdown lasts, the roster holds
just the careers that were not cut off, and what it has let go of are the others
(`Chronicle.Faithful`).  A career that was cut off is over and stays as it is.  From these two facts
follows what is promised of rosters: at most one task of a name goes on at a time, and none outlives
its roster (`Roster.Chronicle.no_task_outlives`).
-/
namespace LeasedWork.Roster

variable {σ : Type}

/-- What happens to a roster. -/
inductive Event (σ : Type)
  | spawn (name : String) (s : σ)
  | sleep (time : Nat)
  | shutdown (timeout : Nat)
  /-- The roster is given up. -/
  | dispose

/-- Whether an event ends the time in which tasks are spawned. -/
def Event.isStop : Event σ → Bool
  | .spawn _ _ | .sleep _ => false
  | .shutdown _ | .dispose => true

/-- The tasks that are spawned before the first shutdown and before the roster is given up. -/
def spawned : List (Event σ) → List (String × σ)
  | [] => []
  | .spawn name s :: rest => (name, s) :: spawned rest
  | .sleep _ :: rest => spawned rest
  | .shutdown _ :: _ | .dispose :: _ => []

/-! ## The career of one task -/

/-- The life of a task that was spawned under a name at a time, from its first state on. -/
structure Career (σ : Type) where
  name : String
  begun : Nat
  first : σ
  /-- When it was told to stop. -/
  toldAt : Option Nat
  /-- When it was cut off, whether it was over by then or not. -/
  cutAt : Option Nat

namespace Career

variable {b : Behaviour σ} {now later : Nat} {k : Career σ}

def isCut (k : Career σ) : Bool := k.cutAt.isSome

/-- The process by itself, through all instants before a limit. -/
def alone (b : Behaviour σ) (limit : Nat) (k : Career σ) : Process σ :=
  (Process.starting k.begun k.first).runTo b k.toldAt limit k.begun

/-- The process at a time. -/
def process (b : Behaviour σ) (now : Nat) (k : Career σ) : Process σ :=
  match k.cutAt with
  | none => k.alone b now
  | some cut => (k.alone b cut).abort

/-- Told to stop at a time, unless it was cut off before. -/
def tell (time : Nat) (k : Career σ) : Career σ :=
  if k.isCut then k else { k with toldAt := some time }

/-- Cut off at a time, perhaps told to stop before. -/
def stop (toldAt : Option Nat) (time : Nat) (k : Career σ) : Career σ :=
  if k.isCut then k else { k with toldAt := toldAt, cutAt := some time }

theorem process_of_isCut_eq_false (h : k.isCut = false) : k.process b now = k.alone b now := by
  have hcut : k.cutAt = none := by simpa [isCut] using h
  rw [process, hcut]

theorem isRunning_process (h : k.isCut = true) : (k.process b now).isRunning = false := by
  obtain ⟨cut, hcut⟩ := Option.isSome_iff_exists.mp h
  rw [process, hcut]
  exact Process.isRunning_abort _

/-- What was cut off stays as it is. -/
theorem process_of_isCut (h : k.isCut = true) : k.process b later = k.process b now := by
  obtain ⟨cut, hcut⟩ := Option.isSome_iff_exists.mp h
  rw [process, process, hcut]

@[simp] theorem isCut_stop (toldAt : Option Nat) (time : Nat) :
    (k.stop toldAt time).isCut = true := by
  unfold stop
  split
  · assumption
  · rfl

theorem stop_of_isCut (h : k.isCut = true) (toldAt : Option Nat) (time : Nat) :
    k.stop toldAt time = k := if_pos h

theorem process_stop (h : k.isCut = false) (toldAt : Option Nat) (time : Nat) :
    (k.stop toldAt time).process b now =
      (Career.alone b time { k with toldAt := toldAt }).abort := by
  rw [stop, if_neg (by simp [h])]
  rfl

/-- A task that is told to stop goes on from where it is. -/
theorem alone_told {limit : Nat} (htold : k.toldAt = none) (hbegun : k.begun ≤ now)
    (hlimit : now ≤ limit) :
    Career.alone b limit { k with toldAt := some now } =
      (k.alone b now).runTo b (some now) limit now := by
  rw [alone, alone, htold, ← Process.runTo_some (Nat.le_refl now),
    Process.runTo_runTo hbegun hlimit]

@[simp] theorem isCut_tell (time : Nat) : (k.tell time).isCut = k.isCut := by
  unfold tell
  split <;> rfl

@[simp] theorem name_stop (toldAt : Option Nat) (time : Nat) :
    (k.stop toldAt time).name = k.name := by
  unfold stop
  split <;> rfl

@[simp] theorem name_tell (time : Nat) : (k.tell time).name = k.name := by
  unfold tell
  split <;> rfl

@[simp] theorem first_stop (toldAt : Option Nat) (time : Nat) :
    (k.stop toldAt time).first = k.first := by
  unfold stop
  split <;> rfl

end Career

/-! ## Careers that end together -/

section Lists

variable {b : Behaviour σ} {toldAt : Option Nat} {time now : Nat} (isMeant : String → Bool)
  (careers : List (Career σ))

/-- The careers that are not cut off. -/
def current (careers : List (Career σ)) : List (Career σ) := careers.filter (!·.isCut)

/-- Those that are. -/
def former (careers : List (Career σ)) : List (Career σ) := careers.filter (·.isCut)

/-- The names and the first states of the tasks. -/
def begins (careers : List (Career σ)) : List (String × σ) :=
  careers.map fun k => (k.name, k.first)

/-- Cuts the careers of certain names off. -/
def stopAll (isMeant : String → Bool) (toldAt : Option Nat) (time : Nat)
    (careers : List (Career σ)) : List (Career σ) :=
  careers.map fun k => if isMeant k.name then k.stop toldAt time else k

theorem current_stopAll :
    current (stopAll isMeant toldAt time careers) =
      (current careers).filter (!isMeant ·.name) := by
  induction careers with
  | nil => rfl
  | cons k rest ih =>
    simp only [current, stopAll, List.map_cons, List.filter_cons] at ih ⊢
    by_cases hmeant : isMeant k.name = true
    · by_cases hcut : k.isCut = true <;> simp [hmeant, hcut, ih]
    · by_cases hcut : k.isCut = true <;> simp [hmeant, hcut, ih]

theorem former_stopAll :
    (former (stopAll isMeant toldAt time careers)).Perm
      (former careers ++
        ((current careers).filter (isMeant ·.name)).map (·.stop toldAt time)) := by
  induction careers with
  | nil => exact .refl _
  | cons k rest ih =>
    simp only [former, current, stopAll, List.map_cons, List.filter_cons] at ih ⊢
    by_cases hmeant : isMeant k.name = true
    · by_cases hcut : k.isCut = true
      · simpa [hmeant, hcut, Career.stop_of_isCut hcut] using ih
      · simpa [hmeant, hcut] using (ih.cons _).trans List.perm_middle.symm
    · by_cases hcut : k.isCut = true
      · simpa [hmeant, hcut] using ih
      · simpa [hmeant, hcut] using ih

end Lists

/-! ## Chronicles -/

/-- A roster at a time, and the careers of all tasks that were ever spawned on it. -/
structure Chronicle (σ : Type) where
  now : Nat
  roster : Roster σ
  careers : List (Career σ)

namespace Chronicle

variable {b : Behaviour σ} {c : Chronicle σ} {e : Event σ}

def starting : Chronicle σ := ⟨0, .empty, []⟩

/-- What becomes of the careers.  Once the roster is shutting down, nothing does. -/
def careersAfter (e : Event σ) (c : Chronicle σ) : List (Career σ) :=
  if c.roster.isShuttingDown then c.careers
  else
    match e with
    | .spawn name s =>
      stopAll (· = name) none c.now c.careers ++ [⟨name, c.now, s, none, none⟩]
    | .sleep _ => c.careers
    | .shutdown timeout => stopAll (fun _ => true) (some c.now) (c.now + timeout) c.careers
    | .dispose => stopAll (fun _ => true) (some c.now) c.now c.careers

/-- The chronicle after an event. -/
def after (b : Behaviour σ) (e : Event σ) (c : Chronicle σ) : Chronicle σ where
  now :=
    match e with
    | .spawn _ _ | .dispose => c.now
    | .sleep time => c.now + time
    | .shutdown timeout => (c.roster.shutdown b timeout c.now).2
  roster :=
    match e with
    | .spawn name s => c.roster.spawn c.now name s
    | .sleep time => c.roster.runTo b (c.now + time) c.now
    | .shutdown timeout => (c.roster.shutdown b timeout c.now).1
    | .dispose => c.roster.dispose c.now
  careers := c.careersAfter e

/-- The chronicle after some events. -/
def onward (b : Behaviour σ) (events : List (Event σ)) (c : Chronicle σ) : Chronicle σ :=
  events.foldl (fun c e => c.after b e) c

def run (b : Behaviour σ) (events : List (Event σ)) : Chronicle σ := starting.onward b events

/-- What is to be seen at a time while an event lasts.  During a shutdown all tasks run on, and have
been told to stop. -/
def during (b : Behaviour σ) (e : Event σ) (time : Nat) (c : Chronicle σ) : Chronicle σ :=
  match e with
  | .spawn _ _ | .dispose => c
  | .sleep _ => { c with now := time, roster := c.roster.runTo b time c.now }
  | .shutdown _ =>
    if c.roster.isShuttingDown then c
    else
      { now := time
        roster := Roster.runTo b time c.now { c.roster with stoppedAt := some c.now }
        careers := c.careers.map (·.tell c.now) }

/-- The roster holds the careers that are not cut off, each under a name of its own, and has let go
of the others. -/
structure Faithful (b : Behaviour σ) (c : Chronicle σ) : Prop where
  tasks : c.roster.tasks = (current c.careers).map fun k => (k.name, k.process b c.now)
  past : c.roster.past.Perm ((former c.careers).map (·.process b c.now))
  names : ((current c.careers).map (·.name)).Nodup
  told : ∀ k ∈ current c.careers, k.toldAt = c.roster.stoppedAt
  begun : ∀ k ∈ current c.careers, k.begun ≤ c.now

theorem faithful_starting : Faithful b (starting (σ := σ)) where
  tasks := rfl
  past := .refl _
  names := List.nodup_nil
  told _ hk := nomatch hk
  begun _ hk := nomatch hk

theorem isCut_of_mem_current {k : Career σ} {careers : List (Career σ)} (h : k ∈ current careers) :
    k.isCut = false := by
  simpa using (List.mem_filter.mp h).2

theorem isCut_of_mem_former {k : Career σ} {careers : List (Career σ)} (h : k ∈ former careers) :
    k.isCut = true := (List.mem_filter.mp h).2

/-- What the roster has let go of is over. -/
theorem Faithful.finished (h : c.Faithful b) : ∀ p ∈ c.roster.past, p.isRunning = false := by
  intro p hp
  obtain ⟨k, hk, rfl⟩ := List.mem_map.mp (h.past.mem_iff.mp hp)
  exact Career.isRunning_process (isCut_of_mem_former hk)

/-- The roster of a chronicle stands as a shutdown asks for. -/
theorem Faithful.orderly (h : c.Faithful b) : c.roster.Orderly c.now where
  held t ht := by
    rw [h.tasks] at ht
    obtain ⟨k, hk, rfl⟩ := List.mem_map.mp ht
    rw [Career.process_of_isCut_eq_false (isCut_of_mem_current hk)]
    exact Process.Held.runTo trivial (h.begun k hk)
  names := by
    rw [h.tasks, List.map_map]
    exact h.names
  finished := h.finished

theorem stoppedAt_of_open (hopen : c.roster.isShuttingDown = false) :
    c.roster.stoppedAt = none := by
  simpa [isShuttingDown] using hopen

/-- Time takes the careers on as it takes the tasks of the roster. -/
theorem Faithful.runTo {time : Nat} (h : c.Faithful b) (htime : c.now ≤ time) :
    Faithful b { c with now := time, roster := c.roster.runTo b time c.now } where
  tasks := by
    rw [Roster.runTo, h.tasks, List.map_map]
    refine List.map_congr_left fun k hk => ?_
    have hcut := isCut_of_mem_current hk
    simp only [Function.comp_apply, Career.process_of_isCut_eq_false hcut]
    -- the roster goes on from `c.now`, the career from its beginning
    rw [Career.alone, h.told k hk, Process.runTo_runTo (h.begun k hk) htime, ← h.told k hk]
    rfl
  past := by
    rw [Roster.runTo, map_runTo_of_over h.finished]
    refine h.past.trans (List.Perm.of_eq (List.map_congr_left fun k hk => ?_))
    exact Career.process_of_isCut (isCut_of_mem_former hk)
  names := h.names
  told := h.told
  begun k hk := (h.begun k hk).trans htime

/-! ### One event -/

/-- When careers are cut off, the roster's tasks of their names go, -/
theorem Faithful.tasks_stopAll (h : c.Faithful b) (isMeant : String → Bool) (toldAt : Option Nat)
    (time : Nat) :
    (current (stopAll isMeant toldAt time c.careers)).map (fun k => (k.name, k.process b c.now)) =
      c.roster.tasks.filter (!isMeant ·.1) := by
  rw [current_stopAll, h.tasks, List.filter_map]
  rfl

/-- and what becomes of them joins what the roster has let go of. -/
theorem Faithful.past_stopAll {later time : Nat} {toldAt : Option Nat} {g : Process σ → Process σ}
    (h : c.Faithful b) (isMeant : String → Bool)
    (hg : ∀ k ∈ current c.careers, (k.stop toldAt time).process b later = g (k.process b c.now)) :
    (c.roster.past ++ (c.roster.tasks.filter (isMeant ·.1)).map fun t => g t.2).Perm
      ((former (stopAll isMeant toldAt time c.careers)).map (·.process b later)) := by
  have hformer : (former c.careers).map (·.process b c.now) =
      (former c.careers).map (·.process b later) :=
    List.map_congr_left fun k hk => Career.process_of_isCut (isCut_of_mem_former hk)
  have hcut : (c.roster.tasks.filter (isMeant ·.1)).map (fun t => g t.2) =
      (((current c.careers).filter (isMeant ·.name)).map (·.stop toldAt time)).map
        (·.process b later) := by
    rw [h.tasks, List.filter_map, List.map_map, List.map_map]
    exact List.map_congr_left fun k hk => (hg k (List.mem_of_mem_filter hk)).symm
  refine List.Perm.trans ?_ ((former_stopAll isMeant c.careers).map _).symm
  rw [List.map_append, hcut, ← hformer]
  exact h.past.append_right _

theorem Faithful.toldAt_of_open {k : Career σ} (h : c.Faithful b)
    (hopen : c.roster.isShuttingDown = false) (hk : k ∈ current c.careers) : k.toldAt = none :=
  (h.told k hk).trans (stoppedAt_of_open hopen)

/-- A task that is told to stop and cut off at a time has the outcome that a process has. -/
theorem Faithful.process_stop {k : Career σ} {later time : Nat} (h : c.Faithful b)
    (hopen : c.roster.isShuttingDown = false) (htime : c.now ≤ time) (hk : k ∈ current c.careers) :
    (k.stop (some c.now) time).process b later = (k.process b c.now).outcome b c.now time := by
  have hcut := isCut_of_mem_current hk
  rw [Career.process_stop hcut, Career.alone_told (h.toldAt_of_open hopen hk) (h.begun k hk) htime,
    Career.process_of_isCut_eq_false hcut]
  rfl

/-- Tasks that are replaced have their careers cut off. -/
theorem Faithful.replaced (h : c.Faithful b) (hopen : c.roster.isShuttingDown = false)
    (name : String) :
    Faithful b
      ⟨c.now,
        { c.roster with
          tasks := c.roster.tasks.filter fun t => t.1 ≠ name
          past := c.roster.past ++
            (c.roster.tasks.filter fun t => t.1 = name).map fun t => t.2.abort },
        stopAll (· = name) none c.now c.careers⟩ := by
  have hkept : ∀ k ∈ current (stopAll (· = name) none c.now c.careers), k ∈ current c.careers := by
    intro k hk
    rw [current_stopAll] at hk
    exact List.mem_of_mem_filter hk
  constructor
  · simp only [ne_eq, decide_not]
    exact (h.tasks_stopAll (· = name) none c.now).symm
  · refine h.past_stopAll (· = name) fun k hk => ?_
    have hcut := isCut_of_mem_current hk
    rw [Career.process_stop hcut, ← h.toldAt_of_open hopen hk,
      Career.process_of_isCut_eq_false hcut]
  · rw [current_stopAll]
    exact h.names.sublist (List.filter_sublist.map _)
  · exact fun k hk => h.told k (hkept k hk)
  · exact fun k hk => h.begun k (hkept k hk)

/-- A task that is new under its name begins a career. -/
theorem Faithful.joined (h : c.Faithful b) (hopen : c.roster.isShuttingDown = false)
    {name : String} (hnew : ∀ t ∈ c.roster.tasks, t.1 ≠ name) (s : σ) :
    Faithful b
      ⟨c.now, { c.roster with tasks := c.roster.tasks ++ [(name, .starting c.now s)] },
        c.careers ++ [⟨name, c.now, s, none, none⟩]⟩ := by
  have hcurrent : current (c.careers ++ [⟨name, c.now, s, none, none⟩]) =
      current c.careers ++ [⟨name, c.now, s, none, none⟩] := List.filter_append _ _
  have hformer : former (c.careers ++ [⟨name, c.now, s, none, none⟩]) = former c.careers := by
    rw [former, List.filter_append]
    exact List.append_nil _
  have hprocess : Career.process b c.now ⟨name, c.now, s, none, none⟩ = .starting c.now s :=
    Process.runTo_of_le (Nat.le_refl c.now)
  constructor
  · rw [hcurrent, List.map_append, List.map_singleton, hprocess, h.tasks]
  · rw [hformer]
    exact h.past
  · rw [hcurrent, List.map_append, List.nodup_append]
    refine ⟨h.names, List.nodup_singleton _, fun other hother last hlast => ?_⟩
    obtain rfl := List.mem_singleton.mp hlast
    obtain ⟨k, hk, rfl⟩ := List.mem_map.mp hother
    refine hnew (k.name, k.process b c.now) ?_
    rw [h.tasks]
    exact List.mem_map_of_mem hk
  · intro k hk
    rw [hcurrent] at hk
    rcases List.mem_append.mp hk with hold | hlast
    · exact h.told k hold
    · obtain rfl := List.mem_singleton.mp hlast
      exact (stoppedAt_of_open hopen).symm
  · intro k hk
    rw [hcurrent] at hk
    rcases List.mem_append.mp hk with hold | hlast
    · exact h.begun k hold
    · obtain rfl := List.mem_singleton.mp hlast
      exact Nat.le_refl c.now

theorem Faithful.after_spawn (h : c.Faithful b) (hopen : c.roster.isShuttingDown = false)
    (name : String) (s : σ) : Faithful b (c.after b (.spawn name s)) := by
  have hnew : ∀ t ∈ c.roster.tasks.filter (fun t => t.1 ≠ name), t.1 ≠ name := by
    intro t ht
    simpa using (List.mem_filter.mp ht).2
  -- the one that is replaced goes first, so the name is free for the new one
  have hjoined := (h.replaced hopen name).joined hopen hnew s
  simpa only [after, spawn, careersAfter, hopen, Bool.false_eq_true, if_false] using hjoined

/-- When all careers are cut off, the roster holds nothing and keeps what became of its tasks. -/
theorem Faithful.stopped {time : Nat} (later : Nat) (h : c.Faithful b)
    (hopen : c.roster.isShuttingDown = false) (htime : c.now ≤ time) :
    Faithful b
      ⟨later,
        ⟨[], c.roster.past ++ c.roster.tasks.map (fun t => t.2.outcome b c.now time), some c.now⟩,
        stopAll (fun _ => true) (some c.now) time c.careers⟩ := by
  have hnone : current (stopAll (fun _ => true) (some c.now) time c.careers) = [] := by
    rw [current_stopAll]
    simp
  constructor
  · rw [hnone]
    rfl
  · have houtcome : ∀ k ∈ current c.careers, (k.stop (some c.now) time).process b later =
        (k.process b c.now).outcome b c.now time := fun k hk => h.process_stop hopen htime hk
    have hpast := h.past_stopAll (fun _ => true) houtcome
    rwa [List.filter_eq_self.mpr fun _ _ => rfl] at hpast
  · rw [hnone]
    exact List.nodup_nil
  · intro k hk
    rw [hnone] at hk
    cases hk
  · intro k hk
    rw [hnone] at hk
    cases hk

/-- While a shutdown waits, the careers go on as those of tasks that have been told to stop. -/
theorem Faithful.told_to_stop {time : Nat} (h : c.Faithful b)
    (hopen : c.roster.isShuttingDown = false) (htime : c.now ≤ time) :
    Faithful b
      ⟨time, Roster.runTo b time c.now { c.roster with stoppedAt := some c.now },
        c.careers.map (·.tell c.now)⟩ := by
  have hcurrent : current (c.careers.map (·.tell c.now)) =
      (current c.careers).map (·.tell c.now) := by
    rw [current, List.filter_map, current]
    simp only [Function.comp_def, Career.isCut_tell]
  have hformer : former (c.careers.map (·.tell c.now)) = former c.careers := by
    rw [former, List.filter_map, former]
    simp only [Function.comp_def, Career.isCut_tell]
    conv_rhs => rw [← List.map_id (List.filter _ _)]
    exact List.map_congr_left fun k hk => if_pos (isCut_of_mem_former hk)
  have htell : ∀ k ∈ current c.careers, k.tell c.now = { k with toldAt := some c.now } :=
    fun k hk => if_neg (by simp [isCut_of_mem_current hk])
  constructor
  · rw [hcurrent, Roster.runTo, h.tasks, List.map_map, List.map_map]
    refine List.map_congr_left fun k hk => ?_
    have hcut := isCut_of_mem_current hk
    simp only [Function.comp_apply, htell k hk, Career.process_of_isCut_eq_false hcut]
    rw [Career.process_of_isCut_eq_false (k := { k with toldAt := some c.now }) hcut,
      Career.alone_told (h.toldAt_of_open hopen hk) (h.begun k hk) htime]
  · rw [hformer, Roster.runTo, map_runTo_of_over h.finished]
    refine h.past.trans (List.Perm.of_eq (List.map_congr_left fun k hk => ?_))
    exact Career.process_of_isCut (isCut_of_mem_former hk)
  · rw [hcurrent, List.map_map]
    simpa only [Function.comp_def, Career.name_tell] using h.names
  · intro k hk
    rw [hcurrent] at hk
    obtain ⟨first, hfirst, rfl⟩ := List.mem_map.mp hk
    rw [htell first hfirst]
    rfl
  · intro k hk
    rw [hcurrent] at hk
    obtain ⟨first, hfirst, rfl⟩ := List.mem_map.mp hk
    rw [htell first hfirst]
    exact (h.begun first hfirst).trans htime

/-- Once the roster is shutting down, only time goes on. -/
theorem after_of_isShuttingDown (hstop : c.roster.isShuttingDown = true)
    (he : ∀ time, e ≠ .sleep time) : c.after b e = c := by
  cases e with
  | sleep time => exact absurd rfl (he time)
  | spawn name s => simp only [after, spawn, careersAfter, hstop, if_true]
  | shutdown timeout =>
    simp only [after, shutdown_of_isShuttingDown hstop, careersAfter, hstop, if_true]
  | dispose => simp only [after, dispose, careersAfter, hstop, if_true]

/-- **Every event keeps the account.** -/
theorem Faithful.after (h : c.Faithful b) (e : Event σ) : Faithful b (c.after b e) := by
  cases e with
  | sleep time =>
    have hcareers : c.careersAfter (.sleep time) = c.careers := ite_self _
    have hrun := h.runTo (Nat.le_add_right c.now time)
    rwa [← hcareers] at hrun
  | spawn name s =>
    by_cases hstop : c.roster.isShuttingDown = true
    · rwa [after_of_isShuttingDown hstop (by simp)]
    · exact h.after_spawn (Bool.eq_false_iff.mpr hstop) name s
  | shutdown timeout =>
    by_cases hstop : c.roster.isShuttingDown = true
    · rwa [after_of_isShuttingDown hstop (by simp)]
    · have hopen := Bool.eq_false_iff.mpr hstop
      have hstopped := h.stopped (c.roster.shutdown b timeout c.now).2 hopen
        (Nat.le_add_right c.now timeout)
      rw [shutdown_of_open hopen h.finished] at hstopped
      simp only [Chronicle.after, careersAfter, hopen, Bool.false_eq_true, if_false]
      rwa [shutdown_of_open hopen h.finished]
  | dispose =>
    by_cases hstop : c.roster.isShuttingDown = true
    · rwa [after_of_isShuttingDown hstop (by simp)]
    · have hopen := Bool.eq_false_iff.mpr hstop
      have hstopped := h.stopped c.now hopen (Nat.le_refl c.now)
      -- to be given up is to be told to stop with no time left
      have houtcome : ∀ t ∈ c.roster.tasks, t.2.outcome b c.now c.now = t.2.abort :=
        fun t _ => congrArg Process.abort (Process.runTo_of_le (Nat.le_refl c.now))
      rw [List.map_congr_left houtcome] at hstopped
      simpa only [Chronicle.after, Roster.dispose, careersAfter, hopen, Bool.false_eq_true,
        if_false] using hstopped

/-- The account also holds at every moment while an event lasts. -/
theorem Faithful.during {time : Nat} (h : c.Faithful b) (e : Event σ) (htime : c.now ≤ time) :
    Faithful b (c.during b e time) := by
  cases e with
  | spawn name s | dispose => exact h
  | sleep length => exact h.runTo htime
  | shutdown timeout =>
    by_cases hstop : c.roster.isShuttingDown = true
    · rwa [Chronicle.during, if_pos hstop]
    · rw [Chronicle.during, if_neg hstop]
      exact h.told_to_stop (Bool.eq_false_iff.mpr hstop) htime

/-! ### Many events -/

variable {events : List (Event σ)}

theorem onward_cons (e : Event σ) (rest : List (Event σ)) :
    c.onward b (e :: rest) = (c.after b e).onward b rest := rfl

theorem run_append (events rest : List (Event σ)) :
    run b (events ++ rest) = (run b events).onward b rest := List.foldl_append

/-- What holds at the start and after every event holds after every run. -/
theorem run_induction {motive : Chronicle σ → Prop} (hstart : motive starting)
    (hafter : ∀ c, motive c → ∀ e, motive (c.after b e)) (events : List (Event σ)) :
    motive (run b events) :=
  List.foldlRecOn events _ hstart fun c hc e _ => hafter c hc e

theorem faithful_run (b : Behaviour σ) (events : List (Event σ)) : (run b events).Faithful b :=
  run_induction faithful_starting (fun _ h => h.after) events

/-! ### What stays -/

/-- Careers that are cut off stay as they are, and new ones are told after the old ones. -/
theorem exists_careersAfter (e : Event σ) (c : Chronicle σ) :
    ∃ (f : Career σ → Career σ) (added : List (Career σ)), (∀ k, k.isCut = true → f k = k) ∧
      c.careersAfter e = c.careers.map f ++ added := by
  unfold careersAfter
  split
  · exact ⟨id, [], fun _ _ => rfl, by simp⟩
  · cases e with
    | spawn name s =>
      refine ⟨_, _, fun k hk => ?_, rfl⟩
      simp only [Career.stop_of_isCut hk, ite_self]
    | sleep time => exact ⟨id, [], fun _ _ => rfl, by simp⟩
    | shutdown timeout | dispose =>
      refine ⟨_, [], fun k hk => ?_, (List.append_nil _).symm⟩
      simp only [Career.stop_of_isCut hk, ite_self]

theorem careersAfter_of_open (hopen : c.roster.isShuttingDown = false) :
    c.careersAfter e =
      match e with
      | .spawn name s =>
        stopAll (· = name) none c.now c.careers ++ [⟨name, c.now, s, none, none⟩]
      | .sleep _ => c.careers
      | .shutdown timeout => stopAll (fun _ => true) (some c.now) (c.now + timeout) c.careers
      | .dispose => stopAll (fun _ => true) (some c.now) c.now c.careers :=
  if_neg (by simp [hopen])

theorem getElem_careers_after {i : Nat} {k : Career σ} (hcut : k.isCut = true)
    (hk : c.careers[i]? = some k) : (c.after b e).careers[i]? = some k := by
  obtain ⟨f, added, hf, hcareers⟩ := exists_careersAfter e c
  have hlt : i < (c.careers.map f).length := by
    rw [List.length_map]
    exact (List.getElem?_eq_some_iff.mp hk).1
  show (c.careersAfter e)[i]? = _
  rw [hcareers, List.getElem?_append_left hlt, List.getElem?_map, hk, Option.map_some, hf k hcut]

theorem getElem_careers_onward {i : Nat} {k : Career σ} (hcut : k.isCut = true)
    (hk : c.careers[i]? = some k) :
    (c.onward b events).careers[i]? = some k := by
  induction events generalizing c with
  | nil => exact hk
  | cons e rest ih => exact ih (getElem_careers_after hcut hk)

theorem isShuttingDown_after (e : Event σ) (c : Chronicle σ) :
    (c.after b e).roster.isShuttingDown = (c.roster.isShuttingDown || e.isStop) := by
  by_cases hstop : c.roster.isShuttingDown = true
  · rw [hstop, Bool.true_or]
    cases e with
    | sleep time => exact hstop
    | spawn name s | shutdown timeout | dispose => rwa [after_of_isShuttingDown hstop (by simp)]
  · rw [Bool.eq_false_iff.mpr hstop, Bool.false_or]
    cases e with
    | spawn name s =>
      rw [after, spawn, if_neg hstop]
      exact Bool.eq_false_iff.mpr hstop
    | sleep time => exact Bool.eq_false_iff.mpr hstop
    | shutdown timeout =>
      rw [after, shutdown, if_neg hstop]
      rfl
    | dispose =>
      rw [after, dispose, if_neg hstop]
      rfl

theorem isShuttingDown_onward :
    (c.onward b events).roster.isShuttingDown =
      (c.roster.isShuttingDown || events.any Event.isStop) := by
  induction events generalizing c with
  | nil => exact (Bool.or_false _).symm
  | cons e rest ih => rw [onward_cons, ih, isShuttingDown_after, Bool.or_assoc, List.any_cons]

/-- A run is shutting down when a shutdown has returned or the roster was given up. -/
theorem isShuttingDown_run :
    (run b events).roster.isShuttingDown = events.any Event.isStop := isShuttingDown_onward

/-! ### Who has a career -/

theorem begins_stopAll (isMeant : String → Bool) (toldAt : Option Nat) (time : Nat)
    (careers : List (Career σ)) :
    begins (stopAll isMeant toldAt time careers) = begins careers := by
  rw [begins, stopAll, List.map_map]
  refine List.map_congr_left fun k _ => ?_
  rw [Function.comp_apply]
  split
  · rw [Career.name_stop, Career.first_stop]
  · rfl

theorem begins_after (hopen : c.roster.isShuttingDown = false) (e : Event σ) :
    begins (c.after b e).careers = begins c.careers ++ spawned [e] := by
  show begins (c.careersAfter e) = _
  cases e with
  | spawn name s =>
    rw [careersAfter_of_open hopen, begins, List.map_append]
    exact congrArg (· ++ _) (begins_stopAll _ _ _ c.careers)
  | sleep time =>
    rw [careersAfter_of_open hopen]
    exact (List.append_nil _).symm
  | shutdown timeout | dispose =>
    rw [careersAfter_of_open hopen, begins_stopAll]
    exact (List.append_nil _).symm

/-- Once a roster is shutting down, none begins a career and no career changes. -/
theorem careers_onward_of_isShuttingDown (hstop : c.roster.isShuttingDown = true) :
    (c.onward b events).careers = c.careers := by
  induction events generalizing c with
  | nil => rfl
  | cons e rest ih =>
    rw [onward_cons, ih (by rw [isShuttingDown_after, hstop, Bool.true_or])]
    exact if_pos hstop

theorem spawned_cons (e : Event σ) (rest : List (Event σ)) :
    spawned (e :: rest) = spawned [e] ++ if e.isStop then [] else spawned rest := by
  cases e <;> rfl

theorem begins_onward (hopen : c.roster.isShuttingDown = false) :
    begins (c.onward b events).careers = begins c.careers ++ spawned events := by
  induction events generalizing c with
  | nil => exact (List.append_nil _).symm
  | cons e rest ih =>
    have hstop := isShuttingDown_after (b := b) e c
    rw [hopen, Bool.false_or] at hstop
    rw [onward_cons, spawned_cons]
    by_cases he : e.isStop = true
    · rw [careers_onward_of_isShuttingDown (hstop.trans he), begins_after hopen, if_pos he,
        List.append_nil]
    · rw [ih (hstop.trans (Bool.eq_false_iff.mpr he)), begins_after hopen, if_neg he,
        List.append_assoc]

/-- **The careers of a run are those of the tasks that are spawned while the roster is open.** -/
theorem begins_run : begins (run b events).careers = spawned events := begins_onward rfl

/-! ### Which careers are left -/

/-- As long as a roster is open each name that ever had a career has one that is not cut off, and
when it is shutting down there is none. -/
structure Settled (c : Chronicle σ) : Prop where
  represented : c.roster.isShuttingDown = false →
    ∀ k ∈ c.careers, k.name ∈ (current c.careers).map (·.name)
  finished : c.roster.isShuttingDown = true → current c.careers = []

theorem settled_starting : Settled (starting (σ := σ)) where
  represented _ _ hk := nomatch hk
  finished _ := rfl

/-- A new career stands for its name, and the others stay for theirs. -/
theorem Settled.joined (h : c.Settled) (hopen : c.roster.isShuttingDown = false) (name : String)
    (s : σ) :
    ∀ k ∈ c.careersAfter (.spawn name s),
      k.name ∈ (current (c.careersAfter (.spawn name s))).map (·.name) := by
  have hcareers : c.careersAfter (.spawn name s) =
      stopAll (· = name) none c.now c.careers ++ [⟨name, c.now, s, none, none⟩] :=
    careersAfter_of_open hopen
  have hcurrent : (current (c.careersAfter (.spawn name s))).map (·.name) =
      ((current c.careers).filter (fun k => !decide (k.name = name))).map (·.name) ++ [name] := by
    rw [hcareers, current, List.filter_append, List.map_append, ← current, current_stopAll]
    rfl
  intro k hk
  rw [hcurrent]
  rw [hcareers] at hk
  rcases List.mem_append.mp hk with hold | hnew
  · obtain ⟨before, hbefore, rfl⟩ := List.mem_map.mp hold
    have hname : (if decide (before.name = name) then before.stop none c.now else before).name =
        before.name := by
      split
      · exact Career.name_stop none c.now
      · rfl
    rw [hname]
    by_cases hsame : before.name = name
    · exact List.mem_append_right _ (by simp [hsame])
    · obtain ⟨left, hleft, heq⟩ := List.mem_map.mp (h.represented hopen before hbefore)
      refine List.mem_append_left _ (List.mem_map.mpr ⟨left, List.mem_filter.mpr ⟨hleft, ?_⟩, heq⟩)
      simp [heq, hsame]
  · obtain rfl := List.mem_singleton.mp hnew
    exact List.mem_append_right _ (List.mem_singleton.mpr rfl)

theorem Settled.after (h : c.Settled) (e : Event σ) : Settled (c.after b e) := by
  have hstopped := isShuttingDown_after (b := b) e c
  by_cases hstop : c.roster.isShuttingDown = true
  · have hcareers : (c.after b e).careers = c.careers := if_pos hstop
    rw [hstop, Bool.true_or] at hstopped
    constructor
    · intro hopen
      rw [hstopped] at hopen
      cases hopen
    · intro _
      rw [hcareers]
      exact h.finished hstop
  · have hopen := Bool.eq_false_iff.mpr hstop
    have hcareers : (c.after b e).careers = c.careersAfter e := rfl
    rw [hopen, Bool.false_or] at hstopped
    constructor
    · intro hstill
      rw [hstopped] at hstill
      cases e with
      | spawn name s => exact h.joined hopen name s
      | sleep time =>
        rw [hcareers, careersAfter_of_open hopen]
        exact h.represented hopen
      | shutdown timeout | dispose => cases hstill
    · intro hend
      rw [hstopped] at hend
      rw [hcareers]
      cases e with
      | spawn name s | sleep time => cases hend
      | shutdown timeout | dispose =>
        rw [careersAfter_of_open hopen, current_stopAll]
        simp

theorem settled_run (b : Behaviour σ) (events : List (Event σ)) : (run b events).Settled :=
  run_induction settled_starting (fun _ h => h.after) events

/-- An open roster holds as many tasks as there are names among the careers. -/
theorem Faithful.count (h : c.Faithful b) (hsettled : c.Settled)
    (hopen : c.roster.isShuttingDown = false) :
    c.roster.count = (c.careers.map (·.name)).dedup.length := by
  have hperm : ((current c.careers).map (·.name)).Perm (c.careers.map (·.name)).dedup := by
    refine (List.perm_ext_iff_of_nodup h.names (List.nodup_dedup _)).mpr fun name => ?_
    rw [List.mem_dedup]
    constructor
    · intro hname
      exact (List.filter_sublist.map _).mem hname
    · intro hname
      obtain ⟨k, hk, rfl⟩ := List.mem_map.mp hname
      exact hsettled.represented hopen k hk
  rw [← hperm.length_eq, Roster.count, h.tasks, List.length_map, List.length_map]

/-- Of two careers under one name at most one goes on. -/
theorem Faithful.pairwise (h : c.Faithful b) :
    c.careers.Pairwise fun k l =>
      k.name = l.name → ¬((k.process b c.now).isRunning ∧ (l.process b c.now).isRunning) := by
  have hrunning : ∀ k : Career σ, (k.process b c.now).isRunning = true → (!k.isCut) = true := by
    intro k hk
    by_contra hcut
    rw [Bool.not_eq_true, Bool.not_eq_false'] at hcut
    rw [Career.isRunning_process hcut] at hk
    cases hk
  have hnames := List.pairwise_filter.mp (List.pairwise_map.mp h.names)
  refine hnames.imp fun {k l} hne hname hboth => ?_
  exact hne (hrunning k hboth.1) (hrunning l hboth.2) hname

/-! ### At every moment -/

/-- What is to be seen of a roster before the next event, and while it lasts. -/
inductive Shows (b : Behaviour σ) (c : Chronicle σ) : Chronicle σ → Prop
  | itself : Shows b c c
  | during (e : Event σ) (time : Nat) (hnow : c.now ≤ time) (hend : time ≤ (c.after b e).now) :
    Shows b c (c.during b e time)

variable {v : Chronicle σ}

theorem Shows.faithful (h : c.Faithful b) (hshows : c.Shows b v) : v.Faithful b := by
  cases hshows with
  | itself => exact h
  | during e time hnow _ => exact h.during e hnow

theorem Shows.getElem_careers {i : Nat} {k : Career σ} (hcut : k.isCut = true)
    (hk : c.careers[i]? = some k) (hshows : c.Shows b v) : v.careers[i]? = some k := by
  cases hshows with
  | itself => exact hk
  | during e time _ _ =>
    cases e with
    | spawn name s | dispose | sleep length => exact hk
    | shutdown timeout =>
      rw [Chronicle.during]
      split
      · exact hk
      · rw [List.getElem?_map, hk, Option.map_some, Career.tell, if_pos hcut]

theorem Shows.of_isShuttingDown (hshows : c.Shows b v) (h : c.Faithful b) (hsettled : c.Settled)
    (hstop : c.roster.isShuttingDown = true) : v.roster = c.roster ∧ v.careers = c.careers := by
  have htasks : c.roster.tasks = [] := by rw [h.tasks, hsettled.finished hstop, List.map_nil]
  cases hshows with
  | itself => exact ⟨rfl, rfl⟩
  | during e time _ _ =>
    cases e with
    | spawn name s | dispose => exact ⟨rfl, rfl⟩
    | sleep length => exact ⟨runTo_of_over htasks h.finished, rfl⟩
    | shutdown timeout =>
      rw [Chronicle.during, if_pos hstop]
      exact ⟨rfl, rfl⟩

/-! ### What a replaced task, and what a stopped roster, still does -/

/-- All that was ever spawned is somewhere in the roster. -/
theorem Faithful.all (h : c.Faithful b) :
    c.roster.all.Perm (c.careers.map (·.process b c.now)) := by
  have hparts : (current c.careers ++ former c.careers).Perm c.careers := by
    simpa [former, current] using List.filter_append_perm (fun k : Career σ => !k.isCut) c.careers
  have hcurrent : c.roster.tasks.map (·.2) = (current c.careers).map (·.process b c.now) := by
    rw [h.tasks, List.map_map]
    rfl
  rw [Roster.all, hcurrent]
  refine (h.past.append_left _).trans ?_
  rw [← List.map_append]
  exact hparts.map _

/-- A replaced task has a career that is cut off where it was. -/
theorem Faithful.cut_of_replaced {i : Nat} {k : Career σ} (h : c.Faithful b)
    (hopen : c.roster.isShuttingDown = false) (hk : c.careers[i]? = some k) (s : σ) :
    ∃ k', (c.after b (.spawn k.name s)).careers[i]? = some k' ∧ k'.isCut = true ∧
      ∀ later, k'.process b later = (k.process b c.now).abort := by
  refine ⟨k.stop none c.now, ?_, Career.isCut_stop none c.now, fun later => ?_⟩
  · show (c.careersAfter (.spawn k.name s))[i]? = _
    have hlt := (List.getElem?_eq_some_iff.mp hk).1
    rw [careersAfter_of_open hopen,
      List.getElem?_append_left (by rw [stopAll, List.length_map]; exact hlt), stopAll,
      List.getElem?_map, hk, Option.map_some, if_pos (decide_eq_true rfl)]
  · by_cases hcut : k.isCut = true
    · rw [Career.stop_of_isCut hcut, Career.process_of_isCut hcut,
        Process.abort_of_over (Career.isRunning_process hcut)]
    · have hnot := Bool.eq_false_iff.mpr hcut
      have hmem : k ∈ current c.careers :=
        List.mem_filter.mpr ⟨List.mem_of_getElem? hk, by simp [hnot]⟩
      rw [Career.process_stop hnot, ← h.toldAt_of_open hopen hmem,
        Career.process_of_isCut_eq_false hnot]

/-- Once a run is shutting down, nothing that may follow shows anything new. -/
theorem shows_onward_of_isShuttingDown {rest : List (Event σ)} (h : c.Faithful b)
    (hsettled : c.Settled) (hstop : c.roster.isShuttingDown = true)
    (hshows : Shows b (c.onward b rest) v) :
    v.roster = c.roster ∧ v.careers = c.careers := by
  induction rest generalizing c with
  | nil => exact hshows.of_isShuttingDown h hsettled hstop
  | cons e rest ih =>
    have hnext : (c.after b e).roster.isShuttingDown = true := by
      rw [isShuttingDown_after, hstop, Bool.true_or]
    obtain ⟨hroster, hcareers⟩ := ih (h.after e) (hsettled.after e) hnext hshows
    have hcareersAfter : (c.after b e).careers = c.careers := if_pos hstop
    have htasks : c.roster.tasks = [] := by rw [h.tasks, hsettled.finished hstop, List.map_nil]
    refine ⟨hroster.trans ?_, hcareers.trans hcareersAfter⟩
    cases e with
    | sleep time => exact runTo_of_over htasks h.finished
    | spawn name s | shutdown timeout | dispose =>
      rw [after_of_isShuttingDown hstop (by simp)]

open Rehearsal in
/-- A stubborn task, another one in its place, one that was polite, and a shutdown that is too short
for the stubborn ones. -/
def stubbornDay : List (Event Errand) :=
  [.spawn "renewal" ⟨"first", .persists 100, 0, .fresh, []⟩, .sleep 5,
   .spawn "sweep" ⟨"polite", .waits, 2, .fresh, []⟩,
   .spawn "renewal" ⟨"second", .persists 100, 0, .fresh, []⟩, .sleep 5, .shutdown 20]

end Chronicle

end LeasedWork.Roster
