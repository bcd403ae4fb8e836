import LeasedWork.Tasks.Process
import Mathlib.Data.ENat.Lattice

/-! # Processes let alone

A process runs the same whether it is watched in one go or in pieces (`Process.runTo_runTo`), and
the signal to stop makes no difference before it is given (`Process.runTo_some`).  Once it is over
it stays as it is.

What a process learns from others is part of how it goes on at an instant, so a process that is let
alone has one fate: it ends after a certain time, or never.  `Process.timeLeft` is that time,
counted from the moment at which the signal is given.  Waiting for a process against a deadline
takes as long as that, or up to the deadline, and changes nothing of what the process does before
(`Process.await_fst`, `Process.await_snd`).
-/
namespace LeasedWork

namespace Process

variable {σ : Type} {b : Behaviour σ} {stoppedAt : Option Nat} {limit later now wake stop : Nat}
  {w : Wait} {s : σ} {p : Process σ}

/-! ## The instants of a run -/

@[simp] theorem runTo_ended (time : Nat) :
    (ended time s).runTo b stoppedAt limit now = ended time s := by rw [runTo]

@[simp] theorem runTo_aborted : (aborted s).runTo b stoppedAt limit now = aborted s := by rw [runTo]

theorem runTo_of_forever (h : w.end? stoppedAt = none) :
    (waiting w s).runTo b stoppedAt limit now = waiting w s := by
  rw [runTo, h]

theorem runTo_of_late (hwake : w.end? stoppedAt = some wake) (h : limit ≤ max now wake) :
    (waiting w s).runTo b stoppedAt limit now = waiting w s := by
  rw [runTo, hwake]
  exact dif_neg (Nat.not_lt.mpr h)

/-- A process ends at the instant at which it says so. -/
theorem runTo_of_ends {s' : σ} (hwake : w.end? stoppedAt = some wake) (h : max now wake < limit)
    (hends : b (max now wake) (stoppedAt.any (· ≤ max now wake)) s = .ends s') :
    (waiting w s).runTo b stoppedAt limit now = ended (max now wake) s' := by
  rw [runTo, hwake]
  dsimp only
  rw [dif_pos h, hends]

/-- A process that waits again goes on after the instant. -/
theorem runTo_of_waits {w' : Wait} {s' : σ} (hwake : w.end? stoppedAt = some wake)
    (h : max now wake < limit)
    (hwaits : b (max now wake) (stoppedAt.any (· ≤ max now wake)) s = .waits w' s') :
    (waiting w s).runTo b stoppedAt limit now =
      (waiting w' s').runTo b stoppedAt limit (max now wake + 1) := by
  rw [runTo, hwake]
  dsimp only
  rw [dif_pos h, hwaits]

theorem runTo_of_le (h : limit ≤ now) : p.runTo b stoppedAt limit now = p := by
  cases p with
  | waiting w s =>
    cases hwake : w.end? stoppedAt with
    | none => exact runTo_of_forever hwake
    | some wake => exact runTo_of_late hwake (by omega)
  | ended time s => exact runTo_ended time
  | aborted s => exact runTo_aborted

/-- What is over stays as it is when it is stopped. -/
theorem abort_of_over (h : p.isRunning = false) : p.abort = p := by
  cases p with
  | waiting w s => cases h
  | ended time s | aborted s => rfl

/-- **A run may be watched in pieces.** -/
theorem runTo_runTo (hnow : now ≤ limit) (hlimit : limit ≤ later) :
    (p.runTo b stoppedAt limit now).runTo b stoppedAt later limit =
      p.runTo b stoppedAt later now := by
  fun_induction runTo b stoppedAt limit now p with
  | case1 now w s hwake => rw [runTo_of_forever hwake, runTo_of_forever hwake]
  | case2 now w s wake hwake hlt s' hends =>
    rw [runTo_ended, runTo_of_ends hwake (by omega) hends]
  | case3 now w s wake hwake hlt w' s' hwaits ih =>
    rw [ih (by omega), runTo_of_waits hwake (by omega) hwaits]
  | case4 now w s wake hwake hge =>
    -- The instant comes after the first piece, so the second one begins with it.
    have hinstant : max limit wake = max now wake := by omega
    conv_lhs => rw [runTo, hwake]
    conv_rhs => rw [runTo, hwake]
    simp only [hinstant]
  | case5 => rw [runTo_ended, runTo_ended]
  | case6 => rw [runTo_aborted, runTo_aborted]

/-- **Before the signal is given, it makes no difference.** -/
theorem runTo_some (h : limit ≤ stop) :
    p.runTo b (some stop) limit now = p.runTo b none limit now := by
  have hflag : ∀ instant, instant < limit →
      (some stop).any (· ≤ instant) = (none : Option Nat).any (· ≤ instant) := by
    intro instant hinstant
    simp only [Option.any_some, Option.any_none, decide_eq_false_iff_not]
    omega
  have hwait : ∀ {now wake : Nat} {w : Wait}, w.end? none = some wake → max now wake < limit →
      w.end? (some stop) = some wake := by
    intro now wake w hwake hlt
    cases w with
    | time wake' => exact hwake
    | stop => cases hwake
    | timeOrStop wake' =>
      obtain rfl : wake' = wake := Option.some.inj hwake
      simp only [Wait.end?, Option.elim_some, Option.some.injEq]
      omega
  fun_induction runTo b none limit now p with
  | case1 now w s hwake =>
    cases w with
    | stop => exact runTo_of_late rfl (by omega)
    | time | timeOrStop => cases hwake
  | case2 now w s wake hwake hlt s' hends =>
    exact runTo_of_ends (hwait hwake hlt) hlt (hflag _ hlt ▸ hends)
  | case3 now w s wake hwake hlt w' s' hwaits ih =>
    rw [runTo_of_waits (hwait hwake hlt) hlt (hflag _ hlt ▸ hwaits), ih]
  | case4 now w s wake hwake hge =>
    cases w with
    | time => exact runTo_of_late hwake (by omega)
    | stop => cases hwake
    | timeOrStop wake' =>
      obtain rfl : wake' = wake := Option.some.inj hwake
      exact runTo_of_late rfl (by rw [Option.elim_some]; omega)
  | case5 => rw [runTo_ended]
  | case6 => rw [runTo_aborted]

/-! ## The end of a run -/

/-- What is over by a limit is over by any later one. -/
theorem isRunning_runTo_of_le (h : limit ≤ later)
    (hover : (p.runTo b stoppedAt limit now).isRunning = false) :
    p.runTo b stoppedAt later now = p.runTo b stoppedAt limit now := by
  rcases Nat.le_total now limit with hnow | hnow
  · rw [← runTo_runTo hnow h, runTo_eq_self hover]
  · rw [runTo_of_le hnow] at hover ⊢
    exact runTo_eq_self hover b stoppedAt later now

/-- **The end of a process that waits.**  If it is over by some limit, there is one instant before
that limit at which it ends. -/
theorem exists_end (hover : ((waiting w s).runTo b stoppedAt limit now).isRunning = false) :
    ∃ time s', now ≤ time ∧ time < limit ∧ ∀ other,
      (time < other → (waiting w s).runTo b stoppedAt other now = ended time s') ∧
      (other ≤ time → ((waiting w s).runTo b stoppedAt other now).isRunning = true) := by
  generalize hp : waiting w s = p at hover ⊢
  fun_induction runTo b stoppedAt limit now p generalizing w s with
  | case1 => cases hover
  | case2 now w' s wake hwake hlt s' hends =>
    refine ⟨max now wake, s', by omega, hlt, fun other => ⟨fun h => ?_, fun h => ?_⟩⟩
    · exact runTo_of_ends hwake h hends
    · rw [runTo_of_late hwake h]
      rfl
  | case3 now w' s wake hwake hlt w'' s' hwaits ih =>
    obtain ⟨time, s'', hfrom, hto, hruns⟩ := ih rfl hover
    refine ⟨time, s'', by omega, hto, fun other => ⟨fun h => ?_, fun h => ?_⟩⟩
    · rw [runTo_of_waits hwake (by omega) hwaits]
      exact (hruns other).1 h
    · rcases Nat.lt_or_ge (max now wake) other with hinstant | hinstant
      · rw [runTo_of_waits hwake hinstant hwaits]
        exact (hruns other).2 h
      · rw [runTo_of_late hwake hinstant]
        rfl
  | case4 => cases hover
  | case5 | case6 => cases hp

/-- How long a process that is let alone goes on after the signal is given at `now`: not at all if
it is over, and for ever if it does not end. -/
noncomputable def timeLeft (b : Behaviour σ) (now : Nat) (p : Process σ) : ℕ∞ :=
  ⨅ d : {d : Nat // (p.runTo b (some now) (now + d + 1) now).isRunning = false}, (d.1 : ℕ∞)

theorem timeLeft_le_iff {d : Nat} :
    p.timeLeft b now ≤ d ↔ (p.runTo b (some now) (now + d + 1) now).isRunning = false := by
  constructor
  · intro h
    obtain ⟨⟨e, hover⟩, hlt⟩ := iInf_lt_iff.mp (h.trans_lt (Nat.cast_lt.mpr d.lt_succ_self))
    have hle : e ≤ d := Nat.le_of_lt_succ (Nat.cast_lt.mp hlt)
    rw [isRunning_runTo_of_le (by omega) hover]
    exact hover
  · exact fun h => iInf_le_of_le ⟨d, h⟩ le_rfl

theorem timeLeft_of_over (h : p.isRunning = false) : p.timeLeft b now = 0 := by
  refine nonpos_iff_eq_zero.mp (timeLeft_le_iff.mpr ?_)
  rwa [runTo_eq_self h]

/-- **A process that ends takes the time up to its end.** -/
theorem timeLeft_of_over_by
    (hover : ((waiting w s).runTo b (some now) limit now).isRunning = false) :
    ∃ (d : Nat) (s' : σ), (waiting w s).timeLeft b now = d ∧ now + d < limit ∧
      ∀ other, now + d < other →
        (waiting w s).runTo b (some now) other now = ended (now + d) s' := by
  obtain ⟨time, s', hfrom, hto, hruns⟩ := exists_end hover
  obtain ⟨d, rfl⟩ := Nat.exists_eq_add_of_le hfrom
  refine ⟨d, s', le_antisymm (timeLeft_le_iff.mpr ?_) ?_, hto, fun other => (hruns other).1⟩
  · rw [(hruns (now + d + 1)).1 (Nat.lt_succ_self _)]
    rfl
  · refine le_iInf fun e => Nat.cast_le.mpr (Nat.not_lt.mp fun hlt => ?_)
    have hrunning := (hruns (now + e.1 + 1)).2 (by omega)
    rw [e.2] at hrunning
    cases hrunning

/-- What would end by itself before a limit is over by it. -/
theorem over_of_timeLeft (h : (now : ℕ∞) + p.timeLeft b now < limit) :
    (p.runTo b (some now) limit now).isRunning = false := by
  have hfinite : p.timeLeft b now ≠ ⊤ := fun htop => by
    rw [htop, add_top] at h
    exact not_top_lt h
  obtain ⟨d, hd⟩ := ENat.ne_top_iff_exists.mp hfinite
  rw [← hd] at h
  have hlt : now + d < limit := by exact_mod_cast h
  have hover := timeLeft_le_iff.mp hd.ge
  rw [isRunning_runTo_of_le hlt hover]
  exact hover

/-- What is over by a limit ends by itself no later. -/
theorem timeLeft_le_of_over (hnow : now ≤ limit)
    (hover : (p.runTo b (some now) limit now).isRunning = false) :
    (now : ℕ∞) + p.timeLeft b now ≤ limit := by
  obtain ⟨d, rfl⟩ := Nat.exists_eq_add_of_le hnow
  have hleft : p.timeLeft b now ≤ d := by
    rw [timeLeft_le_iff, isRunning_runTo_of_le (Nat.le_succ _) hover]
    exact hover
  exact add_le_add_right hleft _

/-! ## Waiting for a process -/

/-- A process that is held at a time: it waits, or has ended by then. -/
def Held (now : Nat) : Process σ → Prop
  | .waiting _ _ => True
  | .ended time _ => time ≤ now
  | .aborted _ => False

theorem Held.runTo (h : p.Held now) (hnow : now ≤ limit) :
    (p.runTo b stoppedAt limit now).Held limit := by
  fun_induction Process.runTo b stoppedAt limit now p with
  | case1 | case4 => trivial
  | case2 now w s wake hwake hlt => exact Nat.le_of_lt hlt
  | case3 now w s wake hwake hlt w' s' hwaits ih => exact ih trivial (by omega)
  | case5 => exact Nat.le_trans h hnow
  | case6 => exact h.elim

/-- The process after waiting is as it would be if it were let alone up to the deadline and then
stopped. -/
theorem await_fst (deadline : Nat) :
    (p.await b stoppedAt now deadline later).1 = (p.runTo b stoppedAt deadline now).abort := by
  unfold await
  split
  · rename_i h
    rw [h]
    rfl
  · rfl

/-- **Waiting ends with the process or with the deadline**, whichever comes first, and takes no time
if that is past. -/
theorem await_snd {deadline : Nat} (h : p.Held now) (hnow : now ≤ later)
    (hdeadline : now ≤ deadline) :
    ((p.await b (some now) now deadline later).2 : ℕ∞) =
      max (later : ℕ∞) (min (deadline : ℕ∞) (now + p.timeLeft b now)) := by
  cases p with
  | aborted s => exact h.elim
  | ended time s =>
    have htime : time ≤ now := h
    have hleft : (ended time s).timeLeft b now = 0 := timeLeft_of_over rfl
    have hend : max later time = max later (min deadline now) := by omega
    rw [await, runTo_ended, hleft, add_zero]
    exact congrArg Nat.cast hend
  | waiting w s =>
    by_cases hover : ((waiting w s).runTo b (some now) deadline now).isRunning = false
    · obtain ⟨d, s', hleft, hlt, hruns⟩ := timeLeft_of_over_by hover
      have hend : max later (now + d) = max later (min deadline (now + d)) := by omega
      rw [await, hruns deadline hlt, hleft]
      exact congrArg Nat.cast hend
    · rw [min_eq_left (le_of_not_gt fun hlt => hover (over_of_timeLeft hlt)), await]
      split
      · rename_i hended
        rw [hended] at hover
        exact absurd rfl hover
      · exact Nat.mono_cast.map_max

end Process

end LeasedWork
