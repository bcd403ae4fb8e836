import LeasedWork.Fleet.Election
import LeasedWork.Proofs.Fleet.Accords
import LeasedWork.Proofs.Fleet.Runs
import LeasedWork.Proofs.Store.Versions

/-! # Passes over a store that may fail

A `Frail` store is a table together with what it has been asked, and with what goes wrong with the
coming requests: a request that fails has no effect.  What a candidate does over such a store is
opened here once, step by step: each step is at most one request and what is made of its answer
(`Candidate.run_ensureCreated` and so on), but for the bootstrap, which is a program of its own.

A list of steps is taken until one fails, so it keeps whatever each step keeps
(`Candidate.takeSteps_induction`).  A program that abides by an accord does so over a frail store
too (`Frail.run_abides`).
-/
namespace LeasedWork

/-! ## Requests that may fail -/

/-- A table, what it has been asked, and what goes wrong with the coming requests: one entry for
each of them, and nothing goes wrong beyond the entries. -/
structure Frail where
  table : Table
  history : List Exchange
  faults : List (Option Failure)

namespace Frail

/-- Why the next request fails, if it does. -/
def fault? (s : Frail) : Option Failure := s.faults.head?.join

/-- The store after a request that has failed. -/
def refused (s : Frail) : Frail := { s with faults := s.faults.tail }

/-- The store after a request that has been answered. -/
def answered (now : Instant) (request : Request) (s : Frail) : Frail :=
  ⟨(s.table.answer now request).2, s.history ++ [⟨request, (s.table.answer now request).1⟩],
    s.faults.tail⟩

/-- The answer to a request, and the store after it. One that fails has no effect. -/
def ask (now : Instant) (request : Request) (s : Frail) : request.Answer × Frail :=
  match s.fault? with
  | some failure => (.error failure, s.refused)
  | none => ((s.table.answer now request).1, s.answered now request)

/-- A frail table as the store of a node, at a time. -/
def handler (now : Instant) : Handler (Node.interface Interface.none) Frail where
  answer
    | .store request, s => s.ask now request
    | .now, s => (now, s)
    | .pause _, s => ((), s)
    | .other q, _ => q.elim

/-- Runs what a node does. -/
def run {α : Type} (now : Instant) (p : Program (Node.interface Interface.none) α) (s : Frail) :
    α × Frail := Program.run (handler now) p s

variable {α β : Type} {now : Instant} {s : Frail}

theorem run_bind (p : Program (Node.interface Interface.none) α)
    (f : α → Program (Node.interface Interface.none) β) (s : Frail) :
    s.run now (p >>= f) = (s.run now p).2.run now (f (s.run now p).1) :=
  Program.run_bind (handler now) p f s

theorem run_action_bind (action : Node.Action Interface.none α)
    (f : α → Node.Action Interface.none β) (s : Frail) :
    s.run now (action >>= f).run =
      match s.run now action.run with
      | (.ok a, s) => s.run now (f a).run
      | (.error e, s) => (.error e, s) := by
  refine (Program.run_exceptT_bind (handler now) action f s).trans ?_
  unfold run
  rcases Program.run (handler now) action.run s with ⟨x, s'⟩
  cases x <;> rfl

theorem ask_of_fault {failure : Failure} (h : s.fault? = some failure) (request : Request) :
    s.ask now request = (.error failure, s.refused) := by rw [ask, h]

theorem ask_of_no_fault (h : s.fault? = none) (request : Request) :
    s.ask now request = ((s.table.answer now request).1, s.answered now request) := by rw [ask, h]

theorem run_create {k : PartitionKind} (n : Node) (p : Partition k) (s : Frail) :
    s.run now (n.create (E := Interface.none) p).run =
      s.ask now (.create (n.newRecord k.tag p.key k.leased p.progressText now)) := rfl

/-- A transition asks for an update of the record in hand. -/
theorem run_transition {P : Type} [Held P] {p : P} {r : Record} {t : Transition}
    (hr : Held.record p = some r) (hleased : t.needsLease = true → Held.leased p = true)
    (s : Frail) :
    s.run now (Node.transition (E := Interface.none) p t).run =
      match s.ask now (.update (Node.proposal p t now r)) with
      | (.ok written, s) => (.ok (Held.adopt written p), s)
      | (.error e, s) => (.error e, s) := by
  have hmay : ¬ (t.needsLease && !Held.leased p) = true := by
    rw [Bool.and_eq_true, Bool.not_eq_true']
    rintro ⟨hneeds, hnot⟩
    rw [hleased hneeds] at hnot
    cases hnot
  rw [run, Node.run_transition, if_neg hmay, hr]
  dsimp only [handler]
  rcases s.ask now (.update (Node.proposal p t now r)) with ⟨e | written, s'⟩ <;> rfl

/-- What is known of the writes of an identity only grows. -/
theorem writesIn_ask_le (id : RecordId) (request : Request) (s : Frail) :
    writesIn id s.history ≤ writesIn id (s.ask now request).2.history := by
  unfold ask
  split
  · exact Nat.le_refl _
  · rw [answered, Chronicle.writesIn_concat]
    exact Nat.le_add_right _ _

theorem writesIn_run_le (id : RecordId) (p : Program (Node.interface Interface.none) α)
    (s : Frail) : writesIn id s.history ≤ writesIn id (s.run now p).2.history := by
  induction p generalizing s with
  | done a => exact Nat.le_refl _
  | ask question next ih =>
    cases question with
    | store request =>
      exact Nat.le_trans (writesIn_ask_le id request s) (ih (s.ask now request).1 _)
    | now => exact ih now s
    | pause d => exact ih () s
    | other q => exact q.elim

/-- Once nothing goes wrong any more, nothing does. -/
theorem faults_run (now : Instant) (h : s.faults = [])
    (p : Program (Node.interface Interface.none) α) : (s.run now p).2.faults = [] := by
  induction p generalizing s with
  | done a => exact h
  | ask question next ih =>
    cases question with
    | store request =>
      refine ih _ (s := (s.ask now request).2) ?_
      unfold ask
      split <;> exact congrArg List.tail h
    | now => exact ih now h
    | pause d => exact ih () h
    | other q => exact q.elim

/-- **A program abides by an accord over a frail store too.** -/
theorem run_abides (now : Instant) {A : Accord} {post : α → Table → Prop}
    {p : Program (Node.interface Interface.none) α} (h : A.Abides post p s.table)
    (hs : A.Good s.table) : A.Good (s.run now p).2.table ∧
      A.Grows s.table (s.run now p).2.table ∧ post (s.run now p).1 (s.run now p).2.table := by
  induction p generalizing s with
  | done a => exact ⟨hs, A.refl _, h _ hs (A.refl _)⟩
  | ask question next ih =>
    cases question with
    | store request =>
      obtain ⟨hmay, hanswer, hfailure⟩ := h _ hs (A.refl _)
      have hrun : s.run now (.ask (.store request) next) =
        (s.ask now request).2.run now (next (s.ask now request).1) := rfl
      rw [hrun]
      unfold ask
      -- The request fails and changes nothing, or the table answers it within the accord.
      split
      · rename_i failure _
        exact ih _ (s := s.refused) (hfailure failure) hs
      · obtain ⟨hgood, hgrows⟩ := A.keeps now hs hmay
        obtain ⟨hgood', hgrows', hpost⟩ := ih _ (s := s.answered now request) (hanswer now) hgood
        exact ⟨hgood', A.trans hgrows hgrows', hpost⟩
    | now => exact ih now (h now) hs
    | pause d => exact ih () h hs
    | other q => exact q.elim

end Frail

/-! ## The steps of a pass -/

namespace Candidate

variable {now : Instant}

/-- The record that a candidate creates for the leader partition. -/
def newRecord (c : Candidate) (now : Instant) : Record :=
  .unassigned ⟨c.node.source, leaderKind.tag, Key.leader⟩ newLeader.progressText now

theorem run_ensureCreated (c : Candidate) (s : Frail) :
    s.run now (c.ensureCreated (E := Interface.none)).run =
      if c.hasCreated then (.ok c, s)
      else
        match s.ask now (.create (c.newRecord now)) with
        | (.ok _, s) => (.ok { c with hasCreated := true }, s)
        | (.error e, s) => (.error e, s) := by
  unfold ensureCreated
  cases c.hasCreated with
  | true => rfl
  | false =>
    refine (Frail.run_action_bind (c.node.create newLeader) _ s).trans ?_
    rw [Frail.run_create, show c.node.newRecord _ _ _ _ now = c.newRecord now from rfl]
    rcases s.ask now (.create (c.newRecord now)) with ⟨answer, s'⟩
    cases answer <;> rfl

theorem run_compete (c : Candidate) (s : Frail) :
    s.run now (c.compete (E := Interface.none)).run =
      if c.held.isSome then (.ok c, s)
      else
        match s.ask now (.claim c.node.source leaderKind.tag c.node.owner c.node.lease) with
        | (.ok none, s) => (.ok { c with held := none }, s)
        | (.ok (some r), s) =>
          ((Partition.ofRecord leaderKind r).map fun p => { c with held := some p }, s)
        | (.error e, s) => (.error e, s) := by
  unfold compete
  cases c.held with
  | some p => rfl
  | none =>
    refine (Frail.run_action_bind (c.node.claim leaderKind none) _ s).trans ?_
    have hclaim : s.run now (c.node.claim (E := Interface.none) leaderKind none).run = _ :=
      Frail.run_action_bind (c.node.claimRecord leaderKind.tag none)
        (Node.build? (Partition.ofRecord leaderKind)) s
    have hstore : s.run now (c.node.claimRecord (E := Interface.none) leaderKind.tag none).run =
      s.ask now (.claim c.node.source leaderKind.tag c.node.owner c.node.lease) := rfl
    rw [hstore] at hclaim
    rw [hclaim]
    rcases s.ask now (.claim c.node.source leaderKind.tag c.node.owner c.node.lease) with
      ⟨answer | _ | r, s'⟩
    · rfl
    · rfl
    · cases hbuild : Partition.ofRecord leaderKind r with
      | error e =>
        simp only [Node.build?, hbuild]
        rfl
      | ok p =>
        simp only [Node.build?, hbuild]
        rfl

theorem run_initialize? (c : Candidate) (s : Frail) :
    s.run now (c.initialize? (E := Interface.none)).run =
      match c.held with
      | none => (.ok c, s)
      | some p =>
        if p.isInitialized then (.ok c, s)
        else
          match s.run now (c.bootstrap (E := Interface.none)).run with
          | (.ok _, s) => (.ok { c with held := some p.markInitialized }, s)
          | (.error e, s) => (.error e, s) := by
  unfold initialize?
  cases c.held with
  | none => rfl
  | some p =>
    dsimp only
    cases p.isInitialized with
    | true => rfl
    | false =>
      refine (Frail.run_action_bind c.bootstrap _ s).trans ?_
      rcases s.run now (c.bootstrap (E := Interface.none)).run with ⟨answer, s'⟩
      cases answer <;> rfl

theorem run_renew (c : Candidate) (s : Frail) :
    s.run now (c.renew (E := Interface.none)) =
      match c.held with
      | none => (c, s)
      | some p =>
        match s.run now
          (Node.transition (E := Interface.none) p (.save c.settings.leaseExtension)).run with
        | (.ok p', s) => ({ c with held := some p' }, s)
        | (.error e, s) => (if e.isLostWrite then { c with held := none } else c, s) := by
  unfold renew
  cases c.held with
  | none => rfl
  | some p =>
    refine (Frail.run_bind _ _ s).trans ?_
    rw [Node.save, Option.getD_some]
    dsimp only
    rcases s.run now
      (Node.transition (E := Interface.none) p (.save c.settings.leaseExtension)).run with
      ⟨answer, s'⟩
    cases answer <;> rfl

theorem run_stepDown (c : Candidate) (s : Frail) :
    s.run now (c.stepDown (E := Interface.none)) =
      match c.held with
      | none => (c, s)
      | some p =>
        ({ c with held := none },
          (s.run now (Node.transition (E := Interface.none) p .giveUp).run).2) := by
  unfold stepDown
  cases c.held with
  | none => rfl
  | some p => exact Frail.run_bind _ _ s

theorem run_pass (c : Candidate) (s : Frail) : s.run now (c.pass (E := Interface.none)) =
    (s.run now c.lead).2.run now (s.run now c.lead).1.renew := Frail.run_bind c.lead renew s

theorem run_takeSteps (step : Candidate → Node.Action Interface.none Candidate)
    (rest : List (Candidate → Node.Action Interface.none Candidate)) (c : Candidate) (s : Frail) :
    s.run now (takeSteps (step :: rest) c) =
      match s.run now (step c).run with
      | (.ok c', s) => s.run now (takeSteps rest c')
      | (.error _, s) => (c, s) := by
  rw [takeSteps]
  refine (Frail.run_bind _ _ s).trans ?_
  rcases s.run now (step c).run with ⟨answer, s'⟩
  cases answer <;> rfl

/-- What a step leaves of a candidate. One that fails leaves it as it was. -/
def kept (c : Candidate) (x : Except Failure Candidate) : Candidate := x.toOption.getD c

theorem run_takeSteps_singleton (step : Candidate → Node.Action Interface.none Candidate)
    (c : Candidate) (s : Frail) : s.run now (takeSteps [step] c) =
      (c.kept (s.run now (step c).run).1, (s.run now (step c).run).2) := by
  rw [run_takeSteps]
  rcases s.run now (step c).run with ⟨answer, s'⟩
  cases answer <;> rfl

/-- What every step keeps, whether it succeeds or fails, a list of steps keeps. -/
theorem takeSteps_induction {motive : Candidate → Frail → Prop}
    {steps : List (Candidate → Node.Action Interface.none Candidate)}
    (hstep : ∀ step ∈ steps, ∀ c s, motive c s →
      motive (c.kept (s.run now (step c).run).1) (s.run now (step c).run).2)
    {c : Candidate} {s : Frail} (h : motive c s) :
    motive (s.run now (takeSteps steps c)).1 (s.run now (takeSteps steps c)).2 := by
  induction steps generalizing c s with
  | nil => exact h
  | cons step rest ih =>
    have hnext := hstep step List.mem_cons_self c s h
    rw [run_takeSteps]
    rcases hrun : s.run now (step c).run with ⟨e | c', s'⟩ <;> rw [hrun] at hnext
    · exact hnext
    · exact ih (fun step hmem => hstep step (List.mem_cons_of_mem _ hmem)) hnext

end Candidate

end LeasedWork
