import LeasedWork.Proofs.Fleet.Passes
import LeasedWork.Proofs.Fleet.Preparation
import LeasedWork.Proofs.Partition.Progress

/-! # What the steps of a pass come to

A candidate has a leader partition in hand or none, so what its steps come to can be told in full.
One without a partition gets it if the stored record is available, and stays without it otherwise.
One with a partition keeps it through a bootstrap, successful or not, and renews it or gives it back
if its record is the stored one; if the stored record is another version by now, the write is lost.
-/
namespace LeasedWork

/-! ## Leader partitions -/

/-- The leader partition behind a record, and whether everything has been created. -/
def leaderPartition (initialized : Bool) (r : Record) : Partition leaderKind :=
  ⟨(), some ⟨initialized⟩, some r⟩

theorem eq_of_leaderText {b b' : Bool}
    (h : some (leaderKind.text ⟨b⟩) = some (leaderKind.text ⟨b'⟩)) : b = b' :=
  congrArg LeaderProgress.initialized (PartitionKind.eq_of_text (PartitionKind.keeps_leader _)
    (PartitionKind.keeps_leader _) (Option.some.inj h))

theorem ofRecord_leader {source : String} {r : Record} {b : Bool} (hid : r.id = leaderId source)
    (hprogress : r.progress = some (leaderKind.text ⟨b⟩)) :
    Partition.ofRecord leaderKind r = .ok (leaderPartition b r) := by
  have hkey : leaderKind.identify r.key = .ok () := by
    rw [show r.key = Key.leader from congrArg RecordId.key hid]
    rfl
  exact Partition.ofRecord_of_keeps (congrArg RecordId.kind hid) hkey
    (PartitionKind.keeps_leader ⟨b⟩) hprogress

/-- The record that a transition of a leader partition writes. -/
def leaderMoved (t : Transition) (now : Instant) (new : Bool) (r : Record) : Record :=
  Hand.moved ⟨Factory.ofKind leaderKind, leaderPartition new r⟩ t now r

section Moved

variable {r : Record} {new : Bool} {now : Instant} (t : Transition)

theorem id_leaderMoved : (leaderMoved t now new r).id = r.id := Hand.id_moved _ t now r

theorem version_leaderMoved : (leaderMoved t now new r).version = r.version + 1 :=
  Hand.version_moved _ t now r

theorem progress_leaderMoved : (leaderMoved t now new r).progress = some (leaderKind.text ⟨new⟩) :=
  Node.progress_proposal (leaderPartition new r) t now r

/-- A renewal changes the lease alone, apart from the progress. -/
theorem leaderMoved_save (new : Bool) (now : Instant) (extension : Span)
    (h : r.status = some .assigned) : leaderMoved (.save extension) now new r =
      { r with progress := some (leaderKind.text ⟨new⟩), version := r.version + 1
               leaseExpiry := some (now.after extension) } := by
  have hsome : r.status.isSome = true := by rw [h]; rfl
  simp only [leaderMoved, Hand.moved, Node.proposal, Transition.apply, hsome, if_true]
  rfl

end Moved

namespace Candidate

/-- The record behind the leader partition in hand. -/
def record (c : Candidate) : Option Record := c.held.bind Partition.record

/-- The candidate with a leader partition in hand. -/
def leading (c : Candidate) (initialized : Bool) (r : Record) : Candidate :=
  { c with held := some (leaderPartition initialized r) }

/-- The candidate without one. -/
def dropped (c : Candidate) : Candidate := { c with held := none }

/-- The candidate when it knows that the leader's record exists, or does not know it. -/
def marked (c : Candidate) (created : Bool) : Candidate := { c with hasCreated := created }

theorem record_of_held {c : Candidate} {b : Bool} {r : Record}
    (h : c.held = some (leaderPartition b r)) : c.record = some r := by
  rw [record, h]
  rfl

end Candidate

/-! ## Transitions -/

namespace Frail

variable {r : Record} {new : Bool} {now : Instant} {s : Frail} (t : Transition)

/-- A store after a transition of a leader partition that has succeeded. -/
def written (s : Frail) (t : Transition) (now : Instant) (new : Bool) (r : Record) : Frail :=
  ⟨s.table.replace (leaderMoved t now new r), s.history ++
    [⟨.update (Node.proposal (leaderPartition new r) t now r), .ok (leaderMoved t now new r)⟩],
    s.faults.tail⟩

theorem find_written (hs : s.table.find? r.id = some r) :
    (s.written t now new r).table.find? r.id = some (leaderMoved t now new r) := by
  rw [← id_leaderMoved t] at hs ⊢
  exact Table.find?_replace_self hs

/-- A store after one that was lost. -/
def lost (s : Frail) (t : Transition) (now : Instant) (new : Bool) (r : Record) : Frail :=
  ⟨s.table, s.history ++ [⟨.update (Node.proposal (leaderPartition new r) t now r),
    .error (.lostWriteOf (Node.proposal (leaderPartition new r) t now r))⟩], s.faults.tail⟩

theorem run_transition_of_fault {failure : Failure} (hfault : s.fault? = some failure) :
    s.run now (Node.transition (E := Interface.none) (leaderPartition new r) t).run =
      (.error failure, s.refused) := by
  rw [run_transition (r := r) rfl (fun _ => rfl), ask_of_fault hfault]

/-- A transition of the stored leader partition succeeds. -/
theorem run_transition_of_current (hs : s.table.find? r.id = some r) (hfault : s.fault? = none) :
    s.run now (Node.transition (E := Interface.none) (leaderPartition new r) t).run =
      (.ok (leaderPartition new (leaderMoved t now new r)), s.written t now new r) := by
  have hs' : s.table.find? (Node.proposal (leaderPartition new r) t now r).id = some r := by
    rw [Node.id_proposal, hs]
  have hversion := (Node.version_proposal (leaderPartition new r) t now r).symm
  rw [run_transition (r := r) rfl (fun _ => rfl), ask_of_no_fault hfault, answered,
    Table.answer_update_of_current now hs' hversion]
  rfl

/-- A transition of a leader partition that is stored in another version is lost. -/
theorem run_transition_of_stale (hs : ∀ x, s.table.find? r.id = some x → x.version ≠ r.version)
    (hfault : s.fault? = none) :
    s.run now (Node.transition (E := Interface.none) (leaderPartition new r) t).run =
      (.error (.lostWriteOf (Node.proposal (leaderPartition new r) t now r)),
        s.lost t now new r) := by
  have hanswer := Table.answer_update_of_stale (t := s.table)
    (r := Node.proposal (leaderPartition new r) t now r) now fun x hx => by
      rw [Node.id_proposal] at hx
      rw [Node.version_proposal]
      exact hs x hx
  rw [run_transition (r := r) rfl (fun _ => rfl), ask_of_no_fault hfault, answered, hanswer]
  rfl

/-- A store where the leader's record was found when it was to be created. -/
def found (s : Frail) (c : Candidate) (now : Instant) : Frail :=
  ⟨s.table, s.history ++ [⟨.create (c.newRecord now), .ok false⟩], s.faults.tail⟩

/-- A store after a candidate has created the leader's record. -/
def created (s : Frail) (c : Candidate) (now : Instant) : Frail :=
  ⟨s.table.insert (c.newRecord now).firstVersion,
    s.history ++ [⟨.create (c.newRecord now), .ok true⟩], s.faults.tail⟩

/-- A store after a candidate has claimed the leader's record. -/
def claimed (s : Frail) (c : Candidate) (now : Instant) (r : Record) : Frail :=
  ⟨s.table.replace (r.claimed c.node.owner now c.node.lease), s.history ++
    [⟨.claim c.node.source leaderKind.tag c.node.owner c.node.lease,
      .ok (some (r.claimed c.node.owner now c.node.lease))⟩], s.faults.tail⟩

/-- A store after there was nothing to claim. -/
def declined (s : Frail) (c : Candidate) : Frail :=
  ⟨s.table, s.history ++ [⟨.claim c.node.source leaderKind.tag c.node.owner c.node.lease,
    .ok none⟩], s.faults.tail⟩

end Frail

namespace Candidate

variable (now : Instant) {r : Record} {b new : Bool} {s : Frail} {c : Candidate} {source : String}

section Transitions

variable (hheld : c.held = some (leaderPartition new r)) (hfault : s.fault? = none)

include hheld hfault

theorem run_renew_of_current (hs : s.table.find? r.id = some r) :
    s.run now (c.renew (E := Interface.none)) =
      (c.leading new (leaderMoved (.save c.settings.leaseExtension) now new r),
        s.written (.save c.settings.leaseExtension) now new r) := by
  rw [run_renew, hheld]
  dsimp only
  rw [Frail.run_transition_of_current _ hs hfault]
  rfl

theorem run_renew_of_stale (hs : ∀ x, s.table.find? r.id = some x → x.version ≠ r.version) :
    s.run now (c.renew (E := Interface.none)) =
      (c.dropped, s.lost (.save c.settings.leaseExtension) now new r) := by
  rw [run_renew, hheld]
  dsimp only
  rw [Frail.run_transition_of_stale _ hs hfault]
  rfl

theorem run_stepDown_of_current (hs : s.table.find? r.id = some r) :
    s.run now (c.stepDown (E := Interface.none)) = (c.dropped, s.written .giveUp now new r) := by
  rw [run_stepDown, hheld]
  dsimp only
  rw [Frail.run_transition_of_current _ hs hfault]
  rfl

theorem run_stepDown_of_stale (hs : ∀ x, s.table.find? r.id = some x → x.version ≠ r.version) :
    s.run now (c.stepDown (E := Interface.none)) = (c.dropped, s.lost .giveUp now new r) := by
  rw [run_stepDown, hheld]
  dsimp only
  rw [Frail.run_transition_of_stale _ hs hfault]
  rfl

end Transitions

/-! ## Creations -/

theorem id_newRecord (hsource : c.node.source = source) :
    (c.newRecord now).id = leaderId source := hsource ▸ rfl

/-- **What the creation of the leader's record comes to.** It is known to be there, the store
refuses, it is found, or it is put there. -/
theorem run_ensureCreated_cases (hsource : c.node.source = source) (s : Frail) :
    (c.hasCreated = true ∧
      s.run now (c.ensureCreated (E := Interface.none)).run = (.ok (c.marked true), s)) ∨
    (∃ failure, s.fault? = some failure ∧
      s.run now (c.ensureCreated (E := Interface.none)).run = (.error failure, s.refused)) ∨
    (s.table.Has (leaderId source) ∧ s.run now (c.ensureCreated (E := Interface.none)).run =
      (.ok (c.marked true), s.found c now)) ∨
    (s.table.find? (leaderId source) = none ∧
      s.run now (c.ensureCreated (E := Interface.none)).run =
        (.ok (c.marked true), s.created c now)) := by
  have hid := id_newRecord now hsource
  rw [run_ensureCreated]
  cases hcreated : c.hasCreated with
  | true => exact .inl ⟨rfl, by rw [if_pos rfl, marked, ← hcreated]⟩
  | false =>
    rw [if_neg Bool.false_ne_true]
    refine .inr ?_
    cases hfault : s.fault? with
    | some failure =>
      rw [Frail.ask_of_fault hfault]
      exact .inl ⟨failure, rfl, rfl⟩
    | none =>
      rw [Frail.ask_of_no_fault hfault, Frail.answered]
      cases hx : s.table.find? (leaderId source) with
      | some x =>
        rw [Table.answer_create_of_some now (hid ▸ hx)]
        exact .inr (.inl ⟨Table.has_of_find hx, rfl⟩)
      | none =>
        rw [Table.answer_create_of_none now (hid ▸ hx)]
        exact .inr (.inr ⟨rfl, rfl⟩)

/-! ## Claims -/

section Claims

variable (hgood : (Accord.sparing source).Good s.table) (hsource : c.node.source = source)
  (hheld : c.held = none) (hfault : s.fault? = none)

include hgood hsource hheld hfault

/-- A candidate without a leader partition gets it when it is available. -/
theorem run_compete_of_available (hr : s.table.find? (leaderId source) = some r)
    (havailable : r.isAvailable now = true) (hprogress : r.progress = some (leaderKind.text ⟨b⟩)) :
    s.run now (c.compete (E := Interface.none)).run =
      (.ok (c.leading b (r.claimed c.node.owner now c.node.lease)), s.claimed c now r) := by
  subst hsource
  have hid : (r.claimed c.node.owner now c.node.lease).id = leaderId c.node.source :=
    (Table.find?_some hr).2
  rw [run_compete, hheld, Frail.ask_of_no_fault hfault, Frail.answered,
    hgood.2.answer_claim_of_available hgood.1 _ _ hr havailable]
  dsimp only
  rw [ofRecord_leader hid hprogress]
  rfl

theorem run_compete_of_not_available
    (h : ∀ r, s.table.find? (leaderId source) = some r → ¬ r.isAvailable now = true) :
    s.run now (c.compete (E := Interface.none)).run = (.ok c, s.declined c) := by
  subst hsource
  have hsame : { c with held := none } = c := by rw [← hheld]
  rw [run_compete, hheld, Frail.ask_of_no_fault hfault, Frail.answered,
    hgood.2.answer_claim_of_not_available hgood.1 _ _ h]
  dsimp only
  rw [hsame]
  rfl

end Claims

/-- **What a candidate's competition comes to.** It has a leader partition already, the store
refuses, the stored record is available and is claimed, or there is nothing to claim. -/
theorem run_compete_cases (hgood : (Accord.sparing source).Good s.table)
    (hsource : c.node.source = source) (hnoted : ∀ r, s.table.find? (leaderId source) = some r →
      ∃ b, r.progress = some (leaderKind.text ⟨b⟩)) :
    (s.run now (c.compete (E := Interface.none)).run = (.ok c, s)) ∨
    (∃ failure, s.run now (c.compete (E := Interface.none)).run = (.error failure, s.refused)) ∨
    (∃ r b, s.table.find? (leaderId source) = some r ∧ r.isAvailable now = true ∧
      r.progress = some (leaderKind.text ⟨b⟩) ∧ s.run now (c.compete (E := Interface.none)).run =
        (.ok (c.leading b (r.claimed c.node.owner now c.node.lease)), s.claimed c now r)) ∨
    (s.run now (c.compete (E := Interface.none)).run = (.ok c, s.declined c)) := by
  cases hheld : c.held with
  | some p =>
    refine .inl ?_
    rw [run_compete, hheld]
    rfl
  | none =>
    refine .inr ?_
    cases hfault : s.fault? with
    | some failure =>
      refine .inl ⟨failure, ?_⟩
      rw [run_compete, hheld, Frail.ask_of_fault hfault]
      rfl
    | none =>
      refine .inr ?_
      by_cases havailable : ∃ r, s.table.find? (leaderId source) = some r ∧ r.isAvailable now = true
      · obtain ⟨r, hr, havailable⟩ := havailable
        obtain ⟨b, hprogress⟩ := hnoted r hr
        exact .inl ⟨r, b, hr, havailable, hprogress,
          run_compete_of_available now hgood hsource hheld hfault hr havailable hprogress⟩
      · exact .inr (run_compete_of_not_available now hgood hsource hheld hfault
          fun r hr h => havailable ⟨r, hr, h⟩)

/-! ## Bootstraps -/

/-- A bootstrap leaves the leader's record alone, and all its collections ready when it succeeds. -/
theorem run_bootstrap (hgood : (Accord.sparing source).Good s.table) (c : Candidate) :
    (Accord.sparing source).Good (s.run now (c.bootstrap (E := Interface.none)).run).2.table ∧
      (Accord.sparing source).Grows s.table
        (s.run now (c.bootstrap (E := Interface.none)).run).2.table ∧
      ∀ u, (s.run now (c.bootstrap (E := Interface.none)).run).1 = .ok u → ∀ x ∈ c.collections,
        x.Ready c.node.source (s.run now (c.bootstrap (E := Interface.none)).run).2.table :=
  Frail.run_abides now c.secures_bootstrap hgood

/-- A candidate keeps its leader partition through a bootstrap. -/
theorem run_initialize_of_held (hgood : (Accord.sparing source).Good s.table)
    (hheld : c.held = some (leaderPartition b r)) :
    (∃ b', c.kept (s.run now (c.initialize? (E := Interface.none)).run).1 = c.leading b' r) ∧
      (Accord.sparing source).Good (s.run now (c.initialize? (E := Interface.none)).run).2.table ∧
      (Accord.sparing source).Grows s.table
        (s.run now (c.initialize? (E := Interface.none)).run).2.table := by
  obtain ⟨hgood', hgrows, -⟩ := run_bootstrap now hgood c
  have hsame : c.leading b r = c := by
    rw [leading, ← hheld]
  rw [run_initialize?, hheld]
  dsimp only
  by_cases hinit : (leaderPartition b r).isInitialized = true
  · rw [if_pos hinit]
    exact ⟨⟨b, hsame.symm⟩, hgood, Accord.refl _ _⟩
  · rw [if_neg hinit]
    generalize s.run now (c.bootstrap (E := Interface.none)).run = outcome at hgood' hgrows ⊢
    obtain ⟨e | u, s'⟩ := outcome
    · exact ⟨⟨b, hsame.symm⟩, hgood', hgrows⟩
    · exact ⟨⟨true, rfl⟩, hgood', hgrows⟩

/-- The leader's record is there, and stays as it is. -/
theorem run_ensureCreated_of_has (hsource : c.node.source = source)
    (hhas : s.table.Has (leaderId source)) :
    (∃ h, c.kept (s.run now (c.ensureCreated (E := Interface.none)).run).1 = c.marked h) ∧
      (s.run now (c.ensureCreated (E := Interface.none)).run).2.table = s.table := by
  rcases run_ensureCreated_cases now hsource s with
    ⟨-, hrun⟩ | ⟨failure, -, hrun⟩ | ⟨-, hrun⟩ | ⟨hfree, -⟩
  · rw [hrun]
    exact ⟨⟨true, rfl⟩, rfl⟩
  · rw [hrun]
    exact ⟨⟨c.hasCreated, rfl⟩, rfl⟩
  · rw [hrun]
    exact ⟨⟨true, rfl⟩, rfl⟩
  · obtain ⟨x, hx⟩ := Table.has_iff.mp hhas
    rw [hfree] at hx
    cases hx

/-- A candidate with a leader partition in hand keeps it until it is to be renewed, and leaves the
stored record as it is. -/
theorem run_lead_of_held (hgood : (Accord.sparing source).Good s.table)
    (hsource : c.node.source = source) (hhas : s.table.Has (leaderId source))
    (hheld : c.held = some (leaderPartition b r)) :
    (∃ b' h, (s.run now (c.lead (E := Interface.none))).1 = (c.marked h).leading b' r) ∧
      (Accord.sparing source).Good (s.run now (c.lead (E := Interface.none))).2.table ∧
      (Accord.sparing source).Grows s.table
        (s.run now (c.lead (E := Interface.none))).2.table := by
  have hself : c = (c.marked c.hasCreated).leading b r := by
    rw [leading, ← hheld]
    rfl
  refine takeSteps_induction (motive := fun c' s' => (∃ b' h, c' = (c.marked h).leading b' r) ∧
      (Accord.sparing source).Good s'.table ∧ (Accord.sparing source).Grows s.table s'.table)
    ?_ ⟨⟨b, c.hasCreated, hself⟩, hgood, Accord.refl _ _⟩
  rintro step hstep c' s' ⟨⟨b', h, hc'⟩, hgood', hgrows⟩
  have hheld' : c'.held = some (leaderPartition b' r) := by rw [hc']; rfl
  have hsource' : c'.node.source = source := by rw [hc']; exact hsource
  simp only [List.mem_cons, List.not_mem_nil, or_false] at hstep
  rcases hstep with rfl | rfl | rfl
  · obtain ⟨⟨h', hkept⟩, htable⟩ :=
      run_ensureCreated_of_has now hsource' (hgrows.2 _ hhas)
    exact ⟨⟨b', h', by rw [hkept, hc']; rfl⟩, htable ▸ hgood', htable ▸ hgrows⟩
  · rw [run_compete, if_pos (by rw [hheld']; rfl)]
    exact ⟨⟨b', h, hc'⟩, hgood', hgrows⟩
  · obtain ⟨⟨b'', hkept⟩, hgood'', hgrows'⟩ :=
      run_initialize_of_held now hgood' hheld'
    exact ⟨⟨b'', h, by rw [hkept, hc']; rfl⟩, hgood'',
      (Accord.sparing source).trans hgrows hgrows'⟩

section Free

variable (hgood : (Accord.sparing source).Good s.table) (hsource : c.node.source = source)
  (hhas : c.hasCreated = true → s.table.Has (leaderId source)) (hfaults : s.faults = [])

include hgood hsource hhas hfaults

/-- When nothing goes wrong, the leader's record is there afterwards: the one that was there
before, if there was one. -/
theorem run_ensureCreated_of_no_fault : ∃ s',
    s.run now (c.ensureCreated (E := Interface.none)).run = (.ok (c.marked true), s') ∧
      (Accord.sparing source).Good s'.table ∧ s'.faults = [] ∧
      s'.table.find? (leaderId source) =
        some ((s.table.find? (leaderId source)).getD (c.newRecord now).firstVersion) := by
  have hid := id_newRecord now hsource
  rcases run_ensureCreated_cases now hsource s with
    ⟨hcreated, hrun⟩ | ⟨failure, hfault, -⟩ | ⟨hfound, hrun⟩ | ⟨hfree, hrun⟩
  · obtain ⟨x, hx⟩ := Table.has_iff.mp (hhas hcreated)
    exact ⟨s, hrun, hgood, hfaults, by rw [hx, Option.getD_some]⟩
  · rw [Frail.fault?, hfaults] at hfault
    cases hfault
  · obtain ⟨x, hx⟩ := Table.has_iff.mp hfound
    exact ⟨_, hrun, hgood, congrArg List.tail hfaults, by rw [Frail.found, hx, Option.getD_some]⟩
  · have hnew : s.table.find? (c.newRecord now).firstVersion.id = none := hid ▸ hfree
    refine ⟨_, hrun, ⟨Table.distinct_insert hgood.1 hnew,
      hgood.2.insert fun _ _ => congrArg RecordId.key hid⟩, congrArg List.tail hfaults, ?_⟩
    rw [hfree, Option.getD_none]
    exact (Table.find?_insert hnew _).trans (if_pos hid.symm)

/-- A candidate without a leader partition gets it when it is free. -/
theorem run_lead_of_free (hheld : c.held = none)
    (hstored : ∀ r, s.table.find? (leaderId source) = some r →
      r.isAvailable now = true ∧ ∃ b, r.progress = some (leaderKind.text ⟨b⟩)) :
    ∃ b r, (s.run now (c.lead (E := Interface.none))).1 = (c.marked true).leading b r ∧
      (s.run now (c.lead (E := Interface.none))).2.faults = [] ∧
      (s.run now (c.lead (E := Interface.none))).2.table.find? (leaderId source) = some r ∧
      r.id = leaderId source ∧ r.status = some .assigned ∧ r.owner = some c.node.owner := by
  obtain ⟨s', hrun, hgood', hfaults', hs'⟩ :=
    run_ensureCreated_of_no_fault now hgood hsource hhas hfaults
  have hfault' : s'.fault? = none := by rw [Frail.fault?, hfaults']; rfl
  -- What is there now was there and available, or has just been created.
  obtain ⟨r, hr, havailable, b, hprogress⟩ : ∃ r, s'.table.find? (leaderId source) = some r ∧
      r.isAvailable now = true ∧ ∃ b, r.progress = some (leaderKind.text ⟨b⟩) := by
    cases hx : s.table.find? (leaderId source) with
    | some x => exact ⟨x, by rw [hs', hx, Option.getD_some], hstored x hx⟩
    | none => exact ⟨_, by rw [hs', hx, Option.getD_none], rfl, false, rfl⟩
  have hcompete := run_compete_of_available now (c := c.marked true) hgood' hsource hheld hfault' hr
    havailable hprogress
  have hid : (r.claimed c.node.owner now c.node.lease).id = leaderId source :=
    (Table.find?_some hr).2
  have hreplaced : (s'.table.replace (r.claimed c.node.owner now c.node.lease)).find?
      (leaderId source) = some (r.claimed c.node.owner now c.node.lease) :=
    hid ▸ Table.find?_replace_self (hid ▸ hr)
  have hgood'' : (Accord.sparing source).Good (s'.claimed (c.marked true) now r).table :=
    ⟨Table.distinct_replace hgood'.1 _, hgood'.2.replace fun _ _ => congrArg RecordId.key hid⟩
  obtain ⟨⟨b', hkept⟩, -, hgrows⟩ := run_initialize_of_held now
    (c := (c.marked true).leading b (r.claimed c.node.owner now c.node.lease)) hgood'' rfl
  rw [lead, run_takeSteps, hrun]
  dsimp only
  rw [run_takeSteps, hcompete]
  dsimp only
  rw [run_takeSteps_singleton]
  exact ⟨b', r.claimed c.node.owner now c.node.lease, hkept,
    Frail.faults_run now (congrArg List.tail hfaults') _, hgrows.1.trans hreplaced, hid, rfl, rfl⟩

/-- A candidate without a leader partition stays without it when it is taken. -/
theorem run_lead_of_taken (hheld : c.held = none) (hr : s.table.find? (leaderId source) = some r)
    (havailable : ¬ r.isAvailable now = true) :
    (s.run now (c.lead (E := Interface.none))).1 = c.marked true := by
  obtain ⟨s', hrun, hgood', hfaults', hs'⟩ :=
    run_ensureCreated_of_no_fault now hgood hsource hhas hfaults
  have hfault' : s'.fault? = none := by rw [Frail.fault?, hfaults']; rfl
  have htaken : ∀ x, s'.table.find? (leaderId source) = some x → ¬ x.isAvailable now = true := by
    intro x hx
    rw [hs', hr, Option.getD_some] at hx
    exact Option.some.inj hx ▸ havailable
  have hcompete := run_compete_of_not_available now (c := c.marked true) hgood' hsource hheld
    hfault' htaken
  rw [lead, run_takeSteps, hrun]
  dsimp only
  rw [run_takeSteps, hcompete]
  dsimp only
  rw [run_takeSteps, run_initialize?, show (c.marked true).held = none from hheld]
  rfl

end Free

end Candidate

end LeasedWork
