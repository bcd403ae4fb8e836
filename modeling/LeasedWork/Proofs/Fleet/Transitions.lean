import LeasedWork.Proofs.Fleet.Sites

/-! # Transitions all or nothing

A node that saves, completes, closes or gives up a partition makes one conditional write.  Either
the write succeeds, and then the record behind the partition is the stored one and differs from the
one before just as the operation documents, or nothing has happened: neither to the store nor to the
partition in hand (`Handling.all_or_nothing`).  Which of the two it is, and with which failure, can
be told beforehand from the partition and the store (`Handling.refusal`).

This is for any content of the store, also for one that no node has written, such as objects that
hold no record, and for a store of which the updates fail.
-/
namespace LeasedWork

/-! ## What is stored -/

/-- Whether there is an object at a path that holds no record. -/
def Bucket.isGarbled (b : Bucket) (path : ObjectPath) : Bool :=
  (b.find? path).any fun o => (Record.parse? o.text).isNone

/-- The object from which a record was read. -/
theorem Bucket.find?_of_versioned {b : Bucket} {path : ObjectPath} {v : ObjectStore.Versioned}
    (h : b.versioned? path = some v) : ∃ o, b.find? path = some o ∧ o.tag = v.tag := by
  obtain ⟨o, ho, hread⟩ := Option.bind_eq_some_iff.mp h
  obtain ⟨r, -, rfl⟩ := Option.map_eq_some_iff.mp hread
  exact ⟨o, ho, rfl⟩

/-- Whatever is in a bucket, an object is read as it stands. -/
theorem ObjectStore.run_readAt_any (now : Instant) (b : Bucket) (path : ObjectPath) :
    Program.run (Bucket.handler now) (readAt path).run b =
      (if b.isGarbled path then .error .unreadable else .ok (b.versioned? path), b) := by
  rw [readAt, run_ask]
  cases h : b.find? path with
  | none =>
    rw [Bucket.answer_get_of_none h, Bucket.isGarbled, Bucket.versioned?, h]
    rfl
  | some o =>
    rw [Bucket.answer_get_of_some h, Bucket.isGarbled, Bucket.versioned?, h, Option.any_some,
      Option.bind_some]
    dsimp only
    cases Record.parse? o.text <;> rfl

namespace Backend

/-- What is stored of an identity. -/
def record? : (b : Backend) → b.State → RecordId → Option Record
  | .table, t, id => t.find? id
  | .objects root, s, id => (s.versioned? (ObjectPath.ofRecord root id)).map (·.record)

/-- Whether the object of an identity holds no record. -/
def isGarbled : (b : Backend) → b.State → RecordId → Bool
  | .table, _, _ => false
  | .objects root, s, id => s.isGarbled (ObjectPath.ofRecord root id)

/-- Two states differ at most in what is stored of an identity. -/
def SameBut : (b : Backend) → RecordId → b.State → b.State → Prop
  | .table, id, t, t' => ∀ other, other ≠ id → t'.find? other = t.find? other
  | .objects root, id, s, s' =>
    ∀ path, path ≠ ObjectPath.ofRecord root id → s'.find? path = s.find? path

variable {b : Backend}

/-- In a backend that holds the records of a table, those are what is stored. -/
theorem Holds.record?_eq {s : b.State} {t : Table} (h : b.Holds s t) (id : RecordId) :
    b.record? s id = t.find? id := by
  cases b with
  | table =>
    obtain ⟨rfl, -⟩ := h
    rfl
  | objects root => exact h.versioned_ofRecord id

/-- In a backend that holds the records of a table, all objects hold records. -/
theorem Holds.isGarbled_eq {s : b.State} {t : Table} (h : b.Holds s t) (id : RecordId) :
    b.isGarbled s id = false := by
  cases b with
  | table => rfl
  | objects root =>
    rw [isGarbled, Bucket.isGarbled]
    cases ho : s.find? (ObjectPath.ofRecord root id) with
    | none => rfl
    | some o =>
      obtain ⟨r, hr⟩ := h.readable o (Bucket.find?_some ho).1
      rw [Option.any_some, hr]
      rfl

theorem SameBut.record?_eq {id other : RecordId} {s s' : b.State} (h : b.SameBut id s s')
    (hother : other ≠ id) : b.record? s' other = b.record? s other := by
  cases b with
  | table => exact h other hother
  | objects root =>
    have hpath := h (ObjectPath.ofRecord root other) fun heq =>
      hother (ObjectPath.ofRecord_inj.mp heq)
    simp only [record?, Bucket.versioned?, hpath]

/-- Why an update fails, if it does. -/
def updateFailure (b : Backend) (s : b.State) (r : Record) : Option Failure :=
  if b.isGarbled s r.id then some .unreadable
  else if (b.record? s r.id).map Record.version = some r.version then none
  else some (.lostWriteOf r)

/-- Only the identity and the version of an update decide whether it fails. -/
theorem updateFailure_congr {s : b.State} {r r' : Record} (hid : r.id = r'.id)
    (hversion : r.version = r'.version) : b.updateFailure s r = b.updateFailure s r' := by
  have hkind : r.kind = r'.kind := congrArg RecordId.kind hid
  have hkey : r.key = r'.key := congrArg RecordId.key hid
  simp only [updateFailure, Failure.lostWriteOf, hid, hversion, hkind, hkey]

theorem stored_of_updateFailure {s : b.State} {r : Record} (h : b.updateFailure s r = none) :
    ∃ stored, b.record? s r.id = some stored := by
  unfold updateFailure at h
  split at h
  · cases h
  · split at h
    · obtain ⟨stored, hstored, -⟩ := Option.map_eq_some_iff.mp ‹_›
      exact ⟨stored, hstored⟩
    · cases h

/-- The state after a successful update to a record. -/
def put : (b : Backend) → Record → b.State → b.State
  | .table, r, t => t.replace r
  | .objects root, r, s => s.put (ObjectPath.ofRecord root r.id) r.print

/-- **An update writes the next version, or it fails and changes nothing.** -/
theorem serve_update (b : Backend) (now : Instant) (r : Record) (s : b.State) :
    b.serve ⟨now, .update r⟩ s =
      match b.updateFailure s r with
      | some e => (.error e, s)
      | none => (.ok r.nextVersion, b.put r.nextVersion s) := by
  cases b with
  | table =>
    rw [updateFailure, isGarbled, if_neg Bool.false_ne_true, record?]
    by_cases hcurrent : (s.find? r.id).map Record.version = some r.version
    · obtain ⟨stored, hstored, hversion⟩ := Option.map_eq_some_iff.mp hcurrent
      rw [if_pos hcurrent]
      exact Table.answer_update_of_current now hstored hversion
    · rw [if_neg hcurrent]
      refine Table.answer_update_of_stale now fun stored hstored hversion => hcurrent ?_
      exact Option.map_eq_some_iff.mpr ⟨stored, hstored, hversion⟩
  | objects root =>
    refine (Program.run_exceptT_bind (Bucket.handler now) (ObjectStore.readAt _) _ s).trans ?_
    rw [ObjectStore.run_readAt_any, updateFailure, isGarbled, record?]
    cases s.isGarbled (ObjectPath.ofRecord root r.id) with
    | true => rfl
    | false =>
      cases hread : s.versioned? (ObjectPath.ofRecord root r.id) with
      | none => rfl
      | some v =>
        by_cases hversion : v.record.version = r.version
        · -- The object still has the tag with which it has just been read.
          obtain ⟨o, ho, htag⟩ := Bucket.find?_of_versioned hread
          have hobject : s.find? (ObjectPath.ofRecord root r.nextVersion.id) = some o := ho
          simp only [if_neg Bool.false_ne_true, Option.map_some, hversion, ne_eq, not_true_eq_false,
            if_false, if_true]
          rw [Program.run_exceptT_bind, ObjectStore.run_replaceIfUnchanged hobject htag]
          rfl
        · simp only [if_neg Bool.false_ne_true, Option.map_some, Option.some.injEq, hversion, ne_eq,
            not_false_eq_true, if_false, if_true]
          rfl

/-- A record that takes the place of a stored one is stored, and nothing else changes. -/
theorem record?_put {r stored : Record} {s : b.State} (h : b.record? s r.id = some stored) :
    b.record? (b.put r s) r.id = some (b.kept r) ∧ b.SameBut r.id s (b.put r s) := by
  cases b with
  | table => exact ⟨Table.find?_replace_self h, fun _ => Table.find?_replace_of_ne⟩
  | objects root =>
    refine ⟨?_, fun path hpath => (s.find?_put _ _ path).trans (if_neg hpath)⟩
    rw [record?, put, Bucket.versioned?, Bucket.find?_put, if_pos rfl, Option.bind_some,
      Record.parse_print_eq]
    rfl

end Backend

/-! ## Operations on a partition in hand -/

/-- What a node may do with a partition in hand. -/
inductive Handling
  /-- Saves the progress, with a lease extended by a span or by that of the node. -/
  | save (n : Node) (extension : Option Span)
  | complete
  | close (reopenAfter : Span)
  | closeWithLimit (reopenAfter : Span) (limit : UInt64)
  | giveUp

namespace Handling

def action {P : Type} [Held P] (p : P) : Handling → Node.Action Interface.none P
  | .save n extension => n.save p extension
  | .complete => Node.complete p
  | .close reopenAfter => Node.close p reopenAfter none
  | .closeWithLimit reopenAfter limit => Node.close p reopenAfter (some limit)
  | .giveUp => Node.giveUp p

/-- Whether the operation is for leased partitions only. -/
def needsLease : Handling → Bool
  | .save _ _ => false
  | .complete | .close _ | .closeWithLimit _ _ | .giveUp => true

/-- The record as the operation is to leave it, with the progress in hand as its text. -/
def written (now : Instant) (progress : Option String) (r : Record) (x : Handling) : Record :=
  let next := { r with progress := progress, version := r.version + 1 }
  let ended := { next with
    status := some .completed, owner := none, leaseExpiry := none
    reopenAt := none, completedAt := some now }
  let closed (reopenAfter : Span) := { next with
    status := some .closed, owner := none, leaseExpiry := none
    reopenAt := some (now.after reopenAfter), closedCount := r.closedCount + 1 }
  match x with
  | .save n extension =>
    if r.status = none then next
    else { next with leaseExpiry := some (now.after (extension.getD n.lease)) }
  | .complete => ended
  | .close reopenAfter => closed reopenAfter
  | .closeWithLimit reopenAfter limit =>
    if limit ≤ r.closedCount + 1 then { ended with closedCount := r.closedCount + 1 }
    else closed reopenAfter
  | .giveUp => { next with status := some .unassigned, owner := none, leaseExpiry := none }

/-- What comes of an operation: its failure, if it fails, the partition in hand and the store. -/
structure Outcome (b : Backend) where
  failure : Option Failure
  hand : Hand
  state : b.State

variable {b : Backend}

/-- Does something with a partition in hand, at a time and while requests may fail.  Whoever is
told of a failure has the partition as it was. -/
def perform (x : Handling) (now : Instant) (fault : Option Failure) (h : Hand) (s : b.State) :
    Outcome b :=
  match Program.run (b.handler now (fault.map .early)) (x.action h.piece).run s with
  | (.ok p, s) => ⟨none, ⟨h.factory, p⟩, s⟩
  | (.error e, s) => ⟨some e, h, s⟩

/-- Why an operation fails, if it does. -/
def refusal (x : Handling) (fault : Option Failure) (h : Hand) (s : b.State) : Option Failure :=
  if x.needsLease && !h.leased then some (.notLeasable (Held.tag h.piece))
  else
    match h.record with
    | none => some (.noRecord (Held.tag h.piece) (Held.key h.piece))
    | some r =>
      if fault.isSome then fault
      else if b.isGarbled s r.id then some .unreadable
      else if (b.record? s r.id).map Record.version = some r.version then none
      else some (.writeLost r.kind r.key r.version)

/-- A store of objects that hold records refuses what a table of the same records refuses. -/
theorem refusal_of_holds {s : b.State} {t : Table} (hs : b.Holds s t) (x : Handling)
    (fault : Option Failure) (h : Hand) :
    x.refusal fault h s = x.refusal (b := .table) fault h t := by
  unfold refusal
  split
  · rfl
  · cases h.record with
    | none => rfl
    | some r =>
      dsimp only
      rw [hs.isGarbled_eq, hs.record?_eq]
      rfl

/-- The transition that an operation is. -/
def transition : Handling → Transition
  | .save n extension => .save (extension.getD n.lease)
  | .complete => .complete
  | .close reopenAfter => .close reopenAfter none
  | .closeWithLimit reopenAfter limit => .close reopenAfter (some limit)
  | .giveUp => .giveUp

theorem action_eq {P : Type} [Held P] (p : P) (x : Handling) :
    x.action p = Node.transition p x.transition := by
  cases x <;> rfl

theorem needsLease_transition (x : Handling) : x.transition.needsLease = x.needsLease := by
  cases x <;> rfl

/-- The record that a transition writes is the documented one. -/
theorem moved_transition (x : Handling) (now : Instant) (h : Hand) (r : Record) :
    h.moved x.transition now r = x.written now (Held.progressText h.piece) r := by
  cases x with
  | save n extension =>
    unfold Hand.moved Node.proposal Transition.apply written transition
    cases r.status <;> simp [Record.nextVersion]
  | complete => rfl
  | close reopenAfter => rfl
  | closeWithLimit reopenAfter limit =>
    unfold Hand.moved Node.proposal Transition.apply written transition
    by_cases hlimit : limit ≤ r.closedCount + 1
    · simp only [Option.any_some, hlimit, decide_true, if_true]
      rfl
    · simp only [Option.any_some, hlimit, decide_false, Bool.false_eq_true, if_false]
      rfl
  | giveUp => rfl

@[simp] theorem id_written (x : Handling) (now : Instant) (progress : Option String) (r : Record) :
    (x.written now progress r).id = r.id := by
  cases x with
  | save n extension =>
    unfold written
    cases r.status <;> rfl
  | closeWithLimit reopenAfter limit =>
    dsimp only [written]
    split <;> rfl
  | complete | close | giveUp => rfl

/-- **What comes of an operation**: it is refused, or the stored record is replaced. -/
theorem perform_cases (x : Handling) (now : Instant) (fault : Option Failure) (h : Hand)
    (s : b.State) :
    (∃ e, x.refusal fault h s = some e ∧ x.perform now fault h s = ⟨some e, h, s⟩) ∨
      ∃ r stored, x.refusal fault h s = none ∧ h.record = some r ∧
        b.record? s r.id = some stored ∧
        let new := x.written now (Held.progressText h.piece) r
        x.perform now fault h s = ⟨none, h.adopt new, b.put new s⟩ := by
  unfold perform refusal
  rw [action_eq, Node.run_transition, needsLease_transition]
  by_cases hleased : (x.needsLease && !h.leased) = true
  · refine .inl ⟨_, if_pos hleased, ?_⟩
    rw [Hand.leased] at hleased
    rw [if_pos hleased]
  · simp only [if_neg hleased]
    rw [Hand.leased] at hleased
    rw [if_neg hleased]
    cases hr : h.record with
    | none =>
      rw [Hand.record] at hr
      rw [hr]
      exact .inl ⟨_, rfl, rfl⟩
    | some r =>
      rw [Hand.record] at hr
      rw [hr]
      cases fault with
      | some e => exact .inl ⟨e, rfl, rfl⟩
      | none =>
        have hserve := b.serve_update now (Node.proposal h.piece x.transition now r) s
        have hnext : (Node.proposal h.piece x.transition now r).nextVersion = _ :=
          x.moved_transition now h r
        rw [Backend.updateFailure_congr (Node.id_proposal h.piece x.transition now r)
          (Node.version_proposal h.piece x.transition now r), hnext] at hserve
        dsimp only [Backend.handler, Handler.ofStore, Backend.answer, Option.map_none]
        rw [hserve]
        cases hfailure : b.updateFailure s r with
        | some e => exact .inl ⟨e, hfailure, rfl⟩
        | none =>
          obtain ⟨stored, hstored⟩ := Backend.stored_of_updateFailure hfailure
          exact .inr ⟨r, stored, hfailure, rfl, hstored, rfl⟩

end Handling

end LeasedWork
