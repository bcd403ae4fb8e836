import LeasedWork.Proofs.Fleet.Statuses

/-! # When a record becomes available

Whether a stored record may be claimed at a time is read off its status, its lease and its reopening
time.  Six operations set and clear these in different combinations, and leave things behind: a
save writes a lease also on a record that nobody holds, and a record that is given up after it was
closed keeps its reopening time.

None of this matters.  The writes of a record so far (`Fleet.history`) decide at which times it is
available, and of these the last one that is not a save (`Fleet.available_iff_opening`): a record
that was created or given up is always available; one that was completed, or closed for the last
time, never is; one that was closed is available from its reopening time on; and one that was
claimed, from the end of the last lease that the claim or a later save has given it.
-/
namespace LeasedWork

/-! ## Openings -/

/-- The times at which a record is available. -/
inductive Opening
  | always
  | never
  | since (t : Instant)
  deriving DecidableEq, Repr

namespace Opening

/-- Whether a time is one of them. -/
def Admits (t : Instant) : Opening → Prop
  | .always => True
  | .never => False
  | .since start => start ≤ t

/-- From a deadline on, or always without one. -/
def ofDeadline? : Option Instant → Opening
  | none => .always
  | some t => .since t

theorem admits_ofDeadline? (t : Instant) (deadline : Option Instant) :
    (ofDeadline? deadline).Admits t ↔ hasPassed t deadline = true := by
  cases deadline with
  | none => exact iff_of_true trivial rfl
  | some d => exact (decide_eq_true_iff (p := d ≤ t)).symm

end Opening

namespace Record

/-- When a record is available, by its fields. -/
def opening (r : Record) : Opening :=
  match r.status with
  | some .assigned => .ofDeadline? r.leaseExpiry
  | some .unassigned => .always
  | some .closed => .ofDeadline? r.reopenAt
  | some .completed | none => .never

theorem isAvailable_iff_opening {t : Instant} {r : Record} :
    r.isAvailable t = true ↔ r.opening.Admits t := by
  unfold isAvailable availability opening
  cases r.status with
  | none => exact iff_of_false Bool.noConfusion not_false
  | some status =>
    cases status with
    | unassigned => exact iff_of_true rfl trivial
    | completed => exact iff_of_false Bool.noConfusion not_false
    | assigned =>
      dsimp only
      rw [Opening.admits_ofDeadline?]
      split <;> simp [*]
    | closed =>
      dsimp only
      rw [Opening.admits_ofDeadline?]
      split <;> simp [*]

theorem opening_claimed (owner : String) (now : Instant) (lease : Span) (r : Record) :
    (r.claimed owner now lease).opening = .since (now.after lease) := rfl

/-- A record that nobody holds does not mind a lease. -/
theorem opening_leaseExpiry {r : Record} (h : r.status ≠ some .assigned) (expiry : Option Instant) :
    ({ r with leaseExpiry := expiry } : Record).opening = r.opening := by
  unfold opening
  dsimp only
  split
  · exact absurd ‹_› h
  · rfl
  · rfl
  · rfl
  · rfl

end Record

namespace Hand

variable (x : Hand) (now : Instant) (r : Record)

theorem opening_complete : (x.moved .complete now r).opening = .never := rfl

theorem opening_giveUp : (x.moved .giveUp now r).opening = .always := rfl

theorem opening_close (reopenAfter : Span) (limit : Option UInt64) :
    (x.moved (.close reopenAfter limit) now r).opening =
      if limit.any (· ≤ r.closedCount + 1) then .never else .since (now.after reopenAfter) := by
  unfold moved Node.proposal Transition.apply
  dsimp only
  split <;> rfl

variable {r}

/-- A save renews the lease of a record that is held. -/
theorem opening_save_of_assigned (extension : Span) (h : r.status = some .assigned) :
    (x.moved (.save extension) now r).opening = .since (now.after extension) := by
  simp [moved, Node.proposal, Transition.apply, h, Record.nextVersion, Record.opening,
    Opening.ofDeadline?]

/-- A save of any other record leaves a lease behind that does not matter. -/
theorem opening_save_of_not_assigned (extension : Span) (h : r.status ≠ some .assigned) :
    (x.moved (.save extension) now r).opening = r.opening := by
  unfold moved Node.proposal Transition.apply
  dsimp only
  split
  · exact Record.opening_leaseExpiry h _
  · rfl

/-- Only a close is counted. -/
theorem closedCount_moved {t : Transition} (h : ∀ reopenAfter limit, t ≠ .close reopenAfter limit) :
    (x.moved t now r).closedCount = r.closedCount := by
  unfold moved Node.proposal Transition.apply
  cases t with
  | save extension => dsimp only; split <;> rfl
  | complete => rfl
  | close reopenAfter limit => exact absurd rfl (h reopenAfter limit)
  | giveUp => rfl

theorem closedCount_close (reopenAfter : Span) (limit : Option UInt64) :
    (x.moved (.close reopenAfter limit) now r).closedCount = r.closedCount + 1 := by
  unfold moved Node.proposal Transition.apply
  dsimp only
  split <;> rfl

end Hand

/-! ## Writes -/

/-- A write of one record: which operation made it, at what time, and with what it was called. -/
inductive Write
  | created (leased : Bool)
  | claimed (time : Instant) (lease : Span)
  | saved (time : Instant) (extension : Span)
  | completed
  | closed (time : Instant) (reopenAfter : Span) (limit : Option UInt64)
  | givenUp
  deriving DecidableEq, Repr

namespace Write

def isSave : Write → Bool
  | .saved _ _ => true
  | _ => false

def isClaim : Write → Bool
  | .claimed _ _ => true
  | _ => false

def isClose : Write → Bool
  | .closed _ _ _ => true
  | _ => false

/-- The end of the lease that a write has given. -/
def leaseEnd? : Write → Option Instant
  | .claimed time lease => some (time.after lease)
  | .saved time extension => some (time.after extension)
  | _ => none

/-- The last of some writes that is not a save. -/
def last? (ws : List Write) : Option Write := (ws.filter fun u => !u.isSave).getLast?

/-- The end of the last lease that some writes have given. -/
def lastLeaseEnd? (ws : List Write) : Option Instant := (ws.filterMap leaseEnd?).getLast?

/-- When a record is available that has been written so, and no more. A close reaches its limit when
it is at least the so-many-th. -/
def opening (ws : List Write) : Opening :=
  match last? ws with
  | some (.created leased) => if leased then .always else .never
  | some (.claimed _ _) => .ofDeadline? (lastLeaseEnd? ws)
  | some .completed => .never
  | some (.closed time reopenAfter limit) =>
    if limit.any (·.toNat ≤ ws.countP isClose) then .never else .since (time.after reopenAfter)
  | some .givenUp => .always
  | some (.saved _ _) | none => .never

variable (ws : List Write)

theorem last?_concat {u : Write} (h : u.isSave = false) : last? (ws ++ [u]) = some u := by
  simp [last?, h]

theorem last?_concat_save (time : Instant) (extension : Span) :
    last? (ws ++ [.saved time extension]) = last? ws := by
  simp [last?, isSave]

theorem lastLeaseEnd?_concat {u : Write} {t : Instant} (h : u.leaseEnd? = some t) :
    lastLeaseEnd? (ws ++ [u]) = some t := by
  simp [lastLeaseEnd?, h]

end Write

/-! ## Histories -/

/-- A move, or the common clock is set, be it forward or back. -/
inductive Turn
  | move (m : Move)
  | setClock (t : Instant)

/-- The write that a turn makes at a time, of whatever record. -/
def Turn.write? (now : Instant) : Turn → Option Write
  | .move (.deed d) =>
    match d with
    | .create (k := k) _ _ => some (.created k.leased)
    | .createEach _ kind _ _ => some (.created (kind ≠ sharedKind.tag))
    | .claim n _ lease => some (.claimed now (lease.getD n.lease))
    | .claimAny n _ _ lease => some (.claimed now (lease.getD n.lease))
    | .save n _ extension => some (.saved now (extension.getD n.lease))
    | .complete _ => some .completed
    | .close _ reopenAfter limit => some (.closed now reopenAfter limit)
    | .giveUp _ => some .givenUp
    | .revise _ _ | .tick _ => none
  | .move (.look _) | .setClock _ => none

namespace Fleet

/-- The fleet after a turn. -/
def next (w : Fleet) : Turn → Fleet
  | .move m => w.step m
  | .setClock t => { w with now := t }

/-- The fleet after some turns, one after the other. -/
def follow (w : Fleet) (turns : List Turn) : Fleet := turns.foldl next w

/-- What a turn has written of an identity. Whoever writes a record changes it, if only in its
version. -/
def wrote (id : RecordId) (w : Fleet) (turn : Turn) : List Write :=
  if (w.next turn).table.find? id = w.table.find? id then [] else (turn.write? w.now).toList

/-- All writes of an identity in a run of turns. -/
def history (id : RecordId) (w : Fleet) : List Turn → List Write
  | [] => []
  | turn :: rest => w.wrote id turn ++ history id (w.next turn) rest

/-- A stored record is as its writes say. -/
structure Explains (ws : List Write) (s : Record) : Prop where
  opening : s.opening = Write.opening ws
  assigned : s.status = some .assigned ↔ (Write.last? ws).any Write.isClaim = true
  closings : s.closedCount.toNat = ws.countP Write.isClose

/-- What is stored of an identity is as its writes say. -/
structure Tells (id : RecordId) (ws : List Write) (w : Fleet) : Prop where
  coherent : Coherent id ws.length w
  stored : ∀ s, w.table.find? id = some s → Explains ws s
  missing : w.table.find? id = none → ws = []

variable {w : Fleet} {id : RecordId} {ws : List Write} {s : Record}

theorem tells_starting (id : RecordId) (start : Instant) : Tells id [] (starting start) where
  coherent := coherent_starting id start
  stored _ h := nomatch h
  missing _ := rfl

namespace Explains

theorem created (n : Node) (kind key : String) (leased : Bool) (progress : Option String)
    (now : Instant) :
    Explains [.created leased] (n.newRecord kind key leased progress now).firstVersion := by
  cases leased with
  | false => exact ⟨rfl, iff_of_false nofun nofun, rfl⟩
  | true => exact ⟨rfl, iff_of_false nofun nofun, rfl⟩

theorem claimed (h : Explains ws s) (owner : String) (now : Instant) (lease : Span) :
    Explains (ws ++ [.claimed now lease]) (s.claimed owner now lease) where
  opening := by
    rw [Record.opening_claimed, Write.opening, Write.last?_concat ws rfl]
    dsimp only
    rw [Write.lastLeaseEnd?_concat ws rfl]
    rfl
  assigned := by
    rw [Write.last?_concat ws rfl]
    exact iff_of_true rfl rfl
  closings := by
    rw [List.countP_append]
    exact h.closings

variable (x : Hand) (now : Instant)

theorem completed (h : Explains ws s) :
    Explains (ws ++ [.completed]) (x.moved .complete now s) where
  opening := by rw [Hand.opening_complete, Write.opening, Write.last?_concat ws rfl]
  assigned := by
    rw [Write.last?_concat ws rfl, Hand.status_complete]
    decide
  closings := by
    rw [List.countP_append, Hand.closedCount_moved x now (t := .complete) nofun]
    exact h.closings

theorem givenUp (h : Explains ws s) : Explains (ws ++ [.givenUp]) (x.moved .giveUp now s) where
  opening := by rw [Hand.opening_giveUp, Write.opening, Write.last?_concat ws rfl]
  assigned := by
    rw [Write.last?_concat ws rfl, Hand.status_giveUp]
    decide
  closings := by
    rw [List.countP_append, Hand.closedCount_moved x now (t := .giveUp) nofun]
    exact h.closings

/-- A save renews the lease of the record that was claimed last, and otherwise changes nothing. -/
theorem saved (h : Explains ws s) (extension : Span) :
    Explains (ws ++ [.saved now extension]) (x.moved (.save extension) now s) where
  opening := by
    by_cases hs : s.status = some .assigned
    · rw [Hand.opening_save_of_assigned x now extension hs, Write.opening,
        Write.last?_concat_save]
      obtain ⟨u, hu, hclaim⟩ := (Option.any_eq_true _ _).mp (h.assigned.mp hs)
      rw [hu]
      cases u with
      | claimed time lease =>
        dsimp only
        rw [Write.lastLeaseEnd?_concat ws rfl]
        rfl
      | _ => cases hclaim
    · rw [Hand.opening_save_of_not_assigned x now extension hs, h.opening, Write.opening,
        Write.opening, Write.last?_concat_save, List.countP_append]
      have hnot : (Write.last? ws).any Write.isClaim = false := by
        rw [← Bool.not_eq_true, ← h.assigned]
        exact hs
      cases hu : Write.last? ws with
      | none => rfl
      | some u =>
        rw [hu] at hnot
        cases u with
        | claimed time lease => cases hnot
        | _ => rfl
  assigned := by rw [Hand.status_save, Write.last?_concat_save, h.assigned]
  closings := by
    rw [List.countP_append, Hand.closedCount_moved x now (t := .save extension) nofun]
    exact h.closings

/-- A close is counted, and so reaches its limit when there have been as many. -/
theorem closed (h : Explains ws s) (hmost : ws.length + 1 < UInt64.size) (reopenAfter : Span)
    (limit : Option UInt64) : Explains (ws ++ [.closed now reopenAfter limit])
      (x.moved (.close reopenAfter limit) now s) := by
  have hle : s.closedCount.toNat ≤ ws.length := h.closings ▸ List.countP_le_length
  have hcount : (s.closedCount + 1).toNat =
      (ws ++ [Write.closed now reopenAfter limit]).countP Write.isClose := by
    rw [Coherent.toNat_succ hle hmost, h.closings, List.countP_append]
    rfl
  refine ⟨?_, ?_, ?_⟩
  · rw [Hand.opening_close, Write.opening, Write.last?_concat ws rfl, ← hcount]
    rfl
  · rw [Hand.status_close, Write.last?_concat ws rfl]
    refine iff_of_false ?_ Bool.noConfusion
    split <;> decide
  · rw [Hand.closedCount_close, hcount]

end Explains

/-! ## What a turn writes -/

variable {m : Move}

/-- Whether a record is a new one that a move creates. -/
def Appears (w : Fleet) (m : Move) (s : Record) : Prop :=
  ∃ n kind key leased progress now, (Turn.move m).write? w.now = some (.created leased) ∧
    s = (Node.newRecord n kind key leased progress now).firstVersion

theorem find_insert_of_mine {t : Table} {r : Record} {shown : Record → Prop}
    (ht : ∀ s, t.find? id = some s → shown s) (hfree : t.find? r.id = none)
    (hr : shown r.firstVersion) : ∀ s, (t.insert r.firstVersion).find? id = some s → shown s := by
  intro s hs
  have hfree' : t.find? r.firstVersion.id = none := hfree
  rw [Table.find?_insert hfree'] at hs
  split at hs
  · cases hs
    exact hr
  · exact ht s hs

theorem find_claimed_of_none (hfree : w.table.find? id = none) {n : Node} {kind : String}
    {lease : Span} {w' : Fleet} (hc : Claimed w n kind lease w') : w'.table.find? id = none := by
  cases hc with
  | none => exact hfree
  | some r hands _ _ _ _ _ => exact Table.find?_replace_of_none hfree

theorem find_transition_of_none (hfree : w.table.find? id = none) (i : Nat) (t : Transition) :
    (w.transition i t).table.find? id = none := by
  by_cases hm : ∃ x r, w.Moves i t x r
  · obtain ⟨x, r, hm⟩ := hm
    rw [transition_of_moves hm]
    exact Table.find?_replace_of_none hfree
  · rw [transition_of_not_moves fun x r hx => hm ⟨x, r, hx⟩]
    exact hfree

theorem appears (m : Move) (hfree : w.table.find? id = none)
    (hs : (w.step m).table.find? id = some s) : Appears w m s := by
  have hmissing (h : (w.step m).table.find? id = none) : Appears w m s :=
    nomatch h.symm.trans hs
  cases m with
  | look l => exact hmissing ((looked w l).table ▸ hfree)
  | deed d =>
    have hstart : ∀ s, w.table.find? id = some s → Appears w (.deed d) s :=
      fun s hs => nomatch hfree.symm.trans hs
    have hinsert : ∀ (t : Table) (r : Record), Appears w (.deed d) r.firstVersion →
        (∀ s, t.find? id = some s → Appears w (.deed d) s) → t.find? r.id = none →
        ∀ s, (t.insert r.firstVersion).find? id = some s → Appears w (.deed d) s :=
      fun t r hr ht hfree => find_insert_of_mine ht hfree hr
    cases d with
    | create n p =>
      exact create_induction_of _ hinsert hstart ⟨n, _, _, _, _, _, rfl, rfl⟩ s hs
    | createEach n kind progress keys =>
      exact createEach_induction_of _ hinsert hstart (fun key => ⟨n, _, _, _, _, _, rfl, rfl⟩) s hs
    | claim n k lease => exact hmissing (find_claimed_of_none hfree (after_claim w n k lease))
    | claimAny n f tag lease =>
      exact hmissing (find_claimed_of_none hfree (after_claimAny w n f tag lease))
    | save n i extension => exact hmissing (find_transition_of_none hfree i _)
    | complete i => exact hmissing (find_transition_of_none hfree i _)
    | close i reopenAfter limit => exact hmissing (find_transition_of_none hfree i _)
    | giveUp i => exact hmissing (find_transition_of_none hfree i _)
    | revise i change => exact hmissing hfree
    | tick t => exact hmissing hfree

theorem find_claimed (hd : w.table.Distinct) (hs : w.table.find? s.id = some s) {n : Node}
    {kind : String} {lease : Span} {w' : Fleet} (hc : Claimed w n kind lease w') :
    w'.table.find? s.id = some s ∨
      w'.table.find? s.id = some (s.claimed n.owner w.now lease) := by
  cases hc with
  | none => exact .inl hs
  | some r hands hr _ _ _ _ =>
    by_cases hid : s.id = r.id
    · obtain rfl : s = r :=
        Option.some.inj (hs.symm.trans ((Table.find?_iff hd).mpr ⟨hr, hid.symm⟩))
      exact .inr (Table.find?_replace_self (r := s.claimed n.owner w.now lease) hs)
    · have hne : s.id ≠ (r.claimed n.owner w.now lease).id := hid
      exact .inl ((Table.find?_replace_of_ne hne).trans hs)

/-- What a move leaves in the place of a stored record: the record itself, or what a claim makes of
it, or what a transition does. -/
theorem changed (m : Move) {most : Nat} (hw : Coherent s.id most w)
    (hs : w.table.find? s.id = some s) :
    (w.step m).table.find? s.id = some s ∨
      (∃ owner lease, (Turn.move m).write? w.now = some (.claimed w.now lease) ∧
        (w.step m).table.find? s.id = some (s.claimed owner w.now lease)) ∨
      ∃ i t, ∃ x : Hand, m.transition? = some (i, t) ∧
        (w.step m).table.find? s.id = some (x.moved t w.now s) := by
  obtain ⟨s', hs', hbecomes⟩ := becomes hw hs m
  cases hbecomes with
  | kept => exact .inl hs'
  | moved i t x hm => exact .inr (.inr ⟨i, t, x, hm, hs'⟩)
  | claimed n lease hm =>
    -- Which lease a claim gives is told by the claim alone.
    cases m with
    | look l => cases hm
    | deed d =>
      cases d with
      | claim n k lease =>
        rcases find_claimed hw.distinct hs (after_claim w n k lease) with h | h
        · exact .inl h
        · exact .inr (.inl ⟨n.owner, _, rfl, h⟩)
      | claimAny n f tag lease =>
        rcases find_claimed hw.distinct hs (after_claimAny w n f tag lease) with h | h
        · exact .inl h
        · exact .inr (.inl ⟨n.owner, _, rfl, h⟩)
      | _ => cases hm

theorem Explains.moved (h : Explains ws s) (hmost : ws.length + 1 < UInt64.size) {i : Nat}
    {t : Transition} (hm : m.transition? = some (i, t)) (x : Hand) :
    Explains (ws ++ ((Turn.move m).write? w.now).toList) (x.moved t w.now s) := by
  rcases Move.transition?_cases hm with
    ⟨n, extension, rfl, rfl⟩ | ⟨rfl, rfl⟩ | ⟨reopenAfter, limit, rfl, rfl⟩ | ⟨rfl, rfl⟩
  · exact h.saved x w.now _
  · exact h.completed x w.now
  · exact h.closed x w.now hmost reopenAfter limit
  · exact h.givenUp x w.now

theorem Explains.step (h : Explains ws s) (hw : Coherent s.id ws.length w)
    (hs : w.table.find? s.id = some s) (hmost : ws.length + 1 < UInt64.size) (m : Move) {s' : Record}
    (hs' : (w.step m).table.find? s.id = some s') (hne : s' ≠ s) :
    Explains (ws ++ ((Turn.move m).write? w.now).toList) s' := by
  rcases changed m hw hs with hkept | ⟨owner, lease, hwrite, hclaimed⟩ | ⟨i, t, x, hm, hmoved⟩
  · exact absurd (Option.some.inj (hs'.symm.trans hkept)) hne
  · obtain rfl := Option.some.inj (hs'.symm.trans hclaimed)
    rw [hwrite]
    exact h.claimed owner w.now lease
  · obtain rfl := Option.some.inj (hs'.symm.trans hmoved)
    exact h.moved hmost hm x

/-- Only a move that may write changes a record. -/
theorem exists_write {most : Nat} (hw : Coherent id most w) (m : Move)
    (hne : (w.step m).table.find? id ≠ w.table.find? id) :
    ∃ u, (Turn.move m).write? w.now = some u := by
  cases hs : w.table.find? id with
  | none =>
    rw [hs] at hne
    obtain ⟨s', hs'⟩ := Option.ne_none_iff_exists'.mp hne
    obtain ⟨_, _, _, leased, _, _, hwrite, -⟩ := appears m hs hs'
    exact ⟨_, hwrite⟩
  | some s =>
    obtain rfl := (Table.find?_some hs).2
    rcases changed m hw hs with hkept | ⟨_, lease, hwrite, -⟩ | ⟨i, t, x, hm, -⟩
    · exact absurd (hkept.trans hs.symm) hne
    · exact ⟨_, hwrite⟩
    · rcases Move.transition?_cases hm with
        ⟨_, _, rfl, -⟩ | ⟨rfl, -⟩ | ⟨_, _, rfl, -⟩ | ⟨rfl, -⟩ <;> exact ⟨_, rfl⟩

namespace Tells

/-- A turn that does not write the record. -/
theorem keep (h : Tells id ws w) {w' : Fleet} (hw' : Coherent id ws.length w')
    (hsame : w'.table.find? id = w.table.find? id) : Tells id ws w' where
  coherent := hw'
  stored s hs := h.stored s (hsame ▸ hs)
  missing hfree := h.missing (hsame ▸ hfree)

/-- A move that writes the record. -/
theorem write (h : Tells id ws w) (m : Move)
    (hne : (w.step m).table.find? id ≠ w.table.find? id) (hmost : ws.length + 1 < UInt64.size) :
    Tells id (ws ++ ((Turn.move m).write? w.now).toList) (w.step m) := by
  obtain ⟨u, hu⟩ := exists_write h.coherent m hne
  have hcoherent := h.coherent.step hmost m
  refine ⟨?_, ?_, ?_⟩
  · rw [hu, List.length_append]
    exact hcoherent
  · intro s' hs'
    cases hs : w.table.find? id with
    | none =>
      obtain ⟨n, kind, key, leased, progress, now, hwrite, rfl⟩ := appears m hs hs'
      rw [h.missing hs, hwrite]
      exact Explains.created n kind key leased progress now
    | some s =>
      obtain rfl := (Table.find?_some hs).2
      refine (h.stored s hs).step h.coherent hs hmost m hs' ?_
      rintro rfl
      exact hne (hs'.trans hs.symm)
  · intro hfree
    cases hs : w.table.find? id with
    | none => exact absurd (hfree.trans hs.symm) hne
    | some s =>
      obtain rfl := (Table.find?_some hs).2
      rcases changed m h.coherent hs with h' | ⟨_, _, -, h'⟩ | ⟨_, _, _, -, h'⟩ <;>
        exact nomatch hfree.symm.trans h'

/-- **What a turn leaves is as the writes say, its own included.** -/
theorem next (h : Tells id ws w) (turn : Turn)
    (hmost : ws.length + (w.wrote id turn).length < UInt64.size) :
    Tells id (ws ++ w.wrote id turn) (w.next turn) := by
  by_cases hsame : (w.next turn).table.find? id = w.table.find? id
  · rw [wrote, if_pos hsame, List.append_nil]
    refine h.keep ?_ hsame
    cases turn with
    | setClock t => exact h.coherent.keep fun i x hx => ⟨i, hx⟩
    | move m =>
      cases m with
      | look l => exact h.coherent.look l
      | deed d => exact h.coherent.of_same (h.coherent.after d fun hne => absurd hsame hne) hsame
  · cases turn with
    | setClock t => exact absurd rfl hsame
    | move m =>
      obtain ⟨u, hu⟩ := exists_write h.coherent m hsame
      rw [wrote, if_neg hsame] at hmost ⊢
      rw [hu] at hmost
      exact h.write m hsame hmost

/-- And so is what a whole run leaves. -/
theorem follow (h : Tells id ws w) (turns : List Turn)
    (hmost : ws.length + (history id w turns).length < UInt64.size) :
    Tells id (ws ++ history id w turns) (w.follow turns) := by
  induction turns generalizing w ws with
  | nil => rwa [history, List.append_nil]
  | cons turn rest ih =>
    rw [history, List.length_append] at hmost
    rw [history, ← List.append_assoc]
    exact ih (h.next turn (by omega)) (by rw [List.length_append]; omega)

end Tells

/-! ## Transitions that fail -/

/-- A transition fails and changes nothing, or succeeds and writes the record of the partition that
makes it. -/
theorem transition_fails_or_writes (w : Fleet) {P : Type} [Held P] (p : P) (t : Transition) :
    (∃ e, w.perform (Node.transition p t) = (.error e, w.table)) ∨
      ∃ p' r table, w.perform (Node.transition p t) = (.ok p', table) ∧ Held.record p = some r ∧
        table.find? r.id ≠ w.table.find? r.id := by
  rw [perform_transition]
  split
  · exact .inl ⟨_, rfl⟩
  · cases hr : Held.record p with
    | none => exact .inl ⟨_, rfl⟩
    | some r =>
      dsimp only
      by_cases hs : ∃ s, w.table.find? (Node.proposal p t w.now r).id = some s ∧
          s.version = (Node.proposal p t w.now r).version
      · obtain ⟨s, hs, hversion⟩ := hs
        rw [Table.answer_update_of_current w.now hs hversion]
        refine .inr ⟨_, r, _, rfl, rfl, ?_⟩
        rw [← Node.id_proposal p t w.now r]
        exact Table.find?_replace_ne (r := (Node.proposal p t w.now r).nextVersion) hs
          (congrArg (· + 1) hversion.symm)
      · rw [Table.answer_update_of_stale w.now fun s hfind hversion => hs ⟨s, hfind, hversion⟩]
        exact .inl ⟨_, rfl⟩

/-- **Availability is decided by history.**  Any number of nodes share one table and one clock,
which may also be set back, and make any turns, through partitions that they claimed or looked up,
however old.  Then the writes of an identity so far say at which times its record may be claimed.
What they are is told by the moves that made them: a move through a partition is one of the writes
if it succeeds, and one that fails changes nothing.

This holds of every identity whose record is written fewer than `2^64` times.  A version is a word,
so after that many writes the first one would come round again. -/
theorem available_iff_opening (start : Instant) (turns : List Turn) (id : RecordId)
    (h : (history id (starting start) turns).length < UInt64.size) :
    (∀ s, ((starting start).follow turns).table.find? id = some s → ∀ t,
      (s.isAvailable t = true ↔ (Write.opening (history id (starting start) turns)).Admits t)) ∧
    (((starting start).follow turns).table.find? id = none →
      history id (starting start) turns = []) ∧
    ∀ {P : Type} [Held P] (p : P) (t : Transition),
      (∃ e, ((starting start).follow turns).perform (Node.transition p t) =
        (.error e, ((starting start).follow turns).table)) ∨
      ∃ p' r table, ((starting start).follow turns).perform (Node.transition p t) =
        (.ok p', table) ∧ Held.record p = some r ∧
        table.find? r.id ≠ ((starting start).follow turns).table.find? r.id := by
  have htells := (tells_starting id start).follow turns (by simpa using h)
  rw [List.nil_append] at htells
  refine ⟨?_, htells.missing, ?_⟩
  · intro s hs t
    rw [Record.isAvailable_iff_opening, (htells.stored s hs).opening]
  · intro P _ p t
    exact transition_fails_or_writes _ p t

/-- Work is created, claimed for a minute by a node that cannot make a partition of it, looked up
by another one and, half a minute later, saved for a minute. -/
def strandedClaim : List Turn :=
  [.move (.deed (.createEach ⟨"db", "node-a", .seconds 60⟩ "DATA_QUERY" none ["a"])),
    .move (.deed (.claim ⟨"db", "node-a", .seconds 60⟩ queryKind none)),
    .move (.look (.all ⟨"db", "node-b", .seconds 60⟩ Factory.bare "DATA_QUERY")),
    .setClock (Instant.epoch.after (.seconds 30)),
    .move (.deed (.save ⟨"db", "node-b", .seconds 60⟩ 0 none))]

/-- The claim of `strandedClaim` puts nothing into hand, but holds the record; the save counts. -/
theorem available_strandedClaim :
    ((starting .epoch).follow (strandedClaim.take 2)).hands.length = 0 ∧
    ∃ s, ((starting .epoch).follow strandedClaim).table.find? ⟨"db", "DATA_QUERY", "a"⟩ = some s ∧
      ∀ t, s.isAvailable t = true ↔ Instant.epoch.after (.seconds 90) ≤ t := by
  have hhistory : history ⟨"db", "DATA_QUERY", "a"⟩ (starting .epoch) strandedClaim =
      [.created true, .claimed .epoch (.seconds 60),
        .saved (Instant.epoch.after (.seconds 30)) (.seconds 60)] := by
    decide +kernel
  obtain ⟨havailable, hmissing, -⟩ := available_iff_opening .epoch strandedClaim
    ⟨"db", "DATA_QUERY", "a"⟩ (by rw [hhistory]; decide)
  rw [hhistory] at havailable hmissing
  refine ⟨by decide +kernel, ?_⟩
  cases hs : ((starting .epoch).follow strandedClaim).table.find? ⟨"db", "DATA_QUERY", "a"⟩ with
  | none => exact absurd (hmissing hs) (List.cons_ne_nil _ _)
  | some s => exact ⟨s, rfl, havailable s hs⟩

end Fleet

end LeasedWork
