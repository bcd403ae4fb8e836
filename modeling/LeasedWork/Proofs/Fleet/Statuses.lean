import LeasedWork.Proofs.Fleet.Coherence
import Mathlib.Data.List.Induction

/-! # How a stored status changes

A record is meant to go from `UNASSIGNED`, an expired `ASSIGNED` or a reopened `CLOSED` to
`ASSIGNED` by a claim, and from `ASSIGNED` to the other statuses by its holder (`Fleet.Edge`);
`COMPLETED` is meant to be final.  A node may also look records up and so get partitions into its
hands that it never claimed, and a partition stays in hand after it was completed, closed or given
up.  No transition asks for the status of the record behind it: what it asks is that the
partition's kind is leased and its version the stored one.

So what happens is this (`Fleet.status_change`): a change is as meant exactly when it is a claim or
the stored record was `ASSIGNED`; and a `COMPLETED` record stays so until its own stored version is
in somebody's hands who gives it up, or closes it below the limit (`Fleet.Revives`).
-/
namespace LeasedWork

/-- How partitions get into hand without a claim. -/
inductive Look
  | completedSince (n : Node) (f : Factory) (kind : String) (since : Instant)
  | all (n : Node) (f : Factory) (kind : String)
  | shared (n : Node) (f : Factory) (key : String)
  /-- A second partition with the same record behind it. -/
  | copy (i : Nat)

/-- Whatever a node may do. -/
inductive Move
  | deed (d : Deed)
  | look (l : Look)

namespace Move

/-- Whether it claims a record. -/
def isClaim : Move → Bool
  | .deed (.claim _ _ _) | .deed (.claimAny _ _ _ _) => true
  | _ => false

/-- The place of the partition that makes a transition, and the transition. -/
def transition? : Move → Option (Nat × Transition)
  | .deed (.save n i extension) => some (i, .save (extension.getD n.lease))
  | .deed (.complete i) => some (i, .complete)
  | .deed (.close i reopenAfter limit) => some (i, .close reopenAfter limit)
  | .deed (.giveUp i) => some (i, .giveUp)
  | _ => none

theorem transition?_cases {m : Move} {i : Nat} {t : Transition} (h : m.transition? = some (i, t)) :
    (∃ n extension, m = .deed (.save n i extension) ∧ t = .save (extension.getD n.lease)) ∨
      (m = .deed (.complete i) ∧ t = .complete) ∨
      (∃ reopenAfter limit, m = .deed (.close i reopenAfter limit) ∧
        t = .close reopenAfter limit) ∨
      (m = .deed (.giveUp i) ∧ t = .giveUp) := by
  cases m with
  | look l => cases h
  | deed d =>
    cases d with
    | save n j extension =>
      cases h
      exact .inl ⟨n, extension, rfl, rfl⟩
    | complete j =>
      cases h
      exact .inr (.inl ⟨rfl, rfl⟩)
    | close j reopenAfter limit =>
      cases h
      exact .inr (.inr (.inl ⟨reopenAfter, limit, rfl, rfl⟩))
    | giveUp j =>
      cases h
      exact .inr (.inr (.inr ⟨rfl, rfl⟩))
    | _ => cases h

theorem isClaim_of_transition? {m : Move} {i : Nat} {t : Transition}
    (h : m.transition? = some (i, t)) : m.isClaim = false := by
  rcases transition?_cases h with ⟨_, _, rfl, -⟩ | ⟨rfl, -⟩ | ⟨_, _, rfl, -⟩ | ⟨rfl, -⟩ <;> rfl

end Move

namespace Hand

theorem status_save (x : Hand) (extension : Span) (now : Instant) (r : Record) :
    (x.moved (.save extension) now r).status = r.status := by
  unfold moved Node.proposal Transition.apply
  dsimp only
  split <;> rfl

theorem status_complete (x : Hand) (now : Instant) (r : Record) :
    (x.moved .complete now r).status = some .completed := rfl

theorem status_close (x : Hand) (reopenAfter : Span) (limit : Option UInt64) (now : Instant)
    (r : Record) : (x.moved (.close reopenAfter limit) now r).status =
      some (if limit.any (· ≤ r.closedCount + 1) then .completed else .closed) := by
  unfold moved Node.proposal Transition.apply
  dsimp only
  split <;> rfl

theorem status_giveUp (x : Hand) (now : Instant) (r : Record) :
    (x.moved .giveUp now r).status = some .unassigned := rfl

end Hand

theorem Record.not_available_of_completed {now : Instant} {r : Record}
    (h : r.status = some .completed) : ¬ r.isAvailable now = true := by
  simp [isAvailable, availability, h]

namespace Fleet

/-- The fleet after a query: all partitions that it gave are in hand. -/
def gather (w : Fleet) (f : Factory) (action : Node.Action Interface.none (List f.Piece)) : Fleet :=
  match w.perform action with
  | (.ok ps, t) => { w with table := t, hands := w.hands ++ ps.map fun p => ⟨f, p⟩ }
  | (.error _, t) => { w with table := t }

/-- The fleet after a look at the table. -/
def look (w : Fleet) : Look → Fleet
  | .completedSince n f kind since => w.gather f (n.completedSince f.build kind since)
  | .all n f kind => w.gather f (n.all f.build kind)
  | .shared n f key => w.take f (n.shared? f.build key)
  | .copy i => { w with hands := w.hands ++ (w.hands[i]?).toList }

/-- The fleet after a move. -/
def step (w : Fleet) : Move → Fleet
  | .deed d => w.after d
  | .look l => w.look l

/-- The fleet after some moves, one after the other, from an empty table at a time. -/
def play (start : Instant) (moves : List Move) : Fleet := moves.foldl step (starting start)

theorem play_concat (start : Instant) (moves : List Move) (m : Move) :
    play start (moves ++ [m]) = (play start moves).step m := by
  rw [play, List.foldl_append]
  rfl

/-! ## Looks -/

/-- What a look leaves of a fleet: the same table, and in hand besides what was there only records
of the table. -/
structure Looked (w w' : Fleet) : Prop where
  table : w'.table = w.table
  now : w'.now = w.now
  hands : ∀ i r, w'.inHand i = some r → (∃ j, w.inHand j = some r) ∨ r ∈ w.table.rows

theorem exists_of_map {α β ε : Type*} {f : α → β} {x : Except ε α} {y : β} (h : x.map f = .ok y) :
    ∃ a, x = .ok a ∧ f a = y := by
  cases x with
  | error e => cases h
  | ok a => exact ⟨a, rfl, Except.ok.inj h⟩

theorem error_of_map {α β ε : Type*} {f : α → β} {x : Except ε α} {e : ε}
    (h : x.map f = .error e) : x = .error e := by
  cases x with
  | error e' =>
    cases h
    rfl
  | ok a => cases h

theorem mem_of_mapM {α β ε : Type*} {f : α → Except ε β} {xs : List α} {ys : List β}
    (h : xs.mapM f = .ok ys) {y : β} (hy : y ∈ ys) : ∃ x ∈ xs, f x = .ok y := by
  induction xs generalizing ys with
  | nil =>
    cases h
    cases hy
  | cons x xs ih =>
    rw [List.mapM_cons] at h
    cases hx : f x with
    | error e => rw [hx] at h; cases h
    | ok z =>
      rw [hx] at h
      cases hxs : xs.mapM f with
      | error e => rw [hxs] at h; cases h
      | ok zs =>
        rw [hxs] at h
        cases h
        rcases List.mem_cons.mp hy with rfl | hy
        · exact ⟨x, List.mem_cons_self, hx⟩
        · obtain ⟨x', hx', hf⟩ := ih hxs hy
          exact ⟨x', List.mem_cons_of_mem _ hx', hf⟩

theorem exists_of_mapM_error {α β ε : Type*} {f : α → Except ε β} {xs : List α} {e : ε}
    (h : xs.mapM f = .error e) : ∃ x ∈ xs, f x = .error e := by
  induction xs with
  | nil => cases h
  | cons x rest ih =>
    rw [List.mapM_cons] at h
    cases hx : f x with
    | error e' =>
      rw [hx] at h
      cases h
      exact ⟨x, List.mem_cons_self, hx⟩
    | ok y =>
      rw [hx] at h
      cases hrest : rest.mapM f with
      | error e' =>
        rw [hrest] at h
        cases h
        obtain ⟨x', hx', hf⟩ := ih hrest
        exact ⟨x', List.mem_cons_of_mem _ hx', hf⟩
      | ok ys =>
        rw [hrest] at h
        cases h

/-- What is made of the results may as well be made of each result. -/
theorem mapM_map {α β γ ε : Type*} (g : β → γ) {f : α → Except ε β} {f' : α → Except ε γ}
    {xs : List α} (h : ∀ x ∈ xs, f' x = (f x).map g) :
    xs.mapM f' = (xs.mapM f).map (List.map g) := by
  induction xs with
  | nil => rfl
  | cons x rest ih =>
    obtain ⟨hx, hrest⟩ := List.forall_mem_cons.mp h
    rw [List.mapM_cons, List.mapM_cons, hx, ih hrest]
    cases f x with
    | error e => rfl
    | ok y => cases rest.mapM f <;> rfl

theorem inHand_append_list {t : Table} {now : Instant} {hands more : List Hand} {i : Nat}
    {r : Record} (hr : inHand ⟨t, now, hands ++ more⟩ i = some r) :
    inHand ⟨t, now, hands⟩ i = some r ∨ ∃ h ∈ more, h.record = some r := by
  unfold inHand at *
  rcases Nat.lt_or_ge i hands.length with hlt | hge
  · rw [List.getElem?_append_left hlt] at hr
    exact .inl hr
  · rw [List.getElem?_append_right hge] at hr
    obtain ⟨h, hh, hrecord⟩ := Option.bind_eq_some_iff.mp hr
    exact .inr ⟨h, List.mem_of_getElem? hh, hrecord⟩

/-- A query gives partitions made of stored records. -/
theorem looked_gather {w : Fleet} {f : Factory} {rs : List Record}
    {action : Node.Action Interface.none (List f.Piece)}
    (haction : w.perform action = (rs.mapM f.build, w.table))
    (hrs : ∀ r ∈ rs, r ∈ w.table.rows) : Looked w (w.gather f action) := by
  unfold gather
  rw [haction]
  cases hmap : rs.mapM f.build with
  | error e => exact ⟨rfl, rfl, fun i r hr => .inl ⟨i, hr⟩⟩
  | ok ps =>
    refine ⟨rfl, rfl, fun i r hr => ?_⟩
    rcases inHand_append_list hr with hr | ⟨h, hh, hrecord⟩
    · exact .inl ⟨i, hr⟩
    · obtain ⟨p, hp, rfl⟩ := List.mem_map.mp hh
      obtain ⟨r', hr', hbuild⟩ := mem_of_mapM hmap hp
      have heq : r' = r := Option.some.inj ((f.record_build r' p hbuild).symm.trans hrecord)
      exact .inr (heq ▸ hrs r' hr')

theorem mem_of_mem_sorted {t : Table} {source kind : String} {select : Record → Bool} {r : Record}
    (h : r ∈ Record.sorted ((t.ofKind source kind).filter select)) : r ∈ t.rows :=
  (Table.mem_ofKind.mp (List.mem_filter.mp ((Record.sorted_perm _).mem_iff.mp h)).1).1

theorem looked_shared (w : Fleet) (n : Node) (f : Factory) (key : String) :
    Looked w (w.take f (n.shared? f.build key)) := by
  have hrun : w.perform (n.shared? f.build key) = Program.run (Table.handler w.now)
      (Node.build? (E := Interface.none) f.build
        (w.table.find? ⟨n.source, sharedKind.tag, key⟩)).run w.table :=
    Program.run_exceptT_bind (Table.handler w.now)
      (Node.store (E := Interface.none) (.get ⟨n.source, sharedKind.tag, key⟩))
      (fun r => Node.build? f.build r) w.table
  unfold take
  rw [hrun]
  cases hfind : w.table.find? ⟨n.source, sharedKind.tag, key⟩ with
  | none => exact ⟨rfl, rfl, fun i r hr => .inl ⟨i, hr⟩⟩
  | some r =>
    rw [run_build]
    cases hbuild : f.build r with
    | error e => exact ⟨rfl, rfl, fun i r hr => .inl ⟨i, hr⟩⟩
    | ok p =>
      refine ⟨rfl, rfl, fun i x hx => ?_⟩
      rcases inHand_append hx with hx | ⟨-, hx⟩
      · exact .inl ⟨i, hx⟩
      · have heq : r = x := Option.some.inj ((f.record_build r p hbuild).symm.trans hx)
        exact .inr (heq ▸ (Table.find?_some hfind).1)

/-- **A look changes no record**, and shows stored ones only. -/
theorem looked (w : Fleet) (l : Look) : Looked w (w.look l) := by
  cases l with
  | completedSince n f kind since =>
    have hrun := Program.run_exceptT_bind (Table.handler w.now)
      (Node.store (E := Interface.none) (.byStatus n.source kind .completed (some since)))
      (fun rs => Node.ofExcept (rs.mapM f.build)) w.table
    exact looked_gather hrun fun r hr => mem_of_mem_sorted hr
  | all n f kind =>
    have hrun := Program.run_exceptT_bind (Table.handler w.now)
      (Node.store (E := Interface.none) (.all n.source kind))
      (fun rs => Node.ofExcept (rs.mapM f.build)) w.table
    refine looked_gather hrun fun r hr => ?_
    exact (Table.mem_ofKind.mp ((Record.sorted_perm _).mem_iff.mp hr)).1
  | shared n f key => exact looked_shared w n f key
  | copy i =>
    refine ⟨rfl, rfl, fun j r hr => .inl ?_⟩
    rcases inHand_append_list hr with hr | ⟨h, hh, hrecord⟩
    · exact ⟨j, hr⟩
    · refine ⟨i, ?_⟩
      rw [inHand, Option.mem_toList.mp hh, Option.bind_some, hrecord]

variable {w : Fleet} {id : RecordId} {most : Nat}

theorem Coherent.look (hw : Coherent id most w) (l : Look) : Coherent id most (w.look l) := by
  have hl := looked w l
  refine ⟨?_, ?_, ?_⟩
  · exact hl.table ▸ hw.distinct
  · exact hl.table ▸ hw.bound
  · intro i r hr hid
    rw [hl.table]
    rcases hl.hands i r hr with ⟨j, hj⟩ | hmem
    · exact hw.covered j r hj hid
    · exact ⟨r, (Table.find?_iff hw.distinct).mpr ⟨hmem, rfl⟩, .inl rfl⟩

/-- **Every move keeps records in hand covered.** -/
theorem Coherent.step (hw : Coherent id most w) (hmost : most + 1 < UInt64.size) (m : Move) :
    Coherent id (most + 1) (w.step m) := by
  cases m with
  | deed d => exact hw.after d fun _ => hmost
  | look l => exact (hw.look l).mono (Nat.le_succ most)

theorem coherent_play (id : RecordId) (start : Instant) (moves : List Move)
    (h : moves.length < UInt64.size) : Coherent id moves.length (play start moves) := by
  induction moves using List.reverseRecOn with
  | nil => exact coherent_starting id start
  | append_singleton moves m ih =>
    rw [List.length_append, List.length_singleton] at h ⊢
    rw [play_concat]
    exact (ih (Nat.lt_of_succ_lt h)).step h m

/-! ## What becomes of a stored record -/

/-- The record that a move leaves in the place of a stored one: the record itself, or what a claim
of it makes, or what the transition of a partition makes that has this very record behind it. -/
inductive Becomes (w : Fleet) (s : Record) (m : Move) : Record → Prop
  | kept (h : ∀ i t, m.transition? = some (i, t) → ∀ x, ¬ w.Moves i t x s) : Becomes w s m s
  | claimed (n : Node) (lease : Span) (hm : m.isClaim = true) (h : s.isAvailable w.now = true) :
    Becomes w s m (s.claimed n.owner w.now lease)
  | moved (i : Nat) (t : Transition) (x : Hand) (hm : m.transition? = some (i, t))
    (h : w.Moves i t x s) : Becomes w s m (x.moved t w.now s)

variable {s : Record} {m : Move}

theorem becomes_transition (hw : Coherent s.id most w) (hs : w.table.find? s.id = some s) {i : Nat}
    {t : Transition} (hm : m.transition? = some (i, t)) :
    ∃ s', (w.transition i t).table.find? s.id = some s' ∧ Becomes w s m s' := by
  -- A transition that does not move a partition with this record keeps the record.
  have hkept (h : ∀ x, ¬ w.Moves i t x s) : Becomes w s m s := by
    refine .kept fun j u hu => ?_
    obtain ⟨rfl, rfl⟩ := Prod.mk.inj (Option.some.inj (hm.symm.trans hu))
    exact h
  by_cases hmoves : ∃ x r, w.Moves i t x r
  · obtain ⟨x, r, hmoves⟩ := hmoves
    rw [transition_of_moves hmoves]
    by_cases hid : s.id = r.id
    · rw [hid] at hw hs
      obtain rfl : s = r := Option.some.inj (hs.symm.trans (hw.stored_of_moves hmoves))
      rw [← x.id_moved t w.now s] at hs ⊢
      exact ⟨x.moved t w.now s, Table.find?_replace_self hs, .moved i t x hm hmoves⟩
    · have hne : s.id ≠ (x.moved t w.now r).id := by rwa [Hand.id_moved]
      refine ⟨s, (Table.find?_replace_of_ne hne).trans hs, hkept fun y hy => hid ?_⟩
      obtain rfl := Option.some.inj (hmoves.hand.symm.trans hy.hand)
      exact congrArg Record.id (Option.some.inj (hy.record.symm.trans hmoves.record))
  · rw [transition_of_not_moves fun x r hx => hmoves ⟨x, r, hx⟩]
    exact ⟨s, hs, hkept fun x hx => hmoves ⟨x, s, hx⟩⟩

theorem becomes_claimed (hw : Coherent s.id most w) (hs : w.table.find? s.id = some s)
    (hm : m.isClaim = true) {n : Node} {kind : String} {lease : Span} {w' : Fleet}
    (hc : Claimed w n kind lease w') :
    ∃ s', w'.table.find? s.id = some s' ∧ Becomes w s m s' := by
  have hkept : Becomes w s m s := .kept fun i t ht =>
    absurd (hm.symm.trans (Move.isClaim_of_transition? ht)) Bool.noConfusion
  cases hc with
  | none => exact ⟨s, hs, hkept⟩
  | some r hands hr _ _ havailable _ =>
    by_cases hid : s.id = r.id
    · obtain rfl : s = r :=
        Option.some.inj (hs.symm.trans ((Table.find?_iff hw.distinct).mpr ⟨hr, hid.symm⟩))
      exact ⟨s.claimed n.owner w.now lease, Table.find?_replace_self hs,
        .claimed n lease hm havailable⟩
    · have hne : s.id ≠ (r.claimed n.owner w.now lease).id := hid
      exact ⟨s, (Table.find?_replace_of_ne hne).trans hs, hkept⟩

/-- **What a move does to a stored record.** -/
theorem becomes (hw : Coherent s.id most w) (hs : w.table.find? s.id = some s) (m : Move) :
    ∃ s', (w.step m).table.find? s.id = some s' ∧ Becomes w s m s' := by
  have hinsert : ∀ (t : Table) (r : Record), t.find? s.id = some s → t.find? r.id = none →
      (t.insert r.firstVersion).find? s.id = some s :=
    fun t r ht hfree => Table.find?_insert_of_stored hfree ht
  cases m with
  | look l => exact ⟨s, (looked w l).table ▸ hs, .kept fun _ _ h => nomatch h⟩
  | deed d =>
    cases d with
    | create n p =>
      exact ⟨s, create_induction hinsert hs n p, .kept fun _ _ h => nomatch h⟩
    | createEach n kind progress keys =>
      exact ⟨s, createEach_induction hinsert hs n kind progress keys, .kept fun _ _ h => nomatch h⟩
    | claim n k lease => exact becomes_claimed hw hs rfl (after_claim w n k lease)
    | claimAny n f tag lease => exact becomes_claimed hw hs rfl (after_claimAny w n f tag lease)
    | save n i extension => exact becomes_transition hw hs rfl
    | complete i => exact becomes_transition hw hs rfl
    | close i reopenAfter limit => exact becomes_transition hw hs rfl
    | giveUp i => exact becomes_transition hw hs rfl
    | revise i change => exact ⟨s, hs, .kept fun _ _ h => nomatch h⟩
    | tick t => exact ⟨s, hs, .kept fun _ _ h => nomatch h⟩

/-! ## Changes of status -/

/-- The documented changes of a record's status, with the moves that make them. A claim takes a
record that is unassigned, assigned with a lease that has run out, or closed with a reopening time
that has come. -/
inductive Edge (now : Instant) (r : Record) : Move → Status → Prop
  | claim (m : Move) (hm : m.isClaim = true) (h : r.isAvailable now = true) : Edge now r m .assigned
  | complete (i : Nat) (h : r.status = some .assigned) : Edge now r (.deed (.complete i)) .completed
  | close (i : Nat) (reopenAfter : Span) (limit : Option UInt64) (h : r.status = some .assigned)
    (hlimit : limit.any (· ≤ r.closedCount + 1) = false) :
    Edge now r (.deed (.close i reopenAfter limit)) .closed
  | closeLast (i : Nat) (reopenAfter : Span) (limit : Option UInt64)
    (h : r.status = some .assigned) (hlimit : limit.any (· ≤ r.closedCount + 1) = true) :
    Edge now r (.deed (.close i reopenAfter limit)) .completed
  | giveUp (i : Nat) (h : r.status = some .assigned) : Edge now r (.deed (.giveUp i)) .unassigned

/-- Whether a move gives up a stored record, or closes it below the limit, through a partition that
has this very record behind it. -/
def Revives (w : Fleet) (id : RecordId) (m : Move) : Prop :=
  ∃ i x s, w.hands[i]? = some x ∧ x.record = some s ∧ x.leased = true ∧
    w.table.find? id = some s ∧
    (m = .deed (.giveUp i) ∨ ∃ reopenAfter limit, m = .deed (.close i reopenAfter limit) ∧
      limit.any (· ≤ s.closedCount + 1) = false)

/-- Which changes of status are as documented. -/
theorem edge_iff {s' : Record} (h : Becomes w s m s') (hne : s'.status ≠ s.status) :
    (∃ status, s'.status = some status ∧ Edge w.now s m status) ↔
      m.isClaim = true ∨ s.status = some .assigned := by
  constructor
  · rintro ⟨status, -, hedge⟩
    cases hedge with
    | claim _ hm _ => exact .inl hm
    | complete _ hs | close _ _ _ hs _ | closeLast _ _ _ hs _ | giveUp _ hs => exact .inr hs
  · intro hor
    cases h with
    | kept _ => exact absurd rfl hne
    | claimed n lease hm havailable => exact ⟨.assigned, rfl, .claim m hm havailable⟩
    | moved i t x hm _ =>
      have hassigned : s.status = some .assigned := hor.resolve_left fun hclaim =>
        absurd (hclaim.symm.trans (Move.isClaim_of_transition? hm)) Bool.noConfusion
      rcases Move.transition?_cases hm with
        ⟨n, extension, rfl, rfl⟩ | ⟨rfl, rfl⟩ | ⟨reopenAfter, limit, rfl, rfl⟩ | ⟨rfl, rfl⟩
      · exact absurd (x.status_save _ w.now s) hne
      · exact ⟨.completed, x.status_complete w.now s, .complete i hassigned⟩
      · rw [x.status_close]
        cases hlimit : limit.any (· ≤ s.closedCount + 1) with
        | false => exact ⟨.closed, rfl, .close i reopenAfter limit hassigned hlimit⟩
        | true => exact ⟨.completed, rfl, .closeLast i reopenAfter limit hassigned hlimit⟩
      · exact ⟨.unassigned, x.status_giveUp w.now s, .giveUp i hassigned⟩

/-- A move revives a completed record, or leaves it completed. -/
theorem completed_iff {s' : Record} (hs : w.table.find? s.id = some s) (h : Becomes w s m s')
    (hcompleted : s.status = some .completed) :
    s'.status = some .completed ↔ ¬ w.Revives s.id m := by
  cases h with
  | kept hkept =>
    refine iff_of_true hcompleted ?_
    rintro ⟨i, x, r, hx, hr, hleased, hfind, hm⟩
    obtain rfl := Option.some.inj (hs.symm.trans hfind)
    -- What revives would have moved the record, and so not kept it.
    have hmoves (t : Transition) : w.Moves i t x s := ⟨hx, hr, fun _ => hleased, s, hs, rfl⟩
    rcases hm with rfl | ⟨reopenAfter, limit, rfl, -⟩
    · exact hkept i _ rfl x (hmoves _)
    · exact hkept i _ rfl x (hmoves _)
  | claimed n lease _ havailable =>
    exact absurd havailable (Record.not_available_of_completed hcompleted)
  | moved i t x hm hmoves =>
    rcases Move.transition?_cases hm with
      ⟨n, extension, rfl, rfl⟩ | ⟨rfl, rfl⟩ | ⟨reopenAfter, limit, rfl, rfl⟩ | ⟨rfl, rfl⟩
    · refine iff_of_true ((x.status_save _ w.now s).trans hcompleted) ?_
      rintro ⟨_, _, _, _, _, _, _, h | ⟨_, _, h, _⟩⟩ <;> cases h
    · refine iff_of_true (x.status_complete w.now s) ?_
      rintro ⟨_, _, _, _, _, _, _, h | ⟨_, _, h, _⟩⟩ <;> cases h
    · rw [x.status_close]
      cases hlimit : limit.any (· ≤ s.closedCount + 1) with
      | true =>
        refine iff_of_true rfl ?_
        rintro ⟨_, _, r, _, _, _, hfind, h | ⟨_, _, h, hbelow⟩⟩
        · cases h
        · cases h
          obtain rfl := Option.some.inj (hs.symm.trans hfind)
          exact absurd (hlimit.symm.trans hbelow) Bool.noConfusion
      | false =>
        refine iff_of_false (by decide) (not_not.mpr ?_)
        exact ⟨i, x, s, hmoves.hand, hmoves.record, hmoves.leased rfl, hs,
          .inr ⟨reopenAfter, limit, rfl, hlimit⟩⟩
    · rw [x.status_giveUp]
      refine iff_of_false (by decide) (not_not.mpr ?_)
      exact ⟨i, x, s, hmoves.hand, hmoves.record, hmoves.leased rfl, hs, .inl rfl⟩

/-! ## Runs -/

/-- The status of the stored record of an identity, if it has one. -/
def statusOf (w : Fleet) (id : RecordId) : Option Status := (w.table.find? id).bind Record.status

/-- Whether a record of an identity comes into hand by a move. -/
def Shows (w : Fleet) (id : RecordId) (m : Move) : Prop :=
  ∃ i r, (w.step m).inHand i = some r ∧ r.id = id ∧ w.inHand i ≠ some r

/-- An identity is `COMPLETED`, and is so after each of some moves, and none of them claims it. -/
def Finished (w : Fleet) (id : RecordId) : List Move → Prop
  | [] => w.statusOf id = some .completed
  | m :: more => w.statusOf id = some .completed ∧ (m.isClaim = true → ¬ w.Shows id m) ∧
      (w.step m).Finished id more

/-- Some move of a list revives the identity. -/
def Revived (w : Fleet) (id : RecordId) : List Move → Prop
  | [] => False
  | m :: more => w.Revives id m ∨ (w.step m).Revived id more

theorem exists_of_statusOf {status : Status} (h : w.statusOf id = some status) :
    ∃ s, s.id = id ∧ w.table.find? s.id = some s ∧ s.status = some status := by
  obtain ⟨s, hs, hstatus⟩ := Option.bind_eq_some_iff.mp h
  obtain rfl := (Table.find?_some hs).2
  exact ⟨s, rfl, hs, hstatus⟩

/-- A claim shows no record that is completed. -/
theorem not_shows_of_completed (hw : Coherent s.id most w) (hs : w.table.find? s.id = some s)
    (hcompleted : s.status = some .completed) (hm : m.isClaim = true) : ¬ w.Shows s.id m := by
  have hclaimed {n : Node} {kind : String} {lease : Span} {w' : Fleet}
      (hc : Claimed w n kind lease w') {i : Nat} {r : Record} (hr : w'.inHand i = some r)
      (hid : r.id = s.id) : w.inHand i = some r := by
    cases hc with
    | none => exact hr
    | some x hands hx _ _ havailable hhands =>
      rcases hhands with rfl | ⟨new, hnew, rfl⟩
      · exact hr
      · rcases inHand_append hr with hr | ⟨-, hr⟩
        · exact hr
        · -- What was claimed would be the completed record.
          obtain rfl := Option.some.inj (hr.symm.trans hnew)
          have hfind := (Table.find?_iff hw.distinct).mpr ⟨hx, hid⟩
          obtain rfl : s = x := Option.some.inj (hs.symm.trans hfind)
          exact absurd havailable (Record.not_available_of_completed hcompleted)
  rintro ⟨i, r, hr, hid, hnot⟩
  cases m with
  | look l => cases hm
  | deed d =>
    cases d with
    | claim n k lease => exact hnot (hclaimed (after_claim w n k lease) hr hid)
    | claimAny n f tag lease => exact hnot (hclaimed (after_claimAny w n f tag lease) hr hid)
    | _ => cases hm

theorem Finished.now {more : List Move} (h : w.Finished id more) :
    w.statusOf id = some .completed := by
  cases more with
  | nil => exact h
  | cons m more => exact h.1

/-- The condition under which `COMPLETED` is final. -/
theorem finished_iff {more : List Move} (hw : Coherent id most w)
    (hmost : most + more.length < UInt64.size) (h : w.statusOf id = some .completed) :
    w.Finished id more ↔ ¬ w.Revived id more := by
  -- One move at a time: whether the first one revives decides whether the rest starts `COMPLETED`.
  induction more generalizing w most with
  | nil => exact iff_of_true h not_false
  | cons m more ih =>
    rw [List.length_cons] at hmost
    obtain ⟨s, rfl, hs, hcompleted⟩ := exists_of_statusOf h
    obtain ⟨s', hs', hbecomes⟩ := becomes hw hs m
    have hstatus : (w.step m).statusOf s.id = s'.status := by rw [statusOf, hs', Option.bind_some]
    have hiff := completed_iff hs hbecomes hcompleted
    rw [← hstatus] at hiff
    have hnext := hw.step (by omega) m
    constructor
    · rintro ⟨-, -, hlater⟩
      exact not_or.mpr ⟨hiff.mp hlater.now, (ih hnext (by omega) hlater.now).mp hlater⟩
    · intro hnot
      obtain ⟨hm, hlater⟩ := not_or.mp hnot
      exact ⟨h, not_shows_of_completed hw hs hcompleted,
        (ih hnext (by omega) (hiff.mpr hm)).mpr hlater⟩

/-- **How stored statuses change.**  Any number of nodes share one table and one clock, and make
fewer than `2^64` moves in any order, through partitions that they claimed or looked up.  Then a
move leaves a stored record stored, and what it makes of its status is as documented exactly when
the move is a claim or the record was `ASSIGNED`.  And a record that is `COMPLETED` stays so, and
is claimed by nobody, exactly as long as no move revives it. -/
theorem status_change (start : Instant) (moves : List Move) (m : Move) (more : List Move)
    (h : moves.length + (m :: more).length < UInt64.size) :
    (∀ s, (play start moves).table.find? s.id = some s →
      ∃ s', ((play start moves).step m).table.find? s.id = some s' ∧
        (s'.status ≠ s.status →
          ((∃ status, s'.status = some status ∧ Edge (play start moves).now s m status) ↔
            m.isClaim = true ∨ s.status = some .assigned))) ∧
    ∀ id, (play start moves).statusOf id = some .completed →
      ((play start moves).Finished id (m :: more) ↔
        ¬ (play start moves).Revived id (m :: more)) := by
  have hw (id : RecordId) := coherent_play id start moves (by omega)
  constructor
  · intro s hs
    obtain ⟨s', hs', hbecomes⟩ := becomes (hw s.id) hs m
    exact ⟨s', hs', edge_iff hbecomes⟩
  · intro id hid
    exact finished_iff (hw id) h hid

/-- A claim by tag of any kind of work. -/
def claimWork : Move := .deed (.claimAny ⟨"db", "node-a", .seconds 60⟩ Factory.bare "WORK" none)

/-- A record is created, claimed and completed. -/
def onceCompleted : List Move :=
  [.deed (.createEach ⟨"db", "node-a", .seconds 60⟩ "WORK" none ["a"]), claimWork,
    .deed (.complete 0)]

/-- What is completed by `onceCompleted` stays so when the work is claimed again. -/
theorem finished_onceCompleted : (play .epoch onceCompleted).Finished ⟨"db", "WORK", "a"⟩
    [claimWork] := by
  have hcompleted : (play .epoch onceCompleted).statusOf ⟨"db", "WORK", "a"⟩ = some .completed := by
    decide +kernel
  refine ((status_change .epoch onceCompleted claimWork [] (by decide)).2 _ hcompleted).mpr ?_
  rintro (⟨_, _, _, _, _, _, _, h | ⟨_, _, h, _⟩⟩ | h)
  · cases h
  · cases h
  · exact h

/-- **`COMPLETED` is not final.**  The partition that `onceCompleted` has completed is still in
hand.  Given up, its record is `UNASSIGNED`, and the next claim takes it. -/
theorem completed_not_final :
    (play .epoch onceCompleted).statusOf ⟨"db", "WORK", "a"⟩ = some .completed ∧
    (play .epoch (onceCompleted ++ [.deed (.giveUp 0)])).statusOf ⟨"db", "WORK", "a"⟩ =
      some .unassigned ∧
    ((play .epoch (onceCompleted ++ [.deed (.giveUp 0), claimWork])).inHand 1).map Record.id =
      some ⟨"db", "WORK", "a"⟩ := by
  decide +kernel

end Fleet

end LeasedWork
