import LeasedWork.Proofs.Fleet.Holders
import LeasedWork.Proofs.Fleet.Lifetimes

/-! # Completed partitions are found by their last completion

Which partitions of a kind were completed at or after a time is read off their records: of those
whose status says so, the time of completion is compared.  That is only as good as the time is: a
record may be completed again, at an earlier time when the clock was set back, and it may have been
written by whoever had it in hand, from a version of long ago.

A `Journal` notes the transitions of every identity that take effect, with their times, while nodes
create, claim, look up, save, complete, close and give up partitions over either backend.  What is
stored of an identity is always as its journal says (`Journal.Told`): it has been closed as often,
its completion is dated by the last one in the journal, and a completed record has such a date.  So
the query gives exactly the completed records whose last completion was not before the time asked
for (`Journal.completions_found`).
-/
namespace LeasedWork

/-! ## Requests that move no record -/

/-- A record of work that has not begun. -/
structure Record.IsNew (r : Record) : Prop where
  closedCount : r.closedCount = 0
  completedAt : r.completedAt = none
  status : r.status ≠ some .completed

theorem Node.isNew_newRecord (n : Node) (kind key : String) (leased : Bool)
    (progress : Option String) (now : Instant) :
    (n.newRecord kind key leased progress now).IsNew := by
  cases leased <;> exact ⟨rfl, rfl, nofun⟩

/-- Whether a request leaves alone how far the work has come: it gives records, or creates new
work. -/
def Request.IsPlain (request : Request) : Prop :=
  request.Fetches ∨ ∃ r : Record, r.IsNew ∧ request = .create r

namespace Backend.Session

variable {b : Backend} {s s' s'' : b.Session} {now : Instant} {mishap : Option Mishap}

/-- A session goes on with plain requests only. -/
def Plainly (s s' : b.Session) : Prop :=
  ∃ calls : List Call, (∀ call ∈ calls, call.request.IsPlain) ∧ s' = calls.foldl next s

theorem Plainly.refl (s : b.Session) : Plainly s s := ⟨[], List.forall_mem_nil _, rfl⟩

theorem Plainly.trans (h : Plainly s s') (h' : Plainly s' s'') : Plainly s s'' := by
  obtain ⟨calls, hplain, rfl⟩ := h
  obtain ⟨calls', hplain', rfl⟩ := h'
  exact ⟨calls ++ calls', List.forall_mem_append.mpr ⟨hplain, hplain'⟩, List.foldl_append.symm⟩

theorem plainly_next (s : b.Session) {call : Call} (h : call.request.IsPlain) :
    Plainly s (s.next call) :=
  ⟨[call], fun _ hcall => List.mem_singleton.mp hcall ▸ h, rfl⟩

theorem plainly_answer (s : b.Session) (now : Instant) (mishap : Option Mishap) {request : Request}
    (h : request.IsPlain) : Plainly s (s.answer now mishap request).2 := by
  rcases s.answer_cases now mishap request with hsame | hnext
  · rw [hsame]
    exact .refl s
  · rw [hnext]
    exact s.plainly_next h

/-- Getting partitions moves no record. -/
theorem plainly_fetch {H : Type*} (s : b.Session) (now : Instant) (mishap : Option Mishap)
    (n : Node) (x : Errand H) : Plainly s (s.fetch now mishap n x).2 := by
  rcases s.session_fetch now mishap n x with h | ⟨request, hrequest, h⟩ <;> rw [h]
  · exact .refl s
  · exact s.plainly_next (.inl (Errand.fetches_request hrequest))

theorem plainly_newRecord (s : b.Session) (now : Instant) (mishap : Option Mishap) (n : Node)
    (kind key : String) (leased : Bool) (progress : Option String) : Plainly s
      (s.answer now mishap (.create (n.newRecord kind key leased progress now))).2 :=
  s.plainly_answer now mishap (.inr ⟨_, n.isNew_newRecord _ _ _ _ _, rfl⟩)

theorem plainly_createEach (s : b.Session) (now : Instant) (mishap : Option Mishap) (n : Node)
    (kind : String) (progress : Option String) (keys : List String) :
    Plainly s (s.perform now mishap (n.createEach kind progress keys)).2 := by
  induction keys generalizing s with
  | nil => exact .refl s
  | cons key rest ih =>
    let r := n.newRecord kind key (kind ≠ sharedKind.tag) progress now
    have hperform : s.perform now mishap (n.createEach kind progress (key :: rest)) =
        s.perform now mishap
          (Node.store (.create r) >>= fun _ => n.createEach kind progress rest) := rfl
    have hfirst := s.plainly_newRecord now mishap n kind key (kind ≠ sharedKind.tag) progress
    rw [hperform, perform_bind, perform_store]
    rcases hanswer : s.answer now mishap (.create r) with ⟨e | a, s'⟩ <;> rw [hanswer] at hfirst
    · exact hfirst
    · exact hfirst.trans (ih s')

end Backend.Session

namespace Workforce

open Backend.Session

variable {b : Backend} {w : Workforce b}

/-! ## What may happen -/

/-- What may happen at nodes' work on one store. -/
inductive Event
  | create {k : PartitionKind} (n : Node) (p : Partition k) (mishap : Option Mishap)
  | createEach (n : Node) (kind : String) (progress : Option String) (keys : List String)
    (mishap : Option Mishap)
  | pickUp (n : Node) (p : Pickup) (mishap : Option Mishap)
  | transition (i : Nat) (t : Transition) (mishap : Option Mishap)
  /-- A node works on a partition that it has without asking the store. -/
  | revise (i : Nat) (change : (f : Factory) → f.Piece → f.Piece)
  | copy (i : Nat)
  /-- The clock shows any time, also an earlier one. -/
  | setClock (t : Instant)

/-- What is done. -/
def Event.deed : Event → Site.Deed Holding
  | .create n p mishap => .ask (n.create p) mishap
  | .createEach n kind progress keys mishap => .ask (n.createEach kind progress keys) mishap
  | .pickUp n p mishap => .fetch n (p.holdings n) mishap
  | .transition i t mishap => .transition i t mishap
  | .revise i change => .revise i fun x => { x with hand := x.hand.revise change }
  | .copy i => .copy i
  | .setClock t => .setClock t

/-- The workforce after an event. -/
def after (w : Workforce b) (e : Event) : Workforce b := Site.step w e.deed

/-- The transition of an identity's record that an event makes: it succeeds, or would have if its
answer had not been lost. -/
def made? (w : Workforce b) (id : RecordId) : Event → Option Transition
  | .transition i t mishap =>
    if mishap.all (·.isLate) && w.hands[i]?.any fun x =>
      x.hand.record.any (·.id = id) && (w.move none x t).1.isOk
    then some t else none
  | _ => none

/-- An event keeps the invariant of what is in hand. -/
theorem Sound.after (hw : Sound w) (e : Event) : Sound (w.after e) := by
  cases e with
  | create n p mishap => exact hw.goOn (w.session.later_perform w.now mishap (n.create p))
  | createEach n kind progress keys mishap =>
    exact hw.goOn (w.session.later_perform w.now mishap (n.createEach kind progress keys))
  | pickUp n p mishap => exact hw.step (.pickUp n p mishap)
  | transition i t mishap => exact hw.step (.transition i t mishap)
  | revise i change => exact hw.step (.revise i change)
  | copy i => exact hw.step (.copy i)
  | setClock t => exact hw.step (.setClock t)

/-- **What an event leaves of the session**: plain requests go on, or a partition asks for the one
update that its transition makes. -/
theorem session_after (w : Workforce b) (e : Event) :
    (w.session.Plainly (w.after e).session ∧ ∀ id, w.made? id e = none) ∨
    ∃ i t mishap x r, e = .transition i t mishap ∧ w.hands[i]? = some x ∧
      x.hand.record = some r ∧ (t.needsLease = true → x.hand.leased = true) ∧
      mishap.all (·.isLate) = true ∧ (w.after e).session =
        w.session.next ⟨w.now, .update (Node.proposal x.hand.piece t w.now r)⟩ := by
  cases e with
  | create n p mishap =>
    exact .inl ⟨w.session.plainly_newRecord w.now mishap n _ _ _ _, fun _ => rfl⟩
  | createEach n kind progress keys mishap =>
    exact .inl ⟨w.session.plainly_createEach w.now mishap n kind progress keys, fun _ => rfl⟩
  | pickUp n p mishap =>
    refine .inl ⟨?_, fun _ => rfl⟩
    rw [after, Event.deed, Site.session_step_fetch]
    exact w.session.plainly_fetch w.now mishap n (p.holdings n)
  | revise | copy | setClock => exact .inl ⟨.refl _, fun _ => rfl⟩
  | transition i t mishap =>
    rw [after, Event.deed]
    cases hx : w.hands[i]? with
    | none =>
      rw [Site.step_transition_of_none hx]
      exact .inl ⟨.refl _, fun id => by simp [made?, hx]⟩
    | some x =>
      rw [Site.session_step_transition hx, Site.session_move]
      rcases w.session.session_transition w.now mishap x.hand.piece t with
        ⟨hsame, hnot⟩ | ⟨r, hr, hleased, hlate, hnext⟩
      · refine .inl ⟨?_, fun id => ?_⟩
        · rw [show (w.perform mishap (Node.transition (Grip.hand x).piece t)).2 = _ from hsame]
          exact .refl _
        · have hnot : (mishap.all (·.isLate) && (w.move none x t).1.isOk) = false := by
            rw [Site.isOk_move]
            exact hnot
          rw [made?, hx, Option.any_some, Bool.and_left_comm, hnot, Bool.and_false]
          rfl
      · exact .inr ⟨i, t, mishap, x, r, rfl, hx, hr, hleased, hlate, hnext⟩

end Workforce

/-! ## What a record tells of the work -/

/-- Whether a record that is completed says when. -/
def Record.Dated (r : Record) : Prop := r.status = some .completed → r.completedAt.isSome

theorem Hand.dated_moved {r : Record} (h : r.Dated) (x : Hand) (t : Transition) (now : Instant) :
    (x.moved t now r).Dated := by
  unfold moved Node.proposal Transition.apply
  cases t with
  | save extension => dsimp only; split <;> exact h
  | complete => exact fun _ => rfl
  | giveUp => exact fun hs => nomatch hs
  | close reopenAfter limit =>
    dsimp only
    split
    · exact fun _ => rfl
    · exact fun hs => nomatch hs

/-- New work has not been closed. -/
theorem Record.IsNew.counted_first {b : Backend} {r : Record} (h : r.IsNew) :
    Fleet.Counted [] (b.kept r.firstVersion) where
  closings := by
    rw [b.closedCount_kept]
    exact congrArg UInt64.toNat h.closedCount
  completedAt := by
    cases b with
    | table => exact h.completedAt
    | objects root => exact congrArg (Option.map Instant.reread) h.completedAt

/-- A claim leaves alone what is told of the work. -/
theorem Fleet.Counted.claimed {b : Backend} {log : Log} {r : Record} (h : Fleet.Counted log r)
    (hkept : b.kept r = r) (owner : String) (now : Instant) (lease : Span) :
    Fleet.Counted log (b.kept (r.claimed owner now lease)) where
  closings := by
    rw [b.closedCount_kept]
    exact h.closings
  completedAt := by
    have hsame : (b.kept (r.claimed owner now lease)).completedAt = (b.kept r).completedAt := by
      cases b <;> rfl
    rw [hsame, hkept]
    exact h.completedAt

/-- Workers' dealings with one store, and beside them the transitions of each identity that have
taken effect, each with the time at which it was made. -/
structure Journal (b : Backend) where
  workforce : Workforce b
  log : RecordId → Log

namespace Journal

open Backend.Session

variable {b : Backend}

/-- The journal after one more event. -/
def note (j : Journal b) (e : Workforce.Event) : Journal b where
  workforce := j.workforce.after e
  log id := j.log id ++ ((j.workforce.made? id e).map fun t => (j.workforce.now, t)).toList

/-- The journal of some events, from an empty store at a time. -/
def run (b : Backend) (start : Instant) (events : List Workforce.Event) : Journal b :=
  events.foldl note ⟨.starting b Holding start, fun _ => []⟩

/-- The backend gives every time back that the clock shows. For a store of objects this excludes
leap seconds that do not end a minute. -/
structure KeepsTime (b : Backend) (start : Instant) (events : List Workforce.Event) : Prop where
  start : b.Keeps start
  later : ∀ t, Workforce.Event.setClock t ∈ events → b.Keeps t

/-- **What is stored of an identity is as its log says**, and a completed record says when it was
completed. -/
structure Told (id : RecordId) (log : Log) (s : b.Session) : Prop where
  closings_le : log.closings ≤ writesIn id s.history
  counted : ∀ r, s.stored id = some r → Fleet.Counted log r
  dated : ∀ r, s.stored id = some r → r.Dated
  missing : s.stored id = none → log = []

variable {id : RecordId} {log : Log} {s s' : b.Session}

namespace Told

theorem empty (id : RecordId) : Told id [] (⟨[], b.empty⟩ : b.Session) where
  closings_le := Nat.zero_le _
  counted r hr := by cases (stored_empty b id).symm.trans hr
  dated r hr := by cases (stored_empty b id).symm.trans hr
  missing _ := rfl

/-- Nothing has happened to the identity. -/
theorem keep (h : Told id log s) (hlater : s.Later s') (hstored : s'.stored id = s.stored id) :
    Told id log s' where
  closings_le := Nat.le_trans h.closings_le (hlater.writesIn id)
  counted r hr := h.counted r (hstored ▸ hr)
  dated r hr := h.dated r (hstored ▸ hr)
  missing hr := h.missing (hstored ▸ hr)

/-- The identity has a record as its log says. -/
theorem put (h : Told id log s) (hlater : s.Later s') {r : Record} (hr : s'.stored id = some r)
    (hcounted : Fleet.Counted log r) (hdated : r.Dated) : Told id log s' where
  closings_le := Nat.le_trans h.closings_le (hlater.writesIn id)
  counted _ hr' := Option.some.inj (hr.symm.trans hr') ▸ hcounted
  dated _ hr' := Option.some.inj (hr.symm.trans hr') ▸ hdated
  missing hnone := by cases hr.symm.trans hnone

/-- **A plain request** may begin the work of the identity, or claim it. -/
theorem next (h : Told id log s) (hs : s.Reached) {call : Call} (hplain : call.request.IsPlain) :
    Told id log (s.next call) := by
  have hlater := s.later_next call
  obtain ⟨now, request⟩ := call
  rcases hplain with hfetches | ⟨r, hnew, rfl⟩
  · rcases next_fetches hs now hfetches with hsame | ⟨r, owner, lease, hr, -, hwrote⟩
    · exact h.keep hlater (hsame id)
    · by_cases hid : id = r.id
      · subst hid
        have hcounted := h.counted r hr
        have hassigned : (b.kept (r.claimed owner now lease)).status = some .assigned :=
          b.status_kept _
        exact h.put hlater hwrote.self (hcounted.claimed (kept_of_stored hs hr) owner now lease)
          fun hs => absurd (hassigned.symm.trans hs) (by decide)
      · exact h.keep hlater (hwrote.other hid)
  · rcases next_create hs now r with ⟨-, hsame⟩ | ⟨-, hfree, hwrote⟩
    · exact h.keep hlater (hsame id)
    · by_cases hid : id = r.id
      · subst hid
        obtain rfl := h.missing hfree
        exact h.put hlater hwrote.self hnew.counted_first
          fun hs => absurd ((b.status_kept _).symm.trans hs) hnew.status
      · exact h.keep hlater (hwrote.other hid)

theorem plainly (h : Told id log s) (hs : s.Reached) (hplain : s.Plainly s') : Told id log s' := by
  obtain ⟨calls, hcalls, rfl⟩ := hplain
  induction calls generalizing s with
  | nil => exact h
  | cons call rest ih =>
    obtain ⟨hcall, hrest⟩ := List.forall_mem_cons.mp hcalls
    exact ih (h.next hs hcall) (hs.next call) hrest

/-- **A transition that takes effect** goes into the log. -/
theorem moved {r : Record} (h : Told r.id log s) (hs : s.Reached)
    (hr : s.stored r.id = some (b.kept r)) (x : Hand) (t : Transition) {now : Instant}
    (hnow : b.Keeps now)
    (hmost : writesIn r.id (s.next ⟨now, .update (Node.proposal x.piece t now r)⟩).history <
      UInt64.size) :
    Told r.id (log ++ [(now, t)]) (s.next ⟨now, .update (Node.proposal x.piece t now r)⟩) := by
  have hid : (Node.proposal x.piece t now r).id = r.id := Node.id_proposal x.piece t now r
  obtain ⟨hserve, hwrote⟩ := next_update_of_current hs now
    (u := Node.proposal x.piece t now r) (hid ▸ hr)
    ((b.version_kept r).trans (Node.version_proposal x.piece t now r).symm)
  have hafter : (s.next ⟨now, .update (Node.proposal x.piece t now r)⟩).stored r.id =
      some (x.moved t now (b.kept r)) := by
    rw [← x.kept_moved hnow, ← x.id_moved t now r]
    exact hwrote.self
  -- The update is one more write, so the record can be closed without its count coming round.
  have hwrites : writesIn r.id (s.next ⟨now, .update (Node.proposal x.piece t now r)⟩).history =
      writesIn r.id s.history + 1 := by
    have hwrite : Exchange.writes r.id ⟨.update (Node.proposal x.piece t now r),
        .ok (Node.proposal x.piece t now r).nextVersion⟩ = true := by
      rw [Exchange.writes, Bool.or_eq_true]
      exact .inr (beq_iff_eq.mpr (congrArg some hid))
    rw [Backend.Session.next, hserve, Chronicle.writesIn_concat, if_pos hwrite]
  have hcounted := h.counted _ hr
  have hlt : (b.kept r).closedCount.toNat + 1 < UInt64.size := by
    have hle := h.closings_le
    rw [hcounted.closings]
    omega
  have hput : Fleet.Counted (log ++ [(now, t)]) (x.moved t now (b.kept r)) :=
    hcounted.moved x t now hlt
  refine ⟨?_, fun _ hr' => ?_, fun _ hr' => ?_, fun hnone => ?_⟩
  · rw [hwrites, Log.closings_concat]
    have hle := h.closings_le
    split <;> omega
  · exact Option.some.inj (hafter.symm.trans hr') ▸ hput
  · exact Option.some.inj (hafter.symm.trans hr') ▸ x.dated_moved (h.dated _ hr) t now
  · exact absurd (hafter.symm.trans hnone) (Option.some_ne_none _)

/-- An update of another identity, or of a record that is no longer stored, changes nothing. -/
theorem lost (h : Told id log s) (hs : s.Reached) {r u : Record} (hshown : s.Shown r)
    (hid : u.id = r.id) (hversion : u.version = r.version)
    (hne : r.id = id → s.stored id ≠ some (b.kept r))
    (hmost : writesIn id s.history < UInt64.size) (now : Instant) :
    Told id log (s.next ⟨now, .update u⟩) := by
  have hlater := s.later_next ⟨now, .update u⟩
  rcases next_update hs now u with ⟨-, hsame⟩ | ⟨-, ⟨stored, hstored, hcurrent⟩, hwrote⟩
  · exact h.keep hlater (hsame id)
  · refine h.keep hlater (hwrote.other ?_)
    rintro (rfl : id = u.id)
    obtain rfl := eq_of_version hs hshown (hid ▸ hmost) (hid ▸ hstored) (hcurrent.trans hversion)
    exact hne hid.symm hstored

end Told

/-- **One event.** -/
theorem Told.after {w : Workforce b} (h : Told id log w.session) (hw : w.Sound)
    (hnow : b.Keeps w.now) (e : Workforce.Event)
    (hmost : writesIn id (w.after e).session.history < UInt64.size) :
    Told id (log ++ ((w.made? id e).map fun t => (w.now, t)).toList) (w.after e).session := by
  have hless := Nat.lt_of_le_of_lt ((w.later_step e.deed).writesIn id) hmost
  rcases w.session_after e with
    ⟨hplain, hnone⟩ | ⟨i, t, mishap, x, r, rfl, hx, hr, hleased, hlate, hnext⟩
  · rw [hnone, Option.map_none, Option.toList_none, List.append_nil]
    exact h.plainly hw.reached hplain
  · have hshown := (hw.fits x (List.mem_of_getElem? hx)).shown r hr
    rw [hnext] at hmost ⊢
    by_cases hstored : r.id = id ∧ w.stored r.id = some (b.kept r)
    · obtain ⟨rfl, hstored⟩ := hstored
      have hok : (w.move none x t).1.isOk = true := by
        rw [Site.isOk_move]
        exact (isOk_transition hw.reached hr hshown hless w.now none t).mpr ⟨rfl, hleased, hstored⟩
      have hmade : w.made? r.id (.transition i t mishap) = some t := by
        simp [Workforce.made?, hx, hr, hok, hlate]
      rw [hmade]
      exact h.moved hw.reached hstored x.hand t hnow hmost
    · have hmade : w.made? id (.transition i t mishap) = none := by
        refine if_neg fun hall => hstored ?_
        simp only [hx, Option.any_some, hr, Bool.and_eq_true, decide_eq_true_eq] at hall
        obtain ⟨-, rfl, hok⟩ := hall
        rw [Site.isOk_move] at hok
        exact ⟨rfl, ((isOk_transition hw.reached hr hshown hless w.now none t).mp hok).2.2⟩
      rw [hmade, Option.map_none, Option.toList_none, List.append_nil]
      exact h.lost hw.reached hshown (Node.id_proposal _ _ _ _) (Node.version_proposal _ _ _ _)
        (fun hid hs => hstored ⟨hid, hid ▸ hs⟩) hless w.now

/-- The clock shows the time that it was set to last. -/
theorem keeps_now (b : Backend) {start : Instant} {events : List Workforce.Event}
    (h : KeepsTime b start events) : b.Keeps (run b start events).workforce.now := by
  induction events using List.reverseRecOn with
  | nil => exact h.start
  | append_singleton events e ih =>
    have hbefore := ih ⟨h.start, fun t ht => h.later t (List.mem_append_left _ ht)⟩
    have hrun : run b start (events ++ [e]) = (run b start events).note e := List.foldl_append
    rw [hrun]
    cases e with
    | setClock t => exact h.later t List.mem_concat_self
    | create | createEach | revise | copy => exact hbefore
    | pickUp n p mishap =>
      have hsame : ((run b start events).note (.pickUp n p mishap)).workforce.now = _ :=
        Site.now_step_fetch
      rwa [hsame]
    | transition i t mishap =>
      have hsame : ((run b start events).note (.transition i t mishap)).workforce.now = _ :=
        Site.now_step_transition
      rwa [hsame]

/-- **Every run**: what is stored is as the journal says. -/
theorem told_run (b : Backend) {start : Instant} {events : List Workforce.Event}
    (h : KeepsTime b start events) : (run b start events).workforce.Sound ∧
      ∀ id, writesIn id (run b start events).workforce.session.history < UInt64.size →
        Told id ((run b start events).log id) (run b start events).workforce.session := by
  induction events using List.reverseRecOn with
  | nil => exact ⟨Workforce.sound_run b start [], fun id _ => .empty id⟩
  | append_singleton events e ih =>
    have hbefore : KeepsTime b start events :=
      ⟨h.start, fun t ht => h.later t (List.mem_append_left _ ht)⟩
    obtain ⟨hsound, htold⟩ := ih hbefore
    have hrun : run b start (events ++ [e]) = (run b start events).note e := List.foldl_append
    rw [hrun]
    refine ⟨hsound.after e, fun id hmost => ?_⟩
    have hless := Nat.lt_of_le_of_lt
      (((run b start events).workforce.later_step e.deed).writesIn id) hmost
    exact (htold id hless).after hsound (keeps_now b hbefore) e hmost

/-! ## The query -/

/-- A query by status gives the stored records of the kind that have it, the oldest first. -/
theorem serve_byStatus {state : b.State} {t : Table} (h : b.Holds state t) (now : Instant)
    (source kind : String) (status : Status) (since : Option Instant) :
    ∃ rs, (b.serve ⟨now, .byStatus source kind status since⟩ state).1 = .ok rs ∧
      rs.Perm ((t.ofKind source kind).filter (·.hasStatus status since)) ∧
      rs.Pairwise fun x y => x.createdAt ≤ y.createdAt := by
  obtain ⟨rs, rs', hrs, hrs', hperm, hages⟩ :=
    (h.serve ⟨now, .byStatus source kind status since⟩).1
  obtain rfl : Record.sorted _ = rs := Except.ok.inj hrs
  refine ⟨rs', hrs', hperm.symm.trans (Record.sorted_perm _), ?_⟩
  have hsorted := List.pairwise_map.mpr (Record.pairwise_sorted
    ((t.ofKind source kind).filter (·.hasStatus status since)))
  exact List.pairwise_map.mp (hages ▸ hsorted)

/-- Partitions are made of records that each make one. -/
theorem exists_mapM {f : Factory} {rs : List Record}
    (h : ∀ r ∈ rs, (f.build r).isOk = true) :
    ∃ ps : List f.Piece, rs.mapM f.build = .ok ps ∧ ps.map Held.record = rs.map some := by
  induction rs with
  | nil => exact ⟨[], rfl, rfl⟩
  | cons r rest ih =>
    obtain ⟨hr, hrest⟩ := List.forall_mem_cons.mp h
    obtain ⟨ps, hps, hrecords⟩ := ih hrest
    cases hbuild : f.build r with
    | error e => rw [hbuild] at hr; cases hr
    | ok p =>
      refine ⟨p :: ps, ?_, ?_⟩
      · rw [List.mapM_cons, hbuild, hps]
        rfl
      · rw [List.map_cons, List.map_cons, hrecords]
        exact congrArg (· :: _) (f.record_build r p hbuild)

/-- **A query for completed work** succeeds if partitions can be made of what is stored, and gives
those of the completed records, each once and the oldest first. -/
theorem exists_completedSince {s : b.Session} (hs : s.Reached) (now : Instant) (n : Node)
    (f : Factory) (kind : String) (since : Instant)
    (hbuild : ∀ r, s.stored r.id = some r → r.source = n.source → r.kind = kind →
      (f.build r).isOk = true) :
    ∃ (rs : List Record) (ps : List f.Piece),
      (s.perform now none (n.completedSince f.build kind since)).1 = .ok ps ∧
      ps.map Held.record = rs.map some ∧ (rs.map Record.id).Nodup ∧
      rs.Pairwise (fun x y => x.createdAt ≤ y.createdAt) ∧
      ∀ r, r ∈ rs ↔ s.stored r.id = some r ∧ r.source = n.source ∧ r.kind = kind ∧
        r.hasStatus .completed (some since) = true := by
  obtain ⟨t, -, hholds, -⟩ := hs.exists_chronicle ⟨n.source, kind, ""⟩
  obtain ⟨rs, hserve, hperm, hsorted⟩ :=
    serve_byStatus hholds now n.source kind .completed (some since)
  have hmem (r : Record) : r ∈ rs ↔ s.stored r.id = some r ∧ r.source = n.source ∧
      r.kind = kind ∧ r.hasStatus .completed (some since) = true := by
    rw [hperm.mem_iff, List.mem_filter, Table.mem_ofKind, stored_eq hholds,
      Table.find?_iff hholds.distinct]
    simp only [and_true, and_assoc]
  obtain ⟨ps, hps, hrecords⟩ := exists_mapM fun r hr =>
    let ⟨hr, hsource, hkind, _⟩ := (hmem r).mp hr
    hbuild r hr hsource hkind
  refine ⟨rs, ps, ?_, hrecords, ?_, hsorted, hmem⟩
  · have haction : n.completedSince f.build kind since =
        (Node.store (E := Interface.none) (.byStatus n.source kind .completed (some since)) >>=
          fun rs => Node.ofExcept (rs.mapM f.build)) := rfl
    have hstore : s.perform now none
        (Node.store (.byStatus n.source kind .completed (some since))) = (.ok rs, _) :=
      Prod.ext hserve rfl
    rw [haction, perform_bind, hstore]
    exact hps
  · have hids : ((t.ofKind n.source kind).map Record.id).Nodup :=
      hholds.distinct.sublist (List.filter_sublist.map _)
    exact (hperm.map _).nodup_iff.mpr (hids.sublist (List.filter_sublist.map _))

/-- **The records that a query for completed work is to give**: those stored of the source and kind
that are completed, and of which the last completion in the journal is not before a time; each once,
the oldest first. -/
structure Answers (j : Journal b) (source kind : String) (since : Instant)
    (rs : List Record) : Prop where
  distinct : (rs.map Record.id).Nodup
  oldest_first : rs.Pairwise fun x y => x.createdAt ≤ y.createdAt
  mem_iff : ∀ r, r ∈ rs ↔ j.workforce.stored r.id = some r ∧ r.source = source ∧ r.kind = kind ∧
    r.status = some .completed ∧ ∃ time, (j.log r.id).lastCompletion? = some time ∧ since ≤ time

/-- **Completed partitions are found by their last completion.**  Nodes create partitions of any
kinds over either backend, get them in every way that there is, and make transitions of what they
have in hand, however old, while requests fail before or after they have had their effect and the
clock shows any time, also an earlier one.  Of a source and a kind whose stored records make
partitions, and each of whose records is written fewer than `2^64` times, as long as the backend
gives every time back that the clock shows,

* the query for those completed since a time succeeds, and gives the partitions of exactly the
  stored records that are completed and whose last completion was not before that time, each once
  and the oldest first;
* no completed record is without a completion in the journal, and its own date is the last one's. -/
theorem completions_found (b : Backend) (start : Instant) (events : List Workforce.Event) (n : Node)
    (f : Factory) (kind : String) (since : Instant) (htimes : KeepsTime b start events)
    (hmost : ∀ id : RecordId, id.source = n.source → id.kind = kind →
      writesIn id (run b start events).workforce.session.history < UInt64.size)
    (hbuild : ∀ r, (run b start events).workforce.stored r.id = some r → r.source = n.source →
      r.kind = kind → (f.build r).isOk = true) :
    (∃ rs ps, ((run b start events).workforce.session.perform (run b start events).workforce.now
        none (n.completedSince f.build kind since)).1 = .ok ps ∧
      ps.map Held.record = rs.map some ∧ (run b start events).Answers n.source kind since rs) ∧
    ∀ r, (run b start events).workforce.stored r.id = some r → r.source = n.source →
      r.kind = kind → r.status = some .completed →
        ∃ time, ((run b start events).log r.id).lastCompletion? = some time ∧
          r.completedAt = some time := by
  obtain ⟨hsound, htold⟩ := told_run b htimes
  clear htimes
  generalize run b start events = j at hmost hbuild hsound htold ⊢
  have hdate (r : Record) (hr : j.workforce.stored r.id = some r) (hsource : r.source = n.source)
      (hkind : r.kind = kind) : r.completedAt = (j.log r.id).lastCompletion? :=
    ((htold r.id (hmost r.id hsource hkind)).counted r hr).completedAt
  constructor
  · obtain ⟨rs, ps, hps, hrecords, hdistinct, hsorted, hmem⟩ :=
      exists_completedSince hsound.reached j.workforce.now n f kind since hbuild
    refine ⟨rs, ps, hps, hrecords, hdistinct, hsorted, fun r => (hmem r).trans ?_⟩
    simp only [Record.hasStatus, Bool.and_eq_true, beq_iff_eq, Option.any_eq_true,
      decide_eq_true_eq]
    -- The stored date is the one of the last completion in the journal.
    refine ⟨?_, ?_⟩
    · rintro ⟨hr, hsource, hkind, hcompleted, time, htime, hsince⟩
      exact ⟨hr, hsource, hkind, hcompleted, time,
        (hdate r hr hsource hkind).symm.trans htime, hsince⟩
    · rintro ⟨hr, hsource, hkind, hcompleted, time, htime, hsince⟩
      exact ⟨hr, hsource, hkind, hcompleted, time, (hdate r hr hsource hkind).trans htime, hsince⟩
  · intro r hr hsource hkind hcompleted
    have hdated := (htold r.id (hmost r.id hsource hkind)).dated r hr hcompleted
    obtain ⟨time, htime⟩ := Option.isSome_iff_exists.mp hdated
    exact ⟨time, (hdate r hr hsource hkind).symm.trans htime, htime⟩

/-- A node claims two pieces of work and completes the first one after a minute.  Then the clock is
set back, and it closes the second one so often that it is done. -/
def backInTime : List Workforce.Event :=
  [.createEach (Workforce.worker "node-a") "WORK" none ["a"] none,
    .pickUp (Workforce.worker "node-a") (.claimAny Factory.bare "WORK" none) none,
    .createEach (Workforce.worker "node-a") "WORK" none ["b"] none,
    .pickUp (Workforce.worker "node-a") (.claimAny Factory.bare "WORK" none) none,
    .setClock (Instant.epoch.after (.seconds 60)),
    .transition 0 .complete none,
    .setClock .epoch,
    .transition 1 (.close (.seconds 30) (some 1)) none]

/-- After `backInTime` a query for what was completed in the last half of that minute gives the
first piece of work and not the second. -/
theorem completions_found_backInTime : ∃ (rs : List Record) (ps : List BarePartition),
    ((run .table .epoch backInTime).workforce.session.perform .epoch none
      ((Workforce.worker "node-b").completedSince Factory.bare.build "WORK"
        (Instant.epoch.after (.seconds 30)))).1 = .ok ps ∧
      ps.map Held.record = rs.map some ∧ (∃ r ∈ rs, r.key = "a") ∧ ∀ r ∈ rs, r.key ≠ "b" := by
  have hfew (id : RecordId) : writesIn id
      (run .table .epoch backInTime).workforce.session.history < UInt64.size :=
    Nat.lt_of_le_of_lt List.countP_le_length (by decide +kernel)
  obtain ⟨⟨rs, ps, hps, hrecords, hanswers⟩, -⟩ := completions_found .table .epoch backInTime
    (Workforce.worker "node-b") Factory.bare "WORK" (Instant.epoch.after (.seconds 30))
    ⟨trivial, fun _ _ => trivial⟩ (fun id _ _ => hfew id) fun _ _ _ _ => rfl
  refine ⟨rs, ps, hps, hrecords, ?_, fun r hr hkey => ?_⟩
  · have hfirst : ((run .table .epoch backInTime).workforce.stored ⟨"db", "WORK", "a"⟩).map
        (fun r => (r.id, r.status)) = some (⟨"db", "WORK", "a"⟩, some .completed) := by
      decide +kernel
    have hlog : ((run .table .epoch backInTime).log ⟨"db", "WORK", "a"⟩).lastCompletion? =
        some (Instant.epoch.after (.seconds 60)) := by
      decide +kernel
    obtain ⟨r, hr, hfields⟩ := Option.map_eq_some_iff.mp hfirst
    obtain ⟨hid, hstatus⟩ := Prod.mk.inj hfields
    refine ⟨r, (hanswers.mem_iff r).mpr ⟨hid ▸ hr, congrArg RecordId.source hid,
      congrArg RecordId.kind hid, hstatus, _, hid ▸ hlog, by decide +kernel⟩,
      congrArg RecordId.key hid⟩
  · obtain ⟨-, hsource, hkind, -, time, htime, hsince⟩ := (hanswers.mem_iff r).mp hr
    have hid : r.id = ⟨"db", "WORK", "b"⟩ := by rw [Record.id, hsource, hkind, hkey]; rfl
    have hlog : ((run .table .epoch backInTime).log ⟨"db", "WORK", "b"⟩).lastCompletion? =
        some .epoch := by
      decide +kernel
    rw [hid, hlog] at htime
    obtain rfl := Option.some.inj htime
    exact absurd hsince (by decide +kernel)

end Journal

end LeasedWork
