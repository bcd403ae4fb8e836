import LeasedWork.Proofs.Fleet.Statuses
import LeasedWork.Proofs.Store.Requests
import LeasedWork.Proofs.Store.Versions

/-! # Sessions with a store

A session is a backend in use, with all that it has been asked and has answered.  Nodes' programs
run on it, and any request of theirs may fail, before or after the store has served it (`Mishap`).
Whatever is done, the session goes on (`Backend.Session.Later`), and what is stored changes by one
record at a time: a new one, an update of the version that is stored, or the claim of one that is
available (`Backend.Session.next_create`, `next_update` and `next_fetches`).
-/
namespace LeasedWork

/-! ## Who answers -/

/-- Why a request fails for whoever asks, and whether that is late: when the store has already
served it. -/
structure Mishap where
  failure : Failure
  isLate : Bool

/-- A request fails before it has had any effect. -/
def Mishap.early (e : Failure) : Mishap := ⟨e, false⟩

/-- Whoever answers requests, as the surroundings of nodes at a time. -/
def Handler.ofStore {σ : Type} (now : Instant)
    (answer : (request : Request) → σ → request.Answer × σ) :
    Handler (Node.interface Interface.none) σ where
  answer
    | .store request, s => answer request s
    | .now, s => (now, s)
    | .pause _, s => ((), s)
    | .other q, _ => q.elim

/-- The answer to a request, which a mishap may befall, and the state after it. -/
def Backend.answer (b : Backend) (now : Instant) (mishap : Option Mishap) (request : Request)
    (s : b.State) : request.Answer × b.State :=
  match mishap with
  | none => b.serve ⟨now, request⟩ s
  | some m => (.error m.failure, if m.isLate then (b.serve ⟨now, request⟩ s).2 else s)

/-- A backend as the store of nodes, at a time. -/
def Backend.handler (b : Backend) (now : Instant) (mishap : Option Mishap) :
    Handler (Node.interface Interface.none) b.State := .ofStore now (b.answer now mishap)

/-- Whether a request gives records and creates or updates none. -/
def Request.Fetches : Request → Prop
  | .claim _ _ _ _ | .get _ | .byStatus _ _ _ _ | .all _ _ => True
  | .prepare | .create _ | .update _ => False

namespace Backend.Session

variable {b : Backend} {α β : Type}

/-- The answer to a request, and the session after it. -/
def answer (s : b.Session) (now : Instant) (mishap : Option Mishap) (request : Request) :
    request.Answer × b.Session :=
  match mishap with
  | none => ((b.serve ⟨now, request⟩ s.state).1, s.next ⟨now, request⟩)
  | some m => (.error m.failure, if m.isLate then s.next ⟨now, request⟩ else s)

/-- A session as the store of nodes, at a time. -/
def handler (now : Instant) (mishap : Option Mishap) :
    Handler (Node.interface Interface.none) b.Session :=
  .ofStore now fun request s => s.answer now mishap request

/-- Runs what a node does. -/
def perform (s : b.Session) (now : Instant) (mishap : Option Mishap)
    (action : Node.Action Interface.none α) : Except Failure α × b.Session :=
  Program.run (handler now mishap) action.run s

/-- What is stored of an identity. -/
def stored (s : b.Session) (id : RecordId) : Option Record :=
  match (b.serve ⟨.epoch, .get id⟩ s.state).1 with
  | .ok r => r
  | .error _ => none

/-- An answer so far has shown a record. -/
def Shown (s : b.Session) (r : Record) : Prop := ∃ e ∈ s.history, r ∈ e.shown

/-- A session goes on with some calls. -/
def Later (s s' : b.Session) : Prop := ∃ calls : List Call, s' = calls.foldl next s

/-- A session that has been so since some calls, from empty. -/
def Reached (s : b.Session) : Prop := ∃ calls, s = b.session calls

variable {s s' s'' : b.Session} {now : Instant} {mishap : Option Mishap} {request : Request}
  {r : Record}

/-! ### Sessions that go on -/

theorem Later.refl (s : b.Session) : Later s s := ⟨[], rfl⟩

theorem Later.trans (h : Later s s') (h' : Later s' s'') : Later s s'' := by
  obtain ⟨calls, rfl⟩ := h
  obtain ⟨calls', rfl⟩ := h'
  exact ⟨calls ++ calls', List.foldl_append.symm⟩

theorem later_next (s : b.Session) (call : Call) : Later s (s.next call) := ⟨[call], rfl⟩

/-- What has been answered is not forgotten. -/
theorem Later.history (h : Later s s') : ∃ more, s'.history = s.history ++ more := by
  obtain ⟨calls, rfl⟩ := h
  induction calls generalizing s with
  | nil => exact ⟨[], (List.append_nil _).symm⟩
  | cons call rest ih =>
    obtain ⟨more, hmore⟩ := ih (s := s.next call)
    exact ⟨_, hmore.trans (List.append_assoc _ _ _)⟩

theorem Later.writesIn (h : Later s s') (id : RecordId) :
    LeasedWork.writesIn id s.history ≤ LeasedWork.writesIn id s'.history := by
  obtain ⟨more, hmore⟩ := h.history
  rw [hmore, LeasedWork.writesIn, LeasedWork.writesIn, List.countP_append]
  exact Nat.le_add_right _ _

theorem Shown.later (h : Shown s r) (hs : Later s s') : Shown s' r := by
  obtain ⟨x, hx, hr⟩ := h
  obtain ⟨more, hmore⟩ := hs.history
  exact ⟨x, hmore ▸ List.mem_append_left more hx, hr⟩

theorem reached_empty (b : Backend) : Reached (⟨[], b.empty⟩ : b.Session) := ⟨[], rfl⟩

theorem Reached.next (h : s.Reached) (call : Call) : (s.next call).Reached := by
  obtain ⟨calls, rfl⟩ := h
  refine ⟨calls ++ [call], ?_⟩
  rw [session, session, List.foldl_append]
  rfl

theorem Reached.later (h : s.Reached) (hs : Later s s') : s'.Reached := by
  obtain ⟨calls, rfl⟩ := hs
  induction calls generalizing s with
  | nil => exact h
  | cons call rest ih => exact ih (h.next call)

theorem Reached.exists_chronicle (h : s.Reached) (id : RecordId) :
    ∃ t past, b.Holds s.state t ∧ Chronicle b.kept id s.history t past := by
  obtain ⟨calls, rfl⟩ := h
  exact b.exists_chronicle calls id

theorem stored_eq {t : Table} (h : b.Holds s.state t) (id : RecordId) :
    s.stored id = t.find? id := by
  rw [stored, h.get]

theorem stored_next {t : Table} (h : b.Holds s.state t) (call : Call) (id : RecordId) :
    (s.next call).stored id = (b.afterCall t call).find? id :=
  stored_eq (s := s.next call) (h.serve call).2 id

theorem id_of_stored (hs : s.Reached) {id : RecordId} (h : s.stored id = some r) : r.id = id := by
  obtain ⟨t, -, hholds, -⟩ := hs.exists_chronicle id
  exact (Table.find?_some ((stored_eq hholds id).symm.trans h)).2

/-- What is stored is stored as it is kept. -/
theorem kept_of_stored (hs : s.Reached) {id : RecordId} (h : s.stored id = some r) :
    b.kept r = r := by
  obtain ⟨t, -, hholds, -⟩ := hs.exists_chronicle id
  exact hholds.kept_of_find ((stored_eq hholds id).symm.trans h)

theorem stored_empty (b : Backend) (id : RecordId) :
    (⟨[], b.empty⟩ : b.Session).stored id = none :=
  stored_eq (s := ⟨[], b.empty⟩) b.holds_empty id

/-! ### What is stored after a request -/

/-- Nothing that is stored has changed. -/
def Same (s s' : b.Session) : Prop := ∀ id, s'.stored id = s.stored id

/-- A record has been written, as the backend keeps it, and nothing else. -/
def Wrote (s s' : b.Session) (r : Record) : Prop :=
  ∀ id, s'.stored id = if id = r.id then some (b.kept r) else s.stored id

theorem Wrote.self (h : Wrote s s' r) : s'.stored r.id = some (b.kept r) :=
  (h r.id).trans (if_pos rfl)

theorem Wrote.other (h : Wrote s s' r) {id : RecordId} (hid : id ≠ r.id) :
    s'.stored id = s.stored id := (h id).trans (if_neg hid)

theorem same_next {t : Table} (h : b.Holds s.state t) {call : Call} (hcall : t.afterCall call = t) :
    Same s (s.next call) := by
  intro id
  rw [stored_next h, stored_eq h]
  exact h.find?_afterCall_of_same (by rw [hcall])

theorem wrote_next {t : Table} (h : b.Holds s.state t) {call : Call}
    (hcall : ∀ id, (t.afterCall call).find? id = if id = r.id then some r else t.find? id) :
    Wrote s (s.next call) r := by
  intro id
  rw [stored_next h, stored_eq h]
  by_cases hid : id = r.id
  · rw [if_pos hid, find?_afterCall, hcall, if_pos hid, Option.map_some]
  · rw [if_neg hid]
    exact h.find?_afterCall_of_same ((hcall id).trans (if_neg hid))

/-- **A creation** finds a record of the identity, or writes the first version of its own. -/
theorem next_create (hs : s.Reached) (now : Instant) (r : Record) :
    ((b.serve ⟨now, .create r⟩ s.state).1 = .ok false ∧ Same s (s.next ⟨now, .create r⟩)) ∨
    ((b.serve ⟨now, .create r⟩ s.state).1 = .ok true ∧ s.stored r.id = none ∧
      Wrote s (s.next ⟨now, .create r⟩) r.firstVersion) := by
  obtain ⟨t, -, hholds, -⟩ := hs.exists_chronicle r.id
  have hagree := (hholds.serve ⟨now, .create r⟩).1
  cases hfind : t.find? r.id with
  | some stored =>
    have hanswer := Table.answer_create_of_some now hfind
    rw [hanswer] at hagree
    exact .inl ⟨hagree.symm, same_next hholds (congrArg Prod.snd hanswer)⟩
  | none =>
    have hanswer := Table.answer_create_of_none now hfind
    rw [hanswer] at hagree
    refine .inr ⟨hagree.symm, (stored_eq hholds _).trans hfind, wrote_next hholds fun id => ?_⟩
    rw [Table.afterCall, hanswer]
    exact Table.find?_insert (r := r.firstVersion) hfind id

/-- An update of the stored version writes the next one. -/
theorem next_update_of_current (hs : s.Reached) (now : Instant) {u stored : Record}
    (hstored : s.stored u.id = some stored) (hversion : stored.version = u.version) :
    (b.serve ⟨now, .update u⟩ s.state).1 = .ok u.nextVersion ∧
      Wrote s (s.next ⟨now, .update u⟩) u.nextVersion := by
  obtain ⟨t, -, hholds, -⟩ := hs.exists_chronicle u.id
  rw [stored_eq hholds] at hstored
  have hanswer := Table.answer_update_of_current now hstored hversion
  refine ⟨(hholds.serve ⟨now, .update u⟩).1.symm.trans (congrArg Prod.fst hanswer),
    wrote_next hholds fun id => ?_⟩
  rw [Table.afterCall, hanswer]
  exact Table.find?_replace_of_stored (r := u.nextVersion) hstored id

/-- **An update** fails, or writes the next version of what it is asked for, if its version is the
stored one. -/
theorem next_update (hs : s.Reached) (now : Instant) (u : Record) :
    ((∃ e, (b.serve ⟨now, .update u⟩ s.state).1 = .error e) ∧ Same s (s.next ⟨now, .update u⟩)) ∨
    ((b.serve ⟨now, .update u⟩ s.state).1 = .ok u.nextVersion ∧
      (∃ stored, s.stored u.id = some stored ∧ stored.version = u.version) ∧
      Wrote s (s.next ⟨now, .update u⟩) u.nextVersion) := by
  by_cases hcurrent : ∃ stored, s.stored u.id = some stored ∧ stored.version = u.version
  · obtain ⟨stored, hstored, hversion⟩ := hcurrent
    obtain ⟨hserve, hwrote⟩ := next_update_of_current hs now hstored hversion
    exact .inr ⟨hserve, ⟨stored, hstored, hversion⟩, hwrote⟩
  · obtain ⟨t, -, hholds, -⟩ := hs.exists_chronicle u.id
    rw [stored_eq hholds] at hcurrent
    have hanswer := Table.answer_update_of_stale (r := u) now
      fun stored hstored hversion => hcurrent ⟨stored, hstored, hversion⟩
    exact .inl ⟨⟨_, (hholds.serve ⟨now, .update u⟩).1.symm.trans (congrArg Prod.fst hanswer)⟩,
      same_next hholds (congrArg Prod.snd hanswer)⟩

/-- **A request for records** changes nothing, or claims one that is available. -/
theorem next_fetches (hs : s.Reached) (now : Instant) (hrequest : request.Fetches) :
    Same s (s.next ⟨now, request⟩) ∨
    ∃ r owner lease, s.stored r.id = some r ∧ r.isAvailable now = true ∧
      Wrote s (s.next ⟨now, request⟩) (r.claimed owner now lease) := by
  obtain ⟨t, -, hholds, -⟩ := hs.exists_chronicle ⟨"", "", ""⟩
  -- Of the writes that a request can make only a claim is left.
  have hcases : t.afterCall ⟨now, request⟩ = t ∨ ∃ r owner lease, r ∈ t.rows ∧
      r.isAvailable now = true ∧
        t.afterCall ⟨now, request⟩ = t.replace (r.claimed owner now lease) := by
    have hwritten := t.written_answer now request
    rw [Table.afterCall]
    generalize (t.answer now request).2 = t' at hwritten ⊢
    cases hwritten with
    | none => exact .inl rfl
    | created | updated => exact hrequest.elim
    | claimed r owner lease hr havailable =>
      exact .inr ⟨r, owner, lease, hr, havailable, rfl⟩
  rcases hcases with hsame | ⟨r, owner, lease, hr, havailable, hclaim⟩
  · exact .inl (same_next hholds hsame)
  · have hfind : t.find? r.id = some r := (Table.find?_iff hholds.distinct).mpr ⟨hr, rfl⟩
    refine .inr ⟨r, owner, lease, (stored_eq hholds _).trans hfind, havailable,
      wrote_next hholds fun id => ?_⟩
    rw [hclaim]
    exact Table.find?_replace_of_stored (r := r.claimed owner now lease) hfind id

/-- What an answer shows is stored then. -/
theorem stored_of_reply (hs : s.Reached) {reply : request.Reply}
    (hreply : (b.serve ⟨now, request⟩ s.state).1 = .ok reply)
    (hr : r ∈ (Exchange.mk request (.ok reply)).shown) :
    (s.next ⟨now, request⟩).stored r.id = some (b.kept r) := by
  obtain ⟨t, -, hholds, -⟩ := hs.exists_chronicle r.id
  have hagree := (hholds.serve ⟨now, request⟩).1
  -- What the table answers takes effect there, and the backend shows the same.
  have heffect : (Exchange.mk request (t.answer now request).1).Effect b.kept r.id t
      (b.afterCall t ⟨now, request⟩) :=
    (Table.effect_answer hholds.distinct now request).map b.id_kept b.version_kept
      fun _ hr => hholds.kept_of_find hr
  rw [stored_next hholds]
  exact (heffect.of_agree (hreply ▸ hagree)).shown r hr rfl

/-! ### What programs do to a session -/

/-- The session after a request: the store has served it, or nothing has happened. -/
theorem answer_cases (s : b.Session) (now : Instant) (mishap : Option Mishap) (request : Request) :
    (s.answer now mishap request).2 = s ∨
      (s.answer now mishap request).2 = s.next ⟨now, request⟩ := by
  cases mishap with
  | none => exact .inr rfl
  | some m =>
    simp only [answer]
    split
    · exact .inr rfl
    · exact .inl rfl

/-- A request that succeeds has been served, and its exchange is the last one. -/
theorem answer_ok {reply : request.Reply} (h : s.answer now mishap request = (.ok reply, s')) :
    (b.serve ⟨now, request⟩ s.state).1 = .ok reply ∧ s' = s.next ⟨now, request⟩ ∧
      ⟨request, .ok reply⟩ ∈ s'.history := by
  cases mishap with
  | some m => cases h
  | none =>
    obtain ⟨hserve, rfl⟩ := Prod.mk.inj h
    refine ⟨hserve, rfl, ?_⟩
    rw [next, hserve]
    exact List.mem_concat_self

/-- A request either fails before it has had any effect, or is served. -/
theorem answer_early (s : b.Session) (now : Instant) (fault : Option Failure) (request : Request) :
    (∃ e, fault = some e ∧ s.answer now (fault.map .early) request = (.error e, s)) ∨
      fault = none ∧ s.answer now (fault.map .early) request =
        ((b.serve ⟨now, request⟩ s.state).1, s.next ⟨now, request⟩) := by
  cases fault with
  | none => exact .inr ⟨rfl, rfl⟩
  | some e => exact .inl ⟨e, rfl, rfl⟩

/-- A creation that succeeds has written its record, and any other has changed nothing. -/
theorem create_early (hs : s.Reached) (now : Instant) (fault : Option Failure) (r : Record) :
    ((s.answer now (fault.map .early) (.create r)).1 ≠ .ok true ∧
      Same s (s.answer now (fault.map .early) (.create r)).2) ∨
    ((s.answer now (fault.map .early) (.create r)).1 = .ok true ∧ s.stored r.id = none ∧
      Wrote s (s.answer now (fault.map .early) (.create r)).2 r.firstVersion) := by
  rcases s.answer_early now fault (.create r) with ⟨e, -, h⟩ | ⟨-, h⟩ <;> rw [h]
  · exact .inl ⟨fun h => (by cases h), fun _ => rfl⟩
  · refine (next_create hs now r).imp_left fun ⟨hfound, hsame⟩ => ⟨fun htrue => ?_, hsame⟩
    exact Bool.noConfusion (Except.ok.inj (hfound.symm.trans htrue))

theorem later_answer (s : b.Session) (now : Instant) (mishap : Option Mishap) (request : Request) :
    Later s (s.answer now mishap request).2 := by
  rcases s.answer_cases now mishap request with h | h <;> rw [h]
  · exact .refl s
  · exact s.later_next _

/-- Whatever a node does, the session goes on. -/
theorem later_run (now : Instant) (mishap : Option Mishap)
    (p : Program (Node.interface Interface.none) α) (s : b.Session) :
    Later s (Program.run (handler now mishap) p s).2 := by
  induction p generalizing s with
  | done a => exact .refl s
  | ask question next ih =>
    cases question with
    | store request => exact (s.later_answer now mishap request).trans (ih _ _)
    | now => exact ih now s
    | pause d => exact ih () s
    | other q => exact q.elim

theorem later_perform (s : b.Session) (now : Instant) (mishap : Option Mishap)
    (action : Node.Action Interface.none α) : Later s (s.perform now mishap action).2 :=
  later_run now mishap action.run s

theorem perform_store (s : b.Session) (now : Instant) (mishap : Option Mishap) (request : Request) :
    s.perform now mishap (Node.store request) = s.answer now mishap request := rfl

theorem perform_bind (s : b.Session) (now : Instant) (mishap : Option Mishap)
    (action : Node.Action Interface.none α) (next : α → Node.Action Interface.none β) :
    s.perform now mishap (action >>= next) =
      match s.perform now mishap action with
      | (.ok a, s') => s'.perform now mishap (next a)
      | (.error e, s') => (.error e, s') := by
  refine (Program.run_exceptT_bind (handler now mishap) action next s).trans ?_
  unfold perform
  rcases Program.run (handler now mishap) action.run s with ⟨x, s'⟩
  cases x <;> rfl

/-- **A transition** asks for one update, if it may be made at all. -/
theorem perform_transition {P : Type} [Held P] (s : b.Session) (now : Instant)
    (mishap : Option Mishap) (p : P) (t : Transition) :
    s.perform now mishap (Node.transition p t) =
      if t.needsLease && !Held.leased p then (.error (.notLeasable (Held.tag p)), s)
      else
        match Held.record p with
        | none => (.error (.noRecord (Held.tag p) (Held.key p)), s)
        | some r =>
          match s.answer now mishap (.update (Node.proposal p t now r)) with
          | (.ok written, s') => (.ok (Held.adopt written p), s')
          | (.error e, s') => (.error e, s') := by
  rw [perform, Node.run_transition]
  cases Held.record p with
  | none => rfl
  | some r =>
    dsimp only [handler, Handler.ofStore]
    rcases s.answer now mishap (.update (Node.proposal p t now r)) with ⟨e | written, s'⟩ <;> rfl

end Backend.Session

end LeasedWork
