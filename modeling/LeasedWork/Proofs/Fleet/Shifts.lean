import LeasedWork.Proofs.Fleet.Accords
import LeasedWork.Proofs.Fleet.Holders

/-! # One program among others

While a program is busy with a record that it has claimed, others use the same store.  A `Shift` is
the session of all of them, and beside it the requests of the one program, with their answers.
Whatever the others ask comes between two questions of the program.

What the program knows of its record is a `Trace`: the last of its own writes to the identity, which
the store has shown to it.  A `Trace` is kept by every request that is no claim and no update of the
identity, and it follows the program's updates (`Trace.update`).  An update that is lost has been
overtaken, and then the record stays overtaken, whatever else happens
(`Backend.Session.Overtaken.later`).
-/
namespace LeasedWork

/-! ## Records that are overtaken -/

namespace Backend.Session

variable {b : Backend} {s s' s'' : b.Session} {r : Record}

/-- Somebody has written the identity of a record since the record was shown. -/
def Overtaken (s : b.Session) (r : Record) : Prop :=
  ∃ i x, s.history[i]? = some x ∧ r ∈ x.shown ∧ writesIn r.id (s.history.drop (i + 1)) ≠ 0

/-- What is overtaken stays so. -/
theorem Overtaken.later (h : s.Overtaken r) (hs : Later s s') : s'.Overtaken r := by
  obtain ⟨i, x, hx, hr, hwrites⟩ := h
  obtain ⟨more, hmore⟩ := hs.history
  have hi : i < s.history.length := (List.getElem?_eq_some_iff.mp hx).1
  refine ⟨i, x, ?_, hr, ?_⟩
  · rw [hmore, List.getElem?_append_left hi, hx]
  · rw [hmore, List.drop_append_of_le_length hi, writesIn, List.countP_append]
    exact fun hzero => hwrites (Nat.eq_zero_of_add_eq_zero_right hzero)

/-- What is overtaken is not of the stored version. -/
theorem Overtaken.stored_ne (h : s.Overtaken r) (hs : s.Reached)
    (hmost : writesIn r.id s.history < UInt64.size) : s.stored r.id ≠ some (b.kept r) := by
  obtain ⟨i, x, hx, hr, hwrites⟩ := h
  obtain ⟨t, past, hholds, hc⟩ := hs.exists_chronicle r.id
  obtain ⟨q, hq, hversion⟩ := hc.version_eq_iff b.version_kept hmost hx hr rfl
  rw [stored_eq hholds, hq]
  exact fun heq => hwrites (hversion.mp
    ((congrArg Record.version (Option.some.inj heq)).trans (b.version_kept r)))

/-- An update of what has been shown is answered by its next version, unless it has been
overtaken. -/
theorem serve_update_cases (hs : s.Reached) (hshown : s.Shown r) (now : Instant)
    {u : Record} (hid : u.id = r.id) (hversion : u.version = r.version) :
    (b.serve ⟨now, .update u⟩ s.state).1 = .ok u.nextVersion ∨
      (∃ e, (b.serve ⟨now, .update u⟩ s.state).1 = .error e) ∧ s.Overtaken r := by
  obtain ⟨x, hx, hr⟩ := hshown
  obtain ⟨i, hi⟩ := List.mem_iff_getElem?.mp hx
  obtain ⟨t, past, hholds, hc⟩ := hs.exists_chronicle r.id
  by_cases hwrites : writesIn r.id (s.history.drop (i + 1)) = 0
  · -- Nobody has written since, so that the record is the stored one.
    have hcount : writesIn r.id (s.history.take (i + 1)) = writesIn r.id s.history := by
      conv_rhs => rw [← List.take_append_drop (i + 1) s.history, writesIn, List.countP_append]
      exact (Nat.add_eq_left.mpr hwrites).symm
    have hstored : t.find? u.id = some (b.kept r) := by
      rw [hid, hc.stored, ← hcount, hc.shown i x hi r hr rfl]
    exact .inl ((hholds.update now hstored).trans
      (if_pos ((b.version_kept r).trans hversion.symm)))
  · have hagree := (hholds.serve ⟨now, .update u⟩).1
    cases hanswer : (b.serve ⟨now, .update u⟩ s.state).1 with
    | ok written =>
      exact .inl (congrArg Except.ok (Table.eq_of_answer_update (Eq.trans hagree hanswer)))
    | error e => exact .inr ⟨⟨e, rfl⟩, i, x, hi, hr, hwrites⟩

end Backend.Session

/-! ## One's own requests -/

namespace Exchange

/-- The identity of which the record was claimed. -/
def claimedOf? : Exchange → Option RecordId
  | ⟨.claim _ _ _ _, .ok r⟩ => r.map Record.id
  | _ => none

/-- Whether an update of an identity was asked for. -/
def updates (id : RecordId) : Exchange → Bool
  | ⟨.update r, _⟩ => r.id == id
  | _ => false

/-- Whether it has failed. -/
def hasFailed : Exchange → Bool
  | ⟨.update _, .error _⟩ => true
  | _ => false

/-- The record that the last successful write of an identity has given. -/
def lastWritten (own : List Exchange) (id : RecordId) : Option Record :=
  (own.filter (rewrites id)).getLast?.bind fun x => x.shown.head?

/-- Whether the last update of an identity was in vain. -/
def lostLast (own : List Exchange) (id : RecordId) : Bool :=
  (own.filter (updates id)).getLast?.any hasFailed

theorem exists_claimedOf_concat (own : List Exchange) {x : Exchange} (hx : x.claimedOf? = none)
    (id : RecordId) : (∃ y ∈ own ++ [x], y.claimedOf? = some id) ↔
      ∃ y ∈ own, y.claimedOf? = some id := by
  simp [or_and_right, exists_or, hx]

theorem lastWritten_concat (own : List Exchange) (x : Exchange) (id : RecordId) :
    lastWritten (own ++ [x]) id =
      if x.rewrites id then x.shown.head? else lastWritten own id := by
  unfold lastWritten
  cases h : x.rewrites id <;> simp [List.filter_append, h]

theorem lostLast_concat (own : List Exchange) (x : Exchange) (id : RecordId) :
    lostLast (own ++ [x]) id = if x.updates id then x.hasFailed else lostLast own id := by
  unfold lostLast
  cases h : x.updates id <;> simp [List.filter_append, h]

end Exchange

/-- Neither a claim, nor an update of an identity. -/
def Request.KeepsOff (id : RecordId) : Request → Prop
  | .update r => r.id ≠ id
  | .claim _ _ _ _ => False
  | .prepare | .get _ | .create _ | .byStatus _ _ _ _ | .all _ _ => True

/-- The record of an identity is not written by requests that keep off it. -/
theorem Backend.Session.rewrites_of_keepsOff {b : Backend} {s : b.Session} (hs : s.Reached)
    {id : RecordId} {q : Request} (hq : q.KeepsOff id) (now : Instant) :
    Exchange.rewrites id ⟨q, (b.serve ⟨now, q⟩ s.state).1⟩ = false := by
  cases q with
  | claim => cases hq
  | update u =>
    -- The answer to an update is of the identity that was asked for.
    obtain ⟨t, -, hholds, -⟩ := hs.exists_chronicle id
    have hagree := (hholds.serve ⟨now, .update u⟩).1
    cases hanswer : (b.serve ⟨now, .update u⟩ s.state).1 with
    | error e => rfl
    | ok written =>
      obtain rfl : written = u.nextVersion := Table.eq_of_answer_update (Eq.trans hagree hanswer)
      exact beq_eq_false_iff_ne.mpr fun heq => hq (Option.some.inj heq)
  | _ => rfl

/-! ## Shifts -/

/-- What happens until a program is answered: others ask the store, the clock shows a time, and the
rest of the world has its answers. -/
structure Meanwhile (E : Interface) where
  others : List Call
  now : Instant
  tell : (q : E.Question) → E.Answer q

/-- A session that a program takes part in: which of the exchanges are its own, and how many
questions it has asked. -/
structure Shift (b : Backend) where
  session : b.Session
  own : List Exchange
  asked : Nat

namespace Shift

variable {b : Backend} {E : Interface} (course : Nat → Meanwhile E)

/-- The session when the next question comes. -/
def before (s : Shift b) : b.Session := (course s.asked).others.foldl Backend.Session.next s.session

/-- A request of the program. -/
def request (s : Shift b) (q : Request) : q.Answer × Shift b :=
  let call : Call := ⟨(course s.asked).now, q⟩
  let answer := (b.serve call (s.before course).state).1
  (answer, ⟨(s.before course).next call, s.own ++ [⟨q, answer⟩], s.asked + 1⟩)

/-- A question that is not for the store. -/
def wait (s : Shift b) : Shift b := ⟨s.before course, s.own, s.asked + 1⟩

/-- A program in the course of a shift. -/
def handler : Handler (Node.interface E) (Shift b) where
  answer
    | .store q, s => s.request course q
    | .now, s => ((course s.asked).now, s.wait course)
    | .pause _, s => ((), s.wait course)
    | .other q, s => ((course s.asked).tell q, s.wait course)

/-- What a program has of a record that it has claimed: the last of its own writes. -/
structure Trace (s : Shift b) (r : Record) : Prop where
  reached : s.session.Reached
  shown : s.session.Shown r
  claimed : ∀ id, (∃ x ∈ s.own, x.claimedOf? = some id) ↔ id = r.id
  last : Exchange.lastWritten s.own r.id = some r
  lost : Exchange.lostLast s.own r.id = true → s.session.Overtaken r

variable {s : Shift b} {r : Record}

theorem later_before (s : Shift b) : s.session.Later (s.before course) := ⟨_, rfl⟩

/-- A trace begins with a claim. -/
theorem trace_of_claim (hs : s.session.Reached) (hown : s.own = []) {source kind owner : String}
    {lease : Span}
    (hanswer : (s.request course (.claim source kind owner lease)).1 = .ok (some r)) :
    Trace (s.request course (.claim source kind owner lease)).2 r := by
  let call : Call := ⟨(course s.asked).now, .claim source kind owner lease⟩
  let x : Exchange := ⟨.claim source kind owner lease, .ok (some r)⟩
  have hx : ⟨call.request, (b.serve call (s.before course).state).1⟩ = x :=
    congrArg (Exchange.mk _) hanswer
  have hown' : (s.request course (.claim source kind owner lease)).2.own = [x] :=
    (congrArg₂ (fun own y => own ++ [y]) hown hx : s.own ++ [_] = [] ++ [x])
  refine ⟨(hs.later (s.later_before course)).later (Backend.Session.later_next _ call),
    ⟨x, hx ▸ List.mem_concat_self, List.mem_singleton_self _⟩, fun id => ?_, ?_, ?_⟩
  · rw [hown']
    simp [x, Exchange.claimedOf?, eq_comm]
  · rw [hown']
    simp [x, Exchange.lastWritten, Exchange.rewrites, Exchange.rewritten?, Exchange.shown]
  · rw [hown']
    exact fun hlost => absurd hlost Bool.false_ne_true

theorem Trace.wait (h : Trace s r) : Trace (s.wait course) r where
  reached := h.reached.later (s.later_before course)
  shown := h.shown.later (s.later_before course)
  claimed := h.claimed
  last := h.last
  lost hlost := (h.lost hlost).later (s.later_before course)

/-- One more request leaves everything as it was that does not write the identity. -/
theorem Trace.keepsOff (h : Trace s r) {q : Request} (hq : q.KeepsOff r.id) :
    Trace (s.request course q).2 r := by
  have hbefore := h.wait course
  let call : Call := ⟨(course s.asked).now, q⟩
  have hlater := (s.before course).later_next call
  let x : Exchange := ⟨q, (b.serve call (s.before course).state).1⟩
  have hclaimed : x.claimedOf? = none := by
    cases q with
    | claim => cases hq
    | _ => rfl
  have hupdates : x.updates r.id = false := by
    cases q with
    | update u => exact beq_eq_false_iff_ne.mpr hq
    | _ => rfl
  have hrewrites : x.rewrites r.id = false :=
    Backend.Session.rewrites_of_keepsOff hbefore.reached hq call.now
  refine ⟨hbefore.reached.later hlater, hbefore.shown.later hlater, fun id => ?_, ?_, ?_⟩
  · exact (Exchange.exists_claimedOf_concat s.own hclaimed id).trans (h.claimed id)
  · refine (Exchange.lastWritten_concat s.own x r.id).trans ?_
    rw [hrewrites]
    exact h.last
  · intro hlost
    have hsame := Exchange.lostLast_concat s.own x r.id
    rw [hupdates] at hsame
    exact (hbefore.lost (hsame.symm.trans hlost)).later hlater

/-- After an update the record is the written one. -/
theorem Trace.written (h : Trace s r) {u : Record} (hid : u.id = r.id)
    (hanswer : (s.request course (.update u)).1 = .ok u.nextVersion) :
    Trace (s.request course (.update u)).2 u.nextVersion := by
  let call : Call := ⟨(course s.asked).now, .update u⟩
  let x : Exchange := ⟨.update u, .ok u.nextVersion⟩
  have hx : ⟨call.request, (b.serve call (s.before course).state).1⟩ = x :=
    congrArg (Exchange.mk _) hanswer
  have hown : (s.request course (.update u)).2.own = s.own ++ [x] :=
    congrArg (fun y => s.own ++ [y]) hx
  have hrewrites : x.rewrites u.nextVersion.id = true := beq_self_eq_true _
  have hupdates : x.updates u.nextVersion.id = true := beq_self_eq_true _
  refine ⟨(h.wait course).reached.later ((s.before course).later_next call),
    ⟨x, hx ▸ List.mem_concat_self, List.mem_singleton_self _⟩, fun id => ?_, ?_, ?_⟩
  · rw [hown, show u.nextVersion.id = r.id from hid]
    exact (Exchange.exists_claimedOf_concat s.own rfl id).trans (h.claimed id)
  · rw [hown, Exchange.lastWritten_concat, hrewrites]
    rfl
  · rw [hown, Exchange.lostLast_concat, hupdates]
    exact fun hfailed => absurd hfailed Bool.false_ne_true

/-- After an update that is lost the record has been overtaken. -/
theorem Trace.lose (h : Trace s r) {u : Record} {e : Failure}
    (hanswer : (s.request course (.update u)).1 = .error e)
    (hovertaken : (s.before course).Overtaken r) :
    Trace (s.request course (.update u)).2 r ∧
      (s.request course (.update u)).2.session.Overtaken r := by
  have hbefore := h.wait course
  have hlater := (s.before course).later_next ⟨(course s.asked).now, .update u⟩
  have hown : (s.request course (.update u)).2.own = s.own ++ [⟨.update u, .error e⟩] :=
    congrArg (fun y => s.own ++ [Exchange.mk (.update u) y]) hanswer
  have hovertaken' := hovertaken.later hlater
  refine ⟨⟨hbefore.reached.later hlater, hbefore.shown.later hlater, fun id => ?_, ?_,
    fun _ => hovertaken'⟩, hovertaken'⟩
  · rw [hown]
    exact (Exchange.exists_claimedOf_concat s.own rfl id).trans (h.claimed id)
  · rw [hown, Exchange.lastWritten_concat]
    exact h.last

/-- **An update of the record** writes its next version, or it is in vain: then the record has been
overtaken. -/
theorem Trace.update (h : Trace s r) {u : Record} (hid : u.id = r.id)
    (hversion : u.version = r.version) :
    ((s.request course (.update u)).1 = .ok u.nextVersion ∧
      Trace (s.request course (.update u)).2 u.nextVersion) ∨
    (∃ e, (s.request course (.update u)).1 = .error e) ∧
      Trace (s.request course (.update u)).2 r ∧
      (s.request course (.update u)).2.session.Overtaken r := by
  have hbefore := h.wait course
  rcases Backend.Session.serve_update_cases hbefore.reached hbefore.shown (course s.asked).now hid
    hversion with hanswer | ⟨⟨e, hanswer⟩, hovertaken⟩
  · exact .inl ⟨hanswer, h.written course hid hanswer⟩
  · exact .inr ⟨⟨e, hanswer⟩, h.lose course hanswer hovertaken⟩

/-- **A transition of the record**, when the partition's kind may make it: the record is written, or
has been overtaken. -/
theorem Trace.transition (h : Trace s r) {k : PartitionKind} {p : Partition k}
    (hp : p.record = some r) {move : Transition} (hmay : (move.needsLease && !k.leased) = false) :
    (∃ now, let w := (Node.proposal p move now r).nextVersion
      (Program.run (handler course) (Node.transition p move).run s).1 =
        .ok { p with record := some w } ∧
      Trace (Program.run (handler course) (Node.transition p move).run s).2 w) ∨
    (∃ e, (Program.run (handler course) (Node.transition p move).run s).1 = .error e) ∧
      Trace (Program.run (handler course) (Node.transition p move).run s).2 r ∧
      (Program.run (handler course) (Node.transition p move).run s).2.session.Overtaken r := by
  let now := (course s.asked).now
  have hmay' : ¬ (move.needsLease && !Held.leased p) = true := Bool.not_eq_true _ ▸ hmay
  have hrecord : Held.record p = some r := hp
  have hrun : Program.run (handler course) (Node.transition p move).run s =
      match (s.wait course).request course (.update (Node.proposal p move now r)) with
      | (.ok written, s') => (.ok { p with record := some written }, s')
      | (.error e, s') => (.error e, s') := by
    rw [Node.run_transition, if_neg hmay', hrecord]
    dsimp only [handler]
    rcases (s.wait course).request course _ with ⟨answer, s'⟩
    cases answer <;> rfl
  have hupdate := (h.wait course).update course (Node.id_proposal p move now r)
    (Node.version_proposal p move now r)
  rw [hrun]
  generalize (s.wait course).request course (.update (Node.proposal p move now r)) = asked at *
  obtain ⟨answer, s'⟩ := asked
  rcases hupdate with ⟨hanswer, htrace⟩ | ⟨⟨e, hanswer⟩, htrace, hovertaken⟩ <;> subst hanswer
  · exact .inl ⟨now, rfl, htrace⟩
  · exact .inr ⟨⟨e, rfl⟩, htrace, hovertaken⟩

/-! ## What stays behind -/

/-- A record is assigned under a claim of the program: the program has claimed it, and its version
is the one that the program has written last. -/
def Keeps (own : List Exchange) (now : b.Session) (id : RecordId) : Prop :=
  (∃ x ∈ own, x.claimedOf? = some id) ∧ ∃ q w, now.stored id = some q ∧
    q.status = some .assigned ∧ Exchange.lastWritten own id = some w ∧ q.version = w.version

/-- What is kept is the last record of the trace, if it is assigned and stored. -/
theorem Trace.keeps_iff (h : Trace s r) {later : b.Session} (hlater : s.session.Later later)
    {id : RecordId} (hmost : writesIn id later.history < UInt64.size) :
    Keeps s.own later id ↔
      r.status = some .assigned ∧ r.id = id ∧ later.stored id = some (b.kept r) := by
  constructor
  · rintro ⟨hclaimed, q, w, hq, hassigned, hw, hversion⟩
    obtain rfl := (h.claimed id).mp hclaimed
    obtain rfl := Option.some.inj (h.last.symm.trans hw)
    obtain rfl : q = b.kept r := Backend.Session.eq_of_version (h.reached.later hlater)
      (h.shown.later hlater) hmost hq hversion
    exact ⟨(b.status_kept r).symm.trans hassigned, rfl, hq⟩
  · rintro ⟨hassigned, rfl, hstored⟩
    exact ⟨(h.claimed _).mpr rfl, b.kept r, r, hstored, (b.status_kept r).trans hassigned, h.last,
      b.version_kept r⟩

/-- What is not assigned is not kept, and neither is what has been overtaken. -/
theorem Trace.not_keeps (h : Trace s r)
    (hover : r.status ≠ some .assigned ∨ s.session.Overtaken r) {later : b.Session}
    (hlater : s.session.Later later) {id : RecordId}
    (hmost : writesIn id later.history < UInt64.size) : ¬ Keeps s.own later id := by
  rw [h.keeps_iff hlater hmost]
  rintro ⟨hassigned, rfl, hstored⟩
  exact hover.elim (fun hnot => hnot hassigned) fun hovertaken =>
    (hovertaken.later hlater).stored_ne (h.reached.later hlater) hmost hstored

end Shift

end LeasedWork
