import LeasedWork.Proofs.Fleet.Sites
import LeasedWork.Proofs.Partition.Notes

/-! # Work goes on where it was left

Whoever takes up a partition relies on finding the progress that was last stored with it: not one
that somebody has changed in memory since, nor one whose write was lost.  A `Relay` is a site at
which nodes create partitions of the built-in kinds, get them in all the ways that there are, change
their progress in memory and make transitions.  Beside the site it is noted, for nobody to see, with
which progress in memory a creation or a transition has succeeded (`Relay.notes`).  Whatever a node
then gets has the progress noted last, and getting it has changed none (`Relay.handed_over`).

On the way the progress is written as text, the record with this text in it as well, on a store of
objects, and both are read back (`Note.Describes.of_ofRecord`, `Backend.kept`).  What is proved here
of a run is that the stored text is always that of the last note (`Relay.Sound`).
-/
namespace LeasedWork

/-! ## Partitions of the built-in kinds -/

/-- How a node gets partitions of the built-in kinds. -/
inductive Fetch
  | claim (k : BuiltIn) (lease : Option Span)
  | claimAny (tag : String) (lease : Option Span)
  | shared (key : String)
  | sharedAny (key : String)
  | completedSince (tag : String) (since : Instant)
  | all (tag : String)

/-- The partition with another progress in memory. -/
def AnyPartition.revise
    (change : (k : BuiltIn) → Option k.kind.Progress → Option k.kind.Progress)
    (p : AnyPartition) : AnyPartition :=
  ⟨p.builtIn, { p.partition with progress := change p.builtIn p.partition.progress }⟩

/-- A partition that is made by its record's tag is made by a built-in kind. -/
theorem AnyPartition.exists_of_ofRecord {r : Record} {p : AnyPartition}
    (h : AnyPartition.ofRecord r = .ok p) :
    ∃ (k : BuiltIn) (q : Partition k.kind), Partition.ofRecord k.kind r = .ok q ∧ p = ⟨k, q⟩ := by
  unfold AnyPartition.ofRecord at h
  split at h
  · obtain ⟨q, hq, rfl⟩ := Fleet.exists_of_map h
    exact ⟨_, q, hq, rfl⟩
  · cases h

/-- And if none can be made of it for its text, that is for the built-in kind to say, too. -/
theorem AnyPartition.unreadable_of_ofRecord {r : Record}
    (h : AnyPartition.ofRecord r = .error .unreadable) :
    ∃ k : BuiltIn, Partition.ofRecord k.kind r = .error .unreadable := by
  unfold AnyPartition.ofRecord at h
  split at h
  · exact ⟨_, Fleet.error_of_map h⟩
  · cases h

namespace Fetch

variable {H : Type} {f : Fetch} {hold : AnyPartition → H} {r : Record}

/-- What a node does for it, and has in hand then of each partition. -/
def errand (hold : AnyPartition → H) : Fetch → Errand H
  | .claim k lease => .claim k.kind lease fun p => hold ⟨k, p⟩
  | .claimAny tag lease => .claimAny AnyPartition.ofRecord tag lease hold
  | .shared key => .shared (Partition.ofRecord sharedKind) key fun p => hold ⟨.shared, p⟩
  | .sharedAny key => .shared AnyPartition.ofRecord key hold
  | .completedSince tag since => .completedSince AnyPartition.ofRecord tag since hold
  | .all tag => .all AnyPartition.ofRecord tag hold

/-- What is had in hand of a record is a partition that a built-in kind has made. -/
theorem exists_of_make {y : H} (h : (f.errand hold).make r = .ok y) :
    ∃ (k : BuiltIn) (q : Partition k.kind),
      Partition.ofRecord k.kind r = .ok q ∧ y = hold ⟨k, q⟩ := by
  have hany (h : (AnyPartition.ofRecord r).map hold = .ok y) : ∃ (k : BuiltIn)
      (q : Partition k.kind), Partition.ofRecord k.kind r = .ok q ∧ y = hold ⟨k, q⟩ := by
    obtain ⟨p, hp, rfl⟩ := Fleet.exists_of_map h
    obtain ⟨k, q, hq, rfl⟩ := AnyPartition.exists_of_ofRecord hp
    exact ⟨k, q, hq, rfl⟩
  cases f with
  | claim k lease =>
    obtain ⟨q, hq, rfl⟩ := Fleet.exists_of_map h
    exact ⟨k, q, hq, rfl⟩
  | shared key =>
    obtain ⟨q, hq, rfl⟩ := Fleet.exists_of_map h
    exact ⟨.shared, q, hq, rfl⟩
  | claimAny | sharedAny | completedSince | all => exact hany h

/-- If nothing is made of a record for its text, it is a built-in kind that cannot read it. -/
theorem unreadable_of_make (h : (f.errand hold).make r = .error .unreadable) :
    ∃ k : BuiltIn, Partition.ofRecord k.kind r = .error .unreadable := by
  cases f with
  | claim k lease => exact ⟨k, Fleet.error_of_map h⟩
  | shared key => exact ⟨.shared, Fleet.error_of_map h⟩
  | claimAny | sharedAny | completedSince | all =>
    exact AnyPartition.unreadable_of_ofRecord (Fleet.error_of_map h)

end Fetch

/-! ## Moves -/

/-- Nodes at work on one store, and what has been noted beside them. -/
structure Relay (b : Backend) where
  site : Site b AnyPartition
  /-- With what in memory each write that set a progress has succeeded, the last one first. -/
  notes : List (RecordId × Note)

namespace Relay

open Backend.Session

variable {b : Backend}

/-- What may happen. Any request may fail, without having had an effect. -/
inductive Move
  | create (n : Node) (p : AnyPartition) (fault : Option Failure)
  | fetch (n : Node) (f : Fetch) (fault : Option Failure)
  /-- A partition in hand is saved, completed, closed or given up. -/
  | transition (i : Nat) (t : Transition) (fault : Option Failure)
  /-- The progress of a partition in hand is changed. -/
  | revise (i : Nat) (change : (k : BuiltIn) → Option k.kind.Progress → Option k.kind.Progress)
  | copy (i : Nat)
  | setClock (t : Instant)

/-- What is done. -/
def Move.deed : Move → Site.Deed AnyPartition
  | .create n p fault => .ask (n.create p.partition) (fault.map .early)
  | .fetch n f fault => .fetch n (f.errand id) (fault.map .early)
  | .transition i t fault => .transition i t (fault.map .early)
  | .revise i change => .revise i (·.revise change)
  | .copy i => .copy i
  | .setClock t => .setClock t

/-- What is noted of a move: the progress that it has set, and of which identity. -/
def noted? (w : Relay b) : Move → Option (RecordId × Note)
  | .create n p fault => do
    guard ((w.site.perform (fault.map .early) (n.create p.partition)).1 = .ok true)
    return (⟨n.source, Held.tag p, Held.key p⟩, p.note)
  | .transition i t fault => do
    let p ← w.site.hands[i]?
    guard (w.site.move (fault.map .early) p t).1.isOk
    let r ← Held.record p
    return (r.id, p.note)
  | .fetch _ _ _ | .revise _ _ | .copy _ | .setClock _ => none

/-- The relay after a move. -/
def step (w : Relay b) (m : Move) : Relay b where
  site := w.site.step m.deed
  notes := (w.noted? m).toList ++ w.notes

/-- The relay after some moves, from an empty store at a time. -/
def run (b : Backend) (start : Instant) (moves : List Move) : Relay b :=
  moves.foldl step ⟨.starting b AnyPartition start, []⟩

/-- The partitions that a node gets. -/
def fetch (w : Relay b) (fault : Option Failure) (n : Node) (f : Fetch) :
    Except Failure (List AnyPartition) × b.Session :=
  w.site.fetch (fault.map .early) n (f.errand id)

/-- Whether only progress that is read back comes about. That matters for shared state, which must
not be nested too deep, and for the time of an export, of which a leap second must end a minute. -/
def Move.Storable : Move → Prop
  | .create _ p _ => p.note.Storable
  | .revise _ change => ∀ k x, Note.Storable ⟨k, x⟩ → Note.Storable ⟨k, change k x⟩
  | .fetch _ _ _ | .transition _ _ _ | .copy _ | .setClock _ => True

/-! ## The invariant -/

/-- Every stored record has the progress that was noted last. -/
def Noted (notes : List (RecordId × Note)) (s : b.Session) : Prop :=
  ∀ id r, s.stored id = some r → ∃ x, notes.lookup id = some x ∧ x.Describes r

/-- A partition can be written: what it has in memory is read back, its record is of its kind. -/
structure Writable (p : AnyPartition) : Prop where
  storable : p.note.Storable
  kind : ∀ r, Held.record p = some r → r.kind = Held.tag p

/-- **The invariant.** -/
structure Sound (w : Relay b) : Prop where
  reached : w.site.session.Reached
  noted : Noted w.notes w.site.session
  hands : ∀ p ∈ w.site.hands, Writable p

variable {w : Relay b} {s s' : b.Session} {notes : List (RecordId × Note)} {r : Record} {x : Note}
  {m : Move}

theorem Noted.same (h : Noted notes s) (hsame : Same s s') : Noted notes s' :=
  fun id r hr => h id r ((hsame id).symm.trans hr)

/-- A record is written with a note. -/
theorem Noted.wrote (h : Noted notes s) (hwrote : Wrote s s' r) (hx : x.Describes r) :
    Noted ((r.id, x) :: notes) s' := by
  intro id u hu
  rw [List.lookup_cons]
  by_cases hid : id = r.id
  · obtain rfl := Option.some.inj ((hid ▸ hwrote.self).symm.trans hu)
    exact ⟨x, by rw [hid, beq_self_eq_true], hx.congr (b.kind_kept r) (b.progress_kept r)⟩
  · rw [beq_eq_false_iff_ne.mpr hid]
    exact h id u ((hwrote.other hid).symm.trans hu)

/-- A claim leaves the progress alone. -/
theorem Noted.claimed (h : Noted notes s) (hr : s.stored r.id = some r) {owner : String}
    {now : Instant} {lease : Span} (hwrote : Wrote s s' (r.claimed owner now lease)) :
    Noted notes s' := by
  intro id u hu
  by_cases hid : id = r.id
  · obtain rfl := Option.some.inj ((hid ▸ hwrote.self).symm.trans hu)
    obtain ⟨x, hx, hdescribes⟩ := h id r (hid ▸ hr)
    exact ⟨x, hx, hdescribes.congr (b.kind_kept _) (b.progress_kept _)⟩
  · exact h id u ((hwrote.other hid).symm.trans hu)

/-! ## Moves -/

/-- A creation asks for a new record with the partition's progress. -/
theorem perform_create (w : Relay b) (n : Node) (p : AnyPartition) (mishap : Option Mishap) :
    w.site.perform mishap (n.create p.partition) = w.site.session.answer w.site.now mishap
      (.create (n.newRecord (Held.tag p) (Held.key p) (Held.leased p) p.note.text w.site.now)) :=
  rfl

theorem notes_step (w : Relay b) (m : Move) : (w.step m).notes = (w.noted? m).toList ++ w.notes :=
  rfl

/-- A creation keeps what is noted, whatever comes of it. -/
theorem Sound.noted_create (hw : Sound w) (n : Node) {p : AnyPartition} (hp : p.note.Storable)
    (fault : Option Failure) : Noted (w.step (.create n p fault)).notes
      (w.step (.create n p fault)).site.session := by
  have hsession : (w.step (.create n p fault)).site.session =
    (w.site.perform (fault.map .early) (n.create p.partition)).2 := rfl
  rw [notes_step, hsession, noted?, perform_create]
  generalize hr : n.newRecord (Held.tag p) (Held.key p) (Held.leased p) p.note.text w.site.now = r
  have hid : r.id = ⟨n.source, Held.tag p, Held.key p⟩ := hr ▸ n.id_newRecord _ _ _ _ _
  have hprogress : r.progress = p.note.text := hr ▸ n.progress_newRecord _ _ _ _ _
  rcases create_early hw.reached w.site.now fault r with ⟨hnot, hsame⟩ | ⟨hnew, -, hwrote⟩
  · rw [guard, if_neg hnot]
    exact hw.noted.same hsame
  · rw [guard, if_pos hnew, ← hid]
    exact hw.noted.wrote (r := r.firstVersion) hwrote ⟨congrArg RecordId.kind hid, hprogress, hp⟩

/-- A transition keeps what is noted, whatever comes of it. -/
theorem Sound.noted_transition (hw : Sound w) (i : Nat) (t : Transition) (fault : Option Failure) :
    Noted (w.step (.transition i t fault)).notes (w.step (.transition i t fault)).site.session := by
  rw [notes_step, noted?]
  cases hi : w.site.hands[i]? with
  | none =>
    have hsite : (w.step (.transition i t fault)).site = w.site := Site.step_transition_of_none hi
    rw [hsite]
    exact hw.noted
  | some p =>
    have hp := hw.hands p (List.mem_of_getElem? hi)
    have hsession : (w.step (.transition i t fault)).site.session =
        (w.site.move (fault.map .early) p t).2 := Site.session_step_transition hi
    rw [hsession, Option.bind_eq_bind, Option.bind_some]
    rcases Site.move_early hw.reached fault p t with
      ⟨⟨e, herror⟩, hsame⟩ | ⟨r, u, hr, ⟨hid, -, hprogress⟩, hdone, -, hwrote⟩
    · rw [herror]
      exact hw.noted.same hsame
    · have hrecord : Held.record p = some r := hr
      rw [hdone, hrecord]
      have hkind : u.kind = Held.tag p := (congrArg RecordId.kind hid).trans (hp.kind r hr)
      -- The written record is of the identity of the one in hand, and so the note is.
      change Noted ((r.id, p.note) :: w.notes) _
      rw [← hid]
      exact hw.noted.wrote (r := u.nextVersion) hwrote ⟨hkind, hprogress, hp.storable⟩

/-- Getting partitions keeps what is noted. -/
theorem Sound.noted_fetch (hw : Sound w) (fault : Option Failure) (n : Node) (f : Fetch) :
    Noted w.notes (w.fetch fault n f).2 := by
  rcases stored_fetch hw.reached w.site.now (fault.map .early) n (f.errand id) with
    hsame | ⟨r, owner, lease, hr, hwrote⟩
  · exact hw.noted.same hsame
  · exact hw.noted.claimed hr hwrote

/-- **What a node gets** can be written, and has the progress that was noted last. -/
theorem Sound.given_fetch (hw : Sound w) {fault : Option Failure} {n : Node} {f : Fetch}
    {ps : List AnyPartition} (h : (w.fetch fault n f).1 = .ok ps) : ∀ p ∈ ps, Writable p ∧
      ∃ r, Held.record p = some r ∧ w.notes.lookup r.id = some p.note := by
  intro p hp
  obtain ⟨r, hmake, hr⟩ := stored_of_fetch hw.reached (Prod.ext h rfl) p hp
  obtain ⟨x, hx, hdescribes⟩ := hw.noted_fetch fault n f _ _ hr
  have hdescribes : x.Describes r :=
    hdescribes.congr (b.kind_kept r).symm (b.progress_kept r).symm
  obtain ⟨k, q, hq, rfl⟩ := Fetch.exists_of_make hmake
  have hrecord : Held.record (AnyPartition.mk k q) = some r := Factory.record_ofRecord hq
  have hnote : (AnyPartition.mk k q).note = x := hdescribes.of_ofRecord hq
  refine ⟨⟨hnote ▸ hdescribes.storable, fun r' hr' => ?_⟩, r, hrecord, hnote ▸ hx⟩
  obtain rfl := Option.some.inj (hrecord.symm.trans hr')
  exact Factory.kind_of_ofRecord hq

/-- A node does not fail to get a partition because its progress cannot be read. -/
theorem Sound.unreadable_fetch (hw : Sound w) {fault : Option Failure} {n : Node} {f : Fetch}
    (h : (w.fetch fault n f).1 = .error .unreadable) : fault = some .unreadable := by
  rcases error_of_fetch hw.reached (Prod.ext h rfl) with
    hrefused | ⟨mishap, hmishap, hfailure⟩ | ⟨-, -, -, -, r, -, hmake, hr⟩
  · obtain ⟨tag, htag⟩ := Errand.error_request hrefused
    cases htag
  · obtain ⟨e, rfl, rfl⟩ := Option.map_eq_some_iff.mp hmishap
    exact congrArg some hfailure.symm
  · -- The record has a noted text, and that is read back.
    obtain ⟨x, -, hdescribes⟩ := hw.noted_fetch fault n f _ _ hr
    obtain ⟨k, hk⟩ := Fetch.unreadable_of_make hmake
    exact absurd hk
      (hdescribes.congr (b.kind_kept r).symm (b.progress_kept r).symm).ne_unreadable

/-- A partition after a transition can be written as before. -/
theorem Writable.move (hw : Sound w) {p p' : AnyPartition} (hp : Writable p) {t : Transition}
    {mishap : Option Mishap} {s : b.Session} (h : w.site.move mishap p t = (.ok p', s)) :
    Writable p' := by
  obtain ⟨r, hr, rfl, -, -⟩ := Site.exists_of_move hw.reached h
  refine ⟨hp.storable, fun u hu => ?_⟩
  obtain rfl : (Grip.hand p).moved t w.site.now r = u := Option.some.inj hu
  exact (congrArg RecordId.kind ((Grip.hand p).id_moved t w.site.now r)).trans (hp.kind r hr)

theorem Writable.revise {p : AnyPartition} (hp : Writable p)
    {change : (k : BuiltIn) → Option k.kind.Progress → Option k.kind.Progress}
    (hchange : ∀ k x, Note.Storable ⟨k, x⟩ → Note.Storable ⟨k, change k x⟩) :
    Writable (p.revise change) :=
  ⟨hchange p.builtIn p.partition.progress hp.storable, hp.kind⟩

/-- All that is in hand can be written. -/
theorem Sound.hands_step (hw : Sound w) (hm : m.Storable) :
    ∀ p ∈ (w.step m).site.hands, Writable p := by
  intro p hp
  rcases Site.mem_hands_step hp with hp | ⟨n, x, mishap, ps, hdeed, hget, hrun⟩ |
    ⟨i, t, mishap, q, hdeed, hq, hrun⟩ | hdeed | ⟨i, change, q, hdeed, hq, rfl⟩
  · exact hw.hands p hp
  · cases m with
    | fetch n f fault =>
      cases hdeed
      have hps : (w.fetch fault n f).1 = .ok ps := congrArg Prod.fst hrun
      exact (hw.given_fetch hps p hget).1
    | _ => cases hdeed
  · exact (hw.hands q (List.mem_of_getElem? hq)).move hw hrun
  · cases m <;> cases hdeed
  · cases m with
    | revise i change =>
      cases hdeed
      exact (hw.hands q hq).revise hm
    | _ => cases hdeed

/-- **One move** keeps the invariant. -/
theorem Sound.step (hw : Sound w) (hm : m.Storable) : Sound (w.step m) where
  reached := hw.reached.later (w.site.later_step m.deed)
  noted := by
    cases m with
    | create n p fault => exact hw.noted_create n hm fault
    | fetch n f fault =>
      have hsession : (w.step (.fetch n f fault)).site.session = (w.fetch fault n f).2 :=
        Site.session_step_fetch
      exact hsession ▸ hw.noted_fetch fault n f
    | transition i t fault => exact hw.noted_transition i t fault
    | revise | copy | setClock => exact hw.noted
  hands := hw.hands_step hm

/-- **The invariant holds throughout a run.** -/
theorem sound_run (b : Backend) (start : Instant) {moves : List Move}
    (h : ∀ m ∈ moves, m.Storable) : Sound (run b start moves) := by
  induction moves using List.reverseRecOn with
  | nil =>
    refine ⟨reached_empty b, fun id r hr => ?_, fun p hp => absurd hp List.not_mem_nil⟩
    cases (stored_empty b id).symm.trans hr
  | append_singleton moves m ih =>
    obtain ⟨hmoves, hm⟩ := List.forall_mem_append.mp h
    rw [run, List.foldl_append]
    exact (ih hmoves).step (hm m List.mem_cons_self)

/-! ## What is handed over -/

theorem run_concat (b : Backend) (start : Instant) (moves : List Move) (m : Move) :
    run b start (moves ++ [m]) = (run b start moves).step m := by
  rw [run, List.foldl_append]
  rfl

/-- **Work goes on where it was left.**  Nodes create partitions of every built-in kind, get them,
change their progress and make transitions, in any order and on either backend, while any request
may fail.  As long as only progress comes about that is read back, which excludes shared state that
is nested deeper than a reader goes, and an export's time in a leap second that does not end a
minute,

* a partition that a node gets has the progress in memory with which the last write of its identity
  has succeeded, be that a creation or a transition;
* a node never fails to get one because its progress cannot be read;
* getting partitions changes no stored progress;
* the stored progress is always the text of that last one. -/
theorem handed_over (b : Backend) (start : Instant) (moves : List Move)
    (h : ∀ m ∈ moves, m.Storable) :
    (∀ fault n f ps, ((run b start moves).fetch fault n f).1 = .ok ps → ∀ p ∈ ps,
      ∃ r, Held.record p = some r ∧ r.kind = Held.tag p ∧
        (run b start moves).notes.lookup r.id = some p.note) ∧
    (∀ fault n f, ((run b start moves).fetch fault n f).1 = .error .unreadable →
      fault = some .unreadable) ∧
    (∀ n f fault id,
      ((run b start (moves ++ [.fetch n f fault])).site.stored id).map Record.progress =
        ((run b start moves).site.stored id).map Record.progress) ∧
    ∀ id r, (run b start moves).site.stored id = some r →
      ∃ x, (run b start moves).notes.lookup id = some x ∧ r.progress = x.text := by
  have hw := sound_run b start h
  refine ⟨fun fault n f ps hps p hp => ?_, fun fault n f => hw.unreadable_fetch,
    fun n f fault id => ?_, fun id r hr => ?_⟩
  · obtain ⟨hwritable, r, hr, hnote⟩ := hw.given_fetch hps p hp
    exact ⟨r, hr, hwritable.kind r hr, hnote⟩
  · have hsession : (run b start (moves ++ [.fetch n f fault])).site.session =
        ((run b start moves).fetch fault n f).2 := by
      rw [run_concat]
      exact Site.session_step_fetch
    rw [Site.stored, hsession]
    exact progress_fetch hw.reached _ _ n _ id
  · obtain ⟨x, hx, hdescribes⟩ := hw.noted id r hr
    exact ⟨x, hx, hdescribes.progress⟩

/-- A stream with a token, as a node has it in memory. -/
def tokenAs (token : String) (k : BuiltIn) (old : Option k.kind.Progress) :
    Option k.kind.Progress :=
  match k, old with
  | .stream, some x => some { x with resumeToken := some token }
  | _, old => old

/-- A stream is claimed and a copy of it kept. One is given up at token `a`, at the second attempt;
the other then cannot be saved at token `b`. -/
def takenOver : List Move :=
  [.create ⟨"db", "node-a", .seconds 60⟩
      ⟨.stream, newStream "c" ⟨-1, none, none, true⟩⟩ none,
    .fetch ⟨"db", "node-a", .seconds 60⟩ (.claim .stream none) none,
    .copy 0,
    .revise 0 (tokenAs "a"),
    .transition 0 .giveUp (some .unreadable),
    .transition 0 .giveUp none,
    .revise 1 (tokenAs "b"),
    .transition 1 (.save (.seconds 60)) none]

theorem storable_takenOver : ∀ m ∈ takenOver, m.Storable := by
  have htoken : ∀ token k x, Note.Storable ⟨k, x⟩ → Note.Storable ⟨k, tokenAs token k x⟩ := by
    intro token k x hx
    cases k with
    | shared | snapshot => exact hx
    | leader | stream | query => trivial
  simp only [takenOver, List.forall_mem_cons]
  exact ⟨trivial, trivial, trivial, htoken "a", trivial, trivial, htoken "b", trivial,
    fun _ h => absurd h List.not_mem_nil⟩

/-- Whoever takes the stream over goes on at token `a`. -/
theorem handed_over_takenOver : ∃ p : AnyPartition,
    ((run .table .epoch takenOver).fetch none ⟨"db", "node-b", .seconds 60⟩
      (.claimAny "STREAM" none)).1 = .ok [p] ∧
    p.note.text = some "\x7b\"startTime\":-1,\"resumeToken\":\"a\",\"waitForExport\":true\x7d" := by
  let w := run .table .epoch takenOver
  let second : Node := ⟨"db", "node-b", .seconds 60⟩
  obtain ⟨hgiven, -⟩ := handed_over .table .epoch takenOver storable_takenOver
  have hids : (w.fetch none second (.claimAny "STREAM" none)).1.toOption.map
      (List.map fun p => (Held.record p).map Record.id) = some [some ⟨"db", "STREAM", "c"⟩] := by
    decide +kernel
  have hlast : (w.notes.lookup ⟨"db", "STREAM", "c"⟩).map Note.text =
      some (some "\x7b\"startTime\":-1,\"resumeToken\":\"a\",\"waitForExport\":true\x7d") := by
    decide +kernel
  cases hfetch : (w.fetch none second (.claimAny "STREAM" none)).1 with
  | error e =>
    rw [hfetch] at hids
    cases hids
  | ok ps =>
    rw [hfetch] at hids
    obtain ⟨p, rest, rfl, hid, hrest⟩ := List.map_eq_cons_iff.mp (Option.some.inj hids)
    obtain rfl := List.map_eq_nil_iff.mp hrest
    obtain ⟨r, hr, -, hnote⟩ := hgiven none second _ [p] hfetch p List.mem_cons_self
    rw [hr, Option.map_some, Option.some.injEq] at hid
    rw [hid] at hnote
    rw [hnote] at hlast
    exact ⟨p, rfl, Option.some.inj hlast⟩

end Relay

end LeasedWork
