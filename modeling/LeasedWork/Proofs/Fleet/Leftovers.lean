import LeasedWork.Fleet.LoadStatus
import LeasedWork.Fleet.Work
import LeasedWork.Proofs.Fleet.Shifts
import LeasedWork.Proofs.Fleet.Surroundings
import LeasedWork.Proofs.Store.Draining

/-! # What a pass leaves behind

A worker means to hold nothing between its passes.  A pass that has claimed a record gives it back
in one of three ways: it carries out what its processor says, it gives the partition up after a
failure, or it finds that others have taken the record over.

Two ways out are missed.  If no partition can be made of the claimed record, the pass ends before
there is anything to give up.  And a pass takes every lost write that its processor reports for a
takeover of the partition, although the write may have been one of shared state.  What a pass leaves
behind is what these two leave (`Work.leftover`), and nothing else (`Work.left_behind`).
-/
namespace LeasedWork

/-! ## Processors that stay with their partition -/

namespace Surroundings

/-- Whoever works on a claimed record claims no other one, and writes the record in its last version
only, with the same status.  What is known is the record as it was written last. -/
def tending : Surroundings where
  State := Record
  May r
    | .claim _ _ _ _ => False
    | .update u => u.id = r.id → u.version = r.version ∧ u.status = r.status
    | .prepare | .get _ | .create _ | .byStatus _ _ _ _ | .all _ _ => True
  Tells r
    | .update u, answer, r' =>
      if u.id = r.id then
        (answer = .ok u.nextVersion ∧ r' = u.nextVersion) ∨ (∃ e, answer = .error e) ∧ r' = r
      else r' = r
    | .claim _ _ _ _, _, r' | .prepare, _, r' | .get _, _, r' | .create _, _, r'
    | .byStatus _ _ _ _, _, r' | .all _ _, _, r' => r' = r

variable {E : Interface} {r : Record}

/-- A save writes the record that is in hand. -/
theorem tending_save {k : PartitionKind} {p : Partition k} (hp : p.record = some r) (n : Node)
    (extension : Option Span) :
    tending.Yields (E := E) (fun q r' => q.record = some r' ∧ r'.id = r.id) (fun _ r' => r' = r)
      (n.save p extension) r := by
  refine yields_transition hp (fun h => nomatch h) fun now => ?_
  have hid := Node.id_proposal p (.save (extension.getD n.lease)) now r
  have hversion := Node.version_proposal p (.save (extension.getD n.lease)) now r
  have hstatus := Hand.status_save ⟨.ofKind k, p⟩ (extension.getD n.lease) now r
  refine ⟨fun _ => ⟨hversion, hstatus⟩, fun written r' htold => ?_, fun failure r' htold => ?_⟩
  · rcases (if_pos hid).mp htold with ⟨hanswer, rfl⟩ | ⟨⟨e, hanswer⟩, -⟩
    · cases hanswer
      exact ⟨rfl, hid⟩
    · cases hanswer
  · rcases (if_pos hid).mp htold with ⟨hanswer, -⟩ | ⟨-, hsame⟩
    · cases hanswer
    · exact hsame

/-- A save of another record leaves this one as it was. -/
theorem tending_save_other {k : PartitionKind} {p : Partition k} {x : Record}
    (hp : p.record = some x) (hother : x.id ≠ r.id) (n : Node) (extension : Option Span) :
    tending.Yields (E := E) (fun _ r' => r' = r) (fun _ r' => r' = r) (n.save p extension) r := by
  refine yields_transition hp (fun h => nomatch h) fun now => ?_
  have hid : (Node.proposal p (.save (extension.getD n.lease)) now x).id ≠ r.id :=
    (Node.id_proposal p _ now x).symm ▸ hother
  exact ⟨fun heq => absurd heq hid, fun _ _ htold => (if_neg hid).mp htold,
    fun _ _ htold => (if_neg hid).mp htold⟩

/-- A look at shared state gives a partition of shared state. -/
theorem tending_shared (n : Node) (key : String) :
    tending.Yields (E := E)
      (fun found r' => r' = r ∧ ∀ p, found = some p → ∃ x, p.record = some x ∧
        x.kind = sharedKind.tag)
      (fun _ r' => r' = r) (n.shared? (Partition.ofRecord sharedKind) key) r := by
  refine yields_shared trivial (fun found r' htold => ?_) fun _ _ htold => htold
  refine yields_build (fun _ => ⟨htold, fun _ h => nomatch h⟩) ?_ fun _ _ _ _ => htold
  rintro x p - hp
  refine ⟨htold, fun q hq => ?_⟩
  obtain rfl := Option.some.inj hq
  exact ⟨x, Factory.record_ofRecord hp, Factory.kind_of_ofRecord hp⟩

/-- Whoever counts a loaded query does not touch a record that is leased. -/
theorem tending_recordLoaded (hkind : r.kind ≠ sharedKind.tag) (n : Node) (collection : String)
    (records : UInt64) :
    tending.Yields (E := E) (fun _ r' => r' = r) (fun _ r' => r' = r)
      (LoadStatus.recordLoaded n collection records) r := by
  have hattempt : tending.Yields (E := E) (fun _ r' => r' = r) (fun _ r' => r' = r)
      (LoadStatus.attempt n collection (LoadStatus.loaded records)) r := by
    refine (tending_shared n (LoadStatus.keyOf collection)).bind fun found r' hfound => ?_
    obtain ⟨rfl, hfound⟩ := hfound
    cases found with
    | none => exact yields_pure rfl
    | some p =>
      obtain ⟨x, hx, hshared⟩ := hfound p rfl
      have hother : x.id ≠ r'.id := fun hid =>
        hkind ((congrArg RecordId.kind hid).symm.trans hshared)
      refine yields_ofExcept (fun status _ => yields_now fun time _ => ?_) fun _ _ => rfl
      have hsave := tending_save_other (E := E)
        (p := p.setProgress ((LoadStatus.loaded records status).stamped time).toMembers) hx hother n
        none
      exact hsave.bind fun _ _ hsame => yields_pure hsame
  refine yields_persist (motive := fun r' => r' = r) (fun r' hsame => ?_) rfl
  subst hsame
  exact hattempt.imp (fun _ _ h => h) fun _ _ h => ⟨h, fun _ => h⟩

end Surroundings

/-! ## The processor's part -/

namespace Shift

variable {b : Backend} {E : Interface} {α : Type} (course : Nat → Meanwhile E) {s : Shift b}
  {r : Record}

/-- Whoever tends a record has a trace of it, and it stays assigned. -/
theorem Trace.run_tending (h : Trace s r) {post : α → Record → Prop}
    {p : Program (Node.interface E) α} (hp : Surroundings.tending.Ensures post p r) :
    ∃ r', Trace (p.run (handler course) s).2 r' ∧ r'.status = r.status ∧ r'.kind = r.kind ∧
      post (p.run (handler course) s).1 r' := by
  -- The invariant that goes along with the run: a trace, of a record that is assigned if the first
  -- one was.
  let along (s : Shift b) (r' : Record) : Prop :=
    Trace s r' ∧ r'.status = r.status ∧ r'.kind = r.kind
  have hstore : ∀ request s g, along s g → Surroundings.tending.May g request → ∃ g',
      Surroundings.tending.Tells g request (s.request course request).1 g' ∧
        along (s.request course request).2 g' := by
    rintro request s g ⟨htrace, hstatus, hkind⟩ hmay
    cases request with
    | claim => cases hmay
    | update u =>
      by_cases hid : u.id = g.id
      · obtain ⟨hversion, hsame⟩ := hmay hid
        rcases htrace.update course hid hversion with ⟨hanswer, htrace'⟩ | ⟨hfailed, htrace', -⟩
        · refine ⟨_, (if_pos hid).mpr (.inl ⟨hanswer, rfl⟩), htrace', hsame.trans hstatus, ?_⟩
          exact (congrArg RecordId.kind hid).trans hkind
        · exact ⟨g, (if_pos hid).mpr (.inr ⟨hfailed, rfl⟩), htrace', hstatus, hkind⟩
      · exact ⟨g, (if_neg hid).mpr rfl, htrace.keepsOff course hid, hstatus, hkind⟩
    | _ => exact ⟨g, rfl, htrace.keepsOff course trivial, hstatus, hkind⟩
  have hrest : ∀ question s g, (∀ request, question ≠ .store request) → along s g →
      along ((handler course).answer question s).2 g := by
    rintro question s g hquestion ⟨htrace, hkept⟩
    cases question with
    | store request => exact absurd rfl (hquestion request)
    | _ => exact ⟨htrace.wait course, hkept⟩
  obtain ⟨r', ⟨htrace, hstatus, hkind⟩, hpost⟩ :=
    hp.run_along (handler course) along hstore hrest (fun _ => trivial) ⟨h, rfl, rfl⟩
  exact ⟨r', htrace, hstatus, hkind, hpost⟩

/-- Whoever gives a record back does not keep it: it is no longer assigned, or has been
overtaken. -/
theorem Trace.run_release (h : Trace s r) {k : PartitionKind} {p : Partition k}
    (hp : p.record = some r) (hleased : k.leased = true) {move : Transition}
    (hmove : move.isSave = false) :
    ∃ r', Trace (Program.run (handler course) (Node.transition p move).run s).2 r' ∧
      (r'.status ≠ some .assigned ∨
        (Program.run (handler course) (Node.transition p move).run s).2.session.Overtaken r') := by
  have hmay : (move.needsLease && !k.leased) = false := by
    rw [hleased, Bool.not_true, Bool.and_false]
  rcases h.transition course hp hmay with ⟨now, -, htrace⟩ | ⟨-, htrace, hovertaken⟩
  · refine ⟨_, htrace, .inl ?_⟩
    let x : Hand := ⟨.ofKind k, p⟩
    change (x.moved move now r).status ≠ _
    cases move with
    | save => cases hmove
    | complete => rw [Hand.status_complete]; decide
    | giveUp => rw [Hand.status_giveUp]; decide
    | close reopenAfter limit =>
      rw [Hand.status_close]
      split <;> decide
  · exact ⟨r, htrace, .inr hovertaken⟩

end Shift

/-! ## Passes -/

namespace Work

open Shift

variable {E : Interface} {k : PartitionKind} {σ : Type}

/-- A processor tends the record of its partition, and leaves the partition with that record. -/
def Tends (process : Processor E k σ) : Prop :=
  ∀ p r state, p.record = some r → r.kind = k.tag →
    Surroundings.tending.Ensures (fun done r' => done.partition.record = some r')
      (process p state) r

/-- The record that a pass leaves alone when its processor is done: that has reported a lost
write. -/
def forsaken (done : Processed k σ) : Option Record :=
  match done.verdict with
  | .ok _ => none
  | .error failure => if failure.isLostWrite then done.partition.record else none

/-- The record that a pass does not give back: there is no partition to be made of it, or it is left
alone after a lost write. -/
def leftover {τ : Type} (h : Handler (Node.interface E) τ) (n : Node) (settings : WorkerSettings)
    (process : Processor E k σ) (state : σ) (s : τ) : Option Record :=
  match Program.run h (n.claimRecord k.tag settings.leaseDuration).run s with
  | (.ok (some r), s) =>
    match Partition.ofRecord k r with
    | .error _ => some r
    | .ok p => forsaken (Program.run h (process p state) s).1
  | (.ok none, _) | (.error _, _) => none

/-- A claim of a leased kind gives a partition of the claimed record. -/
theorem run_claim {τ : Type} (h : Handler (Node.interface E) τ) (hleased : k.leased = true)
    (n : Node) (lease : Option Span) (s : τ) :
    Program.run h (n.claim k lease).run s =
      match Program.run h (n.claimRecord k.tag lease).run s with
      | (.ok found, s) =>
        Program.run h (Node.build? (E := E) (Partition.ofRecord k) found).run s
      | (.error e, s) => (.error e, s) := by
  have hneeds : ¬ (!k.leased) = true := by
    rw [hleased]
    exact Bool.false_ne_true
  simp only [Node.claim]
  rw [if_neg hneeds]
  refine (Program.run_exceptT_bind h (n.claimRecord k.tag lease)
    (Node.build? (Partition.ofRecord k)) s).trans ?_
  rcases Program.run h (n.claimRecord k.tag lease).run s with ⟨e | _, s'⟩ <;> rfl

/-- **A pass** claims a record, makes a partition of it, has it processed and ends accordingly. -/
theorem run_pass {τ : Type} (h : Handler (Node.interface E) τ) (hleased : k.leased = true)
    (n : Node) (settings : WorkerSettings) (process : Processor E k σ) (state : σ) (s : τ) :
    Program.run h (pass n settings process state) s =
      match Program.run h (n.claimRecord k.tag settings.leaseDuration).run s with
      | (.error failure, s) => ((.error failure, state), s)
      | (.ok none, s) => ((.ok false, state), s)
      | (.ok (some r), s) =>
        match Partition.ofRecord k r with
        | .error failure => ((.error failure, state), s)
        | .ok p =>
          let done := Program.run h (process p state) s
          let ended := Program.run h (finish settings.maxClosedCount done.1).run done.2
          ((ended.1, done.1.state), ended.2) := by
  rw [pass, Program.run_bind, run_claim h hleased]
  rcases Program.run h (n.claimRecord k.tag settings.leaseDuration).run s with ⟨e | _ | r, s'⟩
  · rfl
  · rfl
  · dsimp only [Node.build?]
    cases Partition.ofRecord k r with
    | error failure => rfl
    | ok p =>
      let rest (done : Processed k σ) : Program (Node.interface E) (Except Failure Bool × σ) := do
        let result ← (finish settings.maxClosedCount done).run
        return (result, done.state)
      refine (Program.run_bind h (process p state) rest s').trans ?_
      exact Program.run_bind h (finish settings.maxClosedCount _).run _ _

/-- What a pass does with its partition at the end is one transition, and no save. -/
theorem exists_transition (limit : Option UInt64) (p : Partition k) (outcome : Outcome) :
    ∃ move : Transition, move.isSave = false ∧
      apply (E := E) limit p outcome = Node.transition p move := by
  cases outcome with
  | completed => exact ⟨.complete, rfl, rfl⟩
  | closed reopenAfter => exact ⟨.close reopenAfter limit, rfl, rfl⟩
  | released => exact ⟨.giveUp, rfl, rfl⟩

/-- After a lost write a pass does nothing more. -/
theorem finish_of_lost (limit : Option UInt64) {done : Processed k σ} {failure : Failure}
    (hverdict : done.verdict = .error failure) (hfailure : failure.isLostWrite = true) :
    finish (E := E) limit done = pure true := by
  simp only [finish, hverdict]
  rw [if_pos hfailure]

/-- **A pass gives its partition back**, whatever its processor has to say, unless that is that a
write was lost. -/
theorem run_finish {τ : Type} (h : Handler (Node.interface E) τ) (limit : Option UInt64)
    {done : Processed k σ}
    (hkept : ∀ failure, done.verdict = .error failure → failure.isLostWrite = false) (s : τ) :
    ∃ move : Transition, move.isSave = false ∧
      (Program.run h (finish limit done).run s).1 ≠ .ok false ∧
      (Program.run h (finish limit done).run s).2 =
        (Program.run h (Node.transition done.partition move).run s).2 := by
  unfold finish
  cases hverdict : done.verdict with
  | ok outcome =>
    obtain ⟨move, hmove, happly⟩ := exists_transition (E := E) limit done.partition outcome
    refine ⟨move, hmove, ?_⟩
    dsimp only
    rw [happly, Program.run_exceptT_bind h (Node.transition done.partition move)]
    rcases Program.run h (Node.transition done.partition move).run s with ⟨e | q, s'⟩
    · exact ⟨nofun, rfl⟩
    · exact ⟨nofun, rfl⟩
  | error failure =>
    refine ⟨.giveUp, rfl, ?_⟩
    dsimp only
    rw [if_neg (ne_true_of_eq_false (hkept failure hverdict))]
    have hrun := Program.run_bind h (Node.giveUp (E := E) done.partition).run
      (fun _ => return (.error failure : Except Failure Bool)) s
    exact ⟨fun heq => (by cases (congrArg Prod.fst hrun).symm.trans heq), congrArg Prod.snd hrun⟩

/-! ## What is left over -/

variable {b : Backend} (course : Nat → Meanwhile E) {s : Shift b}

/-- **A processed record** is given back, or has been taken over, or is left alone. -/
theorem finish_cases {r : Record} (h : Trace s r) (hstatus : r.status = some .assigned)
    (hleased : k.leased = true) {done : Processed k σ} (hr : done.partition.record = some r)
    (limit : Option UInt64) :
    let ended := Program.run (handler course) (finish limit done).run s
    ended.1 ≠ .ok false ∧ ∃ r', Trace ended.2 r' ∧
      (forsaken done = some r' ∧ r'.status = some .assigned ∨
        forsaken done = none ∧ (r'.status ≠ some .assigned ∨ ended.2.session.Overtaken r')) := by
  unfold forsaken
  by_cases hlost : ∃ failure, done.verdict = .error failure ∧ failure.isLostWrite = true
  · obtain ⟨failure, hverdict, hfailure⟩ := hlost
    rw [finish_of_lost limit hverdict hfailure, hverdict]
    dsimp only
    rw [if_pos hfailure]
    exact ⟨nofun, r, h, .inl ⟨hr, hstatus⟩⟩
  · have hkept : ∀ failure, done.verdict = .error failure → failure.isLostWrite = false :=
      fun failure hverdict =>
        eq_false_of_ne_true fun hfailure => hlost ⟨failure, hverdict, hfailure⟩
    obtain ⟨move, hmove, hresult, hstore⟩ := run_finish (handler course) limit hkept s
    obtain ⟨r', hr', hover⟩ := h.run_release course hr hleased hmove
    refine ⟨hresult, r', hstore ▸ hr', .inr ⟨?_, hover.imp_right fun h => hstore ▸ h⟩⟩
    cases hverdict : done.verdict with
    | ok outcome => rfl
    | error failure => exact if_neg (ne_true_of_eq_false (hkept failure hverdict))

/-- Nothing of a kind may be claimed. -/
def NothingFree (s : b.Session) (source kind : String) (now : Instant) : Prop :=
  ∀ r, s.stored r.id = some r → r.source = source → r.kind = kind → r.isAvailable now = false

/-- **A claim** gives the first record in line, and changes nothing when there is none. -/
theorem run_claimRecord (hs : s.session.Reached) (hown : s.own = []) (n : Node) (kind : String)
    (lease : Option Span) :
    let claim := Program.run (handler course) (n.claimRecord kind lease).run s
    let free := NothingFree (s.before course) n.source kind (course s.asked).now
    (free ∧ claim.1 = .ok none ∧ claim.2.session.state = (s.before course).state ∧
      ∀ x ∈ claim.2.own, x.claimedOf? = none) ∨
    ¬ free ∧ ∃ r, claim.1 = .ok (some r) ∧ Trace claim.2 r ∧ r.status = some .assigned ∧
      r.kind = kind := by
  intro claim free
  let now := (course s.asked).now
  let request : Request := .claim n.source kind n.owner (lease.getD n.lease)
  have hreached := hs.later (s.later_before course)
  obtain ⟨t, -, hholds, -⟩ := hreached.exists_chronicle ⟨n.source, kind, ""⟩
  -- There is something to claim exactly when there is a first one in line.
  cases hc : candidates now (t.ofKind n.source kind) with
  | nil =>
    have hserve := hholds.claim_of_nil hc n.owner (lease.getD n.lease)
    refine .inl ⟨fun r hr hsource hkind => ?_, ?_, ?_, ?_⟩
    · rw [Backend.Session.stored_eq hholds] at hr
      by_contra hfree
      have hmem : r ∈ candidates now (t.ofKind n.source kind) := mem_candidates.mpr
        ⟨Table.mem_ofKind.mpr ⟨(Table.find?_some hr).1, hsource, hkind⟩, eq_true_of_ne_false hfree⟩
      rw [hc] at hmem
      cases hmem
    · exact congrArg Prod.fst hserve
    · exact congrArg Prod.snd hserve
    · have hown' : claim.2.own = [⟨request, .ok none⟩] :=
        (congrArg₂ (fun own answer => own ++ [Exchange.mk request answer]) hown
          (congrArg Prod.fst hserve) : s.own ++ [_] = [] ++ [_])
      rw [hown']
      simp [request, Exchange.claimedOf?]
  | cons r rest =>
    obtain ⟨s', hserve, -⟩ := hholds.claim_of_cons hc n.owner (lease.getD n.lease)
    obtain ⟨hmem, hfree⟩ := mem_candidates.mp (hc ▸ List.mem_cons_self)
    obtain ⟨hstored, hsource, hkind⟩ := Table.mem_ofKind.mp hmem
    refine .inr ⟨fun hnone => ?_, r.claimed n.owner now (lease.getD n.lease),
      congrArg Prod.fst hserve, trace_of_claim course hs hown (congrArg Prod.fst hserve), rfl,
      hkind⟩
    have hfind : (s.before course).stored r.id = some r :=
      (Backend.Session.stored_eq hholds _).trans
        ((Table.find?_iff hholds.distinct).mpr ⟨hstored, rfl⟩)
    exact absurd hfree (ne_true_of_eq_false (hnone r hfind hsource hkind))

variable {process : Processor E k σ}

/-- **How a pass ends**: without a claim, with its record given back or taken over, or with its
record left over. -/
theorem pass_cases (hs : s.session.Reached) (hown : s.own = []) (hleased : k.leased = true)
    (hprocess : Tends process) (n : Node) (settings : WorkerSettings) (state : σ) :
    let ended := Program.run (handler course) (pass n settings process state) s
    let left := leftover (handler course) n settings process state s
    let free := NothingFree (s.before course) n.source k.tag (course s.asked).now
    (free ∧ ended.1 = (.ok false, state) ∧ ended.2.session.state = (s.before course).state ∧
      left = none ∧ ∀ x ∈ ended.2.own, x.claimedOf? = none) ∨
    ¬ free ∧ ended.1.1 ≠ .ok false ∧ ∃ r, Trace ended.2 r ∧
      (left = some r ∧ r.status = some .assigned ∨
        left = none ∧ (r.status ≠ some .assigned ∨ ended.2.session.Overtaken r)) := by
  have hclaim := run_claimRecord course hs hown n k.tag settings.leaseDuration
  unfold leftover
  rw [run_pass (handler course) hleased]
  generalize Program.run (handler course) (n.claimRecord k.tag settings.leaseDuration).run s = claim
    at hclaim ⊢
  obtain ⟨answer, s'⟩ := claim
  rcases hclaim with ⟨hfree, hanswer, hstate, hnone⟩ | ⟨hfree, r, hanswer, htrace, hstatus, hkind⟩
    <;> cases hanswer
  · exact .inl ⟨hfree, rfl, hstate, rfl, hnone⟩
  refine .inr ⟨hfree, ?_⟩
  dsimp only
  cases hp : Partition.ofRecord k r with
  | error failure => exact ⟨nofun, r, htrace, .inl ⟨rfl, hstatus⟩⟩
  | ok p =>
    obtain ⟨r', htrace', hstatus', -, hrecord⟩ :=
      htrace.run_tending course (hprocess p r state (Factory.record_ofRecord hp) hkind)
    exact finish_cases course htrace' (hstatus'.trans hstatus) hleased hrecord _

/-- **What a pass leaves behind.**  A pass works on a kind that is leased, with a processor that
tends its partition, while others use the same store.

* It says that there was no work exactly when nothing could be claimed, and then it has changed
  nothing.
* From its end on, and for as long as versions tell the records of an identity apart, a record is
  assigned under its claim exactly when it is the leftover and is stored still.
* No record is of which the pass has lost the last write. -/
theorem left_behind (hs : s.session.Reached) (hown : s.own = []) (hleased : k.leased = true)
    (hprocess : Tends process) (n : Node) (settings : WorkerSettings) (state : σ) :
    let ended := Program.run (handler course) (pass n settings process state) s
    let left := leftover (handler course) n settings process state s
    (ended.1.1 = .ok false ↔
      NothingFree (s.before course) n.source k.tag (course s.asked).now) ∧
    (ended.1.1 = .ok false →
      ended.1.2 = state ∧ ended.2.session.state = (s.before course).state) ∧
    ∀ later, ended.2.session.Later later → ∀ id, writesIn id later.history < UInt64.size →
      (Keeps ended.2.own later id ↔
        ∃ r, left = some r ∧ r.id = id ∧ later.stored id = some (b.kept r)) ∧
      (Exchange.lostLast ended.2.own id = true → ¬ Keeps ended.2.own later id) := by
  intro ended left
  rcases pass_cases course hs hown hleased hprocess n settings state with
    ⟨hfree, hresult, hstate, hleft, hnone⟩ | ⟨hfree, hresult, r, htrace, hends⟩
  · -- Without a claim there is nothing to keep.
    refine ⟨iff_of_true (congrArg Prod.fst hresult) hfree,
      fun _ => ⟨congrArg Prod.snd hresult, hstate⟩, fun later _ id _ => ?_⟩
    have hnever : ¬ Keeps ended.2.own later id := by
      rintro ⟨⟨x, hx, hclaimed⟩, -⟩
      exact absurd ((hnone x hx).symm.trans hclaimed) nofun
    refine ⟨iff_of_false hnever ?_, fun _ => hnever⟩
    rintro ⟨r, hr, -⟩
    exact absurd (hleft.symm.trans hr) nofun
  · refine ⟨iff_of_false hresult hfree, fun h => absurd h hresult, fun later hlater id hmost => ?_⟩
    constructor
    · rcases hends with ⟨hleft, hassigned⟩ | ⟨hleft, hover⟩
      · rw [htrace.keeps_iff hlater hmost]
        constructor
        · rintro ⟨-, hid, hstored⟩
          exact ⟨r, hleft, hid, hstored⟩
        · rintro ⟨q, hq, hid, hstored⟩
          obtain rfl := Option.some.inj (hleft.symm.trans hq)
          exact ⟨hassigned, hid, hstored⟩
      · refine iff_of_false (htrace.not_keeps hover hlater hmost) ?_
        rintro ⟨q, hq, -⟩
        exact absurd (hleft.symm.trans hq) nofun
    · -- What the pass keeps is its own record, and the trace knows of a lost write to that one.
      intro hlost hkeeps
      obtain ⟨-, rfl, -⟩ := (htrace.keeps_iff hlater hmost).mp hkeeps
      exact htrace.not_keeps (.inr (htrace.lost hlost)) hlater hmost hkeeps

/-! ### Two passes -/

/-- The node that works on the streams of a source. -/
def streamNode : Node := ⟨"db", "node-a", .seconds 60⟩

/-- Nobody else is at work, and the clock stands still. -/
def alone : Nat → Meanwhile Interface.none := fun _ => ⟨[], .epoch, fun q => q.elim⟩

/-- A stream that waits. -/
def waitingStream : Record := .unassigned ⟨"db", streamKind.tag, "a"⟩ none .epoch

/-- A stream to be worked on, and shared state beside it. -/
def oneStream : Shift .table where
  session := Backend.session .table
    [⟨.epoch, .create waitingStream⟩,
      ⟨.epoch, .create (.shared ⟨"db", sharedKind.tag, LoadStatus.keyOf "a"⟩ none .epoch)⟩]
  own := []
  asked := 0

/-- A processor that saves its partition, counts what it has loaded, and is done with it. -/
def diligent : Processor Interface.none streamKind Unit := fun p state => do
  match ← (streamNode.save p none : Node.Action Interface.none _).run with
  | .error failure => return ⟨.error failure, p, state⟩
  | .ok p =>
    match ← (LoadStatus.recordLoaded streamNode "a" 1 : Node.Action Interface.none Unit).run with
    | .error failure => return ⟨.error failure, p, state⟩
    | .ok _ => return ⟨.ok .completed, p, state⟩

theorem tends_diligent : Tends diligent := by
  intro p r state hp hkind
  have hsave := Surroundings.tending_save (E := Interface.none) hp streamNode none
  refine Surroundings.Ensures.bind hsave fun saved r' hsaved => ?_
  cases saved with
  | error failure =>
    obtain rfl : r' = r := hsaved
    exact hp
  | ok q =>
    obtain ⟨hq, hid⟩ := hsaved
    have hkind' : r'.kind ≠ sharedKind.tag :=
      ((congrArg RecordId.kind hid).trans hkind).trans_ne (by decide)
    have hcount := Surroundings.tending_recordLoaded (E := Interface.none) hkind' streamNode "a" 1
    refine Surroundings.Ensures.bind hcount fun counted r'' hcounted => ?_
    cases counted with
    | error failure =>
      obtain rfl : r'' = r' := hcounted
      exact hq
    | ok _ =>
      obtain rfl : r'' = r' := hcounted
      exact hq

/-- The diligent processor's stream is given back. -/
theorem left_behind_diligent :
    let ended := Program.run (handler alone) (pass streamNode .default diligent ()) oneStream
    oneStream.session.Reached ∧ Tends diligent ∧ ended.1.1 ≠ .ok false ∧
      ¬ Keeps ended.2.own ended.2.session waitingStream.id := by
  have hreached : oneStream.session.Reached := ⟨_, rfl⟩
  obtain ⟨hwork, -, hkeeps⟩ :=
    left_behind alone hreached rfl rfl tends_diligent streamNode .default ()
  have hleft : leftover (handler alone) streamNode .default diligent () oneStream = none := by
    decide +kernel
  have hmost : writesIn waitingStream.id (Program.run (handler alone)
      (pass streamNode .default diligent ()) oneStream).2.session.history < UInt64.size := by
    decide +kernel
  refine ⟨hreached, tends_diligent, fun hnone => ?_, fun hkept => ?_⟩
  · have hfree := hwork.mp hnone waitingStream.firstVersion (by decide +kernel) rfl rfl
    exact absurd hfree (by decide)
  · obtain ⟨r, hr, -⟩ := (hkeeps _ (.refl _) _ hmost).1.mp hkept
    exact absurd (hleft.symm.trans hr) nofun

/-- A processor that saves two copies of the same shared state, and fails when the second one is
lost. -/
def hasty : Processor Interface.none streamKind Unit := fun p state => do
  match ← (streamNode.shared? (Partition.ofRecord sharedKind) (LoadStatus.keyOf "a") :
      Node.Action Interface.none _).run with
  | .ok (some counters) =>
    let _ ← (streamNode.save counters none : Node.Action Interface.none _).run
    match ← (streamNode.save counters none : Node.Action Interface.none _).run with
    | .error failure => return ⟨.error failure, p, state⟩
    | .ok _ => return ⟨.ok .completed, p, state⟩
  | _ => return ⟨.ok .completed, p, state⟩

theorem tends_hasty : Tends hasty := by
  intro p r state hp hkind
  have hlook := Surroundings.tending_shared (E := Interface.none) (r := r) streamNode
    (LoadStatus.keyOf "a")
  refine Surroundings.Ensures.bind hlook fun found r' hfound => ?_
  match found with
  | .error failure =>
    obtain rfl : r' = r := hfound
    exact hp
  | .ok none =>
    obtain ⟨rfl, -⟩ := hfound
    exact hp
  | .ok (some counters) =>
    obtain ⟨rfl, hshared⟩ := hfound
    obtain ⟨x, hx, hxkind⟩ := hshared counters rfl
    have hother : x.id ≠ r'.id := fun hid =>
      absurd (hkind.symm.trans ((congrArg RecordId.kind hid).symm.trans hxkind)) (by decide)
    have hsave := Surroundings.tending_save_other (E := Interface.none) hx hother streamNode none
    refine Surroundings.Ensures.bind hsave fun first r'' hfirst => ?_
    obtain rfl : r'' = r' := by cases first <;> exact hfirst
    refine Surroundings.Ensures.bind hsave fun second r''' hsecond => ?_
    obtain rfl : r''' = r'' := by cases second <;> exact hsecond
    cases second <;> exact hp

/-- **A lost write elsewhere leaves the partition claimed.**  The pass takes it for a takeover, and
says that it has worked. -/
theorem hasty_keeps :
    ¬ ∀ process : Processor Interface.none streamKind Unit, Tends process →
      ∀ s : Shift .table, s.session.Reached → s.own = [] →
        let ended := Program.run (handler alone) (pass streamNode .default process ()) s
        ∀ id, ¬ Keeps ended.2.own ended.2.session id := by
  intro hall
  refine hall hasty tends_hasty oneStream ⟨_, rfl⟩ rfl waitingStream.id ?_
  -- The stream is still as its claim has left it.
  let left := waitingStream.firstVersion.claimed "node-a" .epoch (.seconds 60)
  refine ⟨?_, left, left, ?_, rfl, ?_, rfl⟩ <;> decide +kernel

end Work

end LeasedWork
