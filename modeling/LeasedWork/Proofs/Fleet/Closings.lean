import LeasedWork.Proofs.Fleet.Leftovers
import LeasedWork.Proofs.Fleet.Lifetimes
import LeasedWork.Proofs.Fleet.Workshops

/-! # A limit on closings

Workers that close their partitions under one limit never close a partition more often than that,
however many of them there are and whatever becomes of their passes (`Workshop.closings_limited`).
Their processors may save the partition that they were given, and then say or fail with what they
like.

An account with a pass is the list of the records that it has been given and may still write
(`Surroundings.working`).  At every moment each of them is either the stored record, which is
assigned then, or an older version of it (`Closing.Accounted`).  So a write that succeeds is made
from the stored record, and the close that reaches the limit is the last one: it completes the
record, and nobody has a current version of a completed one.
-/
namespace LeasedWork

/-! ## One record -/

/-- A close is made under the limit. -/
def Transition.Heeds (limit : UInt64) : Transition → Prop
  | .close _ most => most = some limit
  | .save _ | .complete | .giveUp => True

namespace Record

/-- The closings of a record are within a limit, and it is completed once they reach it. -/
structure Heeds (limit : UInt64) (r : Record) : Prop where
  most : r.closedCount ≤ limit
  reached : r.closedCount = limit → r.status = some .completed
  completed : r.status = some .completed → r.completedAt.isSome ∧ r.reopenAt = none

/-- Whether the later one of two versions of a record is what a close has left. -/
def closedSince (old new : Record) : Bool :=
  new.closedCount != old.closedCount || new.status == some .closed

variable {limit : UInt64} {r : Record}

theorem Heeds.lt (h : r.Heeds limit) (hstatus : r.status ≠ some .completed) :
    r.closedCount < limit := by
  have hne : r.closedCount ≠ limit := fun heq => hstatus (h.reached heq)
  have hle := UInt64.le_iff_toNat_le.mp h.most
  rw [UInt64.lt_iff_toNat_lt]
  rw [ne_eq, ← UInt64.toNat_inj] at hne
  omega

/-- A record below the limit that is not completed. -/
theorem heeds_of_lt (hlt : r.closedCount < limit) (hstatus : r.status ≠ some .completed) :
    r.Heeds limit := by
  refine ⟨UInt64.le_of_lt hlt, ?_, fun h => absurd h hstatus⟩
  rintro rfl
  exact absurd hlt (UInt64.lt_irrefl _)

theorem heeds_newRecord (hlimit : 0 < limit) (n : Node) (kind key : String) (leased : Bool)
    (progress : Option String) (now : Instant) :
    (n.newRecord kind key leased progress now).firstVersion.Heeds limit := by
  cases leased <;> exact heeds_of_lt hlimit nofun

/-- A claim closes nothing. -/
theorem closedSince_claimed (owner : String) (now : Instant) (lease : Span) :
    r.closedSince (r.claimed owner now lease) = false := by
  simp [closedSince, claimed, assign, nextVersion]

theorem Heeds.claimed (h : r.Heeds limit) {now : Instant} (havailable : r.isAvailable now = true)
    (owner : String) (lease : Span) : (r.claimed owner now lease).Heeds limit :=
  heeds_of_lt (r := r.claimed owner now lease)
    (h.lt fun hcompleted => not_available_of_completed hcompleted havailable) nofun

/-- Of the transitions of an assigned record, just the closes are seen to be closes. -/
theorem closedSince_moved (x : Hand) (move : Transition) (now : Instant)
    (hstatus : r.status = some .assigned) : r.closedSince (x.moved move now r) = move.isClose := by
  unfold closedSince
  cases move with
  | save extension =>
    rw [x.closedCount_moved now (t := .save extension) nofun, x.status_save, hstatus]
    simp [Transition.isClose]
  | complete =>
    rw [x.closedCount_moved now (t := .complete) nofun, x.status_complete]
    simp [Transition.isClose]
  | close reopenAfter most =>
    have hne : r.closedCount + 1 ≠ r.closedCount :=
      fun h => absurd (UInt64.add_eq_left.mp h) (by decide)
    rw [x.closedCount_close]
    simp [hne, Transition.isClose]
  | giveUp =>
    rw [x.closedCount_moved now (t := .giveUp) nofun, x.status_giveUp]
    simp [Transition.isClose]

/-- There is room for one more closing. -/
theorem Heeds.toNat_lt (h : r.Heeds limit) (hstatus : r.status = some .assigned) :
    r.closedCount.toNat + 1 < UInt64.size := by
  have hlt := UInt64.lt_iff_toNat_lt.mp (h.lt (hstatus ▸ nofun))
  have hsize := limit.toNat_lt_size
  omega

theorem Heeds.count_moved (h : r.Heeds limit) (hstatus : r.status = some .assigned) (x : Hand)
    (move : Transition) (now : Instant) : (x.moved move now r).closedCount.toNat =
      r.closedCount.toNat + (r.closedSince (x.moved move now r)).toNat := by
  rw [x.toNat_closedCount_moved move now r (h.toNat_lt hstatus),
    closedSince_moved x move now hstatus]
  cases move.isClose <;> rfl

/-- **One transition** of an assigned record stays within the limit, and counts if it is a close. -/
theorem Heeds.moved (h : r.Heeds limit) (hstatus : r.status = some .assigned) {move : Transition}
    (hmove : move.Heeds limit) (x : Hand) (now : Instant) : (x.moved move now r).Heeds limit := by
  have hlt : r.closedCount < limit := h.lt (hstatus ▸ nofun)
  cases move with
  | save extension =>
    refine heeds_of_lt ?_ ?_
    · rwa [x.closedCount_moved now (t := .save extension) nofun]
    · rw [x.status_save, hstatus]
      nofun
  | giveUp => exact heeds_of_lt hlt nofun
  | complete => exact ⟨UInt64.le_of_lt hlt, fun _ => rfl, fun _ => ⟨rfl, rfl⟩⟩
  | close reopenAfter most =>
    obtain rfl : most = some limit := hmove
    have hsucc : (r.closedCount + 1).toNat = r.closedCount.toNat + 1 :=
      Fleet.Coherent.toNat_succ (Nat.le_refl _) (h.toNat_lt hstatus)
    unfold Hand.moved Node.proposal Transition.apply
    dsimp only
    rw [Option.any_some]
    split
    · rename_i hlimit
      -- the count has just reached the limit
      refine ⟨?_, fun _ => rfl, fun _ => ⟨rfl, rfl⟩⟩
      change r.closedCount + 1 ≤ limit
      rw [UInt64.le_iff_toNat_le, hsucc]
      exact UInt64.lt_iff_toNat_lt.mp hlt
    · rename_i hlimit
      refine heeds_of_lt ?_ nofun
      rw [decide_eq_true_eq] at hlimit
      exact UInt64.not_le.mp hlimit

end Record

/-! ## One pass -/

namespace Exchange

/-- The record that an answer gives to whoever asked, to be written by it. -/
def given? : Exchange → Option Record
  | ⟨.claim _ _ _ _, .ok found⟩ => found
  | ⟨.update _, .ok written⟩ => if written.status = some .assigned then some written else none
  | _ => none

/-- What a store answers to a claim or an update if it succeeds. -/
def Sensible : Exchange → Prop
  | ⟨.claim _ _ _ _, .ok found⟩ => ∀ r, found = some r → r.status = some .assigned
  | ⟨.update r, .ok written⟩ => written = r.nextVersion
  | _ => True

end Exchange

/-- What surrounds a worker. Its state are the records that the worker has been given: it may write
these, by transitions of some kind, and look at all others. -/
def Surroundings.working (mayClaim : Bool) (may : Transition → Prop) : Surroundings where
  State := List Record
  May given request :=
    match request with
    | .update new => ∃ r ∈ given, ∃ (x : Hand) (move : Transition) (now : Instant),
        may move ∧ new = Node.proposal x.piece move now r
    | .claim _ _ _ _ => mayClaim = true
    | .create _ => False
    | .prepare | .get _ | .byStatus _ _ _ _ | .all _ _ => True
  Tells given request told given' :=
    Exchange.Sensible ⟨request, told⟩ ∧
      given' = (Exchange.given? ⟨request, told⟩).toList ++ given

namespace Surroundings

variable {E : Interface} {α : Type} {mayClaim : Bool} {may : Transition → Prop}
  {given : List Record}

/-- Whoever keeps to stricter rules keeps to these. -/
theorem Ensures.of_stricter {may' : Transition → Prop} (hmay : ∀ move, may move → may' move)
    {post : α → List Record → Prop} {p : Program (Node.interface E) α}
    (h : (working false may).Ensures post p given) : (working true may').Ensures post p given := by
  induction p generalizing given with
  | done a => exact h
  | ask question next ih =>
    match question with
    | .store request =>
      refine ⟨?_, fun answer given' htold => ih _ (h.2 answer given' htold)⟩
      have hrequest := h.1
      cases request with
      | update new =>
        obtain ⟨r, hr, x, move, now, hmove, hnew⟩ := hrequest
        exact ⟨r, hr, x, move, now, hmay move hmove, hnew⟩
      | claim => rfl
      | create => exact hrequest
      | prepare => trivial
      | get => trivial
      | byStatus => trivial
      | all => trivial
    | .now => exact fun now hnow => ih _ (h now hnow)
    | .pause _ => exact ih _ h
    | .other _ => exact fun answer => ih _ (h answer)

variable {k : PartitionKind} {p : Partition k} {r : Record}

/-- A transition of a partition in hand, whatever comes of it. -/
theorem working_transition {move : Transition} (hr : p.record = some r) (hgiven : r ∈ given)
    (hmove : may move) :
    (working mayClaim may).Allows (E := E) (Node.transition p move) given := by
  by_cases hleased : move.needsLease = true → Held.leased p = true
  · refine yields_transition hr hleased fun now => ⟨?_, fun _ _ _ => trivial, fun _ _ _ => trivial⟩
    exact ⟨r, hgiven, ⟨.ofKind k, p⟩, move, now, hmove, rfl⟩
  · -- what has no lease is not even asked for
    have hrefused : (move.needsLease && !Held.leased p) = true := by
      cases hneeds : move.needsLease <;> cases hheld : Held.leased p <;> simp_all
    simp only [Node.transition]
    rw [if_pos hrefused]
    exact yields_error trivial

/-- A save of a partition in hand gives the partition with a record that is in hand again. -/
theorem working_save (hr : p.record = some r) (hgiven : r ∈ given)
    (hstatus : r.status = some .assigned) (n : Node) (extension : Option Span)
    (hmay : ∀ extension, may (.save extension)) : (working mayClaim may).Yields (E := E)
      (fun q (given' : List Record) =>
        ∃ w ∈ given', q.record = some w ∧ w.status = some .assigned)
      (fun _ given' => given' = given) (n.save p extension) given := by
  refine yields_transition hr nofun fun now => ⟨?_, ?_, ?_⟩
  · exact ⟨r, hgiven, ⟨.ofKind k, p⟩, _, now, hmay _, rfl⟩
  · rintro written given' ⟨hwritten, rfl⟩
    obtain rfl : written = (Node.proposal p (.save (extension.getD n.lease)) now r).nextVersion :=
      hwritten
    let x : Hand := ⟨.ofKind k, p⟩
    have hsaved : (x.moved (.save (extension.getD n.lease)) now r).status = some .assigned :=
      (x.status_save _ now r).trans hstatus
    refine ⟨x.moved (.save (extension.getD n.lease)) now r, ?_, rfl, hsaved⟩
    exact List.mem_append_left _ (Option.mem_toList.mpr (if_pos hsaved))
  · rintro failure given' ⟨-, rfl⟩
    rfl

end Surroundings

namespace Work

open Surroundings

variable {E : Interface} {k : PartitionKind} {σ : Type} {limit : UInt64}

/-- A processor saves its partition, if it writes anything, and leaves the partition with a record
that it has been given. -/
def Saves (process : Processor E k σ) : Prop :=
  ∀ p r state, p.record = some r → r.status = some .assigned →
    (working false (·.isSave = true)).Ensures
      (fun done (given : List Record) => ∃ w ∈ given, done.partition.record = some w)
      (process p state) [r]

theorem working_finish {done : Processed k σ} {given : List Record} {w : Record}
    (hgiven : w ∈ given) (hw : done.partition.record = some w) :
    (working true (Transition.Heeds limit)).Allows (E := E) (finish (some limit) done) given := by
  unfold finish
  cases done.verdict with
  | ok outcome =>
    have happly : (working true (Transition.Heeds limit)).Allows (E := E)
        (apply (some limit) done.partition outcome) given := by
      cases outcome with
      | completed => exact working_transition hw hgiven trivial
      | closed reopenAfter => exact working_transition hw hgiven rfl
      | released => exact working_transition hw hgiven trivial
    exact happly.bind fun _ _ => allows_pure true
  | error failure =>
    dsimp only
    split
    · exact allows_pure true
    · have hgiveUp : (working true (Transition.Heeds limit)).Allows (E := E)
          (Node.giveUp done.partition) given := working_transition hw hgiven trivial
      exact Ensures.bind hgiveUp fun _ _ _ => trivial

/-- **One pass**: it claims at most one record, and writes what it has been given. -/
theorem working_pass {settings : WorkerSettings} (hlimit : settings.maxClosedCount = some limit)
    {process : Processor E k σ} (hprocess : Saves process) (n : Node) (state : σ) :
    (working true (Transition.Heeds limit)).Ensures (fun _ _ => True)
      (pass n settings process state) [] := by
  let S : Surroundings := working true (Transition.Heeds limit)
  have hclaim : S.Yields (E := E)
      (fun found (given : List Record) => ∀ p, found = some p → ∃ r : Record,
        given = [r] ∧ p.record = some r ∧ r.status = some .assigned)
      (fun _ _ => True) (n.claim k settings.leaseDuration) [] := by
    by_cases hleased : k.leased = true
    · refine yields_claim hleased rfl ?_ fun _ _ _ => trivial
      rintro found given ⟨hsensible, rfl⟩
      refine yields_build ?_ ?_ fun _ _ _ _ => trivial
      · intro _ p hp
        cases hp
      · rintro r p rfl hp q ⟨⟩
        exact ⟨r, rfl, Factory.record_ofRecord hp, hsensible r rfl⟩
    · simp only [Node.claim]
      rw [if_pos (by simpa using hleased)]
      exact yields_error trivial
  refine Ensures.bind hclaim fun found given hfound => ?_
  rcases found with failure | _ | p
  · trivial
  · trivial
  · obtain ⟨r, rfl, hr, hstatus⟩ := hfound p rfl
    have hrules : ∀ move : Transition, move.isSave = true → move.Heeds limit := by
      intro move hsave
      cases move <;> trivial
    refine Ensures.bind ((hprocess p r state hr hstatus).of_stricter hrules) ?_
    rintro done given ⟨w, hw, hdone⟩
    rw [hlimit]
    exact Ensures.bind (working_finish hw hdone) fun _ _ _ => trivial

end Work

/-! ## All passes -/

namespace Mark

/-- Whether it is a close of the record of an identity. -/
def closes (id : RecordId) (m : Mark) : Bool :=
  match m.before.find? id, m.after.find? id with
  | some old, some new => m.writes id && old.closedSince new
  | _, _ => false

/-- Whether it has given the record of an identity to whoever asked for work. -/
def handsOut (id : RecordId) (m : Mark) : Bool := m.claimedOf? = some id

variable {id : RecordId} {m : Mark}

theorem closes_of_same (h : m.after.find? id = m.before.find? id) : m.closes id = false := by
  unfold closes
  split
  · simp [writes, h]
  · rfl

theorem closes_of_write {s s' : Record} (hbefore : m.before.find? id = some s)
    (hafter : m.after.find? id = some s') (hversion : s'.version = s.version + 1) :
    m.writes id = true ∧ m.closes id = s.closedSince s' := by
  have hwrites : m.writes id = true := by
    rw [writes, hbefore, hafter, decide_eq_true_eq, ne_eq, Option.some.injEq]
    rintro rfl
    exact absurd (UInt64.add_eq_left.mp hversion.symm) (by decide)
  refine ⟨hwrites, ?_⟩
  unfold closes
  rw [hbefore, hafter]
  dsimp only
  rw [hwrites, Bool.true_and]

end Mark

namespace Workshop

variable {E : Interface} {L α : Type}

/-- How many marks of the jobs are of some kind. -/
def tally (f : Mark → Bool) (w : Workshop E L α) : Nat :=
  (w.jobs.map fun job => job.marks.countP f).sum

/-- How often the record of an identity has been closed. -/
def closings (id : RecordId) (w : Workshop E L α) : Nat := w.tally (·.closes id)

/-- How often the record of an identity has been given to a worker. -/
def handovers (id : RecordId) (w : Workshop E L α) : Nat := w.tally (·.handsOut id)

end Workshop

/-- What anybody may ask: to see records, and to create new ones. -/
def Request.IsOpen : Request → Prop
  | .create r => ∃ (n : Node) (kind key : String) (leased : Bool) (progress : Option String)
      (now : Instant), r = n.newRecord kind key leased progress now
  | .update _ | .claim _ _ _ _ => False
  | .prepare | .get _ | .byStatus _ _ _ _ | .all _ _ => True

/-- Passes of workers of any kinds that close their partitions under one limit. A request that
fails may have reached the table all the same. -/
def Charter.closing (E : Interface) (limit : UInt64) : Charter E Unit (Except Failure Bool) where
  Joins _ p := ∃ (n : Node) (k : PartitionKind) (σ : Type) (settings : WorkerSettings)
    (process : Processor E k σ) (state : σ), settings.maxClosedCount = some limit ∧
      Work.Saves process ∧ p = Prod.fst <$> Work.pass n settings process state
  Asks := Request.IsOpen
  mayHide _ := true

namespace Closing

/-- How many marks in some entries are of some kind. -/
def tally (f : Mark → Bool) (es : List (Entry Unit (List Record))) : Nat :=
  (es.map fun e => e.marks.countP f).sum

variable {limit : UInt64} {id : RecordId} {s s' : Record} {t t' : Table} {i : Nat}
  {es : List (Entry Unit (List Record))} {e new : Entry Unit (List Record)}

theorem tally_join (f : Mark → Bool) (es : List (Entry Unit (List Record))) (label : Unit)
    (given : List Record) : tally f (es ++ [⟨label, [], given⟩]) = tally f es := by
  simp [tally]

theorem tally_set (he : es[i]? = some e) (new : Entry Unit (List Record)) (f : Mark → Bool) :
    tally f (es.set i new) + e.marks.countP f = tally f es + new.marks.countP f :=
  Watch.sum_map_set he new fun e => e.marks.countP f

theorem tally_set_of_same (he : es[i]? = some e) {f : Mark → Bool}
    (hsame : new.marks.countP f = e.marks.countP f) : tally f (es.set i new) = tally f es := by
  have hset := tally_set he new f
  omega

/-- How a stored record goes with the accounts. Whatever a worker may still write is the stored
record, which is assigned then, or an older version of it. -/
structure Accounted (limit : UInt64) (id : RecordId) (s : Record)
    (es : List (Entry Unit (List Record))) : Prop where
  version : s.version.toNat = 1 + tally (·.writes id) es
  closings : s.closedCount.toNat = tally (·.closes id) es
  heeds : s.Heeds limit
  covered : ∀ e ∈ es, ∀ r ∈ e.account, r.id = id →
    (r = s ∧ s.status = some .assigned) ∨ r.version < s.version

/-- How the accounts fit the table. Versions tell records apart as long as they do not wrap
around. -/
structure Fits (limit : UInt64) (id : RecordId) (t : Table)
    (es : List (Entry Unit (List Record))) : Prop where
  distinct : t.Distinct
  missing : t.find? id = none → tally (·.writes id) es = 0 ∧ tally (·.closes id) es = 0 ∧
    ∀ e ∈ es, ∀ r ∈ e.account, r.id ≠ id
  stored : ∀ s, t.find? id = some s → 1 + tally (·.writes id) es < UInt64.size →
    Accounted limit id s es

/-- A job that has not written the record just now. -/
theorem Accounted.keep (h : Accounted limit id s es) (he : es[i]? = some e)
    (hwrites : new.marks.countP (·.writes id) = e.marks.countP (·.writes id))
    (hcloses : new.marks.countP (·.closes id) = e.marks.countP (·.closes id))
    (hgiven : ∀ r ∈ new.account, r.id = id → r ∈ e.account) :
    Accounted limit id s (es.set i new) := by
  refine ⟨?_, ?_, h.heeds, ?_⟩
  · rw [h.version, tally_set_of_same he hwrites]
  · rw [h.closings, tally_set_of_same he hcloses]
  · refine Watch.forall_mem_set h.covered fun r hr hid => ?_
    exact h.covered e (List.mem_of_getElem? he) r (hgiven r hr hid) hid

/-- A job that has just written the stored record. -/
theorem Accounted.write (h : Accounted limit id s es) (he : es[i]? = some e)
    (hversion : s'.version = s.version + 1)
    (hbound : 1 + tally (·.writes id) es + 1 < UInt64.size)
    (hwrites : new.marks.countP (·.writes id) = e.marks.countP (·.writes id) + 1)
    (hcloses : new.marks.countP (·.closes id) =
      e.marks.countP (·.closes id) + (s.closedSince s').toNat)
    (hheeds : s'.Heeds limit)
    (hcount : s'.closedCount.toNat = s.closedCount.toNat + (s.closedSince s').toNat)
    (hgiven : ∀ r ∈ new.account, r.id = id →
      r ∈ e.account ∨ (r = s' ∧ s'.status = some .assigned)) :
    Accounted limit id s' (es.set i new) := by
  have hsucc : s'.version.toNat = s.version.toNat + 1 := by
    rw [hversion]
    exact Fleet.Coherent.toNat_succ (Nat.le_of_eq h.version) hbound
  have hwrites' := tally_set he new (·.writes id)
  have hcloses' := tally_set he new (·.closes id)
  -- What was current is out of date now.
  have hold : ∀ e ∈ es, ∀ r ∈ e.account, r.id = id → r.version < s'.version := by
    intro e he r hr hid
    rw [UInt64.lt_iff_toNat_lt, hsucc]
    rcases h.covered e he r hr hid with ⟨rfl, -⟩ | hlt
    · exact Nat.lt_succ_self _
    · exact Nat.lt_succ_of_lt (UInt64.lt_iff_toNat_lt.mp hlt)
  refine ⟨?_, ?_, hheeds, ?_⟩
  · rw [hsucc, h.version]
    omega
  · rw [hcount, h.closings]
    omega
  · refine Watch.forall_mem_set (fun e he r hr hid => .inr (hold e he r hr hid)) fun r hr hid => ?_
    rcases hgiven r hr hid with hr | hr
    · exact .inr (hold e (List.mem_of_getElem? he) r hr hid)
    · exact .inl hr

theorem Fits.join (h : Fits limit id t es) (label : Unit) :
    Fits limit id t (es ++ [⟨label, [], []⟩]) := by
  refine ⟨h.distinct, fun hnone => ?_, fun s hs hbound => ?_⟩
  · obtain ⟨hwrites, hcloses, hgiven⟩ := h.missing hnone
    rw [tally_join, tally_join, List.forall_mem_append, List.forall_mem_singleton]
    exact ⟨hwrites, hcloses, hgiven, List.forall_mem_nil _⟩
  · rw [tally_join] at hbound
    have hacc := h.stored s hs hbound
    refine ⟨?_, ?_, hacc.heeds, ?_⟩
    · rw [tally_join, hacc.version]
    · rw [tally_join, hacc.closings]
    · rw [List.forall_mem_append, List.forall_mem_singleton]
      exact ⟨hacc.covered, List.forall_mem_nil _⟩

/-- A turn that has not touched the record. -/
theorem Fits.keep (h : Fits limit id t es) (he : es[i]? = some e) (hdistinct : t'.Distinct)
    (hsame : t'.find? id = t.find? id)
    (hwrites : new.marks.countP (·.writes id) = e.marks.countP (·.writes id))
    (hcloses : new.marks.countP (·.closes id) = e.marks.countP (·.closes id))
    (hgiven : ∀ r ∈ new.account, r.id = id → r ∈ e.account) : Fits limit id t' (es.set i new) := by
  have hwrites' := tally_set_of_same he hwrites
  have hcloses' := tally_set_of_same he hcloses
  refine ⟨hdistinct, fun hnone => ?_, fun s hs hbound => ?_⟩
  · obtain ⟨hzero, hzero', hothers⟩ := h.missing (hsame ▸ hnone)
    refine ⟨hwrites'.trans hzero, hcloses'.trans hzero', ?_⟩
    refine Watch.forall_mem_set hothers fun r hr hid => ?_
    exact hothers e (List.mem_of_getElem? he) r (hgiven r hr hid) hid
  · exact (h.stored s (hsame ▸ hs) (by omega)).keep he hwrites hcloses hgiven

/-- A turn that has written the record. -/
theorem Fits.write (h : Fits limit id t es) (he : es[i]? = some e) (hdistinct : t'.Distinct)
    (hs : t.find? id = some s) (hs' : t'.find? id = some s') (hversion : s'.version = s.version + 1)
    {x : Exchange} (hmarks : new.marks = e.marks ++ [⟨x, t, t'⟩])
    (hstep : Accounted limit id s es → s'.Heeds limit ∧
      s'.closedCount.toNat = s.closedCount.toNat + (s.closedSince s').toNat)
    (hgiven : ∀ r ∈ new.account, r.id = id →
      r ∈ e.account ∨ (r = s' ∧ s'.status = some .assigned)) : Fits limit id t' (es.set i new) := by
  obtain ⟨hwritten, hclosed⟩ := Mark.closes_of_write (m := ⟨x, t, t'⟩) hs hs' hversion
  have hwrites : new.marks.countP (·.writes id) = e.marks.countP (·.writes id) + 1 := by
    rw [hmarks, List.countP_append, List.countP_singleton, if_pos hwritten]
  have hcloses : new.marks.countP (·.closes id) =
      e.marks.countP (·.closes id) + (s.closedSince s').toNat := by
    rw [hmarks, List.countP_append, List.countP_singleton, hclosed]
    cases s.closedSince s' <;> rfl
  have hwrites' := tally_set he new (·.writes id)
  refine ⟨hdistinct, fun hnone => (nomatch hs'.symm.trans hnone), fun r hr hbound => ?_⟩
  obtain rfl := Option.some.inj (hs'.symm.trans hr)
  have hacc := h.stored s hs (by omega)
  obtain ⟨hheeds, hcount⟩ := hstep hacc
  exact hacc.write he hversion (by omega) hwrites hcloses hheeds hcount hgiven

end Closing

/-- A claim assigns a stored record that is available, or finds none. -/
theorem Table.claim_cases {t : Table} (hdistinct : t.Distinct) (now : Instant)
    (source kind owner : String) (lease : Span) :
    t.answer now (.claim source kind owner lease) = (.ok none, t) ∨
    ∃ x, t.find? x.id = some x ∧ x.isAvailable now = true ∧
      t.answer now (.claim source kind owner lease) =
        (.ok (some (x.claimed owner now lease)), t.replace (x.claimed owner now lease)) := by
  cases hc : candidates now (t.ofKind source kind) with
  | nil => exact .inl (by simp only [answer, hc])
  | cons x rest =>
    obtain ⟨hof, havailable⟩ := mem_candidates.mp (hc ▸ List.mem_cons_self)
    have hx := (find?_iff hdistinct).mpr ⟨(mem_ofKind.mp hof).1, rfl⟩
    exact .inr ⟨x, hx, havailable, by simp only [answer, hc]⟩

namespace Closing

variable {E : Interface} {limit : UInt64} {id : RecordId} {t : Table} {i : Nat} {now : Instant}
  {es : List (Entry Unit (List Record))} {e : Entry Unit (List Record)} {request : Request}
  {told : request.Answer}

theorem sensible_of_mayTell
    (htold : Watch.MayTell (Charter.closing E limit) t now request told) :
    Exchange.Sensible ⟨request, told⟩ := by
  rcases htold with rfl | ⟨failure, rfl, -⟩
  · cases request with
    | update u =>
      cases hanswer : (t.answer now (.update u)).1 with
      | error failure => trivial
      | ok written => exact Table.eq_of_answer_update hanswer
    | claim source kind owner lease =>
      cases hanswer : (t.answer now (.claim source kind owner lease)).1 with
      | error failure => trivial
      | ok found =>
        rintro r rfl
        obtain ⟨x, -, -, -, rfl⟩ := Table.exists_of_answer_claim hanswer
        rfl
    | _ => trivial
  · cases request <;> trivial

theorem given?_error (request : Request) (failure : Failure) :
    Exchange.given? ⟨request, .error failure⟩ = none := by
  cases request <;> rfl

/-- The entry of a job after a request of its has reached the table. -/
def reached (e : Entry Unit (List Record)) (t : Table) (now : Instant) (request : Request)
    (told : request.Answer) : Entry Unit (List Record) :=
  ⟨e.label, e.marks ++ [⟨⟨request, told⟩, t, (t.answer now request).2⟩],
    (Exchange.given? ⟨request, told⟩).toList ++ e.account⟩

/-- What has been given just now, or was given before. -/
theorem mem_reached {r : Record} (hr : r ∈ (reached e t now request told).account) :
    Exchange.given? ⟨request, told⟩ = some r ∨ r ∈ e.account :=
  (List.mem_append.mp hr).imp_left Option.mem_toList.mp

/-- A request that leaves the record of an identity alone. -/
theorem Fits.miss (h : Fits limit id t es) (he : es[i]? = some e)
    (hsame : (t.answer now request).2.find? id = t.find? id)
    (hgiven : ∀ r, Exchange.given? ⟨request, told⟩ = some r → r.id ≠ id) :
    Fits limit id (t.answer now request).2 (es.set i (reached e t now request told)) := by
  have hwrites : Mark.writes id ⟨⟨request, told⟩, t, (t.answer now request).2⟩ = false := by
    simp [Mark.writes, hsame]
  have hcloses : Mark.closes id ⟨⟨request, told⟩, t, (t.answer now request).2⟩ = false :=
    Mark.closes_of_same hsame
  refine h.keep he (Table.distinct_answer h.distinct now request) hsame ?_ ?_ fun r hr hid => ?_
  · simp [reached, hwrites]
  · simp [reached, hcloses]
  · exact (mem_reached hr).resolve_left fun hr => hgiven r hr hid

/-- A claim gives a worker the record that it leaves in the table. -/
theorem Fits.claim (h : Fits limit id t es) (he : es[i]? = some e) {source kind owner : String}
    {lease : Span} {told : Request.Answer (.claim source kind owner lease)}
    (htold : Watch.MayTell (Charter.closing E limit) t now (.claim source kind owner lease) told) :
    Fits limit id (t.answer now (.claim source kind owner lease)).2
      (es.set i (reached e t now _ told)) := by
  rcases t.claim_cases h.distinct now source kind owner lease with
    hnone | ⟨x, hx, havailable, hsome⟩
  · refine h.miss he (by rw [hnone]) fun r hr => ?_
    rcases htold with rfl | ⟨failure, rfl, -⟩
    · rw [hnone] at hr
      cases hr
    · cases hr
  · have hgiven : ∀ r, Exchange.given? ⟨.claim source kind owner lease, told⟩ = some r →
        r = x.claimed owner now lease := by
      intro r hr
      rcases htold with rfl | ⟨failure, rfl, -⟩
      · rw [hsome] at hr
        exact (Option.some.inj hr).symm
      · cases hr
    by_cases hid : x.id = id
    · have hafter : (t.answer now (.claim source kind owner lease)).2.find? id =
          some (x.claimed owner now lease) := by
        rw [hsome, ← hid]
        exact Table.find?_replace_self (r := x.claimed owner now lease) hx
      have hbefore : t.find? id = some x := hid ▸ hx
      refine h.write he (Table.distinct_answer h.distinct now _) hbefore hafter rfl rfl ?_ ?_
      · intro hacc
        rw [Record.closedSince_claimed]
        exact ⟨hacc.heeds.claimed havailable owner lease, rfl⟩
      · intro r hr _
        exact (mem_reached hr).symm.imp_right fun hr => ⟨hgiven r hr, rfl⟩
    · refine h.miss he ?_ fun r hr => ?_
      · rw [hsome]
        exact Table.find?_replace_of_ne (r := x.claimed owner now lease) (Ne.symm hid)
      · rw [hgiven r hr]
        exact hid

/-- **An update succeeds only from the stored record**, and keeps to the limit. -/
theorem Fits.update (h : Fits limit id t es) (he : es[i]? = some e) {r : Record}
    (hr : r ∈ e.account) (x : Hand) {move : Transition} (hmove : move.Heeds limit) (time : Instant)
    {told : Request.Answer (.update (Node.proposal x.piece move time r))}
    (htold : Watch.MayTell (Charter.closing E limit) t now
      (.update (Node.proposal x.piece move time r)) told) :
    Fits limit id (t.answer now (.update (Node.proposal x.piece move time r))).2
      (es.set i (reached e t now _ told)) := by
  let u := Node.proposal x.piece move time r
  have hid : u.id = r.id := Node.id_proposal x.piece move time r
  have hversion : u.version = r.version := Node.version_proposal x.piece move time r
  by_cases hcurrent : ∃ stored, t.find? u.id = some stored ∧ stored.version = u.version
  · obtain ⟨stored, hstored, hsame⟩ := hcurrent
    have hanswer := Table.answer_update_of_current now hstored hsame
    have hgiven : ∀ w, Exchange.given? ⟨.update u, told⟩ = some w →
        w = u.nextVersion ∧ u.nextVersion.status = some .assigned := by
      intro w hw
      rcases htold with rfl | ⟨failure, rfl, -⟩
      · change Exchange.given? ⟨.update u, (t.answer now (.update u)).1⟩ = some w at hw
        rw [hanswer] at hw
        simp only [Exchange.given?, Option.ite_none_right_eq_some, Option.some.injEq] at hw
        exact ⟨hw.2.symm, hw.1⟩
      · cases hw
    by_cases hrid : r.id = id
    · have hbefore : t.find? id = some stored := hrid ▸ hid ▸ hstored
      have hafter : (t.answer now (.update u)).2.find? id = some u.nextVersion := by
        rw [hanswer, ← hrid, ← hid]
        exact Table.find?_replace_self (r := u.nextVersion) hstored
      have hnext : u.nextVersion.version = stored.version + 1 := congrArg (· + 1) hsame.symm
      refine h.write he (Table.distinct_answer h.distinct now _) hbefore hafter hnext rfl ?_ ?_
      · intro hacc
        -- an older version would not have been accepted
        obtain ⟨rfl, hstatus⟩ := (hacc.covered e (List.mem_of_getElem? he) r hr hrid).resolve_right
          fun hlt => UInt64.lt_irrefl _ (hsame.trans hversion ▸ hlt)
        exact ⟨hacc.heeds.moved hstatus hmove x time, hacc.heeds.count_moved hstatus x move time⟩
      · intro w hw _
        exact (mem_reached hw).symm.imp_right fun hw => hgiven w hw
    · refine h.miss he ?_ fun w hw => ?_
      · rw [hanswer]
        refine Table.find?_replace_of_ne (r := u.nextVersion) fun heq => hrid ?_
        exact hid.symm.trans heq.symm
      · rw [(hgiven w hw).1]
        exact fun heq => hrid (hid.symm.trans heq)
  · have hanswer := Table.answer_update_of_stale now fun stored hstored hsame =>
      hcurrent ⟨stored, hstored, hsame⟩
    refine h.miss he (by rw [hanswer]) fun w hw => ?_
    rcases htold with rfl | ⟨failure, rfl, -⟩
    · change Exchange.given? ⟨.update u, (t.answer now (.update u)).1⟩ = some w at hw
      rw [hanswer] at hw
      cases hw
    · cases hw

/-- A stranger's request, which writes nothing or creates a record. -/
theorem Fits.stranger (h : Fits limit id t es) (hlimit : 0 < limit) (hopen : request.IsOpen) :
    Fits limit id (t.answer now request).2 es := by
  have hdistinct := Table.distinct_answer h.distinct now request
  have hwritten := t.written_answer now request
  generalize (t.answer now request).2 = t' at hdistinct hwritten
  cases hwritten with
  | none => exact h
  | updated => exact hopen.elim
  | claimed => exact hopen.elim
  | created r hfree =>
    obtain ⟨n, kind, key, leased, progress, time, rfl⟩ := hopen
    let r := n.newRecord kind key leased progress time
    have hfind := Table.find?_insert (r := r.firstVersion) hfree id
    by_cases hid : id = r.id
    · obtain ⟨hwrites, hcloses, hothers⟩ := h.missing (hid ▸ hfree)
      rw [if_pos (show id = r.firstVersion.id from hid)] at hfind
      refine ⟨hdistinct, fun hnone => (nomatch hfind.symm.trans hnone), fun s hs _ => ?_⟩
      obtain rfl := Option.some.inj (hfind.symm.trans hs)
      refine ⟨?_, ?_, Record.heeds_newRecord hlimit n kind key leased progress time, ?_⟩
      · rw [hwrites]
        rfl
      · rw [hcloses]
        cases leased <;> rfl
      · exact fun e he r hr hrid => absurd hrid (hothers e he r hr)
    · rw [if_neg (show ¬ id = r.firstVersion.id from hid)] at hfind
      exact ⟨hdistinct, fun hnone => h.missing (hfind ▸ hnone),
        fun s hs => h.stored s (hfind ▸ hs)⟩

end Closing

/-- The watch over the passes that close under a limit, for the record of one identity. -/
def Watch.closing (limit : UInt64) (id : RecordId) : Watch Unit (Except Failure Bool) where
  surroundings := .working true (Transition.Heeds limit)
  post _ _ _ := True
  Fits := Closing.Fits limit id

/-- **Every step of a pass is accounted for.** -/
theorem Watch.governs_closing (E : Interface) {limit : UInt64} (hlimit : 0 < limit)
    (id : RecordId) : (Watch.closing limit id).Governs (Charter.closing E limit) where
  joins t es label p hfits hp := by
    obtain ⟨n, k, σ, settings, process, state, hclose, hprocess, rfl⟩ := hp
    refine ⟨[], hfits.join label, ?_⟩
    exact Surroundings.Ensures.map (Work.working_pass hclose hprocess n state)
  reaches t es i e now request told hfits he hmay htold := by
    refine ⟨_, ⟨Closing.sensible_of_mayTell htold, rfl⟩, ?_⟩
    change Closing.Fits limit id (t.answer now request).2
      (es.set i (Closing.reached e t now request told))
    match request with
    | .update new =>
      obtain ⟨r, hr, x, move, time, hmove, rfl⟩ := hmay
      exact hfits.update he hr x hmove time htold
    | .claim source kind owner lease => exact hfits.claim he htold
    | .create _ => exact hmay.elim
    | .prepare | .get _ | .byStatus _ _ _ _ | .all _ _ =>
      exact hfits.miss he rfl fun _ hr => nomatch hr
  fails t es i e request failure hfits he hmay := by
    refine ⟨e.account, ⟨?_, ?_⟩, hfits.keep he hfits.distinct rfl rfl rfl fun _ hr _ => hr⟩
    · cases request <;> trivial
    · rw [Closing.given?_error]
      rfl
  asks t es request now hfits hopen := hfits.stranger hlimit hopen
  shows _ := trivial

/-! ## Completed records -/

namespace Closing

variable {E : Interface} {limit : UInt64} {id : RecordId} {s : Record} {t : Table} {i : Nat}
  {now : Instant} {es : List (Entry Unit (List Record))} {e : Entry Unit (List Record)}
  {request : Request} {told : request.Answer}

/-- Nobody can write a completed record any more, or claim it. -/
theorem Fits.idle (h : Fits limit id t es) (hs : t.find? id = some s)
    (hcompleted : s.status = some .completed) (hbound : 1 + tally (·.writes id) es < UInt64.size)
    (he : es[i]? = some e)
    (hmay : (Surroundings.working true (Transition.Heeds limit)).May e.account request)
    (htold : Watch.MayTell (Charter.closing E limit) t now request told) :
    (t.answer now request).2.find? id = some s ∧
      Exchange.claimedOf? ⟨request, told⟩ ≠ some id := by
  match request with
  | .update new =>
    refine ⟨?_, nofun⟩
    obtain ⟨r, hr, x, move, time, -, rfl⟩ := hmay
    have hid := Node.id_proposal x.piece move time r
    have hversion := Node.version_proposal x.piece move time r
    have hwritten := t.written_answer now (.update (Node.proposal x.piece move time r))
    generalize (t.answer now (.update (Node.proposal x.piece move time r))).2 = t' at hwritten
    cases hwritten with
    | none => exact hs
    | updated _ stored hstored hsame =>
      -- Whoever still has the record in hand has it of an earlier version.
      by_cases hrid : r.id = id
      · rw [hid, hrid, hs] at hstored
        obtain rfl := Option.some.inj hstored
        rcases (h.stored s hs hbound).covered e (List.mem_of_getElem? he) r hr hrid with
          ⟨-, hassigned⟩ | hlt
        · exact nomatch hcompleted.symm.trans hassigned
        · exact absurd hlt (hsame.trans hversion ▸ UInt64.lt_irrefl _)
      · refine (Table.find?_replace_of_ne (r := (Node.proposal x.piece move time r).nextVersion)
          fun heq => hrid ?_).trans hs
        exact hid.symm.trans heq.symm
  | .claim source kind owner lease =>
    rcases t.claim_cases h.distinct now source kind owner lease with
      hnone | ⟨x, hx, havailable, hsome⟩
    · refine ⟨by rw [hnone]; exact hs, ?_⟩
      rcases htold with rfl | ⟨failure, rfl, -⟩
      · rw [hnone]
        nofun
      · nofun
    · -- A completed record is not available, so that what is claimed is another one.
      have hother : id ≠ x.id := by
        rintro rfl
        obtain rfl := Option.some.inj (hx.symm.trans hs)
        exact Record.not_available_of_completed hcompleted havailable
      refine ⟨?_, ?_⟩
      · rw [hsome]
        exact (Table.find?_replace_of_ne (r := x.claimed owner now lease) hother).trans hs
      · rcases htold with rfl | ⟨failure, rfl, -⟩
        · rw [hsome]
          exact fun heq => hother (Option.some.inj heq).symm
        · nofun
  | .create _ => exact hmay.elim
  | .prepare | .get _ | .byStatus _ _ _ _ | .all _ _ => exact ⟨hs, nofun⟩

/-- A record is completed, and has been written, closed and handed over so often. -/
structure Rests (limit : UInt64) (id : RecordId) (s : Record) (writes closings handovers : Nat)
    (t : Table) (es : List (Entry Unit (List Record))) : Prop where
  fits : Fits limit id t es
  stored : t.find? id = some s
  writes : tally (·.writes id) es = writes
  closings : tally (·.closes id) es = closings
  handovers : tally (·.handsOut id) es = handovers

variable {writes closings handovers : Nat} {new : Entry Unit (List Record)} {t' : Table}

theorem Rests.join (h : Rests limit id s writes closings handovers t es) {label : Unit}
    {given : List Record} (hfits : Fits limit id t (es ++ [⟨label, [], given⟩])) :
    Rests limit id s writes closings handovers t (es ++ [⟨label, [], given⟩]) where
  fits := hfits
  stored := h.stored
  writes := (tally_join _ es label given).trans h.writes
  closings := (tally_join _ es label given).trans h.closings
  handovers := (tally_join _ es label given).trans h.handovers

theorem Rests.set (h : Rests limit id s writes closings handovers t es) (he : es[i]? = some e)
    (hfits : Fits limit id t' (es.set i new)) (hstored : t'.find? id = some s)
    (hwrites : new.marks.countP (·.writes id) = e.marks.countP (·.writes id))
    (hcloses : new.marks.countP (·.closes id) = e.marks.countP (·.closes id))
    (hhandsOut : new.marks.countP (·.handsOut id) = e.marks.countP (·.handsOut id)) :
    Rests limit id s writes closings handovers t' (es.set i new) where
  fits := hfits
  stored := hstored
  writes := (tally_set_of_same he hwrites).trans h.writes
  closings := (tally_set_of_same he hcloses).trans h.closings
  handovers := (tally_set_of_same he hhandsOut).trans h.handovers

end Closing

/-- The watch over the passes after a record has been completed. -/
def Watch.closed (limit : UInt64) (id : RecordId) (s : Record) (writes closings handovers : Nat) :
    Watch Unit (Except Failure Bool) :=
  { Watch.closing limit id with Fits := Closing.Rests limit id s writes closings handovers }

theorem Watch.follows_closed {E : Interface} {limit : UInt64} {id : RecordId} {s : Record}
    {writes closings handovers : Nat} {job : Job E Unit (Except Failure Bool)}
    {e : Entry Unit (List Record)} : (closed limit id s writes closings handovers).Follows job e ↔
      (closing limit id).Follows job e :=
  ⟨fun h => ⟨h.label, h.marks, h.ensures⟩, fun h => ⟨h.label, h.marks, h.ensures⟩⟩

/-- **Completed records stay as they are**, and are handed to nobody. -/
theorem Watch.governs_closed (E : Interface) {limit : UInt64} (hlimit : 0 < limit) {id : RecordId}
    {s : Record} (hcompleted : s.status = some .completed) {writes closings handovers : Nat}
    (hbound : 1 + writes < UInt64.size) :
    (Watch.closed limit id s writes closings handovers).Governs (Charter.closing E limit) where
  joins t es label p hfits hp := by
    obtain ⟨given, hfits', hensures⟩ :=
      (governs_closing E hlimit id).joins t es label p hfits.fits hp
    exact ⟨given, hfits.join hfits', hensures⟩
  reaches t es i e now request told hfits he hmay htold := by
    obtain ⟨given, htells, hfits'⟩ :=
      (governs_closing E hlimit id).reaches t es i e now request told hfits.fits he hmay htold
    obtain ⟨hstored, hunclaimed⟩ :=
      hfits.fits.idle hfits.stored hcompleted (hfits.writes ▸ hbound) he hmay htold
    have hsame : (t.answer now request).2.find? id = t.find? id := hstored.trans hfits.stored.symm
    refine ⟨given, htells, hfits.set he hfits' hstored ?_ ?_ ?_⟩
    · exact Mark.countP_concat_of_same _ hsame
    · simp [Mark.closes_of_same (m := ⟨⟨request, told⟩, t, (t.answer now request).2⟩) hsame]
    · simp [Mark.handsOut, hunclaimed]
  fails t es i e request failure hfits he hmay := by
    obtain ⟨given, htells, hfits'⟩ :=
      (governs_closing E hlimit id).fails t es i e request failure hfits.fits he hmay
    exact ⟨given, htells, hfits.set he hfits' hfits.stored rfl rfl rfl⟩
  asks t es request now hfits hopen := by
    refine ⟨hfits.fits.stranger hlimit hopen, ?_, hfits.writes, hfits.closings, hfits.handovers⟩
    have hwritten := t.written_answer now request
    generalize (t.answer now request).2 = t' at hwritten
    cases hwritten with
    | none => exact hfits.stored
    | created r hfree => exact Table.find?_insert_of_stored hfree hfits.stored
    | updated => exact hopen.elim
    | claimed => exact hopen.elim
  shows _ := trivial

namespace Workshop

variable {E : Interface} {limit : UInt64} {id : RecordId}

theorem tally_entries {jobs : List (Job E Unit (Except Failure Bool))}
    {es : List (Entry Unit (List Record))}
    (h : List.Forall₂ (Watch.closing limit id).Follows jobs es) (f : Mark → Bool) :
    Closing.tally f es = (jobs.map fun job => job.marks.countP f).sum :=
  congrArg List.sum
    (Watch.map_entries (W := Watch.closing limit id) (fun _ marks => marks.countP f) h)

/-- **A limit on closings.**  At all times a record counts the times that it has been closed, which
are not more than the limit.  It is completed as soon as they reach the limit; and whatever comes
after that, it stays as it is and is handed to nobody.

This holds as long as the record is written fewer than `2^64` times: a version is a word, and one
that came round again would let a worker write an old record. -/
theorem closings_limited (hlimit : 0 < limit) (id : RecordId)
    (moves more : List (Move (Charter.closing E limit)))
    (hbound : 1 + (run .empty moves).writes id < UInt64.size) :
    (run .empty moves).closings id ≤ limit.toNat ∧
    ∀ s, (run .empty moves).table.find? id = some s →
      s.closedCount.toNat = (run .empty moves).closings id ∧ s.closedCount ≤ limit ∧
      (s.closedCount = limit → s.status = some .completed) ∧
      (s.status = some .closed → s.closedCount < limit) ∧
      (s.status = some .completed → s.completedAt.isSome ∧ s.reopenAt = none ∧
        (run .empty (moves ++ more)).table.find? id = some s ∧
        (run .empty (moves ++ more)).closings id = (run .empty moves).closings id ∧
        (run .empty (moves ++ more)).handovers id = (run .empty moves).handovers id) := by
  have hstart : (Watch.closing limit id).Fits .empty [] := by
    refine ⟨Table.distinct_empty, fun _ => ⟨rfl, rfl, fun _ h => nomatch h⟩, fun s hs => nomatch hs⟩
  obtain ⟨es, hes, hfits⟩ := Watch.sound_run (Watch.governs_closing E hlimit id) hstart moves
  have hwrites : Closing.tally (·.writes id) es = (run .empty moves).writes id :=
    tally_entries hes _
  have hclosings : Closing.tally (·.closes id) es = (run .empty moves).closings id :=
    tally_entries hes _
  have hhandovers : Closing.tally (·.handsOut id) es = (run .empty moves).handovers id :=
    tally_entries hes _
  rw [← hwrites] at hbound
  refine ⟨?_, fun s hs => ?_⟩
  · cases hs : (run .empty moves).table.find? id with
    | none =>
      rw [← hclosings, (hfits.missing hs).2.1]
      exact Nat.zero_le _
    | some s =>
      have hacc := hfits.stored s hs hbound
      rw [← hclosings, ← hacc.closings]
      exact UInt64.le_iff_toNat_le.mp hacc.heeds.most
  · have hacc := hfits.stored s hs hbound
    refine ⟨hacc.closings.trans hclosings, hacc.heeds.most, hacc.heeds.reached, ?_, ?_⟩
    · exact fun hclosed => hacc.heeds.lt (hclosed ▸ nofun)
    · intro hcompleted
      obtain ⟨hdone, hnone⟩ := hacc.heeds.completed hcompleted
      -- From here on the completed record itself is watched.
      have hrests : (Watch.closed limit id s _ _ _).Sound (run .empty moves) :=
        ⟨es, hes.imp fun _ _ => Watch.follows_closed.mpr, hfits, hs, rfl, hclosings, hhandovers⟩
      obtain ⟨es', hes', hrests'⟩ :=
        hrests.foldl (Watch.governs_closed E hlimit hcompleted hbound) more
      replace hes' := hes'.imp fun _ _ => Watch.follows_closed.mp
      rw [run_append]
      refine ⟨hdone, hnone, hrests'.stored, ?_, ?_⟩
      · exact (tally_entries hes' _).symm.trans hrests'.closings
      · exact (tally_entries hes' _).symm.trans hrests'.handovers

/-- A processor that saves its stream and wants it closed. -/
def closer (n : Node) : Processor Interface.none streamKind Unit := fun p s => do
  match ← (n.save p none : Node.Action Interface.none _).run with
  | .ok saved => return ⟨.ok (.closed .zero), saved, s⟩
  | .error failure => return ⟨.error failure, p, s⟩

theorem saves_closer (n : Node) : Work.Saves (closer n) := by
  intro p r s hr hstatus
  have hsave : (Surroundings.working false (·.isSave = true)).Yields
      (fun q (given : List Record) => ∃ w ∈ given, q.record = some w ∧ w.status = some .assigned)
      (fun _ given => given = [r]) (n.save p none) [r] :=
    Surroundings.working_save (E := Interface.none) hr (List.mem_singleton_self r) hstatus n none
      fun _ => rfl
  refine Surroundings.Ensures.bind hsave fun result given hresult => ?_
  match result with
  | .ok saved =>
    obtain ⟨w, hw, hsaved, -⟩ := hresult
    exact ⟨w, hw, hsaved⟩
  | .error failure =>
    obtain rfl : given = [r] := hresult
    exact ⟨r, List.mem_singleton_self r, hr⟩

/-- A stream is created and then closed by two passes. -/
def twoClosings : List (Move (Charter.closing Interface.none 2)) :=
  let n : Node := ⟨"db", "node-a", .seconds 60⟩
  let turn (i : Nat) : Move (Charter.closing Interface.none 2) :=
    .turn i ⟨.epoch, none, false, fun q => q.elim⟩
  let join : Move (Charter.closing Interface.none 2) :=
    .join () _ ⟨n, streamKind, Unit, { WorkerSettings.default with maxClosedCount := some 2 },
      closer n, (), rfl, saves_closer n, rfl⟩
  [.stranger (.create (n.newRecord "STREAM" "db.orders" true none .epoch)) .epoch
      ⟨n, "STREAM", "db.orders", true, none, .epoch, rfl⟩, join, join, join] ++
    List.replicate 5 (turn 0) ++ List.replicate 5 (turn 1)

/-- A third pass finds nothing to work on. -/
def thirdPass : List (Move (Charter.closing Interface.none 2)) :=
  List.replicate 5 (.turn 2 ⟨.epoch, none, false, fun q => q.elim⟩)

/-- The second closing completes the stream. -/
theorem closings_twoClosings : ∃ s, (run .empty (twoClosings ++ thirdPass)).table.find?
      ⟨"db", "STREAM", "db.orders"⟩ = some s ∧
    s.status = some .completed ∧ s.closedCount.toNat = 2 ∧ s.completedAt.isSome ∧
    (run .empty (twoClosings ++ thirdPass)).handovers ⟨"db", "STREAM", "db.orders"⟩ = 2 := by
  obtain ⟨hwrites, hclosings, hhandovers, hfound⟩ :
      (run .empty twoClosings).writes ⟨"db", "STREAM", "db.orders"⟩ = 6 ∧
      (run .empty twoClosings).closings ⟨"db", "STREAM", "db.orders"⟩ = 2 ∧
      (run .empty twoClosings).handovers ⟨"db", "STREAM", "db.orders"⟩ = 2 ∧
      ((run .empty twoClosings).table.find? ⟨"db", "STREAM", "db.orders"⟩).map
        (fun s => (s.status, s.closedCount)) = some (some .completed, 2) := by
    decide +kernel
  obtain ⟨s, hs, hpair⟩ := Option.map_eq_some_iff.mp hfound
  obtain ⟨hstatus, -⟩ := Prod.mk.inj hpair
  obtain ⟨-, hstored⟩ := closings_limited (by decide) ⟨"db", "STREAM", "db.orders"⟩ twoClosings
    thirdPass (by rw [hwrites]; decide)
  obtain ⟨hcount, -, -, -, hcompleted⟩ := hstored s hs
  obtain ⟨hdone, -, hstays, -, hidle⟩ := hcompleted hstatus
  exact ⟨s, hstays, hstatus, hcount.trans hclosings, hdone, hidle.trans hhandovers⟩

end Workshop

end LeasedWork
