import LeasedWork.Fleet.Election
import LeasedWork.Proofs.Fleet.Accords
import LeasedWork.Proofs.Fleet.Runs
import LeasedWork.Proofs.Partition.Keys
import LeasedWork.Proofs.Store.Requests

/-! # What a bootstrap prepares

A bootstrap creates the records of every collection of its list: the collection's shared state, and
as far as they are wanted the export, the export's load status and the stream.  No request ever
deletes a record (`Table.Within`), so a collection is `Ready` for good once they have been created,
by whomever, and a bootstrap that succeeds leaves all its collections ready
(`Candidate.secures_bootstrap`).

A bootstrap asks for nothing but shared state and creations of other kinds than the leader's, so it
leaves the leader's record of its source alone (`Accord.sparing`), whatever becomes of it on the
way.
-/
namespace LeasedWork

/-! ## The leader's record is left alone -/

/-- The identity of a source's leader record. -/
def leaderId (source : String) : RecordId := ⟨source, leaderKind.tag, Key.leader⟩

/-- Whether a request cannot write a leader's record of a source. -/
def Request.Spares (source : String) : Request → Prop
  | .create r | .update r => ¬ (r.source = source ∧ r.kind = leaderKind.tag)
  | .claim s kind _ _ => ¬ (s = source ∧ kind = leaderKind.tag)
  | .prepare | .get _ | .byStatus _ _ _ _ | .all _ _ => True

/-- A source has one leader record at most. -/
def Table.OneLeader (source : String) (t : Table) : Prop :=
  ∀ r ∈ t.rows, r.source = source → r.kind = leaderKind.tag → r.key = Key.leader

namespace Table

variable {source : String} {t : Table} {r : Record}

theorem OneLeader.insert (h : t.OneLeader source)
    (hr : r.source = source → r.kind = leaderKind.tag → r.key = Key.leader) :
    (t.insert r).OneLeader source := by
  intro x hx
  rcases List.mem_append.mp hx with hold | hnew
  · exact h x hold
  · obtain rfl := List.mem_singleton.mp hnew
    exact hr

theorem OneLeader.replace (h : t.OneLeader source)
    (hr : r.source = source → r.kind = leaderKind.tag → r.key = Key.leader) :
    (t.replace r).OneLeader source := by
  intro x hx
  obtain ⟨old, hold, rfl⟩ := List.mem_map.mp hx
  split
  · exact hr
  · exact h old hold

/-- Only the leader's record can be claimed for the leadership. -/
theorem OneLeader.mem_candidates (hone : t.OneLeader source) (hd : t.Distinct) {now : Instant} :
    r ∈ candidates now (t.ofKind source leaderKind.tag) ↔
      t.find? (leaderId source) = some r ∧ r.isAvailable now = true := by
  rw [LeasedWork.mem_candidates, mem_ofKind, find?_iff hd]
  refine and_congr_left fun _ => and_congr_right fun hr => ⟨?_, ?_⟩
  · rintro ⟨hsource, hkind⟩
    exact congr (congr (congrArg RecordId.mk hsource) hkind) (hone r hr hsource hkind)
  · exact fun hid => ⟨congrArg RecordId.source hid, congrArg RecordId.kind hid⟩

theorem OneLeader.answer_claim_of_available (hone : t.OneLeader source) (hd : t.Distinct)
    {now : Instant} (owner : String) (lease : Span) (hr : t.find? (leaderId source) = some r)
    (havailable : r.isAvailable now = true) :
    t.answer now (.claim source leaderKind.tag owner lease) =
      (.ok (some (r.claimed owner now lease)), t.replace (r.claimed owner now lease)) := by
  have hmem := (hone.mem_candidates hd).mpr ⟨hr, havailable⟩
  cases hc : candidates now (t.ofKind source leaderKind.tag) with
  | nil =>
    rw [hc] at hmem
    cases hmem
  | cons first rest =>
    have hfirst := (hone.mem_candidates hd).mp (hc ▸ List.mem_cons_self (a := first))
    obtain rfl : r = first := Option.some.inj (hr.symm.trans hfirst.1)
    simp only [answer, hc]

theorem OneLeader.answer_claim_of_not_available (hone : t.OneLeader source) (hd : t.Distinct)
    {now : Instant} (owner : String) (lease : Span)
    (h : ∀ r, t.find? (leaderId source) = some r → ¬ r.isAvailable now = true) :
    t.answer now (.claim source leaderKind.tag owner lease) = (.ok none, t) := by
  cases hc : candidates now (t.ofKind source leaderKind.tag) with
  | nil => simp only [answer, hc]
  | cons first rest =>
    have hfirst := (hone.mem_candidates hd).mp (hc ▸ List.mem_cons_self (a := first))
    exact absurd hfirst.2 (h first hfirst.1)

end Table

/-- The agreement to leave the leader's record of a source alone. -/
def Accord.sparing (source : String) : Accord where
  Good t := t.Distinct ∧ t.OneLeader source
  Grows t u := u.find? (leaderId source) = t.find? (leaderId source) ∧ t.Within u
  May _ request := request.Spares source
  refl _ := ⟨rfl, fun _ => id⟩
  trans h h' := ⟨h'.1.trans h.1, fun id hid => h'.2 id (h.2 id hid)⟩
  keeps {t request} now := by
    rintro ⟨hd, hone⟩ hmay
    have hdistinct := Table.distinct_answer hd now request
    have hwithin := t.within_answer now request
    have hother : ∀ r : Record, ¬ (r.source = source ∧ r.kind = leaderKind.tag) →
        leaderId source ≠ r.id :=
      fun r hr hid => hr ⟨congrArg RecordId.source hid.symm, congrArg RecordId.kind hid.symm⟩
    have hwritten := t.written_answer now request
    generalize (t.answer now request).2 = u at *
    cases hwritten with
    | none => exact ⟨⟨hdistinct, hone⟩, rfl, hwithin⟩
    | created r hfree =>
      have hfree' : t.find? r.firstVersion.id = none := hfree
      refine ⟨⟨hdistinct, hone.insert fun hs hk => absurd ⟨hs, hk⟩ hmay⟩, ?_, hwithin⟩
      exact (Table.find?_insert hfree' _).trans (if_neg (hother r hmay))
    | updated r stored =>
      exact ⟨⟨hdistinct, hone.replace fun hs hk => absurd ⟨hs, hk⟩ hmay⟩,
        Table.find?_replace_of_ne (hother r hmay), hwithin⟩
    | claimed r owner lease hr =>
      exact ⟨⟨hdistinct, hone.replace (hone r hr)⟩,
        Table.find?_replace_of_ne (hother r hmay), hwithin⟩

/-! ## Collections -/

/-- All records that a bootstrap creates for a collection are there. What they say is not part of
it: whoever else uses the table may have written over them since. -/
structure Collection.Ready (source : String) (c : Collection) (t : Table) : Prop where
  published : t.Has ⟨source, "GLOBAL", c.name⟩
  /-- The time in the key is that of the bootstrap that came first. -/
  snapshot : ∀ size, c.exportSize = some size → ∃ time : Instant,
    t.Has ⟨source, "EXPORT",
      c.name ++ "|" ++ toString size.toNat ++ "|" ++ toString time.millis⟩
  counted : ∀ size, c.exportSize = some size → t.Has ⟨source, "GLOBAL", "EXPORT-" ++ c.name⟩
  stream : c.stream = true → t.Has ⟨source, "STREAM", c.name⟩

theorem Collection.Ready.within {source : String} {c : Collection} {t u : Table}
    (h : c.Ready source t) (htu : t.Within u) : c.Ready source u where
  published := htu _ h.published
  snapshot size hsize := (h.snapshot size hsize).imp fun _ => htu _
  counted size hsize := htu _ (h.counted size hsize)
  stream hstream := htu _ (h.stream hstream)

namespace Candidate

open Accord

variable {E : Interface} {source : String} {t : Table}

/-- A creation of another kind than the leader's. -/
theorem secures_creation {k : PartitionKind} (hk : k.tag ≠ leaderKind.tag) (n : Node)
    (p : Partition k) :
    (sparing source).Secures (E := E) (fun _ u => u.Has ⟨n.source, k.tag, p.key⟩) (n.create p)
      t := by
  refine secures_create fun time u _ _ => ?_
  have hid := n.id_newRecord k.tag p.key k.leased p.progressText time
  refine ⟨fun h => hk ((congrArg RecordId.kind hid).symm.trans h.2), fun now b _ v _ hgrows => ?_⟩
  exact hid ▸ hgrows.2 _ (u.has_of_create now _)

/-- A collection is published whoever has published it. -/
theorem secures_pinSnapshot (n : Node) (c : Collection) (proposed : Instant) :
    (sparing source).Secures (E := E) (fun _ u => u.Has ⟨n.source, sharedKind.tag, c.name⟩)
      (pinSnapshot n c proposed) t := by
  refine Secures.bind (secures_creation (by decide) n _) fun isNew u _ _ hpublished => ?_
  cases isNew with
  | true => exact secures_pure fun v _ huv => huv.2 _ hpublished
  | false =>
    have hlook : (sparing source).Secures (E := E) (fun _ _ => True)
        (n.shared? (Partition.ofRecord sharedKind) c.name) u :=
      secures_shared fun _ _ _ => ⟨trivial, fun _ _ _ => ⟨fun _ => trivial, fun _ _ _ _ => trivial⟩⟩
    exact hlook.bind fun _ v _ huv _ =>
      secures_pure fun w _ hvw => hvw.2 _ (huv.2 _ hpublished)

/-- Creates the export of a collection and its load status, if the collection is to be exported. -/
def createExport (n : Node) (snapshot : Instant) (c : Collection) : Node.Action E Unit :=
  match c.exportSize with
  | none => return ()
  | some size => do
    let _ ← n.create (newSnapshot ⟨c.name, size, snapshot⟩)
    let _ ← n.create (newShared (LoadStatus.keyOf c.name) (LoadStatus.starting snapshot).toMembers)
    return ()

/-- What a stream of a collection begins with. -/
def streamStart (snapshot : Instant) (c : Collection) : StreamProgress :=
  ⟨Int64.ofInt snapshot.millis, none, none, c.exportSize.isSome⟩

/-- Creates the stream of a collection, if its changes are to be read. -/
def createStream (n : Node) (snapshot : Instant) (c : Collection) : Node.Action E Unit := do
  if c.stream then
    let _ ← n.create (newStream c.name (streamStart snapshot c))

theorem createCollection_eq (n : Node) (proposed : Instant) (c : Collection) :
    createCollection (E := E) n proposed c = (do
      let snapshot ← pinSnapshot n c proposed
      createExport n snapshot c
      createStream n snapshot c) := by
  unfold createCollection createExport createStream streamStart
  cases c.exportSize with
  | none => simp only [pure_bind]
  | some size => simp only [bind_assoc, pure_bind]

theorem secures_createExport (n : Node) (snapshot : Instant) (c : Collection) :
    (sparing source).Secures (E := E) (fun _ u => ∀ size, c.exportSize = some size →
        u.Has ⟨n.source, snapshotKind.tag, SnapshotId.key ⟨c.name, size, snapshot⟩⟩ ∧
          u.Has ⟨n.source, sharedKind.tag, LoadStatus.keyOf c.name⟩)
      (createExport n snapshot c) t := by
  unfold createExport
  cases c.exportSize with
  | none => exact secures_pure fun _ _ _ _ hsize => nomatch hsize
  | some size =>
    refine Secures.bind (secures_creation (by decide) n _) fun _ u _ _ hsnapshot => ?_
    refine Secures.bind (secures_creation (by decide) n _) fun _ v _ huv hstatus => ?_
    refine secures_pure fun w _ hvw _ hsize => ?_
    obtain rfl := Option.some.inj hsize
    exact ⟨hvw.2 _ (huv.2 _ hsnapshot), hvw.2 _ hstatus⟩

theorem secures_createStream (n : Node) (snapshot : Instant) (c : Collection) :
    (sparing source).Secures (E := E)
      (fun _ u => c.stream = true → u.Has ⟨n.source, streamKind.tag, c.name⟩)
      (createStream n snapshot c) t := by
  unfold createStream
  cases c.stream with
  | false => exact secures_pure fun _ _ _ hstream => nomatch hstream
  | true =>
    refine Secures.bind (secures_creation (by decide) n _) fun _ u _ _ hstream => ?_
    exact secures_pure fun v _ huv _ => huv.2 _ hstream

theorem secures_createCollection (n : Node) (proposed : Instant) (c : Collection) :
    (sparing source).Secures (E := E) (fun _ u => c.Ready n.source u)
      (createCollection n proposed c) t := by
  rw [createCollection_eq]
  refine Secures.bind (secures_pinSnapshot n c proposed) fun snapshot u _ _ hpublished => ?_
  refine Secures.bind (secures_createExport n snapshot c) fun _ v _ huv hexported => ?_
  refine (secures_createStream n snapshot c).imp fun _ w _ hvw hstream => ?_
  exact {
    published := hvw.2 _ (huv.2 _ hpublished)
    snapshot := fun size hsize => ⟨snapshot, hvw.2 _ <|
      SnapshotId.key_eq ⟨c.name, size, snapshot⟩ ▸ (hexported size hsize).1⟩
    counted := fun size hsize => hvw.2 _ (hexported size hsize).2
    stream := hstream }

theorem secures_createCollections (n : Node) (proposed : Instant) (cs : List Collection) :
    (sparing source).Secures (E := E) (fun _ u => ∀ c ∈ cs, c.Ready n.source u)
      (createCollections n proposed cs) t := by
  induction cs generalizing t with
  | nil => exact secures_pure fun _ _ _ c hc => nomatch hc
  | cons c rest ih =>
    refine Secures.bind (secures_createCollection n proposed c) fun _ u _ _ hready => ?_
    refine ih.imp fun _ v _ huv hrest => List.forall_mem_cons.mpr ⟨hready.within huv.2, hrest⟩

/-- **A bootstrap that succeeds leaves all its collections ready.** -/
theorem secures_bootstrap (c : Candidate) :
    (sparing source).Secures (E := E) (fun _ u => ∀ x ∈ c.collections, x.Ready c.node.source u)
      c.bootstrap t := by
  exact secures_now fun time => secures_ofExcept fun proposed _ =>
    secures_createCollections c.node proposed c.collections

end Candidate

end LeasedWork
