import LeasedWork.Proofs.Fleet.Preparation
import LeasedWork.Proofs.Fleet.SharedState

/-! # Pinned snapshots

Each bootstrap proposes a time for the snapshots of its collections, and many bootstraps may be at
work at once.  Whoever creates a collection's shared state pins the snapshot: that state is never
written again, so everybody else finds the time in it (`Table.pinned?`) and goes on with it.

This is an accord (`Accord.pinning`).  The state of a collection says when its snapshot is, and
whatever else is created for a collection goes by that time (`Lawful`).  A bootstrap abides by it:
it pins the time or reads the one that has been pinned (`Candidate.pinning_pinSnapshot`), and
creates the rest with what it has got (`Candidate.pinning_bootstrap`).
-/
namespace LeasedWork

/-! ## The records of a collection -/

namespace Collection

variable (source : String) (c : Collection)

/-- The collection's own shared state. -/
def configId : RecordId := ⟨source, sharedKind.tag, c.name⟩

def statusId : RecordId := ⟨source, sharedKind.tag, LoadStatus.keyOf c.name⟩

def streamId : RecordId := ⟨source, streamKind.tag, c.name⟩

/-- The collection's shared state with the time of its snapshot. -/
def pinText (time : Instant) : String := sharedKind.text (c.toMembers time.millis)

end Collection

/-- A record is that of an export of a collection. -/
def Record.IsExportOf (source : String) (c : Collection) (r : Record) : Prop :=
  r.source = source ∧ r.kind = snapshotKind.tag ∧
    ∃ i, SnapshotId.readKey r.key = .ok i ∧ i.collection = c.name

/-- The time of a collection's snapshot, as it is found in the collection's shared state. -/
def Table.pinned? (source : String) (c : Collection) (t : Table) : Option Instant :=
  (t.find? (c.configId source)).bind fun r =>
    match Partition.ofRecord sharedKind r with
    | .ok p => Candidate.pinnedTime (some p)
    | .error _ => none

/-- An export of a collection goes by the time of the collection's snapshot. -/
def Collection.Exports (source : String) (c : Collection) (t : Table) (r : Record) : Prop :=
  ∃ time size, t.pinned? source c = some time ∧ c.exportSize = some size ∧
    r.key = SnapshotId.key ⟨c.name, size, time⟩ ∧
    r.progress = some (snapshotKind.text (.starting c.name time))

/-- A record may be created: if it belongs to a collection, it goes by the time of the collection's
snapshot, or it is the one that pins it. -/
structure Lawful (source : String) (cs : List Collection) (t : Table) (r : Record) : Prop where
  pins : ∀ c ∈ cs, r.id = c.configId source →
    ∃ time, time.Whole ∧ r.progress = some (c.pinText time)
  counts : ∀ c ∈ cs, r.id = c.statusId source → ∃ time, t.pinned? source c = some time ∧
    r.progress = some (sharedKind.text (LoadStatus.starting time).toMembers)
  streams : ∀ c ∈ cs, r.id = c.streamId source → ∃ time, t.pinned? source c = some time ∧
    r.progress = some (streamKind.text (Candidate.streamStart time c))
  exports : ∀ c ∈ cs, r.IsExportOf source c → c.Exports source t r

/-- What is true of a table in which snapshots are pinned. -/
structure Pinning (source : String) (cs : List Collection) (t : Table) : Prop where
  distinct : t.Distinct
  pins : ∀ c ∈ cs, ∀ r, t.find? (c.configId source) = some r →
    ∃ time, time.Whole ∧ r.progress = some (c.pinText time)
  exports : ∀ c ∈ cs, ∀ r ∈ t.rows, r.IsExportOf source c → c.Exports source t r

/-- The shared state of every collection stays as it is. -/
def StaysPinned (source : String) (cs : List Collection) (t u : Table) : Prop :=
  ∀ c ∈ cs, ∀ r, t.find? (c.configId source) = some r → u.find? (c.configId source) = some r

variable {source : String} {cs : List Collection} {c : Collection} {t u : Table} {r : Record}
  {time : Instant}

theorem ofRecord_shared {ms : Json.Members} (hkind : r.kind = sharedKind.tag)
    (hkeeps : sharedKind.Keeps ms) (hr : r.progress = some (sharedKind.text ms)) :
    Partition.ofRecord sharedKind r = .ok ⟨r.key, some ms, some r⟩ :=
  Partition.ofRecord_of_keeps hkind rfl hkeeps hr

/-- What is found in a collection's shared state. -/
theorem ofRecord_config (hr : t.find? (c.configId source) = some r)
    (hprogress : r.progress = some (c.pinText time)) :
    Partition.ofRecord sharedKind r = .ok ⟨r.key, some (c.toMembers time.millis), some r⟩ := by
  have hkind : r.kind = sharedKind.tag := congrArg RecordId.kind (Table.find?_some hr).2
  exact ofRecord_shared hkind (Collection.keeps_toMembers time.millis_range) hprogress

theorem Table.pinned_of_find (hr : t.find? (c.configId source) = some r) (htime : time.Whole)
    (hprogress : r.progress = some (c.pinText time)) : t.pinned? source c = some time := by
  rw [pinned?, hr, Option.bind_some, ofRecord_config hr hprogress]
  exact Candidate.pinnedTime_of_toMembers htime rfl

namespace Pinning

variable (h : Pinning source cs t) (hc : c ∈ cs)

include h hc

/-- A collection's shared state pins its snapshot. -/
theorem pinned (hr : t.find? (c.configId source) = some r) :
    ∃ time, t.pinned? source c = some time := by
  obtain ⟨time, htime, hprogress⟩ := h.pins c hc r hr
  exact ⟨time, Table.pinned_of_find hr htime hprogress⟩

theorem of_pinned (hpinned : t.pinned? source c = some time) :
    time.Whole ∧ ∃ r, t.find? (c.configId source) = some r ∧
      r.progress = some (c.pinText time) := by
  obtain ⟨r, hr, -⟩ := Option.bind_eq_some_iff.mp hpinned
  obtain ⟨time', htime, hprogress⟩ := h.pins c hc r hr
  obtain rfl : time' = time :=
    Option.some.inj ((Table.pinned_of_find hr htime hprogress).symm.trans hpinned)
  exact ⟨htime, r, hr, hprogress⟩

end Pinning

namespace StaysPinned

variable (h : StaysPinned source cs t u) (hc : c ∈ cs)

include h hc

theorem pinned (hpinned : t.pinned? source c = some time) : u.pinned? source c = some time := by
  obtain ⟨r, hr, hread⟩ := Option.bind_eq_some_iff.mp hpinned
  rw [Table.pinned?, h c hc r hr]
  exact hread

theorem exports (hexports : c.Exports source t r) : c.Exports source u r := by
  obtain ⟨time, size, hpinned, hrest⟩ := hexports
  exact ⟨time, size, h.pinned hc hpinned, hrest⟩

end StaysPinned

/-- Whoever publishes a collection pins its snapshot, unless somebody else has done so. -/
theorem Pinning.published (h : Pinning source cs t) (hc : c ∈ cs) (hid : r.id = c.configId source)
    (htime : time.Whole) (hprogress : r.progress = some (c.pinText time)) {now : Instant}
    {isNew : Bool} (hanswer : (t.answer now (.create r)).1 = .ok isNew)
    (hstays : StaysPinned source cs (t.answer now (.create r)).2 u) :
    ∃ time', u.pinned? source c = some time' ∧ (isNew = true → time' = time) := by
  cases hx : t.find? r.id with
  | some x =>
    rw [Table.answer_create_of_some now hx] at hanswer hstays
    obtain rfl : false = isNew := Except.ok.inj hanswer
    obtain ⟨time', hpinned⟩ := h.pinned hc (hid ▸ hx)
    exact ⟨time', hstays.pinned hc hpinned, fun hnew => nomatch hnew⟩
  | none =>
    rw [Table.answer_create_of_none now hx] at hstays
    have hfree : t.find? r.firstVersion.id = none := hx
    have hfind : (t.insert r.firstVersion).find? (c.configId source) = some r.firstVersion :=
      (Table.find?_insert hfree _).trans (if_pos hid.symm)
    exact ⟨time, hstays.pinned hc (Table.pinned_of_find hfind htime hprogress), fun _ => rfl⟩

/-! ## The accord -/

namespace Pinning

/-- A lawful record may be put in. -/
theorem insert (h : Pinning source cs t) (hfree : t.find? r.id = none)
    (hlawful : Lawful source cs t r) : Pinning source cs (t.insert r.firstVersion) ∧
      StaysPinned source cs t (t.insert r.firstVersion) := by
  have hfree' : t.find? r.firstVersion.id = none := hfree
  have hstays : StaysPinned source cs t (t.insert r.firstVersion) :=
    fun c _ x hx => Table.find?_insert_of_stored hfree' hx
  refine ⟨⟨Table.distinct_insert h.distinct hfree', fun c hc x hx => ?_, fun c hc x hx hof => ?_⟩,
    hstays⟩
  · rw [Table.find?_insert hfree'] at hx
    split at hx
    · rename_i hid
      obtain rfl := Option.some.inj hx
      exact hlawful.pins c hc hid.symm
    · exact h.pins c hc x hx
  · rcases List.mem_append.mp hx with hold | hnew
    · exact hstays.exports hc (h.exports c hc x hold hof)
    · obtain rfl := List.mem_singleton.mp hnew
      exact hstays.exports hc (hlawful.exports c hc hof)

/-- A record may be replaced that pins nothing, and goes by the pinned time. -/
theorem replace (h : Pinning source cs t) (hother : ∀ c ∈ cs, c.configId source ≠ r.id)
    (hexports : ∀ c ∈ cs, r.IsExportOf source c → c.Exports source t r) :
    Pinning source cs (t.replace r) ∧ StaysPinned source cs t (t.replace r) := by
  have hsame : ∀ c ∈ cs, (t.replace r).find? (c.configId source) = t.find? (c.configId source) :=
    fun c hc => Table.find?_replace_of_ne (hother c hc)
  have hstays : StaysPinned source cs t (t.replace r) := fun c hc x hx => (hsame c hc).trans hx
  refine ⟨⟨Table.distinct_replace h.distinct r, fun c hc x hx => h.pins c hc x (hsame c hc ▸ hx),
    fun c hc x hx hof => ?_⟩, hstays⟩
  obtain ⟨old, hold, rfl⟩ := List.mem_map.mp hx
  by_cases hid : old.id = r.id
  · rw [if_pos hid] at hof ⊢
    exact hstays.exports hc (hexports c hc hof)
  · rw [if_neg hid] at hof ⊢
    exact hstays.exports hc (h.exports c hc old hold hof)

end Pinning

/-- The agreement to go by the pinned times of some collections' snapshots. -/
def Accord.pinning (source : String) (cs : List Collection) : Accord where
  Good := Pinning source cs
  Grows := StaysPinned source cs
  May t
    | .create r => Lawful source cs t r
    | .update r => ∀ c ∈ cs, c.configId source ≠ r.id ∧
        (r.IsExportOf source c → c.Exports source t r)
    | .claim s kind _ _ => ¬ (s = source ∧ kind = sharedKind.tag)
    | .prepare | .get _ | .byStatus _ _ _ _ | .all _ _ => True
  refl _ := fun _ _ _ => id
  trans h h' := fun c hc r hr => h' c hc r (h c hc r hr)
  keeps {t request} now := by
    intro hgood hmay
    have hwritten := t.written_answer now request
    generalize (t.answer now request).2 = u at hwritten ⊢
    cases hwritten with
    | none => exact ⟨hgood, fun _ _ _ => id⟩
    | created r hfree => exact hgood.insert hfree hmay
    | updated r stored =>
      exact hgood.replace (fun c hc => (hmay c hc).1) fun c hc hof => (hmay c hc).2 hof
    | claimed r owner lease hr =>
      refine hgood.replace (fun c hc hid => hmay ?_) fun c hc hof => hgood.exports c hc r hr hof
      exact ⟨(congrArg RecordId.source hid).symm, (congrArg RecordId.kind hid).symm⟩

/-! ## What may be created -/

/-- What is kept of collections tells them apart. -/
structure Distinguished (cs : List Collection) : Prop where
  names : (cs.map Collection.name).Nodup
  plain : ∀ c ∈ cs, ¬ "EXPORT-".toList <+: c.name.toList

namespace Distinguished

variable (h : Distinguished cs) (hc : c ∈ cs)

include h hc

theorem eq_of_name {c' : Collection} (hc' : c' ∈ cs) (hname : c.name = c'.name) : c = c' :=
  List.inj_on_of_nodup_map h.names hc hc' hname

theorem name_ne_keyOf (x : String) : c.name ≠ LoadStatus.keyOf x := by
  intro hname
  refine h.plain c hc ?_
  rw [hname, LoadStatus.keyOf, String.toList_append]
  exact List.prefix_append _ _

end Distinguished

theorem lawful_of_kind (hshared : r.kind ≠ sharedKind.tag) (hstream : r.kind ≠ streamKind.tag)
    (hsnapshot : r.kind ≠ snapshotKind.tag) : Lawful source cs t r where
  pins _ _ hid := absurd (congrArg RecordId.kind hid) hshared
  counts _ _ hid := absurd (congrArg RecordId.kind hid) hshared
  streams _ _ hid := absurd (congrArg RecordId.kind hid) hstream
  exports _ _ hof := absurd hof.2.1 hsnapshot

section Lawful

variable (h : Distinguished cs) (hc : c ∈ cs)

include h hc

theorem lawful_config (hid : r.id = c.configId source) (htime : time.Whole)
    (hprogress : r.progress = some (c.pinText time)) : Lawful source cs t r where
  pins c' hc' hid' := by
    obtain rfl := h.eq_of_name hc hc' (congrArg RecordId.key (hid.symm.trans hid'))
    exact ⟨time, htime, hprogress⟩
  counts c' _ hid' :=
    absurd (congrArg RecordId.key (hid.symm.trans hid')) (h.name_ne_keyOf hc c'.name)
  streams _ _ hid' :=
    absurd (congrArg RecordId.kind (hid.symm.trans hid'))
      (by decide : sharedKind.tag ≠ streamKind.tag)
  exports _ _ hof := absurd ((congrArg RecordId.kind hid).symm.trans hof.2.1)
    (by decide : sharedKind.tag ≠ snapshotKind.tag)

variable (hpinned : t.pinned? source c = some time)

include hpinned

theorem lawful_status (hid : r.id = c.statusId source)
    (hprogress : r.progress = some (sharedKind.text (LoadStatus.starting time).toMembers)) :
    Lawful source cs t r where
  pins c' hc' hid' :=
    absurd (congrArg RecordId.key (hid'.symm.trans hid)) (h.name_ne_keyOf hc' c.name)
  counts c' hc' hid' := by
    have hkey : LoadStatus.keyOf c.name = LoadStatus.keyOf c'.name :=
      congrArg RecordId.key (hid.symm.trans hid')
    have hname : c.name = c'.name := String.append_right_inj _ |>.mp hkey
    obtain rfl := h.eq_of_name hc hc' hname
    exact ⟨time, hpinned, hprogress⟩
  streams _ _ hid' :=
    absurd (congrArg RecordId.kind (hid.symm.trans hid'))
      (by decide : sharedKind.tag ≠ streamKind.tag)
  exports _ _ hof := absurd ((congrArg RecordId.kind hid).symm.trans hof.2.1)
    (by decide : sharedKind.tag ≠ snapshotKind.tag)

theorem lawful_stream (hid : r.id = c.streamId source)
    (hprogress : r.progress = some (streamKind.text (Candidate.streamStart time c))) :
    Lawful source cs t r where
  pins _ _ hid' :=
    absurd (congrArg RecordId.kind (hid.symm.trans hid'))
      (by decide : streamKind.tag ≠ sharedKind.tag)
  counts _ _ hid' :=
    absurd (congrArg RecordId.kind (hid.symm.trans hid'))
      (by decide : streamKind.tag ≠ sharedKind.tag)
  streams c' hc' hid' := by
    obtain rfl := h.eq_of_name hc hc' (congrArg RecordId.key (hid.symm.trans hid'))
    exact ⟨time, hpinned, hprogress⟩
  exports _ _ hof := absurd ((congrArg RecordId.kind hid).symm.trans hof.2.1)
    (by decide : streamKind.tag ≠ snapshotKind.tag)

theorem lawful_export {size : UInt64} (htime : time.Whole) (hsize : c.exportSize = some size)
    (hid : r.id = ⟨source, snapshotKind.tag, SnapshotId.key ⟨c.name, size, time⟩⟩)
    (hprogress : r.progress = some (snapshotKind.text (.starting c.name time))) :
    Lawful source cs t r where
  pins _ _ hid' := absurd (congrArg RecordId.kind (hid.symm.trans hid'))
    (by decide : snapshotKind.tag ≠ sharedKind.tag)
  counts _ _ hid' := absurd (congrArg RecordId.kind (hid.symm.trans hid'))
    (by decide : snapshotKind.tag ≠ sharedKind.tag)
  streams _ _ hid' := absurd (congrArg RecordId.kind (hid.symm.trans hid'))
    (by decide : snapshotKind.tag ≠ streamKind.tag)
  exports c' hc' hof := by
    -- The key reads back as the collection, and tells the time and the size.
    have hkey : r.key = SnapshotId.key ⟨c.name, size, time⟩ := congrArg RecordId.key hid
    obtain ⟨-, -, i, hi, hname⟩ := hof
    rw [hkey, SnapshotId.readKey_key ⟨c.name, size, time⟩ htime] at hi
    obtain rfl := Except.ok.inj hi
    obtain rfl := h.eq_of_name hc hc' hname
    exact ⟨time, size, hpinned, hsize, hkey, hprogress⟩

end Lawful

/-! ## Bootstraps -/

namespace Candidate

open Accord

variable {E : Interface} {n : Node} {proposed snapshot : Instant}

/-- A creation that is lawful whenever it comes. -/
theorem pinning_create {k : PartitionKind} (p : Partition k)
    (hlawful : ∀ now u, Pinning source cs u → StaysPinned source cs t u →
      Lawful source cs u (n.newRecord k.tag p.key k.leased p.progressText now)) :
    (pinning source cs).Secures (E := E) (fun _ _ => True) (n.create p) t :=
  secures_create fun now u hu htu => ⟨hlawful now u hu htu, fun _ _ _ _ _ _ => trivial⟩

section Collections

variable (h : Distinguished cs) (hn : n.source = source)

include h hn

theorem pinning_publish (hc : c ∈ cs) (hproposed : proposed.Whole) :
    (pinning source cs).Secures (E := E) (fun isNew u => ∃ time, u.pinned? source c = some time ∧
        (isNew = true → time = proposed))
      (n.create (newShared c.name (c.toMembers proposed.millis))) t := by
  refine secures_create fun now u hu _ => ?_
  have hid := n.id_newRecord sharedKind.tag c.name sharedKind.leased
    (some (c.pinText proposed)) now
  have hprogress := n.progress_newRecord sharedKind.tag c.name sharedKind.leased
    (some (c.pinText proposed)) now
  rw [hn] at hid
  exact ⟨lawful_config h hc hid hproposed hprogress, fun later isNew hanswer v _ huv =>
    hu.published hc hid hproposed hprogress hanswer huv⟩

/-- **The time of a snapshot is pinned once**, and everybody goes on with it. -/
theorem pinning_pinSnapshot (hc : c ∈ cs) (hproposed : proposed.Whole) :
    (pinning source cs).Secures (E := E) (fun time u => u.pinned? source c = some time)
      (pinSnapshot n c proposed) t := by
  refine (pinning_publish h hn hc hproposed).bind fun isNew u _ _ hpublished => ?_
  obtain ⟨time, hpinned, hmine⟩ := hpublished
  cases isNew with
  | true =>
    obtain rfl := hmine rfl
    exact secures_pure fun v _ huv => huv.pinned hc hpinned
  | false =>
    -- Somebody else was first: the record that is found has the time that was pinned then.
    have hlook : (pinning source cs).Secures (E := E)
        (fun state v => pinnedTime state = some time ∧ v.pinned? source c = some time)
        (n.shared? (Partition.ofRecord sharedKind) c.name) u := by
      refine secures_shared fun v hv huv => ⟨trivial, fun w _ hvw => ?_⟩
      have hpinned := huv.pinned hc hpinned
      obtain ⟨htime, r, hr, hprogress⟩ := hv.of_pinned hc hpinned
      have hr' : v.find? ⟨n.source, sharedKind.tag, c.name⟩ = some r := hn ▸ hr
      rw [hr']
      refine ⟨fun hnone => (nomatch hnone), fun x p hx hp => ?_⟩
      obtain rfl := Option.some.inj hx
      obtain rfl := Except.ok.inj ((ofRecord_config hr hprogress).symm.trans hp)
      exact ⟨pinnedTime_of_toMembers htime rfl, hvw.pinned hc hpinned⟩
    refine hlook.bind fun state v _ _ hstate => ?_
    exact secures_pure fun w _ hvw => by
      rw [hstate.1]
      exact hvw.pinned hc hstate.2

theorem pinning_createExport (hc : c ∈ cs) (hpinned : t.pinned? source c = some snapshot) :
    (pinning source cs).Secures (E := E) (fun _ _ => True) (createExport n snapshot c) t := by
  unfold createExport
  cases hsize : c.exportSize with
  | none => exact secures_pure fun _ _ _ => trivial
  | some size =>
    refine (pinning_create _ fun now u hu htu => ?_).bind fun _ u _ htu _ => ?_
    · have hpinned := htu.pinned hc hpinned
      exact lawful_export h hc hpinned (hu.of_pinned hc hpinned).1 hsize
        (hn ▸ n.id_newRecord _ _ _ _ now) (n.progress_newRecord _ _ _ _ now)
    · refine (pinning_create _ fun now v hv huv => ?_).bind fun _ _ _ _ _ =>
        secures_pure fun _ _ _ => trivial
      exact lawful_status h hc (huv.pinned hc (htu.pinned hc hpinned))
        (hn ▸ n.id_newRecord _ _ _ _ now) (n.progress_newRecord _ _ _ _ now)

theorem pinning_createStream (hc : c ∈ cs) (hpinned : t.pinned? source c = some snapshot) :
    (pinning source cs).Secures (E := E) (fun _ _ => True) (createStream n snapshot c) t := by
  unfold createStream
  cases c.stream with
  | false => exact secures_pure fun _ _ _ => trivial
  | true =>
    refine (pinning_create _ fun now u hu htu => ?_).bind fun _ _ _ _ _ =>
      secures_pure fun _ _ _ => trivial
    exact lawful_stream h hc (htu.pinned hc hpinned)
      (hn ▸ n.id_newRecord _ _ _ _ now) (n.progress_newRecord _ _ _ _ now)

theorem pinning_createCollection (hc : c ∈ cs) (hproposed : proposed.Whole) :
    (pinning source cs).Secures (E := E) (fun _ _ => True) (createCollection n proposed c) t := by
  rw [createCollection_eq]
  refine (pinning_pinSnapshot h hn hc hproposed).bind fun snapshot u _ _ hpinned => ?_
  refine (pinning_createExport h hn hc hpinned).bind fun _ v _ huv _ => ?_
  exact pinning_createStream h hn hc (huv.pinned hc hpinned)

theorem pinning_createCollections (hproposed : proposed.Whole) {some : List Collection}
    (hsome : ∀ c ∈ some, c ∈ cs) : (pinning source cs).Secures (E := E) (fun _ _ => True)
      (createCollections n proposed some) t := by
  induction some generalizing t with
  | nil => exact secures_pure fun _ _ _ => trivial
  | cons c rest ih =>
    obtain ⟨hc, hrest⟩ := List.forall_mem_cons.mp hsome
    exact (pinning_createCollection h hn hc hproposed).bind fun _ _ _ _ _ => ih hrest

end Collections

/-- What is proposed for a snapshot has no part below a millisecond. -/
theorem whole_of_snapshotOf {now : Instant} (h : snapshotOf now = .ok proposed) :
    proposed.Whole := by
  unfold snapshotOf at h
  split at h
  · cases h
    exact Instant.whole_of_ofMillis ‹_›
  · cases h

/-- **A bootstrap goes by the pinned times.** -/
theorem pinning_bootstrap (h : Distinguished cs) (x : Candidate) (hsource : x.node.source = source)
    (hplan : x.collections = cs) :
    (pinning source cs).Secures (E := E) (fun _ _ => True) x.bootstrap t := by
  exact secures_now fun now => secures_ofExcept fun proposed hproposed =>
    pinning_createCollections h hsource (whole_of_snapshotOf hproposed) fun c hc => hplan ▸ hc

end Candidate

end LeasedWork
