import LeasedWork.Proofs.Fleet.Exports

/-! # One snapshot of a collection

Nodes of a source that share a list of collections bootstrap it as often as they like, all at once,
at any times, and with any of their requests failing; others work on exports and count what has been
loaded meanwhile.  Still every collection gets one snapshot (`Crowd.oneSnapshot`): the time that is
pinned first stays, all that is created for the collection is created with it, and there is one
export.

This is what the accord on pinned times (`LeasedWork.Proofs.Fleet.Pins`) comes to in a crowd of such
nodes.
-/
namespace LeasedWork

open Accord

variable {E : Interface} {source : String} {cs : List Collection} {c : Collection}

/-! ## Who takes part -/

/-- A record is one of those that are kept for a collection. -/
def Record.BelongsTo (source : String) (c : Collection) (r : Record) : Prop :=
  r.id = c.configId source ∨ r.id = c.statusId source ∨ r.id = c.streamId source ∨
    r.IsExportOf source c

/-- A request creates nothing for some collections, and changes neither their shared state nor their
exports. -/
def Request.LeavesAlone (source : String) (cs : List Collection) : Request → Prop
  | .create r => ∀ c ∈ cs, ¬ r.BelongsTo source c
  | .update r => ∀ c ∈ cs, c.configId source ≠ r.id ∧ ¬ r.IsExportOf source c
  | .claim s kind _ _ => ¬ (s = source ∧ kind = sharedKind.tag)
  | .prepare | .get _ | .byStatus _ _ _ _ | .all _ _ => True

/-- The work that is done on collections that all nodes of a source share. -/
inductive Works (source : String) (cs : List Collection) :
    Program (Node.interface E) Unit → Prop
  | bootstrap (c : Candidate) (hsource : c.node.source = source) (hplan : c.collections = cs) :
    Works source cs c.bootstrap.run.alone
  | election (c : Candidate) (hplans : c.Plans source cs) : Works source cs c.pass.alone
  | exporting (n : Node) (settings : WorkerSettings) (s : Supplier E)
    (hs : s.Asks (Request.LeavesAlone source cs)) :
    Works source cs (Work.pass n settings (Planning.process n) s).alone
  | loaded (n : Node) (collection : String) (records : UInt64) :
    Works source cs (LoadStatus.recordLoaded n collection records).run.alone

/-- Nodes of a source that share a list of collections, among strangers. -/
def Rules.sharing (source : String) (cs : List Collection) : Rules E :=
  ⟨Works source cs, Request.LeavesAlone source cs⟩

theorem may_of_leavesAlone {request : Request} (h : request.LeavesAlone source cs) (t : Table) :
    (pinning source cs).May t request := by
  cases request with
  | prepare | get _ | byStatus _ _ _ _ | all _ _ => trivial
  | claim s kind owner lease => exact h
  | create r => exact {
      pins := fun c hc hid => absurd (.inl hid) (h c hc)
      counts := fun c hc hid => absurd (.inr (.inl hid)) (h c hc)
      streams := fun c hc hid => absurd (.inr (.inr (.inl hid))) (h c hc)
      exports := fun c hc hof => absurd (.inr (.inr (.inr hof))) (h c hc) }
  | update r => exact fun c hc => ⟨(h c hc).1, fun hof => absurd hof (h c hc).2⟩

/-- **They all go by the pinned times.** -/
theorem governs_sharing (h : Distinguished cs) :
    (pinning source cs).Governs (Rules.sharing (E := E) source cs) where
  empty := ⟨Table.distinct_empty, fun _ _ _ hr => (nomatch hr),
    fun _ _ _ hr => absurd hr List.not_mem_nil⟩
  joins p hp t := by
    cases hp with
    | bootstrap c hsource hplan =>
      exact abides_alone (Candidate.pinning_bootstrap h c hsource hplan)
    | election c hplans => exact abides_alone (hplans.pass h)
    | exporting n settings s hs =>
      exact abides_alone (Work.pinning_pass h (fun _ hrequest u _ => may_of_leavesAlone hrequest u)
        settings hs)
    | loaded n collection records => exact abides_alone (LoadStatus.pinning_update h collection _)
  asks _ hrequest t _ := may_of_leavesAlone hrequest t

/-! ## One snapshot -/

/-- A collection has one snapshot in a crowd. -/
structure OneSnapshot (source : String) (c : Collection) (w : Crowd E) : Prop where
  /-- The collection's shared state says when it is, from the first. -/
  pinned : w.table.Has (c.configId source) → ∃ time, w.table.pinned? source c = some time
  /-- There is one export at most. -/
  unique : ∀ r ∈ w.table.rows, ∀ r' ∈ w.table.rows, r.IsExportOf source c →
    r'.IsExportOf source c → r = r'
  /-- The export is of the pinned time, by its key and by its progress. -/
  exports : ∀ r ∈ w.table.rows, r.IsExportOf source c → ∃ p x,
    Partition.ofRecord snapshotKind r = .ok p ∧ p.progress = some x ∧
      w.table.pinned? source c = some p.identity.time ∧ x.time = p.identity.time
  /-- The stream has been created with the pinned time, -/
  streams : ∀ r, ⟨.create r, .ok true⟩ ∈ w.history → r.id = c.streamId source → ∃ p x time,
    Partition.ofRecord streamKind r = .ok p ∧ p.progress = some x ∧
      w.table.pinned? source c = some time ∧ x.startTime.toInt = time.millis
  /-- and so has the load status. -/
  counts : ∀ r, ⟨.create r, .ok true⟩ ∈ w.history → r.id = c.statusId source → ∃ p s time,
    Partition.ofRecord sharedKind r = .ok p ∧ LoadStatus.ofMembers p.values = .ok s ∧
      w.table.pinned? source c = some time ∧ s.lastUpdate.toInt = time.millis

variable {w : Crowd E} {t u : Table} {r : Record}

theorem Collection.Exports.id_eq (h : c.Exports source t r) {r' : Record}
    (h' : c.Exports source u r') (hof : r.IsExportOf source c) (hof' : r'.IsExportOf source c)
    (hstays : ∀ time, t.pinned? source c = some time → u.pinned? source c = some time) :
    r'.id = r.id := by
  obtain ⟨time, size, hpinned, hsize, hkey, -⟩ := h
  obtain ⟨time', size', hpinned', hsize', hkey', -⟩ := h'
  obtain rfl := Option.some.inj ((hstays time hpinned).symm.trans hpinned')
  obtain rfl := Option.some.inj (hsize.symm.trans hsize')
  have hsource : r'.source = r.source := hof'.1.trans hof.1.symm
  have hkind : r'.kind = r.kind := hof'.2.1.trans hof.2.1.symm
  rw [Record.id, Record.id, hsource, hkind, hkey', hkey]

/-- A stored export, as it is read. -/
theorem Pinning.exports_read (h : Pinning source cs t) (hc : c ∈ cs) (hr : r ∈ t.rows)
    (hof : r.IsExportOf source c) : ∃ p x, Partition.ofRecord snapshotKind r = .ok p ∧
      p.progress = some x ∧ t.pinned? source c = some p.identity.time ∧
      x.time = p.identity.time := by
  obtain ⟨time, size, hpinned, -, hkey, hprogress⟩ := h.exports c hc r hr hof
  have hwhole : time.Whole := (h.of_pinned hc hpinned).1
  have hidentity : SnapshotId.readKey r.key = .ok ⟨c.name, size, time⟩ := by
    rw [hkey, SnapshotId.readKey_key ⟨c.name, size, time⟩ hwhole]
  have hread := Partition.ofRecord_of_keeps hof.2.1 hidentity
    (PartitionKind.keeps_starting c.name hwhole.civil) hprogress
  exact ⟨_, _, hread, rfl, hpinned, SnapshotProgress.time_starting _ _⟩

/-- A lawful stream, as it is read. -/
theorem Lawful.streams_read (h : Lawful source cs t r) (hc : c ∈ cs)
    (hid : r.id = c.streamId source) : ∃ p x time, Partition.ofRecord streamKind r = .ok p ∧
      p.progress = some x ∧ t.pinned? source c = some time ∧ x.startTime.toInt = time.millis := by
  obtain ⟨time, hpinned, hprogress⟩ := h.streams c hc hid
  have hkind : r.kind = streamKind.tag := congrArg RecordId.kind hid
  have hidentity : streamKind.identify r.key = .ok r.key := rfl
  have hread := Partition.ofRecord_of_keeps hkind hidentity (PartitionKind.keeps_stream _)
    hprogress
  exact ⟨_, _, time, hread, rfl, hpinned, time.toInt_millis⟩

/-- A lawful load status, as it is read. -/
theorem Lawful.counts_read (h : Lawful source cs t r) (hc : c ∈ cs)
    (hid : r.id = c.statusId source) : ∃ p s time, Partition.ofRecord sharedKind r = .ok p ∧
      LoadStatus.ofMembers p.values = .ok s ∧ t.pinned? source c = some time ∧
      s.lastUpdate.toInt = time.millis := by
  obtain ⟨time, hpinned, hprogress⟩ := h.counts c hc hid
  have hread := ofRecord_shared (congrArg RecordId.kind hid)
    (LoadStatus.keeps_toMembers (LoadStatus.starting time)) hprogress
  refine ⟨_, LoadStatus.starting time, time, hread, ?_, hpinned, time.toInt_millis⟩
  rw [Partition.values, Option.getD_some, LoadStatus.ofMembers_toMembers]

/-- What has been created was lawful when it was, and the pinned times have stayed since. -/
theorem lawful_of_created (hw : (pinning source cs).Sound w)
    (hr : ⟨.create r, .ok true⟩ ∈ w.history) :
    ∃ t, Lawful source cs t r ∧ StaysPinned source cs t w.table := by
  obtain ⟨t, now, hgood, hmay, -, hsince⟩ := hw.history _ hr
  exact ⟨t, hmay, Accord.trans _ ((pinning source cs).keeps now hgood hmay).2 hsince⟩

namespace Crowd

/-- **A collection has one snapshot**, whatever happens in a crowd of nodes that share a list of
distinguished collections, and it is that of the time that was pinned first: neither that time nor
the identity of the collection's export ever changes. -/
theorem oneSnapshot (h : Distinguished cs) (hc : c ∈ cs)
    (moves : List (Move (Rules.sharing (E := E) source cs))) :
    OneSnapshot source c (run _ moves) ∧
      ∀ more : List (Move (Rules.sharing (E := E) source cs)),
        (∀ time, (run _ moves).table.pinned? source c = some time →
          (run _ (moves ++ more)).table.pinned? source c = some time) ∧
        ∀ r ∈ (run _ moves).table.rows, ∀ r' ∈ (run _ (moves ++ more)).table.rows,
          r.IsExportOf source c → r'.IsExportOf source c → r'.id = r.id := by
  have hA : (pinning source cs).Governs (Rules.sharing (E := E) source cs) := governs_sharing h
  have hw := sound_run hA moves
  refine ⟨{ pinned := ?_, unique := ?_, exports := ?_, streams := ?_, counts := ?_ },
    fun more => ⟨fun time => (grows_run hA moves more).pinned hc, ?_⟩⟩
  · intro hhas
    obtain ⟨r, hr⟩ := Table.has_iff.mp hhas
    exact hw.good.pinned hc hr
  · -- Two exports of the collection have the pinned time in their keys, and so one identity.
    intro r hr r' hr' hof hof'
    have hid := (hw.good.exports c hc r hr hof).id_eq (hw.good.exports c hc r' hr' hof') hof hof'
      fun _ => id
    have hfind := (Table.find?_iff hw.good.distinct).mpr ⟨hr, rfl⟩
    have hfind' := (Table.find?_iff hw.good.distinct).mpr ⟨hr', hid⟩
    exact Option.some.inj (hfind.symm.trans hfind')
  · exact fun r hr hof => hw.good.exports_read hc hr hof
  · intro r hr hid
    obtain ⟨t, hlawful, hstays⟩ := lawful_of_created hw hr
    obtain ⟨p, x, time, hp, hx, hpinned, htime⟩ := hlawful.streams_read hc hid
    exact ⟨p, x, time, hp, hx, hstays.pinned hc hpinned, htime⟩
  · intro r hr hid
    obtain ⟨t, hlawful, hstays⟩ := lawful_of_created hw hr
    obtain ⟨p, s, time, hp, hs, hpinned, htime⟩ := hlawful.counts_read hc hid
    exact ⟨p, s, time, hp, hs, hstays.pinned hc hpinned, htime⟩
  · intro r hr r' hr' hof hof'
    have hlater := (sound_run hA (moves ++ more)).good.exports c hc r' hr' hof'
    exact (hw.good.exports c hc r hr hof).id_eq hlater hof hof'
      fun _ => (grows_run hA moves more).pinned hc

/-- A collection that is exported and read. -/
def orders : Collection := ⟨"db.orders", some 100, true⟩

/-- The nodes of a source that share this one collection. -/
abbrev sharingOrders : Rules Interface.none := .sharing "db" [orders]

/-- A bootstrap of a node. -/
def bootstrapOf (owner : String) : Program (Node.interface Interface.none) Unit :=
  (Candidate.new ⟨"db", owner, .seconds 60⟩ [orders] .default).bootstrap.run.alone

/-- So many turns of the program at a place, at a time and without a failure. -/
def turns (count i : Nat) (now : Instant) : List (Move sharingOrders) :=
  List.replicate count (.turn i ⟨now, none, false, fun q => q.elim⟩)

/-- A little before 1970, with a part below a millisecond. -/
def early : Instant := ⟨-1, 999400000, by decide, by decide, by decide⟩

/-- Two nodes propose a time. The one with the earlier time pins it and crashes, and the other one
goes on. -/
def takeover : List (Move sharingOrders) :=
  [.join (bootstrapOf "node-a") (.bootstrap _ rfl rfl),
    .join (bootstrapOf "node-b") (.bootstrap _ rfl rfl)] ++
  turns 2 0 early ++ turns 2 1 .epoch ++ turns 1 0 early ++ turns 8 1 .epoch

/-- The export that the other node has created is of the time that was pinned. -/
theorem oneSnapshot_takeover : Distinguished [orders] ∧ orders ∈ [orders] ∧
    ∃ r ∈ (run sharingOrders takeover).table.rows, r.IsExportOf "db" orders ∧
      ∃ p, Partition.ofRecord snapshotKind r = .ok p ∧
        Instant.ofMillis? (-1) = some p.identity.time := by
  have hdistinguished : Distinguished [orders] := ⟨by decide, by decide⟩
  have hmem : orders ∈ [orders] := List.mem_cons_self
  have hpinned : (run sharingOrders takeover).table.pinned? "db" orders =
      Instant.ofMillis? (-1) := by
    decide +kernel
  have hexport : (run sharingOrders takeover).table.rows.any (fun r => r.source = "db" ∧
      r.kind = snapshotKind.tag ∧
        (SnapshotId.readKey r.key).toOption.any (·.collection = orders.name)) = true := by
    decide +kernel
  obtain ⟨r, hr, hof⟩ := List.any_eq_true.mp hexport
  obtain ⟨hsource, hkind, hkey⟩ := of_decide_eq_true hof
  obtain ⟨i, hi, hname⟩ := (Option.any_eq_true _ _).mp hkey
  have hof : r.IsExportOf "db" orders := by
    refine ⟨hsource, hkind, i, ?_, of_decide_eq_true hname⟩
    cases hread : SnapshotId.readKey r.key with
    | error e => rw [hread] at hi; cases hi
    | ok j => rw [hread] at hi; exact congrArg Except.ok (Option.some.inj hi)
  have hsnapshot : OneSnapshot "db" orders (run sharingOrders takeover) :=
    (oneSnapshot hdistinguished hmem takeover).1
  obtain ⟨p, x, hp, -, htime, -⟩ := hsnapshot.exports r hr hof
  rw [hpinned] at htime
  exact ⟨hdistinguished, hmem, r, hr, hof, p, hp, htime⟩

end Crowd

end LeasedWork
