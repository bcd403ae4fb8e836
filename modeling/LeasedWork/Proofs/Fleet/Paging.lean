import LeasedWork.Fleet.Planning
import LeasedWork.Proofs.Fleet.Counters
import LeasedWork.Proofs.Fleet.Worklists

/-! # What planning an export adds

A supplier *serves* a list of pages when it answers with one page after another, each for the cursor
of the page before it (`Page.ServedBy`).  Planning from such a supplier adds the queries of the
pages up to the one that ends the planning, as far as they were not there before, and leaves all
other queries as they are (`Adds`).  The load status then says how many there were to add, and that
there will be no more (`Planning.alone_planFrom`).

Queries are added page by page and one at a time, so all this is said of any list of queries and put
together along the lists (`Adds.trans`, `Planned.trans`).  A page comes to the same however the
export's own record is spelled (`Furthered`); `Planned` is about one that is spelled as a node
spells it.
-/
namespace LeasedWork

open Surroundings Table

variable {E : Interface} {shows : Instant → Prop} {source collection : String} {n : Node}

/-! ## Load status -/

namespace LoadStatus

/-- What is counted, without the time when it was. -/
def counts (s : LoadStatus) : LoadStatus := { s with lastUpdate := 0 }

@[simp] theorem counts_stamped (s : LoadStatus) (time : Instant) :
    (s.stamped time).counts = s.counts := rfl

theorem counts_planned (created : UInt64) (isLast : Bool) (s : LoadStatus) :
    (s.planned created isLast).counts = s.counts.planned created isLast := rfl

theorem planned_planned (created created' : UInt64) (isLast : Bool) (s : LoadStatus) :
    (s.planned created false).planned created' isLast = s.planned (created + created') isLast := by
  simp only [planned, UInt64.add_assoc, Bool.or_false]

end LoadStatus

theorem Table.find_of_loadStatus {t : Table} {id : RecordId} {s : LoadStatus}
    (h : t.loadStatus? id = some s) :
    ∃ r, t.find? id = some r ∧ LoadStatus.ofRecord r = .ok s := by
  obtain ⟨r, hr, hs⟩ := Option.bind_eq_some_iff.mp h
  refine ⟨r, hr, ?_⟩
  cases hread : LoadStatus.ofRecord r with
  | ok s' =>
    rw [hread] at hs
    exact congrArg Except.ok (Option.some.inj hs)
  | error failure =>
    rw [hread] at hs
    cases hs

theorem Table.loadStatus_of_same {t u : Table} {id : RecordId} (h : u.find? id = t.find? id) :
    u.loadStatus? id = t.loadStatus? id := by
  rw [loadStatus?, h]
  rfl

/-- A load status has been put, for some time, where there was one. -/
def LoadStatus.Rewrites (id : RecordId) (s : LoadStatus) (t u : Table) : Prop :=
  ∃ r time, Puts r t u ∧ r.id = id ∧ ofRecord r = .ok (s.stamped time)

/-- A change of a load status. -/
theorem LoadStatus.alone_update {change : LoadStatus → LoadStatus} {s : LoadStatus} {t : Table}
    (hs : t.loadStatus? (idOf n.source collection) = some s) :
    (alone shows).Yields (E := E) (fun _ => Rewrites (idOf n.source collection) (change s) t)
      NeverFails (update n collection change) t := by
  obtain ⟨r, hr, hread⟩ := find_of_loadStatus hs
  obtain ⟨p, hp, hvalues⟩ := exists_of_ofRecord hread
  have hid : r.id = idOf n.source collection := (find?_some hr).2
  have hlook : (alone shows).Yields (E := E) (fun state u => state = some p ∧ u = t) NeverFails
      (n.shared? (Partition.ofRecord sharedKind) (keyOf collection)) t := by
    refine yields_shared trivial ?_ ?_
    · rintro found u ⟨now, htold⟩
      cases htold
      refine yields_build (fun hnone => ?_) ?_ ?_
      · cases hr.symm.trans hnone
      · intro r' q hr' hq
        obtain rfl : r = r' := Option.some.inj (hr.symm.trans hr')
        obtain rfl := Except.ok.inj (hp.symm.trans hq)
        exact ⟨rfl, rfl⟩
      · intro r' failure hr' hfailure
        obtain rfl : r = r' := Option.some.inj (hr.symm.trans hr')
        cases hp.symm.trans hfailure
    · rintro failure u ⟨now, htold⟩
      cases htold
  have hattempt : (alone shows).Yields (E := E)
      (fun _ => Rewrites (idOf n.source collection) (change s) t) NeverFails
      (attempt n collection change) t := by
    refine hlook.bind ?_
    rintro _ u ⟨rfl, hu⟩
    rw [hu]
    refine yields_ofExcept ?_ fun failure hfailure => ?_
    · intro status hstatus
      obtain rfl := Except.ok.inj (hvalues.symm.trans hstatus)
      refine yields_now fun time _ => ?_
      have hsave : (alone shows).Yields (E := E)
          (fun _ => Rewrites (idOf n.source collection) (change s) t) NeverFails
          (n.save (p.setProgress ((change s).stamped time).toMembers) none) t := by
        refine alone_transition (record_setProgress hp _) (fun hneeds => nomatch hneeds)
          (hid ▸ hr) fun now v hputs => ?_
        exact ⟨_, time, hputs, (Node.id_proposal _ _ now r).trans hid, ofRecord_proposal hp _ now⟩
      exact hsave.bind fun _ _ h => yields_pure h
    · cases hvalues.symm.trans hfailure
  -- The first attempt succeeds.
  have hpersist : ∀ u : (alone shows).State, u = t → (alone shows).Yields (E := E)
      (fun _ => Rewrites (idOf n.source collection) (change s) t)
      (fun failure u => NeverFails failure u ∧ (failure.isLostWrite = true → u = t))
      (attempt n collection change) u := by
    intro u hu
    rw [hu]
    exact hattempt.imp (fun _ _ h => h) fun _ _ h => h.elim
  exact yields_persist hpersist rfl

/-! ## Queries -/

/-- The identity of a query's record. -/
def queryId (source collection query : String) : RecordId :=
  queryKind.recordId source ⟨collection, query⟩

theorem query_of_queryId {query query' : String}
    (h : queryId source collection query = queryId source collection query') : query = query' :=
  QueryId.key_injective (congrArg RecordId.key h)

/-- Of some queries of a collection, those that were not there have been added. -/
structure Adds (source collection : String) (queries new : List String) (t u : Table) : Prop where
  nodup : new.Nodup
  mem : ∀ query, query ∈ new ↔
    query ∈ queries ∧ t.find? (queryId source collection query) = none
  added : ∀ query ∈ new, ∃ r, u.find? (queryId source collection query) = some r ∧
    r.status = some .unassigned ∧ queryKind.KeptIn r
  same : ∀ id, id.kind = queryKind.tag → (∀ query ∈ new, id ≠ queryId source collection query) →
    u.find? id = t.find? id

namespace Adds

variable {queries queries' new new' : List String} {t u v : Table}

theorem nil (h : ∀ id, id.kind = queryKind.tag → u.find? id = t.find? id) :
    Adds source collection [] [] t u where
  nodup := List.nodup_nil
  mem _ := by simp
  added _ h := nomatch h
  same id hid _ := h id hid

theorem of_stored {query : String} {r : Record}
    (h : t.find? (queryId source collection query) = some r) :
    Adds source collection [query] [] t t where
  nodup := List.nodup_nil
  mem other := by
    constructor
    · intro hmem
      cases hmem
    · rintro ⟨hmem, hfree⟩
      rw [List.mem_singleton.mp hmem, h] at hfree
      cases hfree
  added _ h := nomatch h
  same _ _ _ := rfl

theorem of_puts {query : String} {r : Record}
    (hfree : t.find? (queryId source collection query) = none) (hputs : Puts r t u)
    (hid : r.id = queryId source collection query) (hstatus : r.status = some .unassigned)
    (hkept : queryKind.KeptIn r) : Adds source collection [query] [query] t u where
  nodup := List.nodup_singleton _
  mem other := by
    rw [List.mem_singleton]
    constructor
    · rintro rfl
      exact ⟨rfl, hfree⟩
    · exact fun h => h.1
  added other hother := by
    obtain rfl := List.mem_singleton.mp hother
    exact ⟨r, hid ▸ hputs.find_self, hstatus, hkept⟩
  same id _ hne := hputs.find_of_ne fun heq =>
    hne query List.mem_cons_self (heq.trans hid)

/-- A query that has not been added is there afterwards if it was there before. -/
theorem find_of_notMem (h : Adds source collection queries new t u) {query : String}
    (hquery : query ∉ new) :
    u.find? (queryId source collection query) = t.find? (queryId source collection query) := by
  refine h.same _ rfl ?_
  intro other hother heq
  exact hquery (query_of_queryId heq ▸ hother)

/-- First some queries, then others. -/
theorem trans (h : Adds source collection queries new t u)
    (h' : Adds source collection queries' new' u v) :
    Adds source collection (queries ++ queries') (new' ++ new) t v := by
  have hdisjoint : ∀ query ∈ new', query ∉ new := by
    intro query hnew' hnew
    obtain ⟨r, hr, -⟩ := h.added query hnew
    cases hr.symm.trans ((h'.mem query).mp hnew').2
  refine ⟨?_, fun query => ?_, fun query hquery => ?_, fun id hid hne => ?_⟩
  · rw [List.nodup_append]
    refine ⟨h'.nodup, h.nodup, ?_⟩
    rintro query hnew' _ hnew rfl
    exact hdisjoint query hnew' hnew
  · rw [List.mem_append, List.mem_append]
    constructor
    · rintro (hnew' | hnew)
      · have hfree := ((h'.mem query).mp hnew').2
        rw [h.find_of_notMem (hdisjoint query hnew')] at hfree
        exact ⟨.inr ((h'.mem query).mp hnew').1, hfree⟩
      · exact ⟨.inl ((h.mem query).mp hnew).1, ((h.mem query).mp hnew).2⟩
    · rintro ⟨hquery, hfree⟩
      by_cases hnew : query ∈ new
      · exact .inr hnew
      · refine .inl ((h'.mem query).mpr ⟨hquery.resolve_left fun hmem => ?_, ?_⟩)
        · exact hnew ((h.mem query).mpr ⟨hmem, hfree⟩)
        · rw [h.find_of_notMem hnew, hfree]
  · by_cases hnew' : query ∈ new'
    · exact h'.added query hnew'
    · obtain ⟨r, hr, hrest⟩ := h.added query ((List.mem_append.mp hquery).resolve_left hnew')
      exact ⟨r, (h'.find_of_notMem hnew').trans hr, hrest⟩
  · rw [h'.same id hid fun query hquery => hne query (List.mem_append_left _ hquery),
      h.same id hid fun query hquery => hne query (List.mem_append_right _ hquery)]

/-- What has been added is added to the worklist. -/
theorem worklist {items : List (QueryId × Status)} (h : Adds source collection queries new t u)
    (hlist : Worklist queryKind source items t) (hplain : keySeparator ∉ collection.toList) :
    Worklist queryKind source
      (new.map (fun query => (⟨collection, query⟩, .unassigned)) ++ items) u := by
  have hread (query : String) : queryKind.identify (queryKind.key ⟨collection, query⟩) =
      .ok ⟨collection, query⟩ := PartitionKind.identify_query ⟨collection, query⟩ hplain
  have hold : ∀ x ∈ items, ∀ query ∈ new, queryKind.recordId source x.1 ≠
      queryId source collection query := by
    intro x hx query hquery heq
    obtain ⟨r, hr, -⟩ := hlist.stored x hx
    rw [heq, ((h.mem query).mp hquery).2] at hr
    cases hr
  refine ⟨?_, ?_, ?_, fun key hkey => ?_⟩
  · rw [List.map_append, List.map_map, List.nodup_append]
    refine ⟨h.nodup.map fun a b hab => congrArg QueryId.query hab, hlist.nodup, ?_⟩
    intro i hi j hj heq
    obtain ⟨query, hquery, rfl⟩ := List.mem_map.mp hi
    obtain ⟨x, hx, rfl⟩ := List.mem_map.mp hj
    exact hold x hx query hquery (congrArg (queryKind.recordId source) heq.symm)
  · rw [List.forall_mem_append]
    refine ⟨fun x hx => ?_, hlist.identify⟩
    obtain ⟨query, -, rfl⟩ := List.mem_map.mp hx
    exact hread query
  · rw [List.forall_mem_append]
    refine ⟨fun x hx => ?_, fun x hx => ?_⟩
    · obtain ⟨query, hquery, rfl⟩ := List.mem_map.mp hx
      exact h.added query hquery
    · obtain ⟨r, hr, hrest⟩ := hlist.stored x hx
      exact ⟨r, (h.same _ rfl (hold x hx)).trans hr, hrest⟩
  · by_cases hnew : ∃ query ∈ new, key = queryKind.key ⟨collection, query⟩
    · obtain ⟨query, hquery, rfl⟩ := hnew
      exact ⟨_, List.mem_append_left _ (List.mem_map_of_mem hquery), rfl⟩
    · rw [Has, h.same _ rfl fun query hquery heq =>
        hnew ⟨query, hquery, congrArg RecordId.key heq⟩] at hkey
      obtain ⟨x, hx, hxkey⟩ := hlist.only key hkey
      exact ⟨x, List.mem_append_right _ hx, hxkey⟩

theorem congr {t' u' : Table} (h : Adds source collection queries new t u)
    (ht : ∀ id, id.kind = queryKind.tag → t.find? id = t'.find? id)
    (hu : ∀ id, id.kind = queryKind.tag → u'.find? id = u.find? id) :
    Adds source collection queries new t' u' where
  nodup := h.nodup
  mem query := by
    rw [h.mem, ht _ rfl]
  added query hquery := by
    obtain ⟨r, hr, hrest⟩ := h.added query hquery
    exact ⟨r, (hu _ rfl).trans hr, hrest⟩
  same id hid hne := by
    rw [hu id hid, h.same id hid hne, ht id hid]

end Adds

namespace Planning

variable {t : Table}

/-- Queries are created one after another; what is created is what was not there. -/
theorem alone_createQueries (start : Instant) (identifiers : List String) :
    (alone shows).Yields (E := E) (fun created u => ∃ new, created = UInt64.ofNat new.length ∧
        Adds n.source collection (identifiers.map (queryOf collection)) new t u ∧
        (t.Distinct → u.Distinct) ∧ ∀ id, id.kind ≠ queryKind.tag → u.find? id = t.find? id)
      NeverFails (createQueries n collection start identifiers) t := by
  induction identifiers generalizing t with
  | nil => exact yields_pure ⟨[], rfl, .nil fun _ _ => rfl, id, fun _ _ => rfl⟩
  | cons identifier rest ih =>
    have hcreate : (alone shows).Yields (E := E) (fun isNew u => ∃ new,
          (if isNew then 1 else 0) = UInt64.ofNat new.length ∧
          Adds n.source collection [queryOf collection identifier] new t u ∧
          (t.Distinct → u.Distinct) ∧ ∀ id, id.kind ≠ queryKind.tag → u.find? id = t.find? id)
        NeverFails
        (n.create ((newQuery ⟨collection, queryOf collection identifier⟩).startingAt start)) t := by
      refine alone_create ?_ ?_
      · intro r hr
        exact ⟨[], rfl, .of_stored hr, id, fun _ _ => rfl⟩
      · intro hfree now u hputs
        refine ⟨[queryOf collection identifier], rfl, ?_, hputs.distinct, fun id hid => ?_⟩
        · exact .of_puts hfree hputs rfl rfl ⟨_, PartitionKind.keeps_query _, rfl⟩
        · refine hputs.find_of_ne ?_
          rintro rfl
          exact hid rfl
    refine hcreate.bind ?_
    rintro isNew u ⟨new, hcount, hadds, hdistinct, hsame⟩
    refine ih.bind ?_
    rintro others v ⟨new', rfl, hadds', hdistinct', hsame'⟩
    refine yields_pure ⟨new' ++ new, ?_, hadds.trans hadds', fun hd => hdistinct' (hdistinct hd),
      fun id hid => (hsame' id hid).trans (hsame id hid)⟩
    rw [hcount, List.length_append, Nat.add_comm, UInt64.ofNat_add]

end Planning

/-! ## Pages -/

/-- A partition in hand whose record is the stored one. Its key may be spelled in another way than
a node of this fleet would spell it, and it need not have a progress. -/
def Partition.IsHeld {k : PartitionKind} (p : Partition k) (t : Table) : Prop :=
  ∃ r, p.record = some r ∧ r.kind = k.tag ∧ t.find? r.id = some r

/-- What the planning of some queries of an export in hand has come to, whatever its record is. -/
structure Furthered (source : String) (p : Partition snapshotKind) (queries : List String)
    (isLast : Bool) (s : LoadStatus) (t : Table) (p' : Partition snapshotKind) (u : Table) :
    Prop where
  distinct : t.Distinct → u.Distinct
  counted : ∃ new s', Adds source p.identity.collection queries new t u ∧
    u.loadStatus? (LoadStatus.idOf source p.identity.collection) = some s' ∧
    s'.counts = s.counts.planned (.ofNat new.length) isLast
  held : p'.IsHeld u
  identity : p'.identity = p.identity
  progress : p'.progress = p.progress
  recordId : p'.record.map Record.id = p.record.map Record.id
  /-- Nothing else is written than queries, the load status and the record in hand. -/
  same : ∀ id, id.kind ≠ queryKind.tag → id ≠ LoadStatus.idOf source p.identity.collection →
    p.record.map Record.id ≠ some id → u.find? id = t.find? id

/-- Nothing has been planned yet. -/
theorem furthered_refl {p : Partition snapshotKind} {s : LoadStatus} {t : Table}
    (hp : p.IsHeld t)
    (hs : t.loadStatus? (LoadStatus.idOf source p.identity.collection) = some s) :
    Furthered source p [] false s t p t where
  distinct := id
  counted := by
    refine ⟨[], s, .nil fun _ _ => rfl, hs, ?_⟩
    simp [LoadStatus.planned]
  held := hp
  identity := rfl
  progress := rfl
  recordId := rfl
  same _ _ _ _ := rfl

theorem Furthered.trans {p p' p'' : Partition snapshotKind} {queries queries' : List String}
    {isLast : Bool} {s : LoadStatus} {t u v : Table}
    (h : Furthered source p queries false s t p' u)
    (h' : ∀ s', u.loadStatus? (LoadStatus.idOf source p'.identity.collection) = some s' →
      Furthered source p' queries' isLast s' u p'' v) :
    Furthered source p (queries ++ queries') isLast s t p'' v := by
  obtain ⟨new, s', hadds, hs', hcounts⟩ := h.counted
  have hrest := h' s' (h.identity ▸ hs')
  obtain ⟨new', s'', hadds', hs'', hcounts'⟩ := hrest.counted
  rw [h.identity] at hadds' hs''
  refine ⟨fun hd => hrest.distinct (h.distinct hd), ⟨_, s'', hadds.trans hadds', hs'', ?_⟩,
    hrest.held, hrest.identity.trans h.identity, hrest.progress.trans h.progress,
    hrest.recordId.trans h.recordId, fun id hkind hstatus hid => ?_⟩
  · rw [hcounts', hcounts, LoadStatus.planned_planned, List.length_append, Nat.add_comm,
      UInt64.ofNat_add]
  · rw [hrest.same id hkind (h.identity ▸ hstatus) (h.recordId ▸ hid)]
    exact h.same id hkind hstatus hid

/-- What the planning of some queries of an export in hand has come to. -/
structure Planned (source : String) (p : Partition snapshotKind) (queries : List String)
    (isLast : Bool) (s : LoadStatus) (t : Table) (p' : Partition snapshotKind) (u : Table) :
    Prop where
  distinct : t.Distinct → u.Distinct
  counted : ∃ new s', Adds source p.identity.collection queries new t u ∧
    u.loadStatus? (LoadStatus.idOf source p.identity.collection) = some s' ∧
    s'.counts = s.counts.planned (.ofNat new.length) isLast
  holds : p'.Holds source u
  identity : p'.identity = p.identity
  /-- Nothing else is written than queries, the load status and the export. -/
  same : ∀ id, id.kind ≠ queryKind.tag → id ≠ LoadStatus.idOf source p.identity.collection →
    id ≠ snapshotKind.recordId source p.identity → u.find? id = t.find? id

theorem Partition.Holds.recordId {p : Partition snapshotKind} {t : Table}
    (h : p.Holds source t) :
    p.record.map Record.id = some (snapshotKind.recordId source p.identity) := by
  obtain ⟨r, hr, hstored⟩ := h.record
  rw [hr, Option.map_some, (find?_some hstored).2]

theorem Partition.Holds.isHeld {p : Partition snapshotKind} {t : Table} (h : p.Holds source t) :
    p.IsHeld t := by
  obtain ⟨r, hr, hstored⟩ := h.record
  have hid := (find?_some hstored).2
  exact ⟨r, hr, congrArg RecordId.kind hid, hid ▸ hstored⟩

/-- The record of an export that is spelled as it should be stays so. -/
theorem Furthered.planned {p p' : Partition snapshotKind} {queries : List String} {isLast : Bool}
    {s : LoadStatus} {t u : Table} (h : Furthered source p queries isLast s t p' u)
    (hp : p.Holds source t) : Planned source p queries isLast s t p' u where
  distinct := h.distinct
  counted := h.counted
  holds := by
    obtain ⟨r, hr, -, hstored⟩ := h.held
    have hid := h.recordId
    rw [hr, hp.recordId, Option.map_some, ← h.identity, Option.some.injEq] at hid
    exact ⟨⟨r, hr, hid ▸ hstored⟩, h.progress ▸ hp.progress⟩
  identity := h.identity
  same id hkind hstatus hne := by
    refine h.same id hkind hstatus ?_
    rw [hp.recordId, ne_eq, Option.some.injEq]
    exact hne.symm

theorem Planned.trans {p p' p'' : Partition snapshotKind} {queries queries' : List String}
    {isLast : Bool} {s : LoadStatus} {t u v : Table}
    (h : Planned source p queries false s t p' u)
    (h' : ∀ s', u.loadStatus? (LoadStatus.idOf source p'.identity.collection) = some s' →
      Planned source p' queries' isLast s' u p'' v) :
    Planned source p (queries ++ queries') isLast s t p'' v := by
  obtain ⟨new, s', hadds, hs', hcounts⟩ := h.counted
  have hrest := h' s' (h.identity ▸ hs')
  obtain ⟨new', s'', hadds', hs'', hcounts'⟩ := hrest.counted
  rw [h.identity] at hadds' hs''
  refine ⟨fun hd => hrest.distinct (h.distinct hd), ⟨_, s'', hadds.trans hadds', hs'', ?_⟩,
    hrest.holds, hrest.identity.trans h.identity, fun id hkind hstatus hid => ?_⟩
  · rw [hcounts', hcounts, LoadStatus.planned_planned, List.length_append, Nat.add_comm,
      UInt64.ofNat_add]
  · rw [← h.identity] at hstatus hid
    rw [hrest.same id hkind hstatus hid]
    rw [h.identity] at hstatus hid
    exact h.same id hkind hstatus hid

/-- A planning between the claim of the export and its completion. -/
theorem Planned.enclosed {i : SnapshotId} {p p' : Partition snapshotKind} {queries : List String}
    {isLast : Bool} {s : LoadStatus} {t u v w : Table}
    (hclaimed : Claimed snapshotKind source i t p u)
    (h : Planned source p queries isLast s u p' v) (hdone : Completed snapshotKind source i v w) :
    (t.Distinct → w.Distinct) ∧
    (∃ new s', Adds source i.collection queries new t w ∧
      w.loadStatus? (LoadStatus.idOf source i.collection) = some s' ∧
      s'.counts = s.counts.planned (.ofNat new.length) isLast) ∧
    ∀ id, id.kind ≠ queryKind.tag → id ≠ LoadStatus.idOf source i.collection →
      id ≠ snapshotKind.recordId source i → w.find? id = t.find? id := by
  obtain rfl := hclaimed.identity
  obtain ⟨new, s', hadds, hs', hcounts⟩ := h.counted
  have hquery : ∀ id : RecordId, id.kind = queryKind.tag →
      id ≠ snapshotKind.recordId source p.identity := by
    intro id hid heq
    exact absurd (hid.symm.trans (congrArg RecordId.kind heq))
      (by decide : queryKind.tag ≠ snapshotKind.tag)
  have hstatus : LoadStatus.idOf source p.identity.collection ≠
      snapshotKind.recordId source p.identity :=
    ne_of_apply_ne RecordId.kind (by decide : sharedKind.tag ≠ snapshotKind.tag)
  refine ⟨fun hd => hdone.distinct (h.distinct (hclaimed.distinct hd)),
    ⟨new, s', ?_, ?_, hcounts⟩, ?_⟩
  · exact hadds.congr (fun id hid => hclaimed.same id (hquery id hid))
      fun id hid => hdone.same id (hquery id hid)
  · exact (loadStatus_of_same (hdone.same _ hstatus)).trans hs'
  · intro id hkind hid hne
    rw [hdone.same id hne, h.same id hkind hid hne, hclaimed.same id hne]

/-- Pages are served for a collection: the first answer, for a cursor, is the first page, and the
others follow, up to the page that ends the planning. Nothing is said of the answers after that. -/
inductive Page.ServedBy (collection : String) :
    Option String → List Page → List (NextPage E) → Prop
  | last {cursor : Option String} {page : Page} {next : NextPage E} (others : List Page)
    (rest : List (NextPage E)) (hfinal : page.isFinal = true)
    (hnext : ∀ p : Partition snapshotKind, p.identity.collection = collection →
      next p cursor = pure page) : ServedBy collection cursor (page :: others) (next :: rest)
  | more {cursor : Option String} {page : Page} {next : NextPage E} {pages : List Page}
    {rest : List (NextPage E)} (hmore : page.isFinal = false)
    (hnext : ∀ p : Partition snapshotKind, p.identity.collection = collection →
      next p cursor = pure page) (hrest : ServedBy collection page.cursor pages rest) :
    ServedBy collection cursor (page :: pages) (next :: rest)

/-- A supplier serves the pages of a collection from the first one on. -/
def Supplier.Serves (collection : String) (pages : List Page) (supplier : Supplier E) : Prop :=
  Page.ServedBy collection none pages supplier.pages

/-- The queries on a collection's pages, up to the page that ends the planning. -/
def Page.queries (collection : String) : List Page → List String
  | [] => []
  | page :: rest => page.identifiers.map (Planning.queryOf collection) ++
      if page.isFinal then [] else queries collection rest

namespace Planning

variable {t : Table} {p : Partition snapshotKind} {s : LoadStatus}

/-- **What planning a page comes to.** -/
theorem furthered_planPage (hp : p.IsHeld t)
    (hs : t.loadStatus? (LoadStatus.idOf n.source p.identity.collection) = some s) (page : Page) :
    (alone shows).Yields (E := E) (Furthered n.source p
        (page.identifiers.map (queryOf p.identity.collection)) page.isFinal s t) NeverFails
      (planPage n p page) t := by
  obtain ⟨old, hold, hkind, hstored⟩ := hp
  -- The queries, the load status and the export are of three kinds, so that none of the writes
  -- touches what another one has left.
  have hshared : (LoadStatus.idOf n.source p.identity.collection).kind ≠ queryKind.tag :=
    (by decide : sharedKind.tag ≠ queryKind.tag)
  have hexport : old.id.kind ≠ queryKind.tag := by
    rw [Record.id, hkind]
    exact (by decide : snapshotKind.tag ≠ queryKind.tag)
  have hne : old.id ≠ LoadStatus.idOf n.source p.identity.collection := by
    refine ne_of_apply_ne RecordId.kind ?_
    rw [Record.id, hkind]
    exact (by decide : snapshotKind.tag ≠ sharedKind.tag)
  refine yields_now fun start _ => ?_
  refine (alone_createQueries start page.identifiers).bind ?_
  rintro _ u ⟨new, rfl, hadds, hdistinct, hsame⟩
  have hs' := (loadStatus_of_same (hsame _ hshared)).trans hs
  refine (LoadStatus.alone_update hs').bind ?_
  rintro _ v ⟨r, time, hputs, hid, hread⟩
  have hv : v.find? old.id = some old :=
    (hputs.find_of_ne (hid ▸ hne)).trans ((hsame _ hexport).trans hstored)
  refine alone_transition hold (fun _ => rfl) hv fun now w hsaved => ?_
  have hsavedId : (Node.proposal p (.save (Option.none.getD n.lease)) now old).nextVersion.id =
      old.id := Node.id_proposal p _ now old
  have hw : ∀ id, id ≠ old.id → w.find? id = v.find? id :=
    fun id hne => hsaved.find_of_ne (hsavedId ▸ hne)
  have hrecord : p.record.map Record.id = some old.id := congrArg (Option.map Record.id) hold
  have hquery : ∀ id, id.kind = queryKind.tag → w.find? id = u.find? id := by
    intro id hquery
    rw [hw id fun heq => hexport (heq ▸ hquery)]
    exact hputs.find_of_ne fun heq => hshared (hid ▸ heq ▸ hquery)
  exact {
    distinct := fun hd => hsaved.distinct (hputs.distinct (hdistinct hd))
    counted := by
      refine ⟨new, _, hadds.congr (fun _ _ => rfl) hquery,
        loadStatus_of_find ((hw _ hne.symm).trans (hid ▸ hputs.find_self)) hread, ?_⟩
      rw [LoadStatus.counts_stamped, LoadStatus.counts_planned]
    held := ⟨_, rfl, (congrArg RecordId.kind hsavedId).trans hkind, hsaved.find_self⟩
    identity := rfl
    progress := rfl
    recordId := (congrArg some hsavedId).trans hrecord.symm
    same := by
      intro id hkind hstatus hother
      rw [hrecord] at hother
      rw [hw id fun heq => hother (congrArg some heq.symm), hputs.find_of_ne (hid ▸ hstatus),
        hsame id hkind] }

theorem alone_planPage (hp : p.Holds n.source t)
    (hs : t.loadStatus? (LoadStatus.idOf n.source p.identity.collection) = some s) (page : Page) :
    (alone shows).Yields (E := E) (Planned n.source p
        (page.identifiers.map (queryOf p.identity.collection)) page.isFinal s t) NeverFails
      (planPage n p page) t :=
  (furthered_planPage hp.isHeld hs page).imp (fun _ _ h => h.planned hp) fun _ _ h => h

/-- **What planning from a supplier comes to.** -/
theorem alone_planFrom
    {refuse : Partition snapshotKind → Option String → Program (Node.interface E) Failure}
    {pages : List Page} {nexts : List (NextPage E)} {cursor : Option String}
    (hserves : Page.ServedBy p.identity.collection cursor pages nexts) (hp : p.Holds n.source t)
    (hs : t.loadStatus? (LoadStatus.idOf n.source p.identity.collection) = some s) :
    (alone shows).Ensures (fun done u => done.verdict = .ok .completed ∧
        Planned n.source p (Page.queries p.identity.collection pages) true s t done.partition u)
      (planFrom n refuse p cursor nexts) t := by
  generalize hcollection : p.identity.collection = collection at hserves
  induction hserves generalizing p s t with
  | @last cursor page next others rest hfinal hnext =>
    rw [planFrom, hnext p hcollection, ExceptT.run_pure, pure_bind]
    refine Ensures.bind (alone_planPage hp hs page) fun planned u hplanned => ?_
    cases planned with
    | error failure => exact hplanned.elim
    | ok p' =>
      dsimp only
      rw [if_pos hfinal]
      have hall : Planned n.source p _ page.isFinal s t p' u := hplanned
      rw [hfinal, hcollection] at hall
      refine ⟨rfl, ?_⟩
      rw [Page.queries, if_pos hfinal, List.append_nil]
      exact hall
  | @more cursor page next pages rest hmore hnext _ ih =>
    rw [planFrom, hnext p hcollection, ExceptT.run_pure, pure_bind]
    refine Ensures.bind (alone_planPage hp hs page) fun planned u hplanned => ?_
    cases planned with
    | error failure => exact hplanned.elim
    | ok p' =>
      dsimp only
      have hmore' : ¬ page.isFinal = true := Bool.eq_false_iff.mp hmore
      rw [if_neg hmore']
      have hfirst : Planned n.source p _ page.isFinal s t p' u := hplanned
      rw [hmore, hcollection] at hfirst
      obtain ⟨new, s', hadds, hs', hcounts⟩ := hfirst.counted
      rw [← hfirst.identity] at hs'
      -- The load status is now what the page has left.
      refine (ih hfirst.holds hs' (hfirst.identity ▸ hcollection)).imp ?_
      rintro done v ⟨hverdict, hrest⟩
      refine ⟨hverdict, ?_⟩
      rw [Page.queries, if_neg hmore']
      refine hfirst.trans fun s'' hs'' => ?_
      obtain rfl := Option.some.inj (hs'.symm.trans hs'')
      exact hrest

end Planning

end LeasedWork
