import LeasedWork.Proofs.Fleet.Groundwork
import Mathlib.Data.List.Dedup

/-! # Exports from end to end

A leader bootstraps, exporters plan until there is no export left, and loaders load until there is
no query left (`Delivery.program`).  Then every query of every collection has been loaded once, and
the load statuses say so (`Delivery.delivered`).

Two worklists carry the argument, that of the exports (`Delivery.Planning`) and that of the queries
(`Delivery.Loading`).  At every moment between two passes a load status says how many queries of its
collection there are, how many of them are done, and of how many records (`LoadStatus.tally`).  A
pass moves one item of its list; it is worked out once what that does to the tally.
-/
namespace LeasedWork

open Surroundings Table

/-! ## Tallies -/

/-- The items that are of a collection. -/
def itemsOf (collection : String) (items : List (QueryId × Status)) : List (QueryId × Status) :=
  items.filter fun x => x.1.collection == collection

/-- The items that are done. -/
def doneOf (items : List (QueryId × Status)) : List (QueryId × Status) :=
  items.filter fun x => x.2 == .completed

/-- How many records have been loaded for some items. -/
def recordsOf (records : String → UInt64) (items : List (QueryId × Status)) : Nat :=
  (items.map fun x => (records x.1.key).toNat).sum

/-- What a load status should say of a collection's items among some. -/
def LoadStatus.tally (records : String → UInt64) (items : List (QueryId × Status))
    (isComplete : Bool) (collection : String) : LoadStatus where
  totalPartitions := .ofNat (itemsOf collection items).length
  loadedPartitions := .ofNat (doneOf (itemsOf collection items)).length
  loadedRecords := .ofNat (recordsOf records (doneOf (itemsOf collection items)))
  lastUpdate := 0
  totalComplete := isComplete

namespace LoadStatus

variable {records : String → UInt64} {items rest : List (QueryId × Status)} {isComplete : Bool}
  {collection other : String} {new : List String}

theorem tally_perm {items' : List (QueryId × Status)} (h : items.Perm items') :
    tally records items isComplete collection = tally records items' isComplete collection := by
  have hitems : (itemsOf collection items).Perm (itemsOf collection items') := h.filter _
  have hdone : (doneOf (itemsOf collection items)).Perm (doneOf (itemsOf collection items')) :=
    hitems.filter _
  rw [tally, tally, hitems.length_eq, hdone.length_eq, recordsOf, recordsOf, (hdone.map _).sum_nat]

/-- New queries of the collection. -/
theorem tally_planned (isLast : Bool) :
    tally records (new.map (fun query => (⟨collection, query⟩, .unassigned)) ++ items)
        (isComplete || isLast) collection =
      (tally records items isComplete collection).planned (.ofNat new.length) isLast := by
  have hof : itemsOf collection (new.map (fun query => (⟨collection, query⟩, .unassigned))) =
      new.map fun query => (⟨collection, query⟩, .unassigned) := by
    rw [itemsOf, List.filter_eq_self]
    intro x hx
    obtain ⟨query, -, rfl⟩ := List.mem_map.mp hx
    exact beq_self_eq_true _
  have hdone : doneOf (new.map (fun query => ((⟨collection, query⟩ : QueryId), Status.unassigned))) =
      [] := by
    rw [doneOf, List.filter_eq_nil_iff]
    intro x hx
    obtain ⟨query, -, rfl⟩ := List.mem_map.mp hx
    exact Bool.false_ne_true
  have hsplit : itemsOf collection (new.map (fun query => (⟨collection, query⟩, .unassigned)) ++
      items) = new.map (fun query => (⟨collection, query⟩, .unassigned)) ++
        itemsOf collection items := by
    rw [itemsOf, List.filter_append]
    exact congrArg (· ++ _) hof
  have hsplit' : doneOf (itemsOf collection (new.map (fun query =>
      (⟨collection, query⟩, .unassigned)) ++ items)) = doneOf (itemsOf collection items) := by
    rw [hsplit, doneOf, List.filter_append]
    exact congrArg (· ++ _) hdone
  rw [tally, tally, planned, hsplit', hsplit, List.length_append, List.length_map, Nat.add_comm,
    UInt64.ofNat_add]

/-- New queries of another collection. -/
theorem tally_planned_other (hne : other ≠ collection) :
    tally records (new.map (fun query => (⟨collection, query⟩, .unassigned)) ++ items) isComplete
      other = tally records items isComplete other := by
  have hof : itemsOf other (new.map (fun query => (⟨collection, query⟩, .unassigned))) = [] := by
    rw [itemsOf, List.filter_eq_nil_iff]
    intro x hx
    obtain ⟨query, -, rfl⟩ := List.mem_map.mp hx
    exact fun heq => hne (eq_of_beq heq).symm
  have hsplit : itemsOf other (new.map (fun query => (⟨collection, query⟩, .unassigned)) ++ items) =
      itemsOf other items := by
    rw [itemsOf, List.filter_append]
    exact congrArg (· ++ _) hof
  rw [tally, tally, hsplit]

/-- A query of the collection is done. -/
theorem tally_loaded (i : QueryId) :
    tally records ((i, .completed) :: rest) isComplete i.collection =
      (tally records ((i, .unassigned) :: rest) isComplete i.collection).loaded (records i.key) := by
  have hof (status : Status) : itemsOf i.collection ((i, status) :: rest) =
      (i, status) :: itemsOf i.collection rest := by
    simp [itemsOf]
  have hdone : doneOf ((i, .completed) :: itemsOf i.collection rest) =
      (i, .completed) :: doneOf (itemsOf i.collection rest) := rfl
  have hwaits : doneOf ((i, .unassigned) :: itemsOf i.collection rest) =
      doneOf (itemsOf i.collection rest) := rfl
  rw [tally, tally, loaded, hof, hof, hdone, hwaits, recordsOf, List.map_cons, List.sum_cons,
    List.length_cons, List.length_cons, List.length_cons, UInt64.ofNat_add, UInt64.ofNat_add,
    Nat.add_comm (records i.key).toNat, UInt64.ofNat_add, UInt64.ofNat_toNat]
  rfl

/-- A query of another collection changes its status. -/
theorem tally_loaded_other {i : QueryId} (status : Status) (hne : i.collection ≠ other) :
    tally records ((i, status) :: rest) isComplete other =
      tally records rest isComplete other := by
  have hof : itemsOf other ((i, status) :: rest) = itemsOf other rest := by
    simp [itemsOf, hne]
  rw [tally, tally, hof]

end LoadStatus

/-- The load status of a collection says what it should. -/
def Table.Tallies (source : String) (records : String → UInt64) (items : List (QueryId × Status))
    (isComplete : Bool) (collection : String) (t : Table) : Prop :=
  ∃ s, t.loadStatus? (LoadStatus.idOf source collection) = some s ∧
    s.counts = LoadStatus.tally records items isComplete collection

theorem Table.Tallies.of_same {source collection : String} {records : String → UInt64}
    {items items' : List (QueryId × Status)} {isComplete : Bool} {t u : Table}
    (h : t.Tallies source records items isComplete collection)
    (hsame : u.find? (LoadStatus.idOf source collection) =
      t.find? (LoadStatus.idOf source collection))
    (htally : LoadStatus.tally records items' isComplete collection =
      LoadStatus.tally records items isComplete collection) :
    u.Tallies source records items' isComplete collection := by
  obtain ⟨s, hs, hcounts⟩ := h
  exact ⟨s, (loadStatus_of_same hsame).trans hs, hcounts.trans htally.symm⟩

theorem LoadStatus.idOf_ne {source collection other : String} (hne : collection ≠ other) :
    idOf source collection ≠ idOf source other := fun heq =>
  hne (String.append_right_inj _ |>.mp (congrArg RecordId.key heq))

namespace Delivery

variable {E : Interface} {shows : Instant → Prop} {source : String} {records : String → UInt64}
  {n : Node} {t u : Table}

/-- Some queries that wait to be loaded. -/
def waiting (queries : List QueryId) : List (QueryId × Status) := queries.map (·, .unassigned)

/-! ## Planning -/

/-- How far the planning of some exports has come, when those that are done have given rise to some
queries. `wanted` says which queries a collection should have. -/
structure Planning (source : String) (records : String → UInt64) (wanted : String → List String)
    (exports : List (SnapshotId × Status)) (queries : List QueryId) (t : Table) : Prop where
  distinct : t.Distinct
  snapshots : Worklist snapshotKind source exports t
  settled : Settled exports
  /-- Every collection is exported once. -/
  names : (exports.map (·.1.collection)).Nodup
  plain : ∀ x ∈ exports, keySeparator ∉ x.1.collection.toList
  planned : Worklist queryKind source (waiting queries) t
  mem : ∀ i, i ∈ queries ↔ i.query ∈ wanted i.collection ∧
    ∃ x ∈ exports, x.2 = .completed ∧ x.1.collection = i.collection
  counts : ∀ x ∈ exports, t.Tallies source records (waiting queries) (x.2 == .completed)
    x.1.collection

namespace Planning

variable {wanted : String → List String} {exports rest : List (SnapshotId × Status)}
  {queries : List QueryId}

theorem perm {exports' : List (SnapshotId × Status)}
    (h : Planning source records wanted exports queries t) (hperm : exports.Perm exports') :
    Planning source records wanted exports' queries t where
  distinct := h.distinct
  snapshots := h.snapshots.perm hperm
  settled x hx := h.settled x (hperm.mem_iff.mpr hx)
  names := (hperm.map _).nodup_iff.mp h.names
  plain x hx := h.plain x (hperm.mem_iff.mpr hx)
  planned := h.planned
  mem i := by
    simp only [h.mem i, hperm.mem_iff]
  counts x hx := h.counts x (hperm.mem_iff.mpr hx)

/-- The queries that there are once another export has been planned. -/
theorem mem_append {i : SnapshotId} {new : List String} {w : Table}
    (h : Planning source records wanted ((i, .unassigned) :: rest) queries t)
    (hplain : keySeparator ∉ i.collection.toList)
    (hadds : Adds source i.collection (wanted i.collection) new t w) (j : QueryId) :
    j ∈ new.map (⟨i.collection, ·⟩) ++ queries ↔ j.query ∈ wanted j.collection ∧
      ∃ x ∈ (i, .completed) :: rest, x.2 = .completed ∧ x.1.collection = j.collection := by
  rw [List.mem_append]
  constructor
  · rintro (hnew | hold)
    · obtain ⟨query, hquery, rfl⟩ := List.mem_map.mp hnew
      exact ⟨((hadds.mem query).mp hquery).1, _, List.mem_cons_self, rfl, rfl⟩
    · obtain ⟨hquery, x, hx, hcompleted, hcollection⟩ := (h.mem j).mp hold
      rcases List.mem_cons.mp hx with rfl | hx
      · cases hcompleted
      · exact ⟨hquery, x, List.mem_cons_of_mem _ hx, hcompleted, hcollection⟩
  · rintro ⟨hquery, x, hx, hcompleted, hcollection⟩
    rcases List.mem_cons.mp hx with rfl | hx
    · -- A query that is there already is one of those that wait.
      obtain ⟨collection, query⟩ := j
      obtain rfl : i.collection = collection := hcollection
      by_cases hold : ⟨i.collection, query⟩ ∈ queries
      · exact .inr hold
      · refine .inl (List.mem_map_of_mem ((hadds.mem query).mpr ⟨hquery, ?_⟩))
        by_contra hfound
        obtain ⟨status, hy⟩ := h.planned.exists_mem
          (PartitionKind.identify_query ⟨i.collection, query⟩ hplain) hfound
        obtain ⟨k, hk, heq⟩ := List.mem_map.mp hy
        obtain rfl := congrArg Prod.fst heq
        exact hold hk
    · exact .inr ((h.mem j).mpr ⟨hquery, x, List.mem_cons_of_mem _ hx, hcompleted, hcollection⟩)

/-- An export is planned. -/
theorem plan {i : SnapshotId} {p p' : Partition snapshotKind} {s : LoadStatus} {v w : Table}
    (h : Planning source records wanted ((i, .unassigned) :: rest) queries t)
    (hs : t.loadStatus? (LoadStatus.idOf source i.collection) = some s)
    (hclaimed : Claimed snapshotKind source i t p u)
    (hplanned : Planned source p (wanted i.collection) true s u p' v)
    (hdone : Completed snapshotKind source i v w) :
    ∃ queries', Planning source records wanted ((i, .completed) :: rest) queries' w := by
  obtain ⟨hdistinct, ⟨new, s', hadds, hs', hcounts⟩, hsame⟩ := hplanned.enclosed hclaimed hdone
  obtain ⟨hplain, hplainRest⟩ := List.forall_mem_cons.mp h.plain
  obtain ⟨hmine, hothers⟩ := List.forall_mem_cons.mp h.counts
  obtain ⟨r, hr, hstatus, hkept⟩ := hdone.record
  have hnames := h.names
  rw [List.map_cons, List.nodup_cons] at hnames
  -- What is waiting now is what this export has added, and what was waiting before.
  have hall : waiting (new.map (⟨i.collection, ·⟩) ++ queries) =
      new.map (fun query => (⟨i.collection, query⟩, .unassigned)) ++ waiting queries := by
    rw [waiting, List.map_append, List.map_map]
    rfl
  refine ⟨new.map (⟨i.collection, ·⟩) ++ queries, hdistinct h.distinct, ?_, ?_, h.names, ?_, ?_,
    fun j => ?_, ?_⟩
  · refine h.snapshots.move (fun key hkey => hsame _ ?_ ?_ ?_) hr hstatus hkept
    · exact (by decide : snapshotKind.tag ≠ queryKind.tag)
    · exact ne_of_apply_ne RecordId.kind (by decide : snapshotKind.tag ≠ sharedKind.tag)
    · exact fun heq => hkey (congrArg RecordId.key heq)
  · rw [Settled, List.forall_mem_cons]
    exact ⟨.inr rfl, fun x hx => h.settled x (List.mem_cons_of_mem _ hx)⟩
  · rw [List.forall_mem_cons]
    exact ⟨hplain, hplainRest⟩
  · rw [hall]
    exact hadds.worklist h.planned hplain
  · exact h.mem_append hplain hadds j
  · rw [List.forall_mem_cons, hall]
    refine ⟨⟨s', hs', ?_⟩, fun x hx => ?_⟩
    · obtain ⟨s₀, hs₀, hcounts₀⟩ := hmine
      obtain rfl := Option.some.inj (hs.symm.trans hs₀)
      rw [hcounts, hcounts₀]
      exact (LoadStatus.tally_planned true).symm
    · have hne : x.1.collection ≠ i.collection := by
        intro heq
        exact hnames.1 (List.mem_map.mpr ⟨x, hx, heq⟩)
      refine (hothers x hx).of_same (hsame _ ?_ (LoadStatus.idOf_ne hne) ?_)
        (LoadStatus.tally_planned_other hne)
      · exact (by decide : sharedKind.tag ≠ queryKind.tag)
      · exact ne_of_apply_ne RecordId.kind (by decide : sharedKind.tag ≠ snapshotKind.tag)

end Planning

/-- How many of some exports are still to be planned. -/
def ToPlan (source : String) (records : String → UInt64) (wanted : String → List String)
    (ids : List SnapshotId) (count : Nat) (t : Table) : Prop :=
  ∃ exports queries, (exports.map Prod.fst).Perm ids ∧ exports.countP isWaiting = count ∧
    Planning source records wanted exports queries t

/-- **A pass over the exports** plans one of them, unless there is none left. -/
theorem ToPlan.pass {paging : String → List Page} {ids : List SnapshotId} {count : Nat}
    (h : ToPlan n.source records (fun c => Page.queries c (paging c)) ids count t)
    {settings : WorkerSettings} {supplier : Supplier E}
    (hserves : ∀ i ∈ ids, supplier.Serves i.collection (paging i.collection)) :
    (alone shows).Ensures (fun result u => result.1 = .ok (count != 0) ∧
        ToPlan n.source records (fun c => Page.queries c (paging c)) ids (count - 1) u)
      (Work.pass n settings (LeasedWork.Planning.process n) supplier) t := by
  obtain ⟨exports, queries, hids, rfl, hplanning⟩ := h
  refine Work.alone_workPass (fun result u => result = .ok (exports.countP isWaiting != 0) ∧
      ToPlan n.source records (fun c => Page.queries c (paging c)) ids
        (exports.countP isWaiting - 1) u)
    rfl hplanning.snapshots hplanning.distinct hplanning.settled ?_ ?_
  · intro hzero
    rw [hzero]
    exact ⟨rfl, exports, queries, hids, hzero, hplanning⟩
  · rintro i rest u p hperm hclaimed
    obtain rfl := hclaimed.identity
    have hplanning' := hplanning.perm hperm
    have hi : p.identity ∈ ids :=
      hids.mem_iff.mp ((hperm.map Prod.fst).mem_iff.mpr List.mem_cons_self)
    obtain ⟨s, hs, -⟩ := hplanning'.counts _ List.mem_cons_self
    have hs' : u.loadStatus? (LoadStatus.idOf n.source p.identity.collection) = some s := by
      refine (loadStatus_of_same (hclaimed.same _ ?_)).trans hs
      exact ne_of_apply_ne RecordId.kind (by decide : sharedKind.tag ≠ snapshotKind.tag)
    refine (LeasedWork.Planning.alone_planFrom (hserves _ hi) hclaimed.holds hs').imp ?_
    rintro done v ⟨hverdict, hplanned⟩
    refine ⟨hverdict, hplanned.holds, hplanned.identity, fun w hdone => ?_⟩
    obtain ⟨queries', hnext⟩ := hplanning'.plan hs hclaimed hplanned hdone
    have hcount : exports.countP isWaiting = rest.countP isWaiting + 1 := by
      rw [hperm.countP_eq, List.countP_cons_of_pos rfl]
    rw [hcount]
    refine ⟨rfl, (p.identity, .completed) :: rest, queries', ?_, ?_, hnext⟩
    · exact (hperm.map Prod.fst).symm.trans hids
    · rw [List.countP_cons_of_neg Bool.false_ne_true]
      rfl

/-! ## Loading -/

/-- Loads a query: counts its records in its own progress, and then for the collection. -/
def load (records : String → UInt64) (n : Node) : Processor E queryKind Unit := fun p _ => do
  let batch := p.recordBatch (records p.key)
  match ← (n.save batch none : Node.Action E _).run with
  | .error failure => return ⟨.error failure, batch, ()⟩
  | .ok p' =>
    match ← (LoadStatus.recordLoaded n p.identity.collection (records p.key) :
      Node.Action E _).run with
    | .error failure => return ⟨.error failure, p', ()⟩
    | .ok () => return ⟨.ok .completed, p', ()⟩

/-- How far the loading of some queries has come, all of which have been planned. -/
structure Loading (source : String) (records : String → UInt64) (names : List String)
    (items : List (QueryId × Status)) (t : Table) : Prop where
  distinct : t.Distinct
  queries : Worklist queryKind source items t
  settled : Settled items
  named : ∀ x ∈ items, x.1.collection ∈ names
  counts : ∀ c ∈ names, t.Tallies source records items true c

namespace Loading

variable {names : List String} {items rest : List (QueryId × Status)}

theorem perm {items' : List (QueryId × Status)} (h : Loading source records names items t)
    (hperm : items.Perm items') : Loading source records names items' t where
  distinct := h.distinct
  queries := h.queries.perm hperm
  settled x hx := h.settled x (hperm.mem_iff.mpr hx)
  named x hx := h.named x (hperm.mem_iff.mpr hx)
  counts c hc := (h.counts c hc).of_same rfl (LoadStatus.tally_perm hperm.symm)

/-- What the loading of a query in hand has come to. -/
structure Loaded (source : String) (records : String → UInt64) (i : QueryId) (s : LoadStatus)
    (t : Table) (p : Partition queryKind) (u : Table) : Prop where
  distinct : t.Distinct → u.Distinct
  counted : ∃ s', u.loadStatus? (LoadStatus.idOf source i.collection) = some s' ∧
    s'.counts = s.counts.loaded (records i.key)
  holds : p.Holds source u
  identity : p.identity = i
  /-- Nothing else is written than the load status and the query. -/
  same : ∀ id, id ≠ LoadStatus.idOf source i.collection → id ≠ queryKind.recordId source i →
    u.find? id = t.find? id

theorem alone_load {p : Partition queryKind} {s : LoadStatus} (hp : p.Holds n.source u)
    (hs : u.loadStatus? (LoadStatus.idOf n.source p.identity.collection) = some s) :
    (alone shows).Ensures (E := E) (fun done v => done.verdict = .ok .completed ∧
        Loaded n.source records p.identity s u done.partition v)
      (load records n p ()) u := by
  have hstatus : LoadStatus.idOf n.source p.identity.collection ≠
      queryKind.recordId n.source p.identity :=
    ne_of_apply_ne RecordId.kind (by decide : sharedKind.tag ≠ queryKind.tag)
  -- The batch is recorded in hand first; what is saved is the partition with it.
  have hbatch : (p.recordBatch (records p.key)).Holds n.source u :=
    ⟨hp.record, _, PartitionKind.keeps_query _, rfl⟩
  have hsave : (alone shows).Yields (E := E) (fun p' v => p'.Holds n.source v ∧
        p'.identity = p.identity ∧ (u.Distinct → v.Distinct) ∧
        ∀ id, id ≠ queryKind.recordId n.source p.identity → v.find? id = u.find? id) NeverFails
      (n.save (p.recordBatch (records p.key)) none) u := by
    refine (alone_move hbatch rfl).imp ?_ fun _ _ h => h
    rintro p' v ⟨hp', hidentity, r, x, time, hr, -, hputs⟩
    have hid : (Transition.apply time (.save n.lease)
        { r with progress := some (queryKind.text x) }).nextVersion.id =
          queryKind.recordId n.source p.identity :=
      (Transition.id_apply (.save n.lease) time _).trans (find?_some hr).2
    exact ⟨hp', hidentity, hputs.distinct, fun id hne => hputs.find_of_ne (hid ▸ hne)⟩
  refine Ensures.bind hsave fun saved v hsaved => ?_
  cases saved with
  | error failure => exact hsaved.elim
  | ok p' =>
    obtain ⟨hp', hidentity, hdistinct, hsame⟩ := hsaved
    have hs' := (loadStatus_of_same (hsame _ hstatus)).trans hs
    have hcount : (alone shows).Yields (E := E) (fun _ => LoadStatus.Rewrites
          (LoadStatus.idOf n.source p.identity.collection) (s.loaded (records p.key)) v) NeverFails
        (LoadStatus.recordLoaded n p.identity.collection (records p.key)) v :=
      LoadStatus.alone_update hs'
    refine Ensures.bind hcount fun counted w hcounted => ?_
    cases counted with
    | error failure => exact hcounted.elim
    | ok _ =>
      obtain ⟨r, time, hputs, hid, hread⟩ := hcounted
      refine ⟨rfl, fun hd => hputs.distinct (hdistinct hd),
        ⟨_, loadStatus_of_find (hid ▸ hputs.find_self) hread, rfl⟩,
        hp'.congr (hputs.find_of_ne ?_), hidentity, fun id hne hne' => ?_⟩
      · rw [hidentity, hid]
        exact hstatus.symm
      · rw [hputs.find_of_ne (hid ▸ hne), hsame id hne']

/-- A query has been loaded. -/
theorem loaded {i : QueryId} {p p' : Partition queryKind} {s : LoadStatus} {v w : Table}
    (h : Loading source records names ((i, .unassigned) :: rest) t)
    (hs : t.loadStatus? (LoadStatus.idOf source i.collection) = some s)
    (hclaimed : Claimed queryKind source i t p u) (hloaded : Loaded source records i s u p' v)
    (hdone : Completed queryKind source i v w) :
    Loading source records names ((i, .completed) :: rest) w := by
  obtain ⟨r, hr, hstatus, hkept⟩ := hdone.record
  obtain ⟨s', hs', hcounts⟩ := hloaded.counted
  have hall : ∀ id, id ≠ LoadStatus.idOf source i.collection →
      id ≠ queryKind.recordId source i → w.find? id = t.find? id := by
    intro id hne hne'
    rw [hdone.same id hne', hloaded.same id hne hne', hclaimed.same id hne']
  have hkind : ∀ c, LoadStatus.idOf source c ≠ queryKind.recordId source i := fun c =>
    ne_of_apply_ne RecordId.kind (by decide : sharedKind.tag ≠ queryKind.tag)
  refine ⟨hdone.distinct (hloaded.distinct (hclaimed.distinct h.distinct)), ?_, ?_, ?_,
    fun c hc => ?_⟩
  · refine h.queries.move (fun key hkey => hall _ ?_ ?_) hr hstatus hkept
    · exact ne_of_apply_ne RecordId.kind (by decide : queryKind.tag ≠ sharedKind.tag)
    · exact fun heq => hkey (congrArg RecordId.key heq)
  · rw [Settled, List.forall_mem_cons]
    exact ⟨.inr rfl, fun x hx => h.settled x (List.mem_cons_of_mem _ hx)⟩
  · rw [List.forall_mem_cons]
    exact ⟨h.named (i, .unassigned) List.mem_cons_self,
      fun x hx => h.named x (List.mem_cons_of_mem _ hx)⟩
  · by_cases hcollection : i.collection = c
    · subst hcollection
      obtain ⟨s₀, hs₀, hcounts₀⟩ := h.counts _ hc
      obtain rfl := Option.some.inj (hs.symm.trans hs₀)
      refine ⟨s', (loadStatus_of_same (hdone.same _ (hkind _))).trans hs', ?_⟩
      rw [hcounts, hcounts₀, LoadStatus.tally_loaded]
    · refine (h.counts c hc).of_same
        (hall _ (LoadStatus.idOf_ne (Ne.symm hcollection)) (hkind c)) ?_
      rw [LoadStatus.tally_loaded_other _ hcollection, LoadStatus.tally_loaded_other _ hcollection]

end Loading

/-- How many of some queries are still to be loaded. -/
def ToLoad (source : String) (records : String → UInt64) (names : List String)
    (ids : List QueryId) (count : Nat) (t : Table) : Prop :=
  ∃ items, (items.map Prod.fst).Perm ids ∧ items.countP isWaiting = count ∧
    Loading source records names items t

/-- **A pass over the queries** loads one of them, unless there is none left. -/
theorem ToLoad.pass {names : List String} {ids : List QueryId} {count : Nat}
    (h : ToLoad n.source records names ids count t) {settings : WorkerSettings} :
    (alone shows).Ensures (E := E) (fun result u => result.1 = .ok (count != 0) ∧
        ToLoad n.source records names ids (count - 1) u)
      (Work.pass n settings (load records n) ()) t := by
  obtain ⟨items, hids, rfl, hloading⟩ := h
  refine Work.alone_workPass (fun result u => result = .ok (items.countP isWaiting != 0) ∧
      ToLoad n.source records names ids (items.countP isWaiting - 1) u)
    rfl hloading.queries hloading.distinct hloading.settled ?_ ?_
  · intro hzero
    rw [hzero]
    exact ⟨rfl, items, hids, hzero, hloading⟩
  · rintro i rest u p hperm hclaimed
    obtain rfl := hclaimed.identity
    have hloading' := hloading.perm hperm
    have hi := hloading'.named _ List.mem_cons_self
    obtain ⟨s, hs, -⟩ := hloading'.counts _ hi
    have hs' : u.loadStatus? (LoadStatus.idOf n.source p.identity.collection) = some s := by
      refine (loadStatus_of_same (hclaimed.same _ ?_)).trans hs
      exact ne_of_apply_ne RecordId.kind (by decide : sharedKind.tag ≠ queryKind.tag)
    refine (Loading.alone_load hclaimed.holds hs').imp ?_
    rintro done v ⟨hverdict, hloaded⟩
    refine ⟨hverdict, hloaded.holds, hloaded.identity, fun w hdone => ?_⟩
    have hcount : items.countP isWaiting = rest.countP isWaiting + 1 := by
      rw [hperm.countP_eq, List.countP_cons_of_pos rfl]
    rw [hcount]
    refine ⟨rfl, (p.identity, .completed) :: rest, ?_, ?_,
      hloading'.loaded hs hclaimed hloaded hdone⟩
    · exact (hperm.map Prod.fst).symm.trans hids
    · rw [List.countP_cons_of_neg Bool.false_ne_true]
      rfl

/-! ## From one stage to the next -/

/-- What is left when nothing waits is done. -/
theorem completed_of_settled {α : Type} {items : List (α × Status)} (h : Settled items)
    (hzero : items.countP isWaiting = 0) : ∀ x ∈ items, x.2 = .completed := by
  intro x hx
  rcases h x hx with hwaits | hdone
  · have hnot := List.countP_eq_zero.mp hzero x hx
    simp [isWaiting, hwaits] at hnot
  · exact hdone

theorem countP_waiting {α : Type} (xs : List α) :
    (xs.map fun x => (x, Status.unassigned)).countP isWaiting = xs.length := by
  rw [List.countP_map]
  exact List.countP_eq_length.mpr fun _ _ => rfl

variable {cs : List Collection} {wanted : String → List String}

variable (records wanted) in
/-- The planning begins. -/
theorem toPlan_of_bootstrapped (hcs : Distinguished cs)
    (hplain : ∀ c ∈ cs, keySeparator ∉ c.name.toList) (h : Candidate.Bootstrapped source cs t) :
    ∃ time ids, ids.Perm (exportsOf time cs) ∧
      ToPlan source records wanted ids ids.length t := by
  obtain ⟨time, ids, keys, -, hperm, hfounded⟩ := h
  have hnames : (ids.map SnapshotId.collection).Nodup := by
    rw [(hperm.map _).nodup_iff]
    have hsub : ((exportsOf time cs).map SnapshotId.collection).Sublist
        (cs.map Collection.name) := by
      clear hperm hcs hplain
      induction cs with
      | nil => exact List.Sublist.slnil
      | cons c rest ih =>
        rw [exportsOf, List.filterMap_cons]
        cases c.exportSize with
        | none => exact ih.cons _
        | some size => exact ih.cons_cons _
    exact hsub.nodup hcs.names
  have hplanning : Planning source records wanted (ids.map (·, .unassigned)) [] t := by
    refine ⟨hfounded.distinct, hfounded.snapshots, ?_, ?_, ?_, hfounded.queries, ?_, ?_⟩
    · intro x hx
      obtain ⟨i, -, rfl⟩ := List.mem_map.mp hx
      exact .inl rfl
    · rw [List.map_map]
      exact hnames
    · intro x hx
      obtain ⟨i, hi, rfl⟩ := List.mem_map.mp hx
      obtain ⟨c, hc, size, -, rfl⟩ := mem_exportsOf.mp (hperm.mem_iff.mp hi)
      exact hplain c hc
    · intro i
      constructor
      · intro hmem
        cases hmem
      · rintro ⟨-, x, hx, hcompleted, -⟩
        obtain ⟨j, -, rfl⟩ := List.mem_map.mp hx
        cases hcompleted
    · intro x hx
      obtain ⟨i, hi, rfl⟩ := List.mem_map.mp hx
      exact hfounded.counts i hi
  refine ⟨time, ids, hperm, _, [], ?_, countP_waiting ids, hplanning⟩
  rw [List.map_map]
  exact List.Perm.of_eq (List.map_id ids)

/-- The loading begins when there is nothing left to plan. -/
theorem toLoad_of_toPlan {ids : List SnapshotId} (h : ToPlan source records wanted ids 0 t) :
    ∃ queries, ToLoad source records (ids.map SnapshotId.collection) queries queries.length t ∧
      ∀ i, i ∈ queries ↔ i.query ∈ wanted i.collection ∧
        i.collection ∈ ids.map SnapshotId.collection := by
  obtain ⟨exports, queries, hperm, hzero, hplanning⟩ := h
  have hdone := completed_of_settled hplanning.settled hzero
  have hnames : ∀ name, name ∈ ids.map SnapshotId.collection ↔
      ∃ x ∈ exports, x.1.collection = name := by
    intro name
    rw [← (hperm.map SnapshotId.collection).mem_iff, List.map_map, List.mem_map]
    rfl
  have hmem : ∀ i, i ∈ queries ↔ i.query ∈ wanted i.collection ∧
      i.collection ∈ ids.map SnapshotId.collection := by
    intro i
    rw [hplanning.mem, hnames]
    refine and_congr_right fun _ => ⟨?_, ?_⟩
    · rintro ⟨x, hx, -, hcollection⟩
      exact ⟨x, hx, hcollection⟩
    · rintro ⟨x, hx, hcollection⟩
      exact ⟨x, hx, hdone x hx, hcollection⟩
  refine ⟨queries, ⟨waiting queries, ?_, countP_waiting queries,
    hplanning.distinct, hplanning.planned, ?_, ?_, fun c hc => ?_⟩, hmem⟩
  · rw [waiting, List.map_map]
    exact List.Perm.of_eq (List.map_id queries)
  · intro x hx
    obtain ⟨i, -, rfl⟩ := List.mem_map.mp hx
    exact .inl rfl
  · intro x hx
    obtain ⟨i, hi, rfl⟩ := List.mem_map.mp hx
    exact ((hmem i).mp hi).2
  · obtain ⟨x, hx, rfl⟩ := (hnames c).mp hc
    have hcounts := hplanning.counts x hx
    rw [hdone x hx] at hcounts
    exact hcounts

/-! ## What is left in the end -/

/-- The keys of a collection's queries, each one once. -/
def keysOf (paging : String → List Page) (c : Collection) : List String :=
  if c.exportSize.isSome then
    ((Page.queries c.name (paging c.name)).map fun query => QueryId.key ⟨c.name, query⟩).dedup
  else []

/-- Every query of a collection has been loaded, and the load status of the collection says so. -/
structure Delivered (source : String) (records : String → UInt64) (collection : String)
    (keys : List String) (t : Table) : Prop where
  completed : ∀ key ∈ keys, ∃ r, t.find? ⟨source, queryKind.tag, key⟩ = some r ∧
    r.status = some .completed
  /-- The collection has no other queries. -/
  only : ∀ r ∈ t.rows, r.source = source → r.kind = queryKind.tag →
    ∀ i, QueryId.readKey r.key = .ok i → i.collection = collection →
      r.key ∈ keys ∧ r.status = some .completed
  status : ∃ s, t.loadStatus? (LoadStatus.idOf source collection) = some s ∧
    s.totalPartitions.toNat = keys.length ∧ s.loadedPartitions.toNat = keys.length ∧
    s.loadedRecords.toNat = (keys.map fun key => (records key).toNat).sum ∧
    s.isFullyLoaded = true

theorem nodup_keys {items : List (QueryId × Status)} (h : Worklist queryKind source items t) :
    (items.map fun x => x.1.key).Nodup := by
  have hkeys : (items.map fun x => x.1.key) = (items.map Prod.fst).map QueryId.key := by
    rw [List.map_map]
    rfl
  rw [hkeys]
  refine List.Nodup.map_on ?_ h.nodup
  intro i hi j hj hkey
  obtain ⟨x, hx, rfl⟩ := List.mem_map.mp hi
  obtain ⟨y, hy, rfl⟩ := List.mem_map.mp hj
  have hread := h.identify x hx
  rw [show queryKind.key x.1 = queryKind.key y.1 from hkey, h.identify y hy] at hread
  exact (Except.ok.inj hread).symm

variable {paging : String → List Page} {names : List String} {queries : List QueryId}

/-- The worklist of a collection has the keys of the collection, each of them once. -/
theorem perm_keysOf {items : List (QueryId × Status)} (hperm : (items.map Prod.fst).Perm queries)
    (hnodup : (items.map fun x => x.1.key).Nodup)
    (hmem : ∀ i, i ∈ queries ↔ i.query ∈ Page.queries i.collection (paging i.collection) ∧
      i.collection ∈ names) {c : Collection} (hc : c.name ∈ names)
    (hsize : c.exportSize.isSome = true) :
    ((itemsOf c.name items).map fun x => x.1.key).Perm (keysOf paging c) := by
  have hitem : ∀ i, (∃ status, (i, status) ∈ items) ↔
      i.query ∈ Page.queries i.collection (paging i.collection) ∧ i.collection ∈ names := by
    intro i
    rw [← hmem i, ← hperm.mem_iff, List.mem_map]
    constructor
    · rintro ⟨status, hx⟩
      exact ⟨_, hx, rfl⟩
    · rintro ⟨x, hx, rfl⟩
      exact ⟨x.2, hx⟩
  rw [keysOf, if_pos hsize]
  refine (List.perm_ext_iff_of_nodup ?_ (List.nodup_dedup _)).mpr fun key => ?_
  · exact (List.filter_sublist.map _).nodup hnodup
  · simp only [itemsOf, List.mem_map, List.mem_filter, beq_iff_eq, List.mem_dedup]
    constructor
    · rintro ⟨⟨⟨collection, query⟩, status⟩, ⟨hx, hcollection⟩, rfl⟩
      obtain rfl : collection = c.name := hcollection
      exact ⟨query, ((hitem _).mp ⟨status, hx⟩).1, rfl⟩
    · rintro ⟨query, hquery, rfl⟩
      obtain ⟨status, hx⟩ := (hitem ⟨c.name, query⟩).mpr ⟨hquery, hc⟩
      exact ⟨_, ⟨hx, rfl⟩, rfl⟩

/-- When nothing is left to load, every collection is delivered. -/
theorem Delivered.of_toLoad (h : ToLoad source records names queries 0 t)
    (hmem : ∀ i, i ∈ queries ↔ i.query ∈ Page.queries i.collection (paging i.collection) ∧
      i.collection ∈ names) {c : Collection} (hc : c.name ∈ names)
    (hsize : c.exportSize.isSome = true) (hkeys : (keysOf paging c).length < UInt64.size)
    (hrecords : ((keysOf paging c).map fun key => (records key).toNat).sum < UInt64.size) :
    Delivered source records c.name (keysOf paging c) t := by
  obtain ⟨items, hperm, hzero, hloading⟩ := h
  have hdone := completed_of_settled hloading.settled hzero
  have hof := perm_keysOf hperm (nodup_keys hloading.queries) hmem hc hsize
  have hkey : ∀ key, key ∈ keysOf paging c ↔
      ∃ x ∈ items, x.1.collection = c.name ∧ x.1.key = key := by
    intro key
    rw [← hof.mem_iff, List.mem_map]
    simp only [itemsOf, List.mem_filter, beq_iff_eq, and_assoc]
  have hall : doneOf (itemsOf c.name items) = itemsOf c.name items := by
    rw [doneOf, List.filter_eq_self]
    intro x hx
    rw [hdone x (List.mem_of_mem_filter hx)]
    rfl
  have hlength : (itemsOf c.name items).length = (keysOf paging c).length := by
    rw [← hof.length_eq, List.length_map]
  have hsum : recordsOf records (itemsOf c.name items) =
      ((keysOf paging c).map fun key => (records key).toNat).sum := by
    rw [← (hof.map _).sum_nat, List.map_map]
    rfl
  refine ⟨fun key hmem => ?_, fun r hr hsource hkind i hi hcollection => ?_, ?_⟩
  · obtain ⟨x, hx, -, rfl⟩ := (hkey key).mp hmem
    obtain ⟨r, hr, hstatus, -⟩ := hloading.queries.stored x hx
    exact ⟨r, hr, hdone x hx ▸ hstatus⟩
  · have hfind : t.find? ⟨source, queryKind.tag, r.key⟩ = some r :=
      (find?_iff hloading.distinct).mpr ⟨hr, by rw [Record.id, hsource, hkind]⟩
    obtain ⟨x, hx, hxkey⟩ := hloading.queries.only r.key (has_of_find hfind)
    have hread := hloading.queries.identify x hx
    rw [← hxkey, show queryKind.identify r.key = _ from hi] at hread
    obtain rfl : i = x.1 := Except.ok.inj hread
    obtain ⟨r', hr', hstatus, -⟩ := hloading.queries.stored x hx
    rw [PartitionKind.recordId, ← hxkey, hfind] at hr'
    obtain rfl := Option.some.inj hr'
    exact ⟨(hkey r.key).mpr ⟨x, hx, hcollection, hxkey.symm⟩, hdone x hx ▸ hstatus⟩
  · -- The load status is the tally of the worklist, on which everything is completed.
    obtain ⟨s, hs, hcounts⟩ := hloading.counts c.name hc
    rw [LoadStatus.tally, hall, hlength, hsum] at hcounts
    have htotal : s.totalPartitions = .ofNat (keysOf paging c).length :=
      congrArg LoadStatus.totalPartitions hcounts
    have hloaded : s.loadedPartitions = .ofNat (keysOf paging c).length :=
      congrArg LoadStatus.loadedPartitions hcounts
    have hsum' : s.loadedRecords = .ofNat _ := congrArg LoadStatus.loadedRecords hcounts
    have hcomplete : s.totalComplete = true := congrArg LoadStatus.totalComplete hcounts
    refine ⟨s, hs, ?_, ?_, ?_, ?_⟩
    · rw [htotal]
      exact UInt64.toNat_ofNat_of_lt hkeys
    · rw [hloaded]
      exact UInt64.toNat_ofNat_of_lt hkeys
    · rw [hsum']
      exact UInt64.toNat_ofNat_of_lt hrecords
    · simp [LoadStatus.isFullyLoaded, hcomplete, htotal, hloaded]

/-- There are as many queries as there are keys. -/
theorem length_queries (h : ToLoad source records names queries queries.length t)
    (hmem : ∀ i, i ∈ queries ↔ i.query ∈ Page.queries i.collection (paging i.collection) ∧
      i.collection ∈ names)
    (hnames : ∀ name, name ∈ names ↔ ∃ c ∈ cs, c.exportSize.isSome = true ∧ c.name = name) :
    queries.length = (cs.flatMap (keysOf paging)).dedup.length := by
  obtain ⟨items, hperm, -, hloading⟩ := h
  have hkeys : (queries.map QueryId.key).Perm (cs.flatMap (keysOf paging)).dedup := by
    refine (List.perm_ext_iff_of_nodup ?_ (List.nodup_dedup _)).mpr fun key => ?_
    · rw [← (hperm.map QueryId.key).nodup_iff, List.map_map]
      exact nodup_keys hloading.queries
    · rw [List.mem_dedup, List.mem_flatMap, List.mem_map]
      constructor
      · rintro ⟨i, hi, rfl⟩
        obtain ⟨hquery, hname⟩ := (hmem i).mp hi
        obtain ⟨c, hc, hsize, hcollection⟩ := (hnames _).mp hname
        refine ⟨c, hc, ?_⟩
        rw [keysOf, if_pos hsize, List.mem_dedup, hcollection]
        exact List.mem_map_of_mem hquery
      · rintro ⟨c, hc, hkey⟩
        by_cases hsize : c.exportSize.isSome = true
        · rw [keysOf, if_pos hsize, List.mem_dedup, List.mem_map] at hkey
          obtain ⟨query, hquery, rfl⟩ := hkey
          exact ⟨_, (hmem ⟨c.name, query⟩).mpr ⟨hquery, (hnames _).mpr ⟨c, hc, hsize, rfl⟩⟩, rfl⟩
        · rw [keysOf, if_neg hsize] at hkey
          cases hkey
  rw [← hkeys.length_eq, List.length_map]

/-! ## The whole run -/

/-- Who makes a pass, and with what. -/
structure Worker (σ : Type) where
  node : Node
  settings : WorkerSettings
  state : σ

/-- A pass over the exports. -/
def exportPass (w : Worker (Supplier E)) : Program (Node.interface E) (Except Failure Bool) :=
  Prod.fst <$> Work.pass w.node w.settings (LeasedWork.Planning.process w.node) w.state

/-- A pass over the queries. -/
def loadPass (records : String → UInt64) (w : Worker Unit) :
    Program (Node.interface E) (Except Failure Bool) :=
  Prod.fst <$> Work.pass w.node w.settings (load records w.node) w.state

/-- One pass of a leader, then passes over the exports until one of them finds nothing to do, and
then passes over the queries in the same way. Gives what the passes have said. -/
def program (leader : Candidate) (exporters : List (Worker (Supplier E)))
    (loaders : List (Worker Unit)) (records : String → UInt64) :
    Program (Node.interface E) (List (Except Failure Bool) × List (Except Failure Bool)) := do
  let _ ← leader.pass
  let planned ← Work.drain (exporters.map exportPass)
  let loaded ← Work.drain (loaders.map (loadPass records))
  return (planned, loaded)

theorem ToPlan.drain {ids : List SnapshotId} {count : Nat}
    {exporters : List (Worker (Supplier E))}
    (h : ToPlan source records (fun c => Page.queries c (paging c)) ids count t)
    (hexporters : ∀ w ∈ exporters, w.node.source = source ∧
      ∀ i ∈ ids, w.state.Serves i.collection (paging i.collection))
    (hcount : count < exporters.length) :
    (alone shows).Ensures (fun said u => said = Work.verdicts count ∧
        ToPlan source records (fun c => Page.queries c (paging c)) ids 0 u)
      (Work.drain (exporters.map exportPass)) t := by
  refine Work.ensures_drain ?_ (by simpa using hcount) h
  intro pass hpass count t ht
  obtain ⟨w, hw, rfl⟩ := List.mem_map.mp hpass
  obtain ⟨rfl, hserves⟩ := hexporters w hw
  exact (ht.pass hserves).map

theorem ToLoad.drain {count : Nat} {loaders : List (Worker Unit)}
    (h : ToLoad source records names queries count t)
    (hloaders : ∀ w ∈ loaders, w.node.source = source) (hcount : count < loaders.length) :
    (alone shows).Ensures (E := E) (fun said u => said = Work.verdicts count ∧
        ToLoad source records names queries 0 u)
      (Work.drain (loaders.map (loadPass records))) t := by
  refine Work.ensures_drain ?_ (by simpa using hcount) h
  intro pass hpass count t ht
  obtain ⟨w, hw, rfl⟩ := List.mem_map.mp hpass
  obtain rfl := hloaders w hw
  exact ht.pass.map

/-- How many collections are exported. -/
def exportCount (cs : List Collection) : Nat := cs.countP fun c => c.exportSize.isSome

/-- How many queries they have in all. -/
def queryCount (paging : String → List Page) (cs : List Collection) : Nat :=
  (cs.flatMap (keysOf paging)).dedup.length

theorem ensures_program {settings : LeaderSettings} {exporters : List (Worker (Supplier E))}
    {loaders : List (Worker Unit)} (hcs : Distinguished cs)
    (hplain : ∀ c ∈ cs, keySeparator ∉ c.name.toList)
    (hshows : ∀ now, shows now → ∃ time, Candidate.snapshotOf now = .ok time)
    (hexporters : ∀ w ∈ exporters, w.node.source = n.source ∧
      ∀ c ∈ cs, c.exportSize.isSome = true → w.state.Serves c.name (paging c.name))
    (hloaders : ∀ w ∈ loaders, w.node.source = n.source)
    (hplan : exportCount cs < exporters.length) (hload : queryCount paging cs < loaders.length)
    (hsmall : ∀ c ∈ cs, (keysOf paging c).length < UInt64.size ∧
      ((keysOf paging c).map fun key => (records key).toNat).sum < UInt64.size) :
    (alone shows).Ensures (fun said u =>
        said = (Work.verdicts (exportCount cs), Work.verdicts (queryCount paging cs)) ∧
        ∀ c ∈ cs, c.exportSize.isSome = true →
          Delivered n.source records c.name (keysOf paging c) u)
      (program (.new n cs settings) exporters loaders records) .empty := by
  refine (Candidate.alone_pass hcs settings hshows).bind fun _ t ht => ?_
  obtain ⟨time, ids, hids, htoPlan⟩ := toPlan_of_bootstrapped records
    (fun c => Page.queries c (paging c)) hcs hplain ht
  have hexports : ids.length = exportCount cs := by
    rw [hids.length_eq, length_exportsOf]
    rfl
  -- The exports are those of the collections that have an export size.
  have hnames : ∀ name, name ∈ ids.map SnapshotId.collection ↔
      ∃ c ∈ cs, c.exportSize.isSome = true ∧ c.name = name := by
    intro name
    simp only [List.mem_map, hids.mem_iff, mem_exportsOf, Option.isSome_iff_exists]
    constructor
    · rintro ⟨_, ⟨c, hc, size, hsize, rfl⟩, rfl⟩
      exact ⟨c, hc, ⟨size, hsize⟩, rfl⟩
    · rintro ⟨c, hc, ⟨size, hsize⟩, rfl⟩
      exact ⟨_, ⟨c, hc, size, hsize, rfl⟩, rfl⟩
  have hserved : ∀ w ∈ exporters, w.node.source = n.source ∧
      ∀ i ∈ ids, w.state.Serves i.collection (paging i.collection) := by
    intro w hw
    refine ⟨(hexporters w hw).1, fun i hi => ?_⟩
    obtain ⟨c, hc, hsize, hname⟩ := (hnames _).mp (List.mem_map_of_mem hi)
    exact hname ▸ (hexporters w hw).2 c hc hsize
  refine (htoPlan.drain hserved (hexports ▸ hplan)).bind ?_
  rintro _ u ⟨rfl, hu⟩
  obtain ⟨queries, htoLoad, hmem⟩ := toLoad_of_toPlan hu
  have hlength : queries.length = queryCount paging cs := length_queries htoLoad hmem hnames
  refine (htoLoad.drain hloaders (hlength ▸ hload)).bind ?_
  rintro _ v ⟨rfl, hv⟩
  refine ⟨by rw [hexports, hlength], fun c hc hsize => ?_⟩
  obtain ⟨hkeys, hrecords⟩ := hsmall c hc
  exact .of_toLoad hv hmem ((hnames _).mpr ⟨c, hc, hsize, rfl⟩) hsize hkeys hrecords

/-! ## Runs -/

/-- A table that one program has for itself, and how much it has asked. -/
structure Desk where
  table : Table
  asked : Nat

namespace Desk

/-- The desk after one more question. -/
def next (s : Desk) (t : Table) : Desk := ⟨t, s.asked + 1⟩

/-- Answers out of the table. The clock may show any time at each question. -/
def handler (clock : Nat → Instant) : Handler (Node.interface Interface.none) Desk where
  answer
    | .store request, s =>
      ((s.table.answer (clock s.asked) request).1,
        s.next (s.table.answer (clock s.asked) request).2)
    | .now, s => (clock s.asked, s.next s.table)
    | .pause _, s => ((), s.next s.table)
    | .other q, _ => q.elim

end Desk

/-- **Exports from end to end.**  Over an empty table, a leader of some collections makes one pass;
then exporters make passes until there is no export left, each with a supplier that serves the pages
of every exported collection; and then loaders make passes until there is no query left.  The
collections have distinct names without a separator that are not those of load statuses.  Then

* the exporters make one pass for every exported collection, the loaders one for every query, and
  both one more that finds nothing to do;
* of every exported collection all queries are completed, and its load status counts as many queries
  as there are keys, all of them loaded, and the records of all of them;
* and every exported collection is fully loaded.

All counts are words, so they are right as long as they are less than `2^64`; and the clock shows
times that can be put in milliseconds. -/
theorem delivered (node : Node) (settings : LeaderSettings) (cs : List Collection)
    (paging : String → List Page) (records : String → UInt64)
    (exporters : List (Worker (Supplier Interface.none))) (loaders : List (Worker Unit))
    (clock : Nat → Instant) (hcs : Distinguished cs)
    (hplain : ∀ c ∈ cs, keySeparator ∉ c.name.toList)
    (hclock : ∀ k, ∃ time, Candidate.snapshotOf (clock k) = .ok time)
    (hexporters : ∀ w ∈ exporters, w.node.source = node.source ∧
      ∀ c ∈ cs, c.exportSize.isSome = true → w.state.Serves c.name (paging c.name))
    (hloaders : ∀ w ∈ loaders, w.node.source = node.source)
    (hplan : exportCount cs < exporters.length) (hload : queryCount paging cs < loaders.length)
    (hsmall : ∀ c ∈ cs, (keysOf paging c).length < UInt64.size ∧
      ((keysOf paging c).map fun key => (records key).toNat).sum < UInt64.size) :
    ∃ u, (program (.new node cs settings) exporters loaders records).run (Desk.handler clock)
        ⟨.empty, 0⟩ =
          ((Work.verdicts (exportCount cs), Work.verdicts (queryCount paging cs)), u) ∧
      ∀ c ∈ cs, c.exportSize.isSome = true →
        Delivered node.source records c.name (keysOf paging c) u.table := by
  -- A desk is one of the surroundings in which the program has been looked at.
  have hshows : ∀ now, (∃ k, clock k = now) → ∃ time, Candidate.snapshotOf now = .ok time := by
    rintro _ ⟨k, rfl⟩
    exact hclock k
  have hensures : (alone fun now => ∃ k, clock k = now).Ensures (fun said u =>
        said = (Work.verdicts (exportCount cs), Work.verdicts (queryCount paging cs)) ∧
        ∀ c ∈ cs, c.exportSize.isSome = true →
          Delivered node.source records c.name (keysOf paging c) u)
      (program (.new node cs settings) exporters loaders records) (Desk.table ⟨.empty, 0⟩) :=
    ensures_program hcs hplain hshows hexporters hloaders hplan hload hsmall
  have htable : ∀ (question : Node.Question Interface.none) (s : Desk),
      (∀ request, question ≠ .store request) →
        ((Desk.handler clock).answer question s).2.table = s.table := by
    intro question s hother
    match question with
    | .store request => exact absurd rfl (hother request)
    | .now => rfl
    | .pause _ => rfl
    | .other q => exact q.elim
  have htells : ∀ request (s : Desk), (alone fun now => ∃ k, clock k = now).Tells s.table request
      ((Desk.handler clock).answer (.store request) s).1
      ((Desk.handler clock).answer (.store request) s).2.table :=
    fun _ s => ⟨clock s.asked, rfl⟩
  have hread : ∀ s : Desk, ∃ k, clock k = ((Desk.handler clock).answer .now s).1 :=
    fun s => ⟨s.asked, rfl⟩
  obtain ⟨hsaid, hdelivered⟩ := Ensures.run (S := alone fun now => ∃ k, clock k = now)
    (Desk.handler clock) Desk.table htells htable hread hensures
  exact ⟨_, Prod.ext hsaid rfl, hdelivered⟩

/-- Two pages of a supplier, the first of which leaves out the collection's name. One query stands
on both. -/
def twoPages : String → List Page := fun _ =>
  [⟨["q0", "db.orders|q1"], false, some "doc-1"⟩, ⟨["db.orders|q1", "q|2"], true, none⟩]

/-- A supplier that gives them one after the other. -/
def twoPagesSupplier : Supplier Interface.none where
  pages := (twoPages "db.orders").map fun page _ _ => pure page
  refuse _ _ := pure .unreadable

theorem serves_twoPages (collection : String) :
    twoPagesSupplier.Serves collection (twoPages collection) :=
  .more rfl (fun _ _ => rfl) (.last [] [] rfl fun _ _ => rfl)

/-- Two collections, of which one is exported, and three queries. -/
theorem delivered_twoPages : ∃ u, (program
      (.new ⟨"db", "node-a", .seconds 60⟩ [⟨"db.orders", some 100, true⟩, ⟨"db.users", none, true⟩]
        .default)
      (List.replicate 2 ⟨⟨"db", "node-b", .seconds 60⟩, .default, twoPagesSupplier⟩)
      (List.replicate 4 ⟨⟨"db", "node-c", .seconds 60⟩, .default, ()⟩) fun _ => 250).run
        (Desk.handler fun _ => .epoch) ⟨.empty, 0⟩ =
      (([.ok true, .ok false], [.ok true, .ok true, .ok true, .ok false]), u) ∧
    Delivered "db" (fun _ => 250) "db.orders" ["db.orders|q0", "db.orders|q1", "db.orders|q|2"]
      u.table := by
  have hkeys : keysOf twoPages ⟨"db.orders", some 100, true⟩ =
      ["db.orders|q0", "db.orders|q1", "db.orders|q|2"] := by
    decide +kernel
  have hkeys' : keysOf twoPages ⟨"db.users", none, true⟩ = [] := rfl
  have hcount : queryCount twoPages [⟨"db.orders", some 100, true⟩, ⟨"db.users", none, true⟩] = 3 := by
    decide +kernel
  have hsmall : ∀ c ∈ ([⟨"db.orders", some 100, true⟩, ⟨"db.users", none, true⟩] : List Collection),
      (keysOf twoPages c).length < UInt64.size ∧
        ((keysOf twoPages c).map fun _ => (250 : UInt64).toNat).sum < UInt64.size := by
    simp only [List.forall_mem_cons, hkeys, hkeys']
    decide
  obtain ⟨u, hrun, hdelivered⟩ := delivered ⟨"db", "node-a", .seconds 60⟩ .default
    [⟨"db.orders", some 100, true⟩, ⟨"db.users", none, true⟩] twoPages (fun _ => 250)
    (List.replicate 2 ⟨⟨"db", "node-b", .seconds 60⟩, .default, twoPagesSupplier⟩)
    (List.replicate 4 ⟨⟨"db", "node-c", .seconds 60⟩, .default, ()⟩) (fun _ => .epoch)
    ⟨by decide, by decide⟩ (by decide) (fun _ => ⟨.epoch, rfl⟩)
    (fun w hw => by
      obtain rfl := List.eq_of_mem_replicate hw
      exact ⟨rfl, fun c _ _ => serves_twoPages c.name⟩)
    (fun w hw => by
      obtain rfl := List.eq_of_mem_replicate hw
      rfl)
    (by decide) (by rw [hcount]; decide) hsmall
  rw [hcount] at hrun
  refine ⟨u, hrun, ?_⟩
  rw [← hkeys]
  exact hdelivered _ List.mem_cons_self rfl

end Delivery

end LeasedWork
