import LeasedWork.Proofs.Fleet.Paging

/-! # What the first leader leaves

A node that finds an empty table becomes the leader and bootstraps.  What it leaves is where the
work begins (`Founded`): the exports of the collections wait, each has a load status in which
nothing is counted, and there is no query yet (`Candidate.alone_pass`).
-/
namespace LeasedWork

open Surroundings Table

variable {E : Interface} {shows : Instant → Prop} {source : String} {n : Node} {t u : Table}

/-- The exports of some collections at a time. -/
def exportsOf (time : Instant) (cs : List Collection) : List SnapshotId :=
  cs.filterMap fun c => c.exportSize.map fun size => ⟨c.name, size, time⟩

theorem mem_exportsOf {time : Instant} {cs : List Collection} {i : SnapshotId} :
    i ∈ exportsOf time cs ↔ ∃ c ∈ cs, ∃ size, c.exportSize = some size ∧
      i = ⟨c.name, size, time⟩ := by
  simp only [exportsOf, List.mem_filterMap, Option.map_eq_some_iff]
  constructor
  · rintro ⟨c, hc, size, hsize, rfl⟩
    exact ⟨c, hc, size, hsize, rfl⟩
  · rintro ⟨c, hc, size, hsize, rfl⟩
    exact ⟨c, hc, size, hsize, rfl⟩

theorem length_exportsOf (time : Instant) (cs : List Collection) :
    (exportsOf time cs).length = cs.countP fun c => c.exportSize.isSome := by
  induction cs with
  | nil => rfl
  | cons c rest ih =>
    rw [List.countP_cons, ← ih, exportsOf, List.filterMap_cons]
    cases c.exportSize with
    | none => rfl
    | some size => rfl

/-- A load status in which nothing is counted. -/
def LoadStatus.zero : LoadStatus := ⟨0, 0, 0, 0, false⟩

/-- Some exports wait, and nothing has been planned for them. Shared state is stored under no other
keys than these. -/
structure Founded (source : String) (exports : List SnapshotId) (keys : List String) (t : Table) :
    Prop where
  distinct : t.Distinct
  snapshots : Worklist snapshotKind source (exports.map (·, .unassigned)) t
  queries : Worklist queryKind source [] t
  shared : ∀ key, t.Has ⟨source, sharedKind.tag, key⟩ → key ∈ keys
  counts : ∀ i ∈ exports, ∃ s, t.loadStatus? (LoadStatus.idOf source i.collection) = some s ∧
    s.counts = .zero

namespace Founded

variable {exports : List SnapshotId} {keys : List String} {r : Record}

theorem empty (source : String) : Founded source [] [] .empty where
  distinct := distinct_empty
  snapshots := ⟨List.nodup_nil, by simp, by simp, fun _ h => absurd h Bool.false_ne_true⟩
  queries := ⟨List.nodup_nil, by simp, by simp, fun _ h => absurd h Bool.false_ne_true⟩
  shared _ h := absurd h Bool.false_ne_true
  counts := by simp

/-- A record of another kind. -/
theorem frame (h : Founded source exports keys t) (hputs : Puts r t u) {kind : String}
    (hkind : r.kind = kind)
    (hother : kind ∉ [snapshotKind.tag, queryKind.tag, sharedKind.tag]) :
    Founded source exports keys u := by
  subst hkind
  simp only [List.mem_cons, List.not_mem_nil, or_false, not_or] at hother
  obtain ⟨hexport, hquery, hshared⟩ := hother
  have hsame : ∀ key, u.find? ⟨source, sharedKind.tag, key⟩ =
      t.find? ⟨source, sharedKind.tag, key⟩ :=
    fun key => hputs.find_of_ne fun heq => hshared (congrArg RecordId.kind heq).symm
  refine ⟨hputs.distinct h.distinct, h.snapshots.frame hputs hexport, h.queries.frame hputs hquery,
    fun key hkey => h.shared key ?_, fun i hi => ?_⟩
  · rw [Has, ← hsame key]
    exact hkey
  · obtain ⟨s, hs, hcounts⟩ := h.counts i hi
    exact ⟨s, (loadStatus_of_same (hsame _)).trans hs, hcounts⟩

/-- Shared state under a new key. -/
theorem publish (h : Founded source exports keys t) {key : String} (hputs : Puts r t u)
    (hid : r.id = ⟨source, sharedKind.tag, key⟩)
    (hfree : t.find? ⟨source, sharedKind.tag, key⟩ = none) :
    Founded source exports (key :: keys) u := by
  have hkind : r.kind = sharedKind.tag := congrArg RecordId.kind hid
  refine ⟨hputs.distinct h.distinct, h.snapshots.frame hputs ?_, h.queries.frame hputs ?_, ?_, ?_⟩
  · rw [hkind]
    decide
  · rw [hkind]
    decide
  · intro key' hkey'
    by_cases heq : key' = key
    · simp [heq]
    · have hne : (⟨source, sharedKind.tag, key'⟩ : RecordId) ≠ r.id := by
        rw [hid]
        exact fun hsame => heq (congrArg RecordId.key hsame)
      rw [Has, hputs.find_of_ne hne] at hkey'
      exact List.mem_cons_of_mem _ (h.shared key' hkey')
  · intro i hi
    obtain ⟨s, hs, hcounts⟩ := h.counts i hi
    have hne : LoadStatus.idOf source i.collection ≠ r.id := by
      intro heq
      obtain ⟨r', hr', -⟩ := find_of_loadStatus hs
      rw [heq, hid, hfree] at hr'
      cases hr'
    exact ⟨s, (loadStatus_of_same (hputs.find_of_ne hne)).trans hs, hcounts⟩

/-- An export and its load status. -/
theorem add {v : Table} (h : Founded source exports keys t) {i : SnapshotId} (hi : i.time.Whole)
    (hputs : Puts r t u) (hid : r.id = snapshotKind.recordId source i)
    (hfree : t.find? (snapshotKind.recordId source i) = none)
    (hstatus : r.status = some .unassigned) (hkept : snapshotKind.KeptIn r) {r' : Record}
    (hputs' : Puts r' u v) (hid' : r'.id = LoadStatus.idOf source i.collection)
    (hfree' : LoadStatus.keyOf i.collection ∉ keys) {s : LoadStatus}
    (hs : LoadStatus.ofRecord r' = .ok s) (hcounts : s.counts = .zero) :
    Founded source (i :: exports) (LoadStatus.keyOf i.collection :: keys) v := by
  have hlist := h.snapshots.add (PartitionKind.identify_snapshot i hi) hfree hputs hid hstatus hkept
  have hkind : r'.kind = sharedKind.tag := congrArg RecordId.kind hid'
  have hexport : r.kind = snapshotKind.tag := congrArg RecordId.kind hid
  have hshared : ∀ key, u.find? ⟨source, sharedKind.tag, key⟩ =
      t.find? ⟨source, sharedKind.tag, key⟩ := fun key => hputs.find_of_ne fun heq =>
    absurd ((congrArg RecordId.kind heq).trans hexport)
      (by decide : sharedKind.tag ≠ snapshotKind.tag)
  refine ⟨hputs'.distinct (hputs.distinct h.distinct), hlist.frame hputs' ?_,
    (h.queries.frame hputs ?_).frame hputs' ?_, ?_, ?_⟩
  · rw [hkind]
    decide
  · rw [hexport]
    decide
  · rw [hkind]
    decide
  · intro key hkey
    by_cases heq : (⟨source, sharedKind.tag, key⟩ : RecordId) = r'.id
    · have hkey' : key = LoadStatus.keyOf i.collection := congrArg RecordId.key (heq.trans hid')
      simp [hkey']
    · rw [Has, hputs'.find_of_ne heq, hshared] at hkey
      exact List.mem_cons_of_mem _ (h.shared key hkey)
  · rw [List.forall_mem_cons]
    refine ⟨⟨s, loadStatus_of_find (hid' ▸ hputs'.find_self) hs, hcounts⟩, fun j hj => ?_⟩
    obtain ⟨s', hs', hcounts'⟩ := h.counts j hj
    have hne : LoadStatus.idOf source j.collection ≠ r'.id := by
      intro heq
      obtain ⟨x, hx, -⟩ := find_of_loadStatus hs'
      have hkey : LoadStatus.keyOf j.collection = LoadStatus.keyOf i.collection :=
        congrArg RecordId.key (heq.trans hid')
      exact hfree' (hkey ▸ h.shared _ (has_of_find hx))
    exact ⟨s', (loadStatus_of_same ((hputs'.find_of_ne hne).trans (hshared _))).trans hs', hcounts'⟩

end Founded

namespace Candidate

variable {exports : List SnapshotId} {keys : List String} {time : Instant} {c : Collection}

/-! ## Bootstrap -/

/-- Nothing has been stored for a collection. -/
structure IsNew (exports : List SnapshotId) (keys : List String) (c : Collection) : Prop where
  name : c.name ∉ keys
  status : LoadStatus.keyOf c.name ∉ keys
  snapshot : ∀ i ∈ exports, i.collection ≠ c.name

theorem find_of_notMem_keys (h : Founded source exports keys t) {key : String} (hkey : key ∉ keys) :
    t.find? ⟨source, sharedKind.tag, key⟩ = none := by
  by_contra hfound
  exact hkey (h.shared key (Option.isSome_iff_ne_none.mpr hfound))

theorem alone_pinSnapshot (h : Founded n.source exports keys t) (hc : c.name ∉ keys) :
    (alone shows).Yields (E := E)
      (fun time' u => time' = time ∧ Founded n.source exports (c.name :: keys) u) NeverFails
      (pinSnapshot n c time) t := by
  have hfree := find_of_notMem_keys h hc
  have hcreate : (alone shows).Yields (E := E)
      (fun isNew u => isNew = true ∧ Founded n.source exports (c.name :: keys) u) NeverFails
      (n.create (newShared c.name (c.toMembers time.millis))) t := by
    refine alone_create ?_ ?_
    · intro r hr
      cases hr.symm.trans hfree
    · intro _ now u hputs
      exact ⟨rfl, h.publish hputs (n.id_newRecord _ _ _ _ now) hfree⟩
  refine hcreate.bind ?_
  rintro _ u ⟨rfl, hu⟩
  exact yields_pure ⟨rfl, hu⟩

theorem alone_createExport (h : Founded n.source exports keys t) (htime : time.Whole)
    (hc : LoadStatus.keyOf c.name ∉ keys) (hnew : ∀ i ∈ exports, i.collection ≠ c.name) :
    (alone shows).Yields (E := E) (fun _ u => Founded n.source (exportsOf time [c] ++ exports)
        (LoadStatus.keyOf c.name :: keys) u) NeverFails
      (createExport n time c) t := by
  unfold createExport exportsOf
  cases hsize : c.exportSize with
  | none =>
    simp only [List.filterMap_cons, hsize, Option.map_none, List.filterMap_nil, List.nil_append]
    exact yields_pure { h with shared := fun key hkey => List.mem_cons_of_mem _ (h.shared key hkey) }
  | some size =>
    simp only [List.filterMap_cons, hsize, Option.map_some, List.filterMap_nil, List.cons_append,
      List.nil_append]
    -- An export of the collection would be among the waiting ones.
    have hfree : t.find? (snapshotKind.recordId n.source ⟨c.name, size, time⟩) = none := by
      by_contra hfound
      obtain ⟨status, hx⟩ :=
        h.snapshots.exists_mem (PartitionKind.identify_snapshot ⟨c.name, size, time⟩ htime) hfound
      obtain ⟨i, hi, heq⟩ := List.mem_map.mp hx
      exact hnew i hi (congrArg (fun x => SnapshotId.collection x.1) heq)
    have hfree' := find_of_notMem_keys h hc
    have hcreate : (alone shows).Yields (E := E) (fun _ u => ∃ r, Puts r t u ∧
          r.id = snapshotKind.recordId n.source ⟨c.name, size, time⟩ ∧
          r.status = some .unassigned ∧ snapshotKind.KeptIn r) NeverFails
        (n.create (newSnapshot ⟨c.name, size, time⟩)) t := by
      refine alone_create ?_ ?_
      · intro r hr
        cases hr.symm.trans hfree
      · intro _ now u hputs
        exact ⟨_, hputs, rfl, rfl, _, PartitionKind.keeps_starting _ htime.civil, rfl⟩
    refine hcreate.bind ?_
    rintro _ u ⟨r, hputs, hid, hstatus, hkept⟩
    have hkind : r.kind = snapshotKind.tag := congrArg RecordId.kind hid
    have hcount : (alone shows).Yields (E := E) (fun _ v => ∃ r', Puts r' u v ∧
          r'.id = LoadStatus.idOf n.source c.name ∧
          LoadStatus.ofRecord r' = .ok (LoadStatus.starting time)) NeverFails
        (n.create (newShared (LoadStatus.keyOf c.name) (LoadStatus.starting time).toMembers)) u := by
      refine alone_create ?_ ?_
      · intro r' hr'
        rw [hputs.find_of_ne] at hr'
        · cases hr'.symm.trans hfree'
        · exact fun heq => absurd ((congrArg RecordId.kind heq).trans hkind)
            (by decide : sharedKind.tag ≠ snapshotKind.tag)
      · intro _ now v hputs'
        exact ⟨_, hputs', rfl, LoadStatus.ofRecord_of_text rfl rfl⟩
    refine hcount.bind ?_
    rintro _ v ⟨r', hputs', hid', hs⟩
    exact yields_pure (h.add htime hputs hid hfree hstatus hkept hputs' hid' hc hs rfl)

theorem alone_createStream (h : Founded n.source exports keys t) :
    (alone shows).Yields (E := E) (fun _ u => Founded n.source exports keys u) NeverFails
      (createStream n time c) t := by
  unfold createStream
  cases c.stream with
  | false => exact yields_pure h
  | true =>
    have hcreate : (alone shows).Yields (E := E) (fun _ u => Founded n.source exports keys u)
        NeverFails (n.create (newStream c.name (streamStart time c))) t :=
      alone_create (fun _ _ => h) fun _ _ _ hputs =>
        h.frame hputs (rfl : _ = streamKind.tag) (by decide)
    exact hcreate.bind fun _ _ hu => yields_pure hu

theorem alone_createCollection (h : Founded n.source exports keys t) (htime : time.Whole)
    (hc : IsNew exports keys c) (hplain : c.name ≠ LoadStatus.keyOf c.name) :
    (alone shows).Yields (E := E) (fun _ u => Founded n.source (exportsOf time [c] ++ exports)
        (LoadStatus.keyOf c.name :: c.name :: keys) u) NeverFails
      (createCollection n time c) t := by
  rw [createCollection_eq]
  refine (alone_pinSnapshot h hc.name).bind ?_
  rintro _ u ⟨rfl, hu⟩
  have hstatus : LoadStatus.keyOf c.name ∉ c.name :: keys := by
    rw [List.mem_cons, not_or]
    exact ⟨hplain.symm, hc.status⟩
  exact (alone_createExport hu htime hstatus hc.snapshot).bind fun _ v hv => alone_createStream hv

/-- A bootstrap of new collections. -/
theorem alone_createCollections {cs : List Collection} (h : Founded n.source exports keys t)
    (htime : time.Whole) (hcs : Distinguished cs) (hnew : ∀ c ∈ cs, IsNew exports keys c) :
    (alone shows).Yields (E := E) (fun _ u => ∃ exports' keys',
        exports'.Perm (exportsOf time cs ++ exports) ∧ Founded n.source exports' keys' u) NeverFails
      (createCollections n time cs) t := by
  induction cs generalizing exports keys t with
  | nil => exact yields_pure ⟨exports, keys, List.Perm.refl _, h⟩
  | cons c rest ih =>
    have hname := hcs.name_ne_keyOf List.mem_cons_self
    have hnames := hcs.names
    rw [List.map_cons, List.nodup_cons] at hnames
    have hrest : Distinguished rest :=
      ⟨hnames.2, fun c' hc' => hcs.plain c' (List.mem_cons_of_mem _ hc')⟩
    obtain ⟨hc, hnew'⟩ := List.forall_mem_cons.mp hnew
    refine (alone_createCollection h htime hc (hname c.name)).bind ?_
    intro _ u hu
    refine (ih hu hrest fun c' hc' => ?_).imp ?_ fun _ _ hfail => hfail
    · have hne : c'.name ≠ c.name := by
        intro heq
        exact hnames.1 (List.mem_map.mpr ⟨c', hc', heq⟩)
      have hne' := hcs.name_ne_keyOf (List.mem_cons_of_mem c hc')
      have hold := hnew' c' hc'
      refine ⟨?_, ?_, fun i hi => ?_⟩
      · simp only [List.mem_cons, not_or]
        exact ⟨hne' c.name, hne, hold.name⟩
      · simp only [List.mem_cons, not_or]
        refine ⟨fun heq => hne (String.append_right_inj _ |>.mp heq), ?_, hold.status⟩
        exact (hname c'.name).symm
      · rcases List.mem_append.mp hi with hi | hi
        · obtain ⟨c'', hc'', size, -, rfl⟩ := mem_exportsOf.mp hi
          rw [List.mem_singleton.mp hc'']
          exact hne.symm
        · exact hold.snapshot i hi
    · rintro _ v ⟨exports', keys', hperm, hv⟩
      refine ⟨exports', keys', hperm.trans ?_, hv⟩
      have hsplit : exportsOf time (c :: rest) = exportsOf time [c] ++ exportsOf time rest := by
        rw [exportsOf, exportsOf, exportsOf, ← List.filterMap_append]
        rfl
      rw [hsplit, List.append_assoc]
      exact List.perm_append_comm_assoc _ _ _

/-! ## A pass -/

/-- One step of a pass that does not fail, and the steps after it. -/
theorem ensures_takeSteps {S : Surroundings} {post mid : Candidate → S.State → Prop}
    {step : Candidate → Node.Action E Candidate} {rest : List (Candidate → Node.Action E Candidate)}
    {c : Candidate} {g : S.State} (hstep : S.Yields mid NeverFails (step c) g)
    (hrest : ∀ c' g', mid c' g' → S.Ensures post (takeSteps rest c') g') :
    S.Ensures post (takeSteps (step :: rest) c) g := by
  refine Ensures.bind hstep fun result g' hresult => ?_
  cases result with
  | ok c' => exact hrest c' g' hresult
  | error failure => exact hresult.elim

/-- The leader's record waits and says that nothing has been created, which is right. -/
structure Vacant (source : String) (t : Table) : Prop where
  founded : Founded source [] [] t
  leader : Worklist leaderKind source [((), .unassigned)] t
  progress : ∀ r, t.find? (leaderKind.recordId source ()) = some r →
    r.progress = some (leaderKind.text ⟨false⟩)

/-- A candidate has a leader's record in hand. -/
def Leads (c : Candidate) (p : Partition leaderKind) : Prop :=
  c.held = some p ∧ ∃ r, p.record = some r ∧ r.kind = leaderKind.tag

/-- Everything has been created for some collections, and nothing else. -/
def Bootstrapped (source : String) (cs : List Collection) (t : Table) : Prop :=
  ∃ time exports keys, time.Whole ∧ exports.Perm (exportsOf time cs) ∧
    Founded source exports keys t

variable {cs : List Collection} {settings : LeaderSettings}

theorem alone_ensureCreated : (alone shows).Yields (E := E)
    (fun c u => c = { new n cs settings with hasCreated := true } ∧ Vacant n.source u) NeverFails
    (new n cs settings).ensureCreated .empty := by
  have hcreate : (alone shows).Yields (E := E) (fun _ u => Vacant n.source u) NeverFails
      (n.create newLeader) .empty := by
    refine alone_create (fun _ hr => nomatch hr) fun _ now u hputs => ?_
    have hnone : Worklist leaderKind n.source [] Table.empty :=
      ⟨List.nodup_nil, by simp, by simp, fun _ h => absurd h Bool.false_ne_true⟩
    refine ⟨(Founded.empty _).frame hputs (rfl : _ = leaderKind.tag) (by decide),
      hnone.add rfl rfl hputs rfl rfl ⟨_, PartitionKind.keeps_leader _, rfl⟩, fun r hr => ?_⟩
    obtain rfl := Option.some.inj (hputs.find_self.symm.trans hr)
    rfl
  exact hcreate.bind fun _ u hu => yields_pure ⟨rfl, hu⟩

theorem alone_compete (ht : Vacant n.source t) : (alone shows).Yields (E := E)
    (fun c u => c.node = n ∧ c.collections = cs ∧ Founded n.source [] [] u ∧
      ∃ p, c.Leads p ∧ p.isInitialized = false) NeverFails
    ({ new n cs settings with hasCreated := true } : Candidate).compete t := by
  have hclaim : (alone shows).Yields (E := E) (fun held u => Founded n.source [] [] u ∧
        ∃ p r, held = some p ∧ p.record = some r ∧ r.kind = leaderKind.tag ∧
          p.isInitialized = false) NeverFails
      (n.claim leaderKind none) t := by
    refine alone_claim rfl ht.leader ht.founded.distinct (by simp [Settled]) ?_ ?_
    · intro hzero
      cases hzero
    · intro i rest r x now u p _ hr hx htext hputs hp _ hpx
      obtain rfl : x = ⟨false⟩ := PartitionKind.eq_of_text hx (PartitionKind.keeps_leader _)
        (Option.some.inj (htext.symm.trans (ht.progress r hr)))
      have hkind : (r.claimed n.owner now n.lease).kind = leaderKind.tag :=
        congrArg RecordId.kind (find?_some hr).2
      obtain ⟨r', hr', hstored⟩ := hp.record
      refine ⟨ht.founded.frame hputs hkind (by decide), p, r', rfl, hr', ?_, ?_⟩
      · exact congrArg RecordId.kind (find?_some hstored).2
      · rw [Partition.isInitialized, hpx]
        rfl
  refine hclaim.bind ?_
  rintro held u ⟨hu, p, r, hheld, hr, hkind, hinit⟩
  exact yields_pure ⟨rfl, rfl, hu, p, ⟨hheld, r, hr, hkind⟩, hinit⟩

theorem alone_initialize? {c : Candidate} {p : Partition leaderKind}
    (hcs : Distinguished c.collections)
    (hshows : ∀ now, shows now → ∃ time, snapshotOf now = .ok time)
    (ht : Founded c.node.source [] [] t) (hp : c.Leads p) (hinit : p.isInitialized = false) :
    (alone shows).Yields (E := E) (fun c' u => (∃ p', c'.Leads p') ∧
      Bootstrapped c.node.source c.collections u) NeverFails c.initialize? t := by
  have hbootstrap : (alone shows).Yields (E := E)
      (fun _ u => Bootstrapped c.node.source c.collections u) NeverFails c.bootstrap t := by
    refine yields_now fun now hnow => yields_ofExcept ?_ fun failure hfailure => ?_
    · intro time htime
      have hwhole := whole_of_snapshotOf htime
      refine (alone_createCollections ht hwhole hcs fun _ _ =>
        ⟨List.not_mem_nil, List.not_mem_nil, fun _ h => nomatch h⟩).imp ?_ fun _ _ h => h
      rintro _ u ⟨exports, keys, hperm, hu⟩
      rw [List.append_nil] at hperm
      exact ⟨time, exports, keys, hwhole, hperm, hu⟩
    · obtain ⟨time, htime⟩ := hshows now hnow
      cases htime.symm.trans hfailure
  obtain ⟨hheld, r, hr, hkind⟩ := hp
  have hfresh : ¬ p.isInitialized = true := by simp [hinit]
  unfold initialize?
  rw [hheld]
  dsimp only
  rw [if_neg hfresh]
  exact hbootstrap.bind fun _ u hu => yields_pure ⟨⟨_, rfl, r, hr, hkind⟩, hu⟩

/-- Whatever comes of a renewal, it writes at most the leader's record. -/
theorem alone_renew {c : Candidate} {p : Partition leaderKind} (hp : c.Leads p)
    (ht : Bootstrapped source cs t) :
    (alone shows).Ensures (E := E) (fun _ u => Bootstrapped source cs u) c.renew t := by
  obtain ⟨hheld, r, hr, hkind⟩ := hp
  obtain ⟨time, exports, keys, hwhole, hperm, hfounded⟩ := ht
  have hwrite : ∀ (move : Transition) time now, Founded source exports keys
      (t.answer now (.update (Node.proposal p move time r))).2 := by
    intro move time now
    have hwritten := t.written_answer now (.update (Node.proposal p move time r))
    generalize (t.answer now (.update (Node.proposal p move time r))).2 = u at hwritten
    cases hwritten with
    | none => exact hfounded
    | updated _ stored hstored hversion =>
      have hkind' : (Node.proposal p move time r).nextVersion.kind = leaderKind.tag :=
        (congrArg RecordId.kind (Node.id_proposal p move time r)).trans hkind
      have hstored' : t.find? (Node.proposal p move time r).nextVersion.id = some stored := hstored
      exact hfounded.frame (puts_replace hstored') hkind' (by decide)
  have hsave : (alone shows).Yields (E := E) (fun _ u => Bootstrapped source cs u)
      (fun _ u => Bootstrapped source cs u)
      (c.node.save p (some c.settings.leaseExtension)) t := by
    refine yields_transition hr (fun _ => rfl) fun now => ⟨trivial, ?_, ?_⟩
    · rintro written u ⟨now', htold⟩
      obtain rfl : (t.answer now' _).2 = u := congrArg Prod.snd htold
      exact ⟨time, exports, keys, hwhole, hperm, hwrite _ _ now'⟩
    · rintro failure u ⟨now', htold⟩
      obtain rfl : (t.answer now' _).2 = u := congrArg Prod.snd htold
      exact ⟨time, exports, keys, hwhole, hperm, hwrite _ _ now'⟩
  unfold renew
  rw [hheld]
  refine Ensures.bind hsave fun result u hu => ?_
  cases result with
  | ok p' => exact hu
  | error failure => exact hu

/-- **A node that finds an empty table leads and bootstraps.** -/
theorem alone_pass (hcs : Distinguished cs) (settings : LeaderSettings)
    (hshows : ∀ now, shows now → ∃ time, snapshotOf now = .ok time) :
    (alone shows).Ensures (E := E) (fun _ u => Bootstrapped n.source cs u)
      (new n cs settings).pass .empty := by
  have hlead : (alone shows).Ensures (E := E) (fun c u => (∃ p, c.Leads p) ∧
      Bootstrapped n.source cs u) (new n cs settings).lead .empty := by
    refine ensures_takeSteps alone_ensureCreated ?_
    rintro _ t ⟨rfl, ht⟩
    refine ensures_takeSteps (alone_compete ht) ?_
    rintro c u ⟨rfl, rfl, hu, p, hp, hinit⟩
    exact ensures_takeSteps (alone_initialize? hcs hshows hu hp hinit) fun _ _ h => h
  refine hlead.bind ?_
  rintro c u ⟨⟨p, hp⟩, hu⟩
  exact alone_renew hp hu

end Candidate

end LeasedWork
