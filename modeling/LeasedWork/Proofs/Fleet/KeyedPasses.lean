import LeasedWork.Proofs.Fleet.SharedKeys

/-! # Who keeps to the keys

Everybody who works on a list of collections keeps their shared state where it belongs
(`LeasedWork.Proofs.Fleet.SharedKeys`).  Whoever counts for a collection writes over its load status
only (`LoadStatus.keyed_update`); a pass over an export creates queries for the collection of the
export that it claims (`Work.keyed_pass`); and a bootstrap that succeeds, or an election that takes
the collections for created, knows all their shared state to be stored (`Candidate.keyed_bootstrap`,
`Candidate.Informed.keyed_election`).
-/
namespace LeasedWork

variable {source : String} {cs : List Collection} {c : Collection} {r : Record}

/-! ## Counting -/

namespace LoadStatus

open Surroundings KeyAccount

variable {E : Interface} {n : Node} {g : KeyAccount}

/-- The load status of a collection may be written. -/
theorem mayUpdate (hc : c ∈ cs) (hid : r.id = c.statusId source) {s : LoadStatus}
    (hprogress : r.progress = some (sharedKind.text s.toMembers)) : g.MayUpdate source cs r where
  toMayWrite := .of_kind (.of_status hc hid hprogress)
    ((congrArg RecordId.kind hid).trans_ne (by decide : sharedKind.tag ≠ leaderKind.tag))
  spared _ _ howns hid' := howns c hc (congrArg RecordId.key (hid'.symm.trans hid))

theorem keyed_attempt (hn : n.source = source) (hc : c ∈ cs) (change : LoadStatus → LoadStatus) :
    (keyed source cs).Allows (E := E) (attempt n c.name change) g := by
  have hlook : (keyed source cs).Yields (E := E) (fun state _ => ∀ p, state = some p →
      ∃ x, Partition.ofRecord sharedKind x = .ok p ∧ x.id = c.statusId source) (fun _ _ => True)
      (n.shared? (Partition.ofRecord sharedKind) (keyOf c.name)) g := by
    refine yields_shared trivial (fun found g' htold => ?_) fun _ _ _ => trivial
    refine yields_build (fun _ _ h => nomatch h) ?_ fun _ _ _ _ => trivial
    rintro x p rfl hp _ ⟨⟩
    exact ⟨x, hp, hn ▸ htold.1⟩
  refine hlook.bind fun state g' hstate => ?_
  cases state with
  | none => exact allows_pure ()
  | some p =>
    obtain ⟨x, hp, hid⟩ := hstate p rfl
    refine yields_ofExcept (fun s _ => yields_now fun time _ => ?_) fun _ _ => trivial
    refine Allows.bind ?_ fun _ _ => allows_pure ()
    refine yields_transition (record_setProgress hp _) (fun h => nomatch h) fun now =>
      ⟨mayUpdate hc ((Node.id_proposal _ _ now x).trans hid)
        ((Node.progress_proposal _ _ now x).trans (progressText_setProgress _ _)),
        fun _ _ _ => trivial, fun _ _ _ => trivial⟩

/-- **Whoever counts for a collection** writes over its load status only. -/
theorem keyed_update (hn : n.source = source) (hc : c ∈ cs) (change : LoadStatus → LoadStatus) :
    (keyed source cs).Allows (E := E) (update n c.name change) g :=
  yields_persist (motive := fun _ => True) (fun _ _ => (keyed_attempt hn hc change).imp
    (fun _ _ h => h) fun _ _ _ => ⟨trivial, fun _ => trivial⟩) trivial

end LoadStatus

/-! ## Passes over exports -/

/-- An export in hand, of one of some collections. -/
structure Partition.IsExportOf (cs : List Collection) (r : Record) (p : Partition snapshotKind) :
    Prop where
  record : p.record = some r
  exported : r.exported? = some p.identity.collection
  listed : ∃ c ∈ cs, c.name = p.identity.collection

section Exports

open Surroundings KeyAccount

variable {E : Interface} {n : Node} {g : KeyAccount} {p : Partition snapshotKind}

/-- It may be moved in any way. -/
theorem Partition.IsExportOf.transition (hp : p.IsExportOf cs r) (move : Transition) :
    (keyed source cs).Yields (E := E)
      (fun p' _ => (∃ r', p'.IsExportOf cs r') ∧ p'.identity = p.identity) (fun _ _ => True)
      (Node.transition p move) g := by
  refine yields_transition hp.record (fun _ => rfl) fun time => ?_
  obtain ⟨c, hc, hname⟩ := hp.listed
  have hid : (Node.proposal p move time r).id = r.id := Node.id_proposal p move time r
  have hexported := (Record.exported_congr hid).trans hp.exported
  have hkind := Record.kind_of_exported hexported
  have hplace : (Node.proposal p move time r).InPlace source cs := by
    rw [← hname] at hexported
    exact .of_exported hc hexported
  refine ⟨.of_kind (.of_kind hplace ?_) ?_, ?_, fun _ _ _ => trivial⟩
  · exact hkind.trans_ne (by decide)
  · exact hkind.trans_ne (by decide)
  · rintro written g' ⟨rfl, -⟩
    exact ⟨⟨_, rfl, hexported, c, hc, hname⟩, rfl⟩

namespace Planning

/-- Queries are created for the collection whose export has been claimed. -/
theorem keyed_createQueries {name : String} (hclaimed : g.claimed = some name) (start : Instant)
    (identifiers : List String) :
    (keyed source cs).Allows (E := E) (createQueries n name start identifiers) g := by
  induction identifiers generalizing g with
  | nil => exact allows_pure 0
  | cons identifier rest ih =>
    have hcreate : (keyed source cs).Allows (E := E)
        (n.create ((newQuery ⟨name, queryOf name identifier⟩).startingAt start)) g := by
      refine (keyed_create _ fun now => ?_).imp (fun _ _ _ => trivial) fun _ _ _ => trivial
      have hid := n.id_newRecord queryKind.tag
        ((newQuery ⟨name, queryOf name identifier⟩).startingAt start).key queryKind.leased
        ((newQuery ⟨name, queryOf name identifier⟩).startingAt start).progressText now
      have hprogress := n.progress_newRecord queryKind.tag
        ((newQuery ⟨name, queryOf name identifier⟩).startingAt start).key queryKind.leased
        ((newQuery ⟨name, queryOf name identifier⟩).startingAt start).progressText now
      generalize n.newRecord queryKind.tag _ queryKind.leased _ now = r at hid hprogress ⊢
      have hkind : r.kind = queryKind.tag := congrArg RecordId.kind hid
      exact {
        toMayWrite := .of_kind (.of_query hkind ⟨_, PartitionKind.keeps_query _, hprogress⟩)
          (hkind.trans_ne (by decide))
        starting := fun _ _ _ hid' => absurd (hkind.symm.trans (congrArg RecordId.kind hid'))
          (by decide : queryKind.tag ≠ sharedKind.tag)
        planned := fun _ _ => ⟨name, _, hclaimed, congrArg RecordId.key hid⟩ }
    refine bind_later hcreate fun isNew g' _ hlater => ?_
    exact (ih (hlater.claimed name hclaimed)).bind fun _ _ => allows_pure _

variable (hn : n.source = source)

include hn

theorem keyed_planPage (hp : p.IsExportOf cs r) (hclaimed : g.claimed = some p.identity.collection)
    (page : Page) : (keyed source cs).Yields (E := E)
      (fun p' _ => (∃ r', p'.IsExportOf cs r') ∧ p'.identity = p.identity) (fun _ _ => True)
      (planPage n p page) g := by
  obtain ⟨c, hc, hname⟩ := hp.listed
  refine yields_now fun start _ => ?_
  refine Yields.bind (keyed_createQueries hclaimed start page.identifiers) fun created g' _ => ?_
  refine Yields.bind (hname ▸ LoadStatus.keyed_update hn hc _) fun _ g'' _ => ?_
  exact hp.transition _

theorem keyed_planFrom
    {refuse : Partition snapshotKind → Option String → Program (Node.interface E) Failure}
    {pages : List (NextPage E)} (hp : p.IsExportOf cs r)
    (hclaimed : g.claimed = some p.identity.collection) (cursor : Option String)
    (hpages : ∀ next ∈ pages, ∀ p cursor,
      Accord.Asks ((keyed source cs).May .opening) (next p cursor).run)
    (hrefuse : ∀ p cursor, Accord.Asks ((keyed source cs).May .opening) (refuse p cursor)) :
    (keyed source cs).Ensures (fun done _ => ∃ r', done.partition.IsExportOf cs r')
      (planFrom n refuse p cursor pages) g := by
  induction pages generalizing p cursor g r with
  | nil => exact (ensures_asks (hrefuse p cursor)).bind fun failure g' _ => ⟨r, hp⟩
  | cons next rest ih =>
    obtain ⟨hnext, hrest⟩ := List.forall_mem_cons.mp hpages
    refine (ensures_later (ensures_asks (hnext p cursor))).bind fun answer g' hlater => ?_
    have hclaimed' := hlater.2.claimed _ hclaimed
    cases answer with
    | error failure => exact ⟨r, hp⟩
    | ok page =>
      refine Ensures.bind (ensures_later (keyed_planPage hn hp hclaimed' page))
        fun planned g'' hplanned => ?_
      cases planned with
      | error failure => exact ⟨r, hp⟩
      | ok p' =>
        obtain ⟨⟨⟨r', hp'⟩, hidentity⟩, hlater'⟩ := hplanned
        dsimp only
        split
        · exact ⟨r', hp'⟩
        · exact ih hp' (hidentity ▸ hlater'.claimed _ hclaimed') page.cursor hrest

end Planning

namespace Work

theorem keyed_finish (limit : Option UInt64) {done : Processed snapshotKind (Supplier E)}
    (hp : done.partition.IsExportOf cs r) :
    (keyed source cs).Allows (E := E) (finish limit done) g := by
  have hmove (move : Transition) : (keyed source cs).Allows (E := E)
      (Node.transition done.partition move) g :=
    (hp.transition move).imp (fun _ _ _ => trivial) fun _ _ _ => trivial
  unfold finish
  split
  · rename_i outcome _
    refine Allows.bind ?_ fun _ _ => allows_pure true
    cases outcome with
    | completed => exact hmove .complete
    | closed reopenAfter => exact hmove (.close reopenAfter limit)
    | released => exact hmove .giveUp
  · split
    · exact allows_pure true
    · exact Ensures.bind (hmove .giveUp) fun _ _ _ => trivial

/-- **A pass over an export** creates queries for the collection of the export that it claims, and
counts them in the load status of that collection. -/
theorem keyed_pass (hn : n.source = source) (settings : WorkerSettings) {supplier : Supplier E}
    (hsupplier : supplier.Asks ((keyed source cs).May .opening)) :
    (keyed source cs).Ensures (fun _ _ => True)
      (pass n settings (Planning.process n) supplier) .opening := by
  have hclaim : (keyed source cs).Yields (E := E) (fun found g' => ∀ p, found = some p →
      (∃ r, p.IsExportOf cs r) ∧ g'.claimed = some p.identity.collection) (fun _ _ => True)
      (n.claim snapshotKind settings.leaseDuration) .opening := by
    refine yields_claim rfl trivial (fun found g' htold => ?_) fun _ _ _ => trivial
    refine yields_build (fun _ _ h => nomatch h) ?_ fun _ _ _ _ => trivial
    rintro r p rfl hp _ ⟨⟩
    obtain ⟨hsource, -, hplace, rfl⟩ := htold
    have hexported := Record.exported_of_ofRecord hp
    exact ⟨⟨r, Factory.record_ofRecord hp, hexported,
      hplace.exports (hsource.trans hn) _ hexported⟩, hexported⟩
  refine Ensures.bind hclaim fun answer g' hanswer => ?_
  match answer with
  | .error failure => trivial
  | .ok none => trivial
  | .ok (some p) =>
    obtain ⟨⟨r, hp⟩, hclaimed⟩ := hanswer p rfl
    refine (Planning.keyed_planFrom hn hp hclaimed none hsupplier.1 hsupplier.2).bind ?_
    rintro done g'' ⟨r', hp'⟩
    exact Ensures.bind (keyed_finish settings.maxClosedCount hp') fun _ _ _ => trivial

end Work

end Exports

/-! ## Bootstraps and elections -/

namespace Candidate

open Surroundings KeyAccount

variable {E : Interface} {n : Node} {g : KeyAccount} {proposed snapshot : Instant}

theorem whole_of_pinnedTime {state : Option (Partition sharedKind)} {time : Instant}
    (h : pinnedTime state = some time) : time.Whole := by
  simp only [pinnedTime, Option.bind_eq_bind, Option.bind_eq_some_iff] at h
  obtain ⟨p, -, h⟩ := h
  split at h
  · split at h
    · exact Instant.whole_of_ofMillis h
    · cases h
  · cases h

section Collections

variable (hn : n.source = source) (hc : c ∈ cs)

include hn hc

theorem keyed_pinSnapshot (hnames : (cs.map Collection.name).Nodup) (hproposed : proposed.Whole) :
    (keyed source cs).Yields (E := E)
      (fun time g' => time.Whole ∧ c.configId source ∈ g'.known) (fun _ _ => True)
      (pinSnapshot n c proposed) g := by
  subst hn
  have hcreate : (keyed n.source cs).Yields (E := E)
      (fun _ g' => c.configId n.source ∈ g'.known) (fun _ _ => True)
      (n.create (newShared c.name (c.toMembers proposed.millis))) g := by
    refine keyed_create _ fun now => ?_
    have hid := n.id_newRecord sharedKind.tag c.name sharedKind.leased
      (some (c.pinText proposed)) now
    have hplace := Record.InPlace.of_config hc hnames hid hproposed
      (n.progress_newRecord _ _ _ _ now)
    exact {
      toMayWrite := .of_kind hplace (by decide : sharedKind.tag ≠ leaderKind.tag)
      starting := fun _ _ howns hid' =>
        absurd (congrArg RecordId.key (hid.symm.trans hid')) (howns c hc)
      planned := fun _ hkind => absurd hkind (by decide : sharedKind.tag ≠ queryKind.tag) }
  refine hcreate.bind fun isNew g' hknown => ?_
  cases isNew with
  | true => exact yields_pure ⟨hproposed, hknown⟩
  | false =>
    have hlook : (keyed n.source cs).Allows (E := E)
        (n.shared? (Partition.ofRecord sharedKind) c.name) g' := allows_shared trivial
    refine bind_later hlook fun state g'' _ hlater => yields_pure ⟨?_, hlater.known _ hknown⟩
    cases hpinned : pinnedTime state with
    | none => exact hproposed
    | some time => exact whole_of_pinnedTime hpinned

theorem keyed_createExport (htime : snapshot.Whole) : (keyed source cs).Yields (E := E)
    (fun _ g' => c.exportSize.isSome = true → c.statusId source ∈ g'.known) (fun _ _ => True)
    (createExport n snapshot c) g := by
  subst hn
  unfold createExport
  cases c.exportSize with
  | none => exact yields_pure fun h => nomatch h
  | some size =>
    have hsnapshot : (keyed n.source cs).Allows (E := E)
        (n.create (newSnapshot ⟨c.name, size, snapshot⟩)) g := by
      refine (keyed_create _ fun now => ?_).imp (fun _ _ _ => trivial) fun _ _ _ => trivial
      have hexported := Record.exported_of_id htime (n.id_newRecord snapshotKind.tag
        (SnapshotId.key ⟨c.name, size, snapshot⟩) snapshotKind.leased
        (newSnapshot ⟨c.name, size, snapshot⟩).progressText now)
      exact .of_kind (.of_kind (.of_exported hc hexported)
        (by decide : snapshotKind.tag ≠ leaderKind.tag))
        (by decide : snapshotKind.tag ≠ sharedKind.tag)
        (by decide : snapshotKind.tag ≠ queryKind.tag)
    refine Yields.bind hsnapshot fun _ g' _ => ?_
    have hstatus : (keyed n.source cs).Yields (E := E)
        (fun _ g'' => c.statusId n.source ∈ g''.known) (fun _ _ => True)
        (n.create (newShared (LoadStatus.keyOf c.name) (LoadStatus.starting snapshot).toMembers))
        g' := by
      refine keyed_create _ fun now => ?_
      have hid := n.id_newRecord sharedKind.tag (LoadStatus.keyOf c.name) sharedKind.leased
        (some (sharedKind.text (LoadStatus.starting snapshot).toMembers)) now
      have hprogress := n.progress_newRecord sharedKind.tag (LoadStatus.keyOf c.name)
        sharedKind.leased (some (sharedKind.text (LoadStatus.starting snapshot).toMembers)) now
      exact {
        toMayWrite := .of_kind (.of_status hc hid hprogress)
          (by decide : sharedKind.tag ≠ leaderKind.tag)
        starting := fun _ _ _ _ => ⟨snapshot, hprogress⟩
        planned := fun _ hkind => absurd hkind (by decide : sharedKind.tag ≠ queryKind.tag) }
    exact hstatus.bind fun _ _ hknown => yields_pure fun _ => hknown

omit hn hc in
theorem keyed_createStream : (keyed source cs).Allows (E := E) (createStream n snapshot c) g := by
  unfold createStream
  cases c.stream with
  | false => exact allows_pure ()
  | true =>
    refine Yields.bind (keyed_create _ fun now => ?_) fun _ _ _ => allows_pure ()
    exact .of_kind (.of_kind (.of_kind (by decide : streamKind.tag ≠ sharedKind.tag)
        (by decide : streamKind.tag ≠ snapshotKind.tag)
        (by decide : streamKind.tag ≠ queryKind.tag))
        (by decide : streamKind.tag ≠ leaderKind.tag))
      (by decide : streamKind.tag ≠ sharedKind.tag) (by decide : streamKind.tag ≠ queryKind.tag)

theorem keyed_createCollection (hnames : (cs.map Collection.name).Nodup)
    (hproposed : proposed.Whole) : (keyed source cs).Yields (E := E)
      (fun _ g' => g'.KnowsAll source [c]) (fun _ _ => True) (createCollection n proposed c) g := by
  rw [createCollection_eq]
  refine Yields.bind (keyed_pinSnapshot hn hc hnames hproposed) fun snapshot g₁ hpinned => ?_
  refine bind_later (keyed_createExport hn hc hpinned.1) fun _ g₂ hstatus hlater => ?_
  refine (yields_later keyed_createStream).imp ?_ fun _ _ _ => trivial
  rintro _ g₃ ⟨-, hlater'⟩ id hid
  refine hlater'.known id ?_
  simp only [Collection.sharedIds, List.flatMap_cons, List.flatMap_nil, List.append_nil,
    List.mem_cons] at hid
  rcases hid with rfl | hid
  · exact hlater.known _ hpinned.2
  · cases hsize : c.exportSize with
    | none =>
      rw [hsize] at hid
      cases hid
    | some size =>
      rw [hsize] at hid
      obtain rfl := List.mem_singleton.mp hid
      exact hstatus (hsize ▸ rfl)

omit hc in
theorem keyed_createCollections (hnames : (cs.map Collection.name).Nodup)
    (hproposed : proposed.Whole) {some : List Collection} (hsome : ∀ c ∈ some, c ∈ cs) :
    (keyed source cs).Yields (E := E) (fun _ g' => g'.KnowsAll source some) (fun _ _ => True)
      (createCollections n proposed some) g := by
  induction some generalizing g with
  | nil => exact yields_pure fun _ hid => absurd hid List.not_mem_nil
  | cons c rest ih =>
    obtain ⟨hc, hrest⟩ := List.forall_mem_cons.mp hsome
    refine Yields.bind (keyed_createCollection hn hc hnames hproposed) fun _ g' hfirst => ?_
    refine (yields_later (ih hrest)).imp ?_ fun _ _ _ => trivial
    rintro _ g'' ⟨hothers, hlater⟩ id hid
    have hid' : id ∈ Collection.sharedIds source [c] ∨ id ∈ Collection.sharedIds source rest := by
      rw [← List.mem_append, Collection.sharedIds, Collection.sharedIds, ← List.flatMap_append]
      exact hid
    exact hid'.elim (fun hid => hlater.known id (hfirst id hid)) (hothers id)

end Collections

/-- **A bootstrap that succeeds knows all its shared state to be stored.** -/
theorem keyed_bootstrap (hnames : (cs.map Collection.name).Nodup) {x : Candidate}
    (hsource : x.node.source = source) (hplan : x.collections = cs) :
    (keyed source cs).Yields (E := E) (fun _ g' => g'.KnowsAll source cs) (fun _ _ => True)
      x.bootstrap g := by
  subst hplan
  exact yields_now fun now _ => yields_ofExcept (fun proposed hproposed =>
    keyed_createCollections hsource hnames (whole_of_snapshotOf hproposed) fun _ => id)
    fun _ _ => trivial

/-- A candidate takes its collections for created only if they are known to be. -/
structure Informed (source : String) (cs : List Collection) (g : KeyAccount) (x : Candidate) :
    Prop where
  plans : x.Plans source cs
  noted : ∀ p, x.held = some p → p.isInitialized = true → g.KnowsAll source cs

namespace Informed

variable {x : Candidate} {g' : KeyAccount}

theorem later (h : x.Informed source cs g) (hlater : g.Later g') : x.Informed source cs g' :=
  ⟨h.plans, fun p hp hinit => (h.noted p hp hinit).later hlater⟩

theorem ensureCreated (h : x.Informed source cs g) : (keyed source cs).Yields (E := E)
    (fun x' g' => x'.Informed source cs g') (fun _ _ => True) x.ensureCreated g := by
  unfold Candidate.ensureCreated
  cases x.hasCreated with
  | true => exact yields_pure h
  | false =>
    have hcreate : (keyed source cs).Allows (E := E) (x.node.create newLeader) g := by
      refine (keyed_create _ fun now => ?_).imp (fun _ _ _ => trivial) fun _ _ _ => trivial
      have hprogress : (x.node.newRecord leaderKind.tag newLeader.key leaderKind.leased
          newLeader.progressText now).progress = some (leaderKind.text ⟨false⟩) :=
        x.node.progress_newRecord _ _ _ _ now
      have hid := x.node.id_newRecord leaderKind.tag newLeader.key leaderKind.leased
        newLeader.progressText now
      generalize x.node.newRecord leaderKind.tag newLeader.key leaderKind.leased
        newLeader.progressText now = r at hid hprogress ⊢
      have hkind : r.kind = leaderKind.tag := congrArg RecordId.kind hid
      have hblank : r.isInitialized = false := Record.isInitialized_of_progress hid hprogress
      have hwrite : g.MayWrite source cs r :=
        ⟨.of_leader hkind, fun _ hinit => absurd hinit (ne_true_of_eq_false hblank)⟩
      exact .of_kind hwrite (hkind.trans_ne (by decide)) (hkind.trans_ne (by decide))
    refine bind_later hcreate fun _ g' _ hlater => yields_pure ?_
    exact ⟨{ h.plans with }, (h.later hlater).noted⟩

theorem compete (h : x.Informed source cs g) : (keyed source cs).Yields (E := E)
    (fun x' g' => x'.Informed source cs g') (fun _ _ => True) x.compete g := by
  unfold Candidate.compete
  cases hheld : x.held with
  | some p => exact yields_pure h
  | none =>
    have hclaim : (keyed source cs).Yields (E := E)
        (fun held g' => ∀ p, held = some p → (∀ r, p.record = some r → r.kind = leaderKind.tag) ∧
          (p.isInitialized = true → g'.KnowsAll source cs))
        (fun _ _ => True) (x.node.claim leaderKind none) g := by
      refine yields_claim rfl trivial (fun found g' htold => ?_) fun _ _ _ => trivial
      refine yields_build (fun _ _ h => nomatch h) ?_ fun _ _ _ _ => trivial
      rintro r p rfl hp _ ⟨⟩
      obtain ⟨hsource, hkind, -, rfl⟩ := htold
      refine ⟨fun r' hr' => ?_, fun hinit id hid => ?_⟩
      · obtain rfl := Option.some.inj ((Factory.record_ofRecord hp).symm.trans hr')
        exact hkind
      · have hnoted : r.isInitialized = true := by
          rw [Record.isInitialized, hp]
          exact hinit
        rw [KeyAccount.claim, if_pos ⟨hsource.trans h.plans.source, hnoted⟩]
        exact List.mem_append_left _ hid
    refine hclaim.bind fun held g' hheld' => yields_pure ?_
    exact ⟨{ h.plans with leader := fun p r hp hr => (hheld' p hp).1 r hr },
      fun p hp => (hheld' p hp).2⟩

theorem initialize? (hnames : (cs.map Collection.name).Nodup) (h : x.Informed source cs g) :
    (keyed source cs).Yields (E := E) (fun x' g' => x'.Informed source cs g') (fun _ _ => True)
      x.initialize? g := by
  unfold Candidate.initialize?
  cases hheld : x.held with
  | none => exact yields_pure h
  | some p =>
    dsimp only
    split
    · exact yields_pure h
    · refine (keyed_bootstrap hnames h.plans.source h.plans.plan).bind fun _ g' hknows =>
        yields_pure ⟨{ h.plans with leader := ?_ }, fun _ _ _ => hknows⟩
      rintro _ r ⟨⟩ hr
      exact h.plans.leader p r hheld hr

theorem renew (h : x.Informed source cs g) :
    (keyed source cs).Ensures (E := E) (fun _ _ => True) x.renew g := by
  unfold Candidate.renew
  cases hheld : x.held with
  | none => trivial
  | some p =>
    have hsave : (keyed source cs).Allows (E := E)
        (x.node.save p (some x.settings.leaseExtension)) g := by
      cases hr : p.record with
      | none =>
        have hrecord : Held.record p = none := hr
        refine yields_now fun now _ => ?_
        rw [hrecord]
        exact yields_error trivial
      | some r =>
        exact yields_transition hr (fun _ => rfl) fun now =>
          ⟨.of_leader (h.plans.leader p r hheld hr) (h.noted p hheld) _ now, fun _ _ _ => trivial,
            fun _ _ _ => trivial⟩
    refine Ensures.bind hsave fun answer _ _ => ?_
    cases answer <;> trivial

end Informed

/-- A pass of the election, with the requests of any pass, that tells whether the candidate takes
its collections for created when it comes to renew its lease: because it has bootstrapped, or has
been told so by the record. -/
def election (x : Candidate) : Program (Node.interface E) Bool := do
  let led ← x.lead
  let _ ← led.renew
  return led.held.any (·.isInitialized)

/-- **An election that tells so knows all shared state to be stored.** -/
theorem Informed.keyed_election (hnames : (cs.map Collection.name).Nodup) {x : Candidate}
    (h : x.Informed source cs g) : (keyed source cs).Ensures (E := E)
      (fun told g' => told = true → g'.KnowsAll source cs) x.election g := by
  have hlead : (keyed source cs).Ensures (E := E) (fun x' g' => x'.Informed source cs g')
      x.lead g := by
    refine keeps_takeSteps (S := keyed source cs) (motive := fun x g => x.Informed source cs g) ?_ h
    intro step hstep x g h
    suffices hstays : (keyed source cs).Yields (fun x' g' => x'.Informed source cs g')
        (fun _ _ => True) (step x) g from
      (yields_later hstays).imp (fun _ _ hpost => hpost.1) fun _ _ hfail => h.later hfail.2
    simp only [List.mem_cons, List.not_mem_nil, or_false] at hstep
    rcases hstep with rfl | rfl | rfl
    · exact h.ensureCreated
    · exact h.compete
    · exact h.initialize? hnames
  refine hlead.bind fun led g' hled => ?_
  refine (ensures_later hled.renew).bind fun _ g'' hlater htold => ?_
  obtain ⟨p, hp, hinit⟩ := (Option.any_eq_true _ _).mp htold
  exact (hled.noted p hp hinit).later hlater.2

end Candidate

end LeasedWork
