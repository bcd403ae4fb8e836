import LeasedWork.Proofs.Fleet.Groundwork
import LeasedWork.Proofs.Fleet.KeyedPasses
import LeasedWork.Proofs.Fleet.PlanBooks

/-! # Collections keep apart

Nodes of a source bootstrap its collections, plan exports and count loaded queries, all on one table
(`Charter.keeping`).  What is kept for a collection stays its own as far as names allow
(`Workshop.kept_apart`): its own state, unless it is named like the key of a load status; its load
status, unless a collection is named like the key of that; and its queries, which are read back with
its name, or with the part of it before a separator.

Where names do not allow it, this fails: two collections share a record
(`Workshop.not_kept_apart`), and queries are taken for those of another collection.
-/
namespace LeasedWork

/-! ## Tables stay in order -/

namespace Table

variable {source : String} {cs : List Collection} {c : Collection} {t u : Table} {r : Record}

/-- A table that has nothing of a source yet is in order. -/
theorem InOrder.of_new (hd : t.Distinct) (hnew : ∀ r ∈ t.rows, r.source ≠ source) :
    t.InOrder source cs where
  distinct := hd
  places r hr := {
    configs := fun _ _ _ hid => absurd (congrArg RecordId.source hid) (hnew r hr)
    statuses := fun _ _ _ hid => absurd (congrArg RecordId.source hid) (hnew r hr)
    exports := fun hsource => absurd hsource (hnew r hr)
    queries := fun hsource => absurd hsource (hnew r hr) }
  noted r hr hsource := absurd hsource (hnew r hr)

/-- One more record, in its place. -/
theorem InOrder.put (h : t.InOrder source cs) (hd : u.Distinct)
    (hrows : ∀ x ∈ u.rows, x = r ∨ x ∈ t.rows) (hwithin : t.Within u) (hplace : r.InPlace source cs)
    (hnoted : r.source = source → r.isInitialized = true →
      ∀ id ∈ Collection.sharedIds source cs, t.Has id) : u.InOrder source cs where
  distinct := hd
  places x hx := by
    rcases hrows x hx with rfl | hold
    · exact hplace
    · exact h.places x hold
  noted x hx hsource hinit id hid := by
    rcases hrows x hx with rfl | hold
    · exact hwithin id (hnoted hsource hinit id hid)
    · exact hwithin id (h.noted x hold hsource hinit id hid)

variable {g : KeyAccount} {request : Request}

/-- **A table stays in order** when nothing is asked that may not be. -/
theorem InOrder.answer (h : t.InOrder source cs)
    (hmay : (Surroundings.keyed source cs).May g request) (hknown : ∀ id ∈ g.known, t.Has id)
    (now : Instant) : (t.answer now request).2.InOrder source cs := by
  have hd := distinct_answer h.distinct now request
  have hwithin := t.within_answer now request
  have hwritten := t.written_answer now request
  generalize (t.answer now request).2 = u at hd hwithin hwritten ⊢
  cases hwritten with
  | none => exact h
  | created r hfree =>
    have hsame : r.firstVersion.isInitialized = r.isInitialized :=
      Record.isInitialized_congr rfl rfl
    refine h.put hd (fun x hx => mem_insert hx) hwithin (hmay.inPlace.congr rfl rfl) ?_
    exact fun hsource hinit id hid =>
      hknown id (hmay.noted hsource (hsame.symm.trans hinit) id hid)
  | updated r stored =>
    have hsame : r.nextVersion.isInitialized = r.isInitialized :=
      Record.isInitialized_congr rfl rfl
    refine h.put hd (fun x hx => mem_replace hx) hwithin (hmay.inPlace.congr rfl rfl) ?_
    exact fun hsource hinit id hid =>
      hknown id (hmay.noted hsource (hsame.symm.trans hinit) id hid)
  | claimed r owner lease hr =>
    have hsame : (r.claimed owner now lease).isInitialized = r.isInitialized :=
      Record.isInitialized_congr rfl rfl
    refine h.put hd (fun x hx => mem_replace hx) hwithin ((h.places r hr).congr rfl rfl) ?_
    exact fun hsource hinit => h.noted r hr hsource (hsame.symm.trans hinit)

/-- What is kept for a collection under its name stays what it is. -/
theorem InOrder.find_config (h : t.InOrder source cs)
    (hmay : (Surroundings.keyed source cs).May g request) (hc : c ∈ cs) (howns : c.OwnsName cs)
    (hr : t.find? (c.configId source) = some r) (now : Instant) :
    ∃ r', (t.answer now request).2.find? (c.configId source) = some r' ∧
      r'.progress = r.progress := by
  have hwritten := t.written_answer now request
  generalize (t.answer now request).2 = u at hwritten ⊢
  cases hwritten with
  | none => exact ⟨r, hr, rfl⟩
  | created x hfree => exact ⟨r, find?_insert_of_stored (r := x.firstVersion) hfree hr, rfl⟩
  | updated x stored =>
    have hne : c.configId source ≠ x.nextVersion.id := (hmay.spared c hc howns).symm
    exact ⟨r, (find?_replace_of_ne hne).trans hr, rfl⟩
  | claimed x owner lease hx =>
    by_cases hid : c.configId source = x.id
    · have hstored := (find?_iff h.distinct).mpr ⟨hx, rfl⟩
      obtain rfl : r = x := Option.some.inj (hr.symm.trans (hid ▸ hstored))
      refine ⟨r.claimed owner now lease, ?_, rfl⟩
      rw [hid]
      exact find?_replace_self (r := r.claimed owner now lease) hstored
    · exact ⟨r, (find?_replace_of_ne (r := x.claimed owner now lease) hid).trans hr, rfl⟩

/-- **The time of a snapshot stays.** -/
theorem InOrder.pinned (h : t.InOrder source cs)
    (hmay : (Surroundings.keyed source cs).May g request) (hc : c ∈ cs) (howns : c.OwnsName cs)
    {time : Instant} (hpinned : t.pinned? source c = some time) (now : Instant) :
    (t.answer now request).2.pinned? source c = some time := by
  obtain ⟨r, hr, -⟩ := Option.bind_eq_some_iff.mp hpinned
  obtain ⟨hmem, hid⟩ := find?_some hr
  obtain ⟨time', htime, hprogress⟩ := (h.places r hmem).configs c hc howns hid
  obtain rfl : time' = time :=
    Option.some.inj ((pinned_of_find hr htime hprogress).symm.trans hpinned)
  obtain ⟨r', hr', hsame⟩ := h.find_config hmay hc howns hr now
  exact pinned_of_find hr' htime (hsame.trans hprogress)

/-! ### What is read back -/

theorem read_shared {ms : Json.Members} (hkind : r.kind = sharedKind.tag)
    (hkeeps : sharedKind.Keeps ms) (hprogress : r.progress = some (sharedKind.text ms)) :
    ∃ p, Partition.ofRecord sharedKind r = .ok p ∧ p.values = ms :=
  ⟨_, ofRecord_shared hkind hkeeps hprogress, rfl⟩

theorem InOrder.read_config (h : t.InOrder source cs) (hc : c ∈ cs) (howns : c.OwnsName cs)
    (hr : t.find? (c.configId source) = some r) : ∃ p time,
      Partition.ofRecord sharedKind r = .ok p ∧ p.values =
        [("collection", .text c.name),
         ("export", c.exportSize.elim .null fun size =>
           .object [("partitionSize", .integer size.toNat)]),
         ("snapshotTime", .integer time.millis),
         ("stream", .bool c.stream)] ∧
        t.pinned? source c = some time := by
  obtain ⟨hmem, hid⟩ := find?_some hr
  have hkind : r.kind = sharedKind.tag := congrArg RecordId.kind hid
  obtain ⟨time, htime, hprogress⟩ := (h.places r hmem).configs c hc howns hid
  obtain ⟨p, hread, hvalues⟩ :=
    read_shared hkind (Collection.keeps_toMembers time.millis_range) hprogress
  rw [c.toMembers_eq] at hvalues
  exact ⟨p, time, hread, hvalues, pinned_of_find hr htime hprogress⟩

theorem InOrder.read_status (h : t.InOrder source cs) (hc : c ∈ cs) (howns : c.OwnsStatus cs)
    (hr : t.find? (c.statusId source) = some r) : ∃ p s,
      Partition.ofRecord sharedKind r = .ok p ∧ p.values = LoadStatus.toMembers s ∧
        LoadStatus.ofRecord r = .ok s := by
  obtain ⟨hmem, hid⟩ := find?_some hr
  have hkind : r.kind = sharedKind.tag := congrArg RecordId.kind hid
  obtain ⟨s, hprogress⟩ := (h.places r hmem).statuses c hc howns hid
  obtain ⟨p, hread, hvalues⟩ := read_shared hkind s.keeps_toMembers hprogress
  exact ⟨p, s, hread, hvalues, LoadStatus.ofRecord_of_text hkind hprogress⟩

theorem InOrder.read_query {x : Record} {name query : String} (h : t.InOrder source cs)
    (hr : t.find? x.id = some r) (hsource : x.source = source) (hkind : x.kind = queryKind.tag)
    (hkey : x.key = QueryId.key ⟨name, query⟩) : ∃ p,
      Partition.ofRecord queryKind r = .ok p ∧
        p.identity.collection = String.ofList (name.toList.takeWhile (· != keySeparator)) := by
  obtain ⟨hmem, hid⟩ := find?_some hr
  have hkind' : r.kind = queryKind.tag := (congrArg RecordId.kind hid).trans hkind
  have hkey' : r.key = QueryId.key ⟨name, query⟩ := (congrArg RecordId.key hid).trans hkey
  obtain ⟨progress, hkeeps, hprogress⟩ :=
    (h.places r hmem).queries ((congrArg RecordId.source hid).trans hsource) hkind'
  obtain ⟨i, hread, hcollection⟩ := QueryId.readKey_takeWhile ⟨name, query⟩
  have hidentify : queryKind.identify r.key = .ok i := (congrArg QueryId.readKey hkey').trans hread
  obtain ⟨p, hp, hidentity⟩ : ∃ p, Partition.ofRecord queryKind r = .ok p ∧ p.identity = i :=
    ⟨_, Partition.ofRecord_of_keeps hkind' hidentify hkeeps hprogress, rfl⟩
  exact ⟨p, hp, (congrArg QueryId.collection hidentity).trans hcollection⟩

/-- A load status that has just been created counts nothing. -/
theorem status_starts (hmay : (Surroundings.keyed source cs).May g request) (hc : c ∈ cs)
    (howns : c.OwnsStatus cs) (hfree : t.find? (c.statusId source) = none) {now : Instant}
    (hr : (t.answer now request).2.find? (c.statusId source) = some r) :
    ∃ time, r.progress = some (sharedKind.text (LoadStatus.starting time).toMembers) := by
  have hwritten := t.written_answer now request
  generalize (t.answer now request).2 = u at hwritten hr
  cases hwritten with
  | none => cases hfree.symm.trans hr
  | created x hx =>
    have hx' : t.find? x.firstVersion.id = none := hx
    rw [find?_insert hx'] at hr
    split at hr
    · rename_i hid
      obtain rfl := Option.some.inj hr
      exact hmay.starting c hc howns hid.symm
    · cases hfree.symm.trans hr
  | updated x stored => cases (find?_replace_of_none hfree).symm.trans hr
  | claimed x owner lease => cases (find?_replace_of_none hfree).symm.trans hr

end Table

/-! ## Who takes part -/

/-- The work that nodes of a source do on a list of collections.  Bootstraps and elections tell
whether everything has been created. -/
inductive Keeper {E : Interface} (source : String) (cs : List Collection) :
    Program (Node.interface E) Bool → Prop
  | bootstrap (x : Candidate) (hsource : x.node.source = source) (hplan : x.collections = cs) :
    Keeper source cs (do
      let done ← x.bootstrap.run
      return done.isOk)
  | election (x : Candidate) (hplans : x.Plans source cs)
    (hfresh : ∀ p, x.held = some p → p.isInitialized = false) : Keeper source cs x.election
  | exporting (n : Node) (settings : WorkerSettings) (supplier : Supplier E)
    (hn : n.source = source)
    (hsupplier : supplier.Asks ((Surroundings.keyed source cs).May .opening)) :
    Keeper source cs (do
      let _ ← Work.pass n settings (Planning.process n) supplier
      return false)
  | loaded (n : Node) (c : Collection) (records : UInt64) (hn : n.source = source) (hc : c ∈ cs) :
    Keeper source cs (do
      let _ ← (LoadStatus.recordLoaded n c.name records).run
      return false)

/-- Bootstraps, elections, passes over exports and counts of loaded queries, by any nodes of a
source.  Strangers may ask what anybody may ask, and a request that fails may have reached the
table. -/
def Charter.keeping (E : Interface) (source : String) (cs : List Collection) :
    Charter E Unit Bool where
  Joins _ p := Keeper source cs p
  Asks := (Surroundings.keyed source cs).May .opening
  mayHide _ := true

section Watch

open KeyAccount

variable {E : Interface} {source : String} {cs : List Collection} {c : Collection} {t u : Table}

/-- **Everybody keeps to the keys**, and what is told is known. -/
theorem Keeper.keyed (hnames : (cs.map Collection.name).Nodup)
    {p : Program (Node.interface E) Bool} (h : Keeper source cs p) :
    (Surroundings.keyed source cs).Ensures (fun told g => told = true → g.KnowsAll source cs) p
      .opening := by
  cases h with
  | bootstrap x hsource hplan =>
    refine Surroundings.Ensures.bind (Candidate.keyed_bootstrap hnames hsource hplan) ?_
    intro done g hdone htold
    cases done with
    | ok _ => exact hdone
    | error failure => cases htold
  | election x hplans hfresh =>
    refine Candidate.Informed.keyed_election hnames ⟨hplans, fun p hp hinit => ?_⟩
    exact absurd hinit (ne_true_of_eq_false (hfresh p hp))
  | exporting n settings supplier hn hsupplier =>
    exact (Work.keyed_pass hn settings hsupplier).bind fun _ _ _ htold => nomatch htold
  | loaded n c records hn hc =>
    have hcount : (Surroundings.keyed source cs).Allows
        (LoadStatus.recordLoaded (E := E) n c.name records) .opening :=
      LoadStatus.keyed_update hn hc _
    exact Surroundings.Ensures.bind hcount fun _ _ _ htold => nomatch htold

/-- An account fits the marks of a job and the table. -/
structure KeyAccount.Fits (source : String) (t : Table) (marks : List Mark) (g : KeyAccount) :
    Prop where
  claimed : Mark.exportOf marks = g.claimed
  known : ∀ id ∈ g.known, t.Has id
  /-- A query has been created for the collection whose export has been claimed. -/
  planned : ∀ m ∈ marks, ∀ r, m.request = .create r → r.source = source →
    r.kind = queryKind.tag → t.Has r.id ∧
      ∃ name query, Mark.exportOf marks = some name ∧ r.key = QueryId.key ⟨name, query⟩

namespace KeyAccount.Fits

variable {marks : List Mark} {g : KeyAccount}

theorem opening (source : String) (t : Table) : KeyAccount.opening.Fits source t [] where
  claimed := rfl
  known _ hid := absurd hid List.not_mem_nil
  planned _ hm := absurd hm List.not_mem_nil

theorem within (h : g.Fits source t marks) (htu : t.Within u) : g.Fits source u marks where
  claimed := h.claimed
  known id hid := htu id (h.known id hid)
  planned m hm r hr hsource hkind := (h.planned m hm r hr hsource hkind).imp_left (htu r.id)

/-- One more mark. -/
theorem add {g' : KeyAccount} {m : Mark} (h : g.Fits source t marks) (htu : t.Within u)
    (hclaimed : g.claimed.or m.claimed? = g'.claimed) (hknown : ∀ id ∈ g'.known, u.Has id)
    (hplanned : ∀ r, m.request = .create r → r.source = source → r.kind = queryKind.tag →
      u.Has r.id ∧ ∃ name query, g.claimed = some name ∧ r.key = QueryId.key ⟨name, query⟩) :
    g'.Fits source u (marks ++ [m]) where
  claimed := by rw [Mark.exportOf_concat, h.claimed, hclaimed]
  known := hknown
  planned x hx r hr hsource hkind := by
    have hstays (name : String) (hname : Mark.exportOf marks = some name) :
        Mark.exportOf (marks ++ [m]) = some name := by
      rw [Mark.exportOf_concat, hname, Option.some_or]
    rcases List.mem_append.mp hx with hold | hnew
    · obtain ⟨hhas, name, query, hname, hkey⟩ := h.planned x hold r hr hsource hkind
      exact ⟨htu r.id hhas, name, query, hstays name hname, hkey⟩
    · obtain rfl := List.mem_singleton.mp hnew
      obtain ⟨hhas, name, query, hname, hkey⟩ := hplanned r hr hsource hkind
      exact ⟨hhas, name, query, hstays name (h.claimed.trans hname), hkey⟩

/-- **Whatever comes of a request, its account can be kept.** -/
theorem reach (h : g.Fits source t marks) (ht : t.InOrder source cs) {request : Request}
    (hmay : (Surroundings.keyed source cs).May g request) (now : Instant)
    {told : request.Answer}
    (htold : told = (t.answer now request).1 ∨ ∃ failure, told = .error failure) :
    ∃ g', (Surroundings.keyed source cs).Tells g request told g' ∧
      g'.Fits source (t.answer now request).2
        (marks ++ [⟨⟨request, told⟩, t, (t.answer now request).2⟩]) := by
  have htu := t.within_answer now request
  have hplanned : ∀ r, request = .create r → r.source = source → r.kind = queryKind.tag →
      (t.answer now request).2.Has r.id ∧
        ∃ name query, g.claimed = some name ∧ r.key = QueryId.key ⟨name, query⟩ := by
    rintro r rfl hsource hkind
    exact ⟨t.has_of_create now r, hmay.planned hsource hkind⟩
  -- Most answers tell nothing new.
  have hquiet (hclaimed : Exchange.claimed? ⟨request, told⟩ = none) :
      g.Fits source (t.answer now request).2
        (marks ++ [⟨⟨request, told⟩, t, (t.answer now request).2⟩]) :=
    h.add htu (by rw [hclaimed, Option.or_none]) (fun id hid => htu id (h.known id hid)) hplanned
  have hanswer (hok : told.isOk = true) : (t.answer now request).1 = told := by
    rcases htold with rfl | ⟨failure, rfl⟩
    · rfl
    · cases hok
  match request, told with
  | .prepare, _ | .byStatus _ _ _ _, _ | .all _ _, _ | .get _, .ok none | .get _, .error _
  | .create _, .error _ | .update _, .error _ | .claim _ _ _ _, .ok none
  | .claim _ _ _ _, .error _ => exact ⟨g, rfl, hquiet rfl⟩
  | .get id, .ok (some x) =>
    have hfind : t.find? id = some x := Except.ok.inj (hanswer rfl)
    exact ⟨g, ⟨(Table.find?_some hfind).2, rfl⟩, hquiet rfl⟩
  | .update r, .ok written =>
    exact ⟨g, ⟨Table.eq_of_answer_update (hanswer rfl), rfl⟩, hquiet rfl⟩
  | .create r, .ok isNew =>
    refine ⟨{ g with known := r.id :: g.known }, rfl, h.add htu (Option.or_none) ?_ hplanned⟩
    exact List.forall_mem_cons.mpr ⟨t.has_of_create now r, fun id hid => htu id (h.known id hid)⟩
  | .claim s kind owner lease, .ok (some r) =>
    obtain ⟨x, hx, hsource, hkind, rfl⟩ := Table.exists_of_answer_claim (hanswer rfl)
    have hsame : (x.claimed owner now lease).isInitialized = x.isInitialized :=
      Record.isInitialized_congr rfl rfl
    refine ⟨g.claim source cs (x.claimed owner now lease),
      ⟨hsource, hkind, (ht.places x hx).congr rfl rfl, rfl⟩, h.add htu rfl ?_ hplanned⟩
    intro id hid
    -- A claim makes known what the claimed record notes, and all of that has been created.
    rw [KeyAccount.claim] at hid
    split at hid
    · rename_i hnoted
      rcases List.mem_append.mp hid with hnew | hold
      · exact htu id (ht.noted x hx hnoted.1 (hsame.symm.trans hnoted.2) id hnew)
      · exact htu id (h.known id hold)
    · exact htu id (h.known id hid)

end KeyAccount.Fits

/-- The watch over those who work on a list of collections. -/
def Watch.keeping (source : String) (cs : List Collection) : Watch Unit Bool where
  surroundings := .keyed source cs
  post _ told g := told = true → g.KnowsAll source cs
  Fits t es := t.InOrder source cs ∧ ∀ e ∈ es, KeyAccount.Fits source t e.marks e.account

/-- **Every step of theirs keeps the table in order.** -/
theorem Watch.governs_keeping (E : Interface) (hnames : (cs.map Collection.name).Nodup) :
    (Watch.keeping source cs).Governs (Charter.keeping E source cs) where
  joins t es _ p hfits hp := by
    refine ⟨.opening, ⟨hfits.1, ?_⟩, hp.keyed hnames⟩
    exact List.forall_mem_append.mpr
      ⟨hfits.2, List.forall_mem_singleton.mpr (.opening source t)⟩
  reaches t es i e now request told hfits he hmay htold := by
    obtain ⟨ht, hes⟩ := hfits
    have he' := hes e (List.mem_of_getElem? he)
    obtain ⟨g, htells, hg⟩ := he'.reach ht hmay now
      (htold.imp_right fun ⟨failure, hfailure, _⟩ => ⟨failure, hfailure⟩)
    refine ⟨g, htells, ht.answer hmay he'.known now, ?_⟩
    exact Watch.forall_mem_set (fun x hx => (hes x hx).within (t.within_answer now request)) hg
  fails t es i e request failure hfits he hmay := by
    refine ⟨e.account, ?_, ?_⟩
    · cases request <;> rfl
    · rw [Watch.set_of_getElem he]
      exact hfits
  asks t es request now hfits hasks := by
    refine ⟨hfits.1.answer hasks (fun _ hid => absurd hid List.not_mem_nil) now, fun e he => ?_⟩
    exact (hfits.2 e he).within (t.within_answer now request)
  shows _ := trivial

end Watch

/-! ## What a move does to the table -/

namespace Watch

variable {E : Interface} {L α : Type} {W : Watch L α} {charter : Charter E L α}
  {w : Workshop E L α}

/-- **A move leaves the table as it is, or makes one request** that may be made. -/
theorem Sound.table_step (h : W.Sound w) (m : Workshop.Move charter) :
    (w.step m).table = w.table ∨ ∃ now request,
      (charter.Asks request ∨ ∃ g, W.surroundings.May g request) ∧
        (w.step m).table = (w.table.answer now request).2 := by
  cases m with
  | join label p hp => exact .inl rfl
  | stranger request now hasks => exact .inr ⟨now, request, .inl hasks, rfl⟩
  | turn i x =>
    rw [Workshop.step]
    split
    · exact .inl rfl
    · rename_i job hjob
      obtain ⟨es, hes, -⟩ := h
      obtain ⟨e, -, hfollows⟩ := forall₂_getElem hes hjob
      have hensures := hfollows.ensures
      unfold Workshop.turn
      split
      · exact .inl rfl
      · rename_i request next hrest
        rw [hrest] at hensures
        have hmay : ∃ g, W.surroundings.May g request := ⟨e.account, hensures.1⟩
        split
        · exact .inr ⟨x.now, request, .inr hmay, rfl⟩
        · split
          · exact .inr ⟨x.now, request, .inr hmay, rfl⟩
          · exact .inl rfl
      · exact .inl rfl
      · exact .inl rfl
      · exact .inl rfl

end Watch

/-! ## Collections apart -/

/-- A job has come to its end and has told that something is so. -/
def Job.hasTold {E : Interface} {L : Type} (job : Job E L Bool) : Bool :=
  match job.rest with
  | .done told => told
  | .ask _ _ => false

/-- Somebody has told that everything has been created. -/
def Workshop.IsFounded {E : Interface} (w : Workshop E Unit Bool) : Prop :=
  ∃ job ∈ w.jobs, job.hasTold = true

/-- What is kept for a collection is its own. -/
structure Collection.KeptApart {E : Interface} (source : String) (cs : List Collection)
    (c : Collection) (w : Workshop E Unit Bool) : Prop where
  /-- Once everything has been created, there is its own state, and a load status if it is to be
  exported. -/
  founded : w.IsFounded → w.table.Has (c.configId source) ∧
    (c.exportSize.isSome = true → w.table.Has (c.statusId source))
  /-- Under its name there is nothing but the collection with the time of its snapshot. -/
  config : c.OwnsName cs → ∀ r, w.table.find? (c.configId source) = some r → ∃ p time,
    Partition.ofRecord sharedKind r = .ok p ∧ p.values =
      [("collection", .text c.name),
       ("export", c.exportSize.elim .null fun size =>
         .object [("partitionSize", .integer size.toNat)]),
       ("snapshotTime", .integer time.millis),
       ("stream", .bool c.stream)] ∧
      w.table.pinned? source c = some time
  /-- Under the key of its load status there is nothing but a load status. -/
  counters : c.OwnsStatus cs → ∀ r, w.table.find? (c.statusId source) = some r → ∃ p s,
    Partition.ofRecord sharedKind r = .ok p ∧ p.values = LoadStatus.toMembers s
  /-- The queries of its export are read back with its name, up to a separator. -/
  queries : ∀ job ∈ w.jobs, Mark.exportOf job.marks = some c.name → ∀ m ∈ job.marks, ∀ r,
    m.request = .create r → r.source = source → r.kind = queryKind.tag → ∃ r' p,
      w.table.find? r.id = some r' ∧ Partition.ofRecord queryKind r' = .ok p ∧
        p.identity.collection = c.keyPart
  /-- So if there is no separator, whoever counts a loaded query of its counts it in its load
  status. -/
  loads : c.OwnsStatus cs → keySeparator ∉ c.name.toList → c.exportSize.isSome = true →
    w.IsFounded → ∀ (n : Node) (records : UInt64) (shows : Instant → Prop), n.source = source →
      ∃ s, w.table.loadStatus? (c.statusId source) = some s ∧
        (Surroundings.alone shows).Yields (E := E)
          (fun _ => LoadStatus.Rewrites (c.statusId source) (s.loaded records) w.table)
          Surroundings.NeverFails (LoadStatus.recordLoaded n c.keyPart records) w.table

namespace Workshop

variable {E : Interface} {source : String} {cs : List Collection} {c : Collection}
  {w : Workshop E Unit Bool}

/-- Once somebody has told so, everything has been created. -/
theorem has_of_founded (h : (Watch.keeping source cs).Sound w) (hw : w.IsFounded) :
    ∀ id ∈ Collection.sharedIds source cs, w.table.Has id := by
  obtain ⟨es, hes, -, hfits⟩ := h
  obtain ⟨job, hjob, htold⟩ := hw
  obtain ⟨e, he, hfollows⟩ := Watch.exists_entry hes hjob
  have hknows := hfollows.ensures
  unfold Job.hasTold at htold
  split at htold
  · rename_i told hdone
    rw [hdone] at hknows
    exact fun id hid => (hfits e he).known id (hknows htold id hid)
  · cases htold

theorem keptApart_of_sound (h : (Watch.keeping source cs).Sound w) (hc : c ∈ cs) :
    c.KeptApart source cs w := by
  have hfounded := has_of_founded h
  obtain ⟨es, hes, ht, hfits⟩ := h
  refine ⟨fun hw => ⟨hfounded hw _ (Collection.configId_mem_sharedIds hc), fun hexport =>
    hfounded hw _ (Collection.statusId_mem_sharedIds hc hexport)⟩, ?config, ?counters, ?queries,
    ?loads⟩
  case config => exact fun howns r hr => ht.read_config hc howns hr
  case counters =>
    intro howns r hr
    obtain ⟨p, s, hread, hvalues, -⟩ := ht.read_status hc howns hr
    exact ⟨p, s, hread, hvalues⟩
  case queries =>
    intro job hjob hexport m hm r hr hsource hkind
    obtain ⟨e, he, hfollows⟩ := Watch.exists_entry hes hjob
    rw [← hfollows.marks] at hexport hm
    obtain ⟨hhas, name, query, hname, hkey⟩ := (hfits e he).planned m hm r hr hsource hkind
    obtain rfl := Option.some.inj (hexport.symm.trans hname)
    obtain ⟨r', hr'⟩ := Table.has_iff.mp hhas
    obtain ⟨p, hread, hcollection⟩ := ht.read_query hr' hsource hkind hkey
    exact ⟨r', p, hr', hread, hcollection⟩
  case loads =>
    intro howns hplain hexport hw n records shows hn
    obtain ⟨r, hr⟩ :=
      Table.has_iff.mp (hfounded hw _ (Collection.statusId_mem_sharedIds hc hexport))
    obtain ⟨p, s, -, -, hs⟩ := ht.read_status hc howns hr
    have hstatus := Table.loadStatus_of_find hr hs
    subst hn
    refine ⟨s, hstatus, ?_⟩
    rw [Collection.keyPart_eq_iff.mpr hplain]
    exact LoadStatus.alone_update hstatus

/-- A move leaves the table as it is, or asks for what somebody may ask. -/
theorem step_cases (h : (Watch.keeping source cs).Sound w)
    (m : Move (Charter.keeping E source cs)) : (w.step m).table = w.table ∨
      ∃ now request g, (Surroundings.keyed source cs).May g request ∧
        (w.step m).table = (w.table.answer now request).2 := by
  refine (h.table_step m).imp_right ?_
  rintro ⟨now, request, hasks | ⟨g, hmay⟩, hanswer⟩
  · exact ⟨now, request, .opening, hasks, hanswer⟩
  · exact ⟨now, request, g, hmay, hanswer⟩

theorem pinned_foldl (hW : (Watch.keeping source cs).Governs (Charter.keeping E source cs))
    (h : (Watch.keeping source cs).Sound w) (hc : c ∈ cs) (howns : c.OwnsName cs) {time : Instant}
    (hpinned : w.table.pinned? source c = some time)
    (more : List (Move (Charter.keeping E source cs))) :
    (more.foldl step w).table.pinned? source c = some time := by
  induction more generalizing w with
  | nil => exact hpinned
  | cons m rest ih =>
    refine ih (h.step hW m) ?_
    obtain ⟨es, -, ht, -⟩ := id h
    rcases step_cases h m with hsame | ⟨now, request, g, hmay, hanswer⟩
    · rw [hsame]
      exact hpinned
    · rw [hanswer]
      exact ht.pinned hmay hc howns hpinned now

/-- **Collections keep apart**, as far as their names are different and allow it.  Nodes of a source
of which nothing is stored yet bootstrap its collections, plan exports and count loaded queries, at
any times, all at once, and with any of their requests failing.  What is kept for a collection is
its own throughout; the time of its snapshot stays; and its load status counts nothing when it is
created. -/
theorem kept_apart (hnames : (cs.map Collection.name).Nodup) (hc : c ∈ cs) {start : Table}
    (hd : start.Distinct) (hnew : ∀ r ∈ start.rows, r.source ≠ source)
    (moves : List (Move (Charter.keeping E source cs))) :
    c.KeptApart source cs (run start moves) ∧
    (c.OwnsName cs → ∀ time, (run start moves).table.pinned? source c = some time →
      ∀ more : List (Move (Charter.keeping E source cs)),
        (run start (moves ++ more)).table.pinned? source c = some time) ∧
    (c.OwnsStatus cs → (run start moves).table.find? (c.statusId source) = none →
      ∀ (m : Move (Charter.keeping E source cs)) (r : Record),
        (run start (moves ++ [m])).table.find? (c.statusId source) = some r →
          ∃ s, LoadStatus.ofRecord r = .ok s ∧ s.counts = .zero) := by
  have hW : (Watch.keeping source cs).Governs (Charter.keeping E source cs) :=
    Watch.governs_keeping E hnames
  have hsound := Watch.sound_run hW ⟨.of_new hd hnew, fun _ he => absurd he List.not_mem_nil⟩ moves
  refine ⟨keptApart_of_sound hsound hc, fun howns time hpinned more => ?_,
    fun howns hfree m r hr => ?_⟩
  · rw [run_append]
    exact pinned_foldl hW hsound hc howns hpinned more
  · rw [run_append] at hr
    rcases step_cases hsound m with hsame | ⟨now, request, g, hmay, hanswer⟩
    · have hr' : ((run start moves).step m).table.find? (c.statusId source) = some r := hr
      rw [hsame] at hr'
      cases hfree.symm.trans hr'
    · have hr' : ((run start moves).step m).table.find? (c.statusId source) = some r := hr
      have hkind : r.kind = sharedKind.tag := congrArg RecordId.kind (Table.find?_some hr').2
      rw [hanswer] at hr'
      obtain ⟨time, hprogress⟩ := Table.status_starts hmay hc howns hfree hr'
      exact ⟨_, LoadStatus.ofRecord_of_text hkind hprogress, rfl⟩

/-- The only node of a source. -/
def soleNode : Node := ⟨"db", "node-a", .seconds 60⟩

/-- One page of two queries, and no more. -/
def onePage : Supplier Interface.none :=
  ⟨[fun _ _ => pure ⟨["q0", "q1"], true, none⟩], fun _ _ => pure (.storage "no more pages")⟩

theorem asks_onePage {may : Request → Prop} : onePage.Asks may := by
  refine ⟨fun next hnext _ _ => ?_, fun _ _ => trivial⟩
  obtain rfl := List.mem_singleton.mp hnext
  trivial

/-- A job has some turns, and nothing fails. -/
def turns (cs : List Collection) (i n : Nat) :
    List (Move (Charter.keeping Interface.none "db" cs)) :=
  List.replicate n (.turn i ⟨.epoch, none, false, fun q => q.elim⟩)

/-- A candidate creates everything. -/
def founding (cs : List Collection) : List (Move (Charter.keeping Interface.none "db" cs)) :=
  .join () _ (.election (.new soleNode cs .default) ⟨rfl, rfl, fun _ _ h => nomatch h⟩
    (fun _ h => nomatch h)) :: turns cs 0 16

/-- A pass over an export comes second. -/
def planning (cs : List Collection) : List (Move (Charter.keeping Interface.none "db" cs)) :=
  .join () _ (.exporting soleNode .default onePage rfl asks_onePage) :: turns cs 1 14

/-- A loaded query of a collection is counted. -/
def counting (cs : List Collection) (c : Collection) (hc : c ∈ cs) (i : Nat) :
    List (Move (Charter.keeping Interface.none "db" cs)) :=
  .join () _ (.loaded soleNode c 7 rfl hc) :: turns cs i 5

/-- Two collections, of which one is named like a load status, but not like that of the other. -/
def twoCollections : List Collection :=
  [⟨"orders", some 100, false⟩, ⟨"EXPORT-changes", none, true⟩]

/-- Everything has been created, and while an export is planned and a loaded query counted, the
other collection keeps the time of its snapshot. -/
theorem kept_apart_twoCollections :
    let c : Collection := ⟨"EXPORT-changes", none, true⟩
    let before := founding twoCollections
    let more := planning twoCollections ++
      counting twoCollections ⟨"orders", some 100, false⟩ List.mem_cons_self 2
    (twoCollections.map Collection.name).Nodup ∧ c ∈ twoCollections ∧ Table.empty.Distinct ∧
    (∀ r ∈ Table.empty.rows, r.source ≠ "db") ∧ (run .empty before).IsFounded ∧
    c.KeptApart "db" twoCollections (run .empty before) ∧
    (run .empty (before ++ more)).table.pinned? "db" c = some .epoch := by
  intro c before more
  have hnames : (twoCollections.map Collection.name).Nodup := by decide
  have hc : c ∈ twoCollections := by decide
  have hnew : ∀ r ∈ Table.empty.rows, r.source ≠ "db" := fun r hr => absurd hr List.not_mem_nil
  have howns : c.OwnsName twoCollections := by unfold Collection.OwnsName; decide
  obtain ⟨hfounded, hpinned⟩ : (run .empty before).jobs.any (·.hasTold) = true ∧
      (run .empty before).table.pinned? "db" c = some .epoch := by
    decide +kernel
  obtain ⟨hkept, hstays, -⟩ := kept_apart hnames hc Table.distinct_empty hnew before
  exact ⟨hnames, hc, Table.distinct_empty, hnew, List.any_eq_true.mp hfounded, hkept,
    hstays howns .epoch hpinned more⟩

/-- **Not all collections keep apart.**  The state of one that is named like the load status of
another is written over when a query of the other is counted; if the other is exported, it has that
state for a load status; and the queries of one with a separator in its name are read back as those
of another. -/
theorem not_kept_apart :
    (¬ ∀ (cs : List Collection) (c : Collection), (cs.map Collection.name).Nodup → c ∈ cs →
      ∀ moves : List (Move (Charter.keeping Interface.none "db" cs)),
        (run .empty moves).IsFounded →
          ∃ time, (run .empty moves).table.pinned? "db" c = some time) ∧
    (¬ ∀ (cs : List Collection) (c : Collection), (cs.map Collection.name).Nodup → c ∈ cs →
      c.exportSize.isSome = true → ∀ moves : List (Move (Charter.keeping Interface.none "db" cs)),
        (run .empty moves).IsFounded → ∀ r,
          (run .empty moves).table.find? (c.statusId "db") = some r →
            ∃ p s, Partition.ofRecord sharedKind r = .ok p ∧ p.values = LoadStatus.toMembers s) ∧
    (¬ ∀ (cs : List Collection) (c : Collection), (cs.map Collection.name).Nodup → c ∈ cs →
      ∀ moves : List (Move (Charter.keeping Interface.none "db" cs)),
        (run .empty moves).IsFounded → ∀ job ∈ (run .empty moves).jobs,
          Mark.exportOf job.marks = some c.name → ∀ m ∈ job.marks, ∀ r,
            m.request = .create r → r.kind = queryKind.tag →
              ∃ r' p, (run .empty moves).table.find? r.id = some r' ∧
                Partition.ofRecord queryKind r' = .ok p ∧ p.identity.collection = c.name) := by
  refine ⟨fun hall => ?overwritten, fun hall => ?shared, fun hall => ?misread⟩
  case overwritten =>
    let cs : List Collection := [⟨"x", none, false⟩, ⟨"EXPORT-x", none, false⟩]
    let moves := founding cs ++ counting cs ⟨"x", none, false⟩ List.mem_cons_self 1
    obtain ⟨hnames, hc, hfounded, hlost⟩ : (cs.map Collection.name).Nodup ∧
        ⟨"EXPORT-x", none, false⟩ ∈ cs ∧ (run .empty moves).jobs.any (·.hasTold) = true ∧
        (run .empty moves).table.pinned? "db" ⟨"EXPORT-x", none, false⟩ = none := by
      decide +kernel
    obtain ⟨time, hpinned⟩ := hall cs _ hnames hc moves (List.any_eq_true.mp hfounded)
    cases hlost.symm.trans hpinned
  case shared =>
    let cs : List Collection := [⟨"EXPORT-x", none, false⟩, ⟨"x", some 100, false⟩]
    let values (r : Record) := (Partition.ofRecord sharedKind r).toOption.map (·.values)
    obtain ⟨hnames, hc, hfounded, hvalues⟩ : (cs.map Collection.name).Nodup ∧
        ⟨"x", some 100, false⟩ ∈ cs ∧
        (run .empty (founding cs)).jobs.any (·.hasTold) = true ∧
        (((run .empty (founding cs)).table.find? ⟨"db", sharedKind.tag, "EXPORT-x"⟩).bind
          values).map (·.length) = some 4 := by
      decide +kernel
    obtain ⟨ms, hms, hlength⟩ := Option.map_eq_some_iff.mp hvalues
    obtain ⟨r, hr, hread⟩ := Option.bind_eq_some_iff.mp hms
    obtain ⟨p, s, hp, hstatus⟩ :=
      hall cs _ hnames hc rfl (founding cs) (List.any_eq_true.mp hfounded) r hr
    have hms' : ms = LoadStatus.toMembers s := by
      rw [← hstatus, ← Option.some_inj, ← hread]
      simp [values, hp, Except.toOption]
    rw [hms'] at hlength
    cases hlength
  case misread =>
    let cs : List Collection := [⟨"a|b", some 100, false⟩]
    let moves := founding cs ++ planning cs
    let readsBack (r : Record) := (Partition.ofRecord queryKind r).toOption.all
      (·.identity.collection ≠ "a|b")
    obtain ⟨hnames, hfounded, hjobs, hrows⟩ : (cs.map Collection.name).Nodup ∧
        (run .empty moves).jobs.any (·.hasTold) = true ∧
        (run .empty moves).jobs.any (fun job => Mark.exportOf job.marks = some "a|b" &&
          job.marks.any (·.creates)) = true ∧
        (run .empty moves).table.rows.all readsBack = true := by
      decide +kernel
    obtain ⟨job, hjob, hboth⟩ := List.any_eq_true.mp hjobs
    obtain ⟨hexport, hmarks⟩ := (Bool.and_eq_true _ _).mp hboth
    obtain ⟨m, hm, hcreates⟩ := List.any_eq_true.mp hmarks
    obtain ⟨r, hrequest, hkind⟩ := Mark.exists_of_creates hcreates
    obtain ⟨r', p, hr', hread, hsame⟩ := hall cs _ hnames List.mem_cons_self moves
      (List.any_eq_true.mp hfounded) job hjob (of_decide_eq_true hexport) m hm r hrequest hkind
    have hother := List.all_eq_true.mp hrows r' (Table.find?_some hr').1
    simp [readsBack, hread, hsame, Except.toOption] at hother

end Workshop

end LeasedWork
