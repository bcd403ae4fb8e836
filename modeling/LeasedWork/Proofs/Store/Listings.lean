import LeasedWork.Proofs.Store.Equivalence
import LeasedWork.Proofs.Store.Interleaving
import LeasedWork.Proofs.Store.Sources

/-! # A listing is exact

The records of a source and kind are found by a listing of the paths below one path.  That would go
wrong in two ways: two records could share a path, so that one hides the other, or a listing could
show a record of another source or kind, since the empty text adds no segment to the empty path and
so the levels of a path do not always say what they stand for.  The first cannot happen, whatever
the texts (`ObjectPath.text_ofRecord_inj`); the second can, and these records are left out.

What is stored is said without the bucket: every successful request was told which record it has
written (`Request.written?`), and `Traffic.stored?` is what the last writer of an identity was told,
as a text shows it.  At any moment of any traffic a full read of a source and kind gives exactly
these records, each once, the oldest first (`ObjectStore.listings_exact`).
-/
namespace LeasedWork

/-! ## What was written last -/

/-- The last of some records that is of an identity. -/
def latest? (id : RecordId) (rs : List Record) : Option Record :=
  rs.reverse.find? fun r => r.id == id

namespace Traffic

/-- What the caller of a write was told about it. -/
def told? (s : Traffic) (w : Put) : Option Record := s.flights[w.caller]?.bind Flight.written?

/-- The record of an identity that its last writer was told, as a text shows it. -/
def stored? (s : Traffic) (id : RecordId) : Option Record :=
  (latest? id (s.puts.filterMap s.told?)).map Record.reread

end Traffic

theorem latest?_concat (id : RecordId) (rs : List Record) (r : Record) :
    latest? id (rs ++ [r]) = if r.id = id then some r else latest? id rs := by
  rw [latest?, List.reverse_append, List.reverse_singleton, List.singleton_append, List.find?_cons]
  by_cases h : r.id = id
  · simp [h]
  · rw [beq_false_of_ne h, if_neg h]
    rfl

variable {root : ObjectPath} {s : Traffic}

/-- A write that has taken effect is what its caller is told. -/
theorem Request.written_of_effect {w : Put} {time : Option Instant} {request : Request}
    {answer : request.Answer} (h : request.Effect root w time answer) :
    ∃ r, request.written? answer = some r ∧ w.path = ObjectPath.ofRecord root r.id ∧
      w.text = r.print := by
  cases request with
  | create r =>
    obtain ⟨rfl, hpath, -, htext⟩ := h
    exact ⟨r.firstVersion, rfl, hpath, htext⟩
  | update r =>
    obtain ⟨_, written, rfl, hpath, -, -, -, rfl, htext⟩ := h
    exact ⟨_, rfl, hpath, htext⟩
  | claim source kind owner lease =>
    obtain ⟨now, stored, written, -, rfl, hpath, -, -, -, -, rfl, htext⟩ := h
    exact ⟨_, rfl, hpath, htext⟩
  | prepare | get _ | byStatus _ _ _ _ | all _ _ => exact h.elim

/-- **The caller of every write was told the record that it put there.** -/
theorem Traffic.Sound.told (h : s.Sound root) {w : Put} (hw : w ∈ s.puts) :
    ∃ r, s.told? w = some r ∧ w.path = ObjectPath.ofRecord root r.id ∧ w.text = r.print := by
  have hflight := List.getElem?_eq_getElem (h.callers w hw)
  have hby : w ∈ s.putsBy w.caller := List.mem_filter.mpr ⟨hw, beq_self_eq_true _⟩
  rcases h.flights w.caller _ hflight with ⟨-, hnone⟩ | ⟨answer, w', hdone, hputs, heffect⟩
  · rw [hnone] at hby
    cases hby
  · rw [hputs, List.mem_singleton] at hby
    subst w'
    obtain ⟨r, hwritten, hrecord⟩ := Request.written_of_effect heffect
    refine ⟨r, ?_, hrecord⟩
    rw [told?, hflight, Option.bind_some, Flight.written?, hdone]
    exact hwritten

/-- A bucket holds at a record's path what the last of its writes has put there. -/
theorem find?_replay {puts : List Put} {told : Put → Option Record}
    (h : ∀ w ∈ puts, ∃ r, told w = some r ∧ w.path = ObjectPath.ofRecord root r.id ∧
      w.text = r.print) (id : RecordId) :
    ((replay puts).find? (ObjectPath.ofRecord root id)).map (·.text) =
      (latest? id (puts.filterMap told)).map Record.print := by
  induction puts using List.reverseRecOn with
  | nil => rfl
  | append_singleton puts w ih =>
    obtain ⟨r, htold, hpath, htext⟩ := h w List.mem_concat_self
    have hone : [w].filterMap told = [r] := List.filterMap_cons_some htold
    rw [replay_concat, Bucket.find?_put, List.filterMap_append, hone, latest?_concat]
    by_cases hid : r.id = id
    · rw [if_pos hid, if_pos (by rw [hpath, hid]), Option.map_some, Option.map_some, htext]
    · have hne : ObjectPath.ofRecord root id ≠ w.path := fun heq =>
        hid (ObjectPath.ofRecord_inj.mp (heq.trans hpath)).symm
      rw [if_neg hid, if_neg hne]
      exact ih fun w' hw' => h w' (List.mem_append_left _ hw')

/-! ## Full reads -/

namespace ObjectStore

variable {b : Bucket}

/-- A bucket whose objects hold records at their own paths mirrors the table of these records. -/
theorem exists_mirrors (hd : b.Distinct) (h : ∀ o ∈ b.objects, o.HoldsRecord root) :
    ∃ t, Mirrors root t b := by
  let t : Table := ⟨b.objects.filterMap fun o => Record.parse? o.text⟩
  have hrow {o : StoredObject} (ho : o ∈ b.objects) {r : Record}
      (hr : Record.parse? o.text = some r) : o.path = ObjectPath.ofRecord root r.id := by
    obtain ⟨r', hcivil, hpath, htext⟩ := h o ho
    rw [htext, Record.parse_print hcivil] at hr
    exact Option.some.inj hr ▸ hpath
  have hdistinct : t.Distinct := by
    have hpaths : b.objects.Pairwise fun o o' => o.path ≠ o'.path := List.pairwise_map.mp hd
    refine List.pairwise_map.mpr (List.pairwise_filterMap.mpr (hpaths.imp_of_mem ?_))
    intro o o' ho ho' hne r hr r' hr' hid
    exact hne (by rw [hrow ho hr, hrow ho' hr', hid])
  refine ⟨t, hdistinct, fun r hr => ?_, hd, fun id => ?_, fun o ho => ?_⟩
  · obtain ⟨o, -, hparse⟩ := List.mem_filterMap.mp hr
    exact Record.civil_of_parse hparse
  · cases hfind : b.find? (ObjectPath.ofRecord root id) with
    | none =>
      have hnone : t.find? id = none := by
        refine Table.find?_none.mpr fun r hr hid => ?_
        obtain ⟨o, ho, hparse⟩ := List.mem_filterMap.mp hr
        have hthere := (Bucket.find?_iff hd).mpr ⟨ho, hid ▸ hrow ho hparse⟩
        rw [hfind] at hthere
        cases hthere
      rw [hnone]
      rfl
    | some o =>
      obtain ⟨ho, hpath⟩ := Bucket.find?_some hfind
      obtain ⟨r, hcivil, hrecord, htext⟩ := h o ho
      have hparse : Record.parse? o.text = some r := by rw [htext, Record.parse_print hcivil]
      obtain rfl : r.id = id := ObjectPath.ofRecord_inj.mp (hrecord.symm.trans hpath)
      have hthere : t.find? r.id = some r :=
        (Table.find?_iff hdistinct).mpr ⟨List.mem_filterMap.mpr ⟨o, ho, hparse⟩, rfl⟩
      rw [hthere]
      exact congrArg some htext
  · obtain ⟨r, -, hpath, -⟩ := h o ho
    exact ⟨r.id, hpath⟩

/-- **A full read of a source and kind is exact**: it gives the records of this source and kind that
were written last, each once, the oldest first, and with the tags of their objects. -/
structure Exact (root : ObjectPath) (s : Traffic) (source kind : String)
    (vs : List Versioned) : Prop where
  nodup : (vs.map (·.record)).Nodup
  oldest_first : (vs.map (·.record)).Pairwise fun x y => x.createdAt ≤ y.createdAt
  mem_iff : ∀ r, r ∈ vs.map (·.record) ↔
    r.source = source ∧ r.kind = kind ∧ s.stored? r.id = some r
  tagged : ∀ v ∈ vs, s.bucket.find? (ObjectPath.ofRecord root v.record.id) = some (v.object root)

/-- In any traffic the bucket mirrors a table of the records that were written last. -/
theorem exists_mirrors_of_sound (h : s.Sound root) :
    ∃ t, Mirrors root t s.bucket ∧ ∀ id, t.find? id = s.stored? id := by
  have hd : s.bucket.Distinct := h.bucket_eq ▸ distinct_replay s.puts
  obtain ⟨t, ht⟩ := exists_mirrors hd fun o ho =>
    (h.logged ((Bucket.find?_iff hd).mpr ⟨ho, rfl⟩)).2
  refine ⟨t, ht, fun id => ?_⟩
  have hsame := ht.same id
  rw [h.bucket_eq, find?_replay (fun _ hw => h.told hw)] at hsame
  -- Both records have one text, and the table's is what this text shows.
  have hread := congrArg (Option.bind · Record.parse?) hsame
  simp only [Option.bind_map, Function.comp_def, Record.parse_print_eq] at hread
  rw [Traffic.stored?, Option.map_eq_bind, Function.comp_def, hread]
  cases hr : t.find? id with
  | none => rfl
  | some r => exact congrArg some (Record.reread_of_civil (ht.civil_of_find hr)).symm

/-- A full read of a bucket that mirrors the records written last is exact. -/
theorem exact_allOf {t : Table} (h : Mirrors root t s.bucket)
    (hstored : ∀ id, t.find? id = s.stored? id) (source kind : String) :
    Exact root s source kind (allOf root s.bucket source kind) where
  nodup := by
    have hrows : t.rows.Nodup := List.Nodup.of_map _ h.rows_distinct
    exact (h.allOf_perm source kind).nodup_iff.mpr (hrows.filter _)
  oldest_first := pairwise_allOf source kind
  mem_iff r := by
    rw [(h.allOf_perm source kind).mem_iff, Table.mem_ofKind, ← hstored,
      Table.find?_iff h.rows_distinct]
    simp only [and_true]
    exact ⟨fun ⟨hr, hof⟩ => ⟨hof.1, hof.2, hr⟩, fun ⟨hsource, hkind, hr⟩ => ⟨hr, hsource, hkind⟩⟩
  tagged v hv := by
    have hfound := (List.mem_filter.mp (List.mem_mergeSort.mp hv)).1
    obtain ⟨path, -, hread⟩ := List.mem_filterMap.mp hfound
    obtain ⟨-, rfl, hobject⟩ := h.versioned_some hread
    exact hobject

/-- **Paths are injective and listings are exact**, below the root of any text.  Two records whose
paths have one text are of one identity, whatever the texts of which it is made.  And at any moment
of any traffic, whatever has been created, updated and claimed in whatever interleaving, a full read
of any source and kind succeeds, changes nothing, and is exact. -/
theorem listings_exact (rootText : String) :
    (∀ a b : RecordId, (ObjectPath.ofRecord (.ofText rootText) a).text =
        (ObjectPath.ofRecord (.ofText rootText) b).text ↔ a = b) ∧
      ∀ s : Traffic, Traffic.Reachable (.ofText rootText) s →
        ∀ (source kind : String) (now : Instant), ∃ vs,
          Program.run (Bucket.handler now) (readAll (.ofText rootText) source kind).run s.bucket =
              (.ok vs, s.bucket) ∧
            Exact (.ofText rootText) s source kind vs := by
  refine ⟨fun a b => ⟨ObjectPath.text_ofRecord_inj, fun h => h ▸ rfl⟩, ?_⟩
  intro s hs source kind now
  obtain ⟨t, ht, hstored⟩ := exists_mirrors_of_sound (Traffic.sound hs)
  exact ⟨_, run_readAll ht.readable _ source kind, exact_allOf ht hstored source kind⟩

/-- Below the empty root the source `a` without a kind is kept below the kind `a` without a source:
a listing of the latter shows the former's record too, which a full read leaves out. -/
theorem listings_exact_foreign : ∃ (s : Traffic) (vs : List Versioned),
    Traffic.Reachable .root s ∧
      Program.run (Bucket.handler .epoch) (readAll .root "" "a").run s.bucket = (.ok vs, s.bucket) ∧
      .ofRecord .root ⟨"a", "", "x"⟩ ∈ s.bucket.listing (.ofKind .root "" "a") ∧
      (Record.unassigned ⟨"", "a", "x"⟩ none .epoch).firstVersion ∈ vs.map (·.record) ∧
      ∀ r ∈ vs.map (·.record), r.id ≠ ⟨"a", "", "x"⟩ := by
  have hroot : ObjectPath.ofText "" = .root := by
    rw [ObjectPath.ofText, String.splitOn, String.splitOnAux]
    decide
  let first : Request := .create (.unassigned ⟨"", "a", "x"⟩ none .epoch)
  let second : Request := .create (.unassigned ⟨"a", "", "x"⟩ none .epoch)
  have hfirst : Traffic.Reachable .root _ := .step .initial (.start .initial first)
  have hanswer : Traffic.Reachable .root _ := .step hfirst (.answer _ 0 first none _ _ rfl)
  have hsecond : Traffic.Reachable .root _ := .step hanswer (.start _ second)
  have hboth : Traffic.Reachable .root _ := .step hsecond (.answer _ 1 second none _ _ rfl)
  obtain ⟨vs, hrun, hexact⟩ := (listings_exact "").2 _ (hroot ▸ hboth) "" "a" .epoch
  rw [hroot] at hrun hexact
  refine ⟨_, vs, hboth, hrun, Bucket.mem_listing.mpr ⟨?_, ?_⟩, ?_, ?_⟩
  · decide +kernel
  · decide +kernel
  · exact (hexact.mem_iff _).mpr ⟨rfl, rfl, by decide +kernel⟩
  · intro r hr hid
    have hsource := ((hexact.mem_iff r).mp hr).1
    rw [show r.source = "a" from congrArg RecordId.source hid] at hsource
    exact absurd hsource (by decide)

end ObjectStore

end LeasedWork
