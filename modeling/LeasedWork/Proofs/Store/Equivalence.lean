import LeasedWork.Proofs.Record.Candidates
import LeasedWork.Proofs.Record.RoundTrip
import LeasedWork.Proofs.Store.Objects
import LeasedWork.Proofs.Store.Paths
import LeasedWork.Proofs.Store.Requests

/-! # The two stores give the same answers

A table of records and a store of objects are the same to their users, as long as requests come one
at a time.  A bucket *mirrors* a table when it holds, at the path of every identity, the text of
the table's record of that identity, and nothing else (`ObjectStore.Mirrors`).  From a mirroring
pair every request gets answers that agree, and leaves a mirroring pair
(`ObjectStore.serve_mirrors`); hence so does every run of requests from two empty stores
(`ObjectStore.serve_agree`).

A table keeps any time, and a text shows a time of the civil calendar only.  What a bucket mirrors
after a call are the records as their texts show them, which are the table's own as long as no call
brings another time into the stores (`Call.Civil`): a record that was created in a leap second in
the middle of a minute is shown by one of them as it was, and by the other a second later.

The relation rests on what is known about the parts: no two records share a path, a listing shows
the paths of its source and kind, a record's text holds the record, and the order of claims does
not depend on the order of the listing.
-/
namespace LeasedWork

/-- A request and the time at which it is made. -/
structure Call where
  now : Instant
  request : Request

namespace Request

/-- The times in the record that a request brings. -/
def times : Request → List Instant
  | .create r | .update r => r.times
  | .prepare | .get _ | .claim _ _ _ _ | .byStatus _ _ _ _ | .all _ _ => []

/-- Two lists of the same records that differ at most in the order of equally old ones. -/
def SameByAge (rs rs' : List Record) : Prop :=
  rs.Perm rs' ∧ rs.map Record.createdAt = rs'.map Record.createdAt

/-- Two answers to a request agree: they are the same failure or the same reply.  Only a list of
records may show equally old ones in another order. -/
def Agree : (request : Request) → request.Answer → request.Answer → Prop
  | .byStatus _ _ _ _, x, y => ∃ rs rs', x = .ok rs ∧ y = .ok rs' ∧ SameByAge rs rs'
  | .all _ _, x, y => ∃ rs rs', x = .ok rs ∧ y = .ok rs' ∧ SameByAge rs rs'
  | .prepare, x, y => x = y
  | .get _, x, y => x = y
  | .create _, x, y => x = y
  | .update _, x, y => x = y
  | .claim _ _ _ _, x, y => x = y

theorem sameByAge_of_pairwise {rs rs' : List Record} (h : rs.Perm rs')
    (hrs : rs.Pairwise fun a b => a.createdAt ≤ b.createdAt)
    (hrs' : rs'.Pairwise fun a b => a.createdAt ≤ b.createdAt) : SameByAge rs rs' := by
  refine ⟨h, List.Perm.eq_of_pairwise (fun _ _ _ _ => Instant.le_antisymm) ?_ ?_ (h.map _)⟩
  · exact List.pairwise_map.mpr hrs
  · exact List.pairwise_map.mpr hrs'

end Request

namespace Call

/-- The times that a call brings into a store. -/
def times (call : Call) : List Instant := call.now :: call.request.times

/-- The time of the call and those in the record that it brings are of the civil calendar. -/
def Civil (call : Call) : Prop := ∀ t ∈ call.times, t.Civil

instance (call : Call) : Decidable call.Civil :=
  inferInstanceAs (Decidable (∀ t ∈ call.times, t.Civil))

end Call

/-! ## Times in records -/

namespace Record

theorem id_reread (r : Record) : r.reread.id = r.id := rfl

/-- A claim brings in one time, that of its deadline. -/
theorem mem_times_claimed {owner : String} {now time : Instant} {lease : Span} {r : Record}
    (h : time ∈ (r.claimed owner now lease).times) : time ∈ r.times ∨ time = now.after lease := by
  simp only [times, claimed, assign, nextVersion, List.mem_cons, List.mem_append,
    Option.mem_toList, reduceCtorEq, Option.some.injEq] at h ⊢
  rcases h with h | (h | h) | h
  · exact .inl (.inl h)
  · exact .inr h.symm
  · exact h.elim
  · exact .inl (.inr (.inr h))

theorem Civil.claimed {r : Record} (h : r.Civil) (owner : String) {now : Instant}
    (hnow : now.Civil) (lease : Span) : (r.claimed owner now lease).Civil := by
  intro time htime
  rcases mem_times_claimed htime with hold | rfl
  · exact h time hold
  · exact hnow.after lease

end Record

namespace Table

/-- A table after one more call. -/
def afterCall (t : Table) (call : Call) : Table := (t.answer call.now call.request).2

/-- A call with times of the civil calendar brings in no other ones. -/
theorem civil_afterCall {t : Table} (ht : ∀ r ∈ t.rows, r.Civil) {call : Call}
    (hcall : call.Civil) : ∀ r ∈ (t.afterCall call).rows, r.Civil := by
  obtain ⟨now, request⟩ := call
  obtain ⟨hnow, hrequest⟩ := List.forall_mem_cons.mp hcall
  have hwritten := t.written_answer now request
  rw [afterCall]
  generalize (t.answer now request).2 = u at hwritten ⊢
  intro x hx
  cases hwritten with
  | none => exact ht x hx
  | created r hfree =>
    rcases mem_insert hx with rfl | hx
    · exact hrequest
    · exact ht x hx
  | updated r stored hstored hversion =>
    rcases mem_replace hx with rfl | hx
    · exact hrequest
    · exact ht x hx
  | claimed r owner lease hr havailable =>
    rcases mem_replace hx with rfl | hx
    · exact (ht r hr).claimed owner hnow lease
    · exact ht x hx

end Table

namespace ObjectStore

/-- A request that is answered out of a bucket while nothing else happens to it. -/
def serve (root : ObjectPath) (call : Call) (b : Bucket) : call.request.Answer × Bucket :=
  Program.run (Bucket.handler call.now) (job root call.request).run b

/-- A bucket after one more call to the store in it. -/
def afterCall (root : ObjectPath) (b : Bucket) (call : Call) : Bucket := (serve root call b).2

/-- A bucket holds the texts of a table's records at their paths, and nothing else. -/
structure Mirrors (root : ObjectPath) (t : Table) (b : Bucket) : Prop where
  rows_distinct : t.Distinct
  /-- The records are those that their texts show. -/
  rows_civil : ∀ r ∈ t.rows, r.Civil
  objects_distinct : b.Distinct
  same (id : RecordId) :
    (b.find? (ObjectPath.ofRecord root id)).map (·.text) = (t.find? id).map Record.print
  known : ∀ o ∈ b.objects, ∃ id, o.path = ObjectPath.ofRecord root id

variable {root : ObjectPath} {t : Table} {b : Bucket}

theorem mirrors_empty (root : ObjectPath) : Mirrors root Table.empty Bucket.empty :=
  ⟨Table.distinct_empty, fun _ h => absurd h List.not_mem_nil, Bucket.distinct_empty, fun _ => rfl,
    fun _ h => absurd h List.not_mem_nil⟩

namespace Mirrors

/-- The mirrored records are as their texts show them. -/
theorem map_reread (h : Mirrors root t b) : t.map Record.reread = t :=
  Table.map_eq_self fun r hr => Record.reread_of_civil (h.rows_civil r hr)

/-- A record that both sides take up under its identity. -/
theorem put (h : Mirrors root t b) {t' : Table} {r : Record} (hd : t'.Distinct)
    (hfind : ∀ id, t'.find? id = if id = r.id then some r else t.find? id) :
    Mirrors root (t'.map Record.reread) (b.put (ObjectPath.ofRecord root r.id) r.print) := by
  refine ⟨(Table.distinct_map Record.id_reread t').mpr hd, fun x hx => ?_,
    Bucket.distinct_put h.objects_distinct _ _, fun id => ?_, ?_⟩
  · obtain ⟨y, -, rfl⟩ := List.mem_map.mp hx
    exact y.civil_reread
  · have hprint : (t'.find? id).map (Record.print ∘ Record.reread) =
        (t'.find? id).map Record.print := Option.map_congr fun r _ => r.print_reread
    rw [Table.find?_map Record.id_reread, Option.map_map, hprint, Bucket.find?_put, hfind]
    by_cases hid : id = r.id
    · rw [if_pos (congrArg _ hid), if_pos hid]
      rfl
    · rw [if_neg (fun hpath => hid (ObjectPath.ofRecord_inj.mp hpath)), if_neg hid]
      exact h.same id
  · intro o ho
    rcases List.mem_append.mp ho with ho | ho
    · exact h.known o (List.mem_filter.mp ho).1
    · rw [List.mem_singleton.mp ho]
      exact ⟨r.id, rfl⟩

/-- A record that takes the place of a stored one. -/
theorem replace (h : Mirrors root t b) {r stored : Record} (hs : t.find? r.id = some stored) :
    Mirrors root ((t.replace r).map Record.reread)
      (b.put (ObjectPath.ofRecord root r.id) r.print) :=
  h.put (Table.distinct_replace h.rows_distinct r) (Table.find?_replace_of_stored hs)

theorem civil_of_find (h : Mirrors root t b) {id : RecordId} {r : Record}
    (hr : t.find? id = some r) : r.Civil := h.rows_civil r (Table.find?_some hr).1

/-- Every object is at the path of the record that it holds, which the table has too. -/
theorem holds (h : Mirrors root t b) {o : StoredObject} (ho : o ∈ b.objects) :
    ∃ r, t.find? r.id = some r ∧ o.path = ObjectPath.ofRecord root r.id ∧
      Record.parse? o.text = some r ∧ o.text = r.print := by
  obtain ⟨id, hpath⟩ := h.known o ho
  have hsame := h.same id
  rw [(Bucket.find?_iff h.objects_distinct).mpr ⟨ho, hpath⟩, Option.map_some] at hsame
  obtain ⟨r, hr, htext⟩ := Option.map_eq_some_iff.mp hsame.symm
  obtain rfl := (Table.find?_some hr).2
  exact ⟨r, hr, hpath, htext ▸ Record.parse_print (h.civil_of_find hr), htext.symm⟩

theorem readable (h : Mirrors root t b) : b.Readable := by
  intro o ho
  obtain ⟨r, -, -, hparse, -⟩ := h.holds ho
  exact ⟨r, hparse⟩

/-- What is read at a path is a record of the table, at its own path and with its object's tag. -/
theorem versioned_some (h : Mirrors root t b) {path : ObjectPath} {v : Versioned}
    (hv : b.versioned? path = some v) :
    t.find? v.record.id = some v.record ∧ path = ObjectPath.ofRecord root v.record.id ∧
      b.find? path = some ⟨path, v.record.print, v.tag⟩ := by
  obtain ⟨o, ho, hread⟩ := Option.bind_eq_some_iff.mp hv
  obtain ⟨hmem, rfl⟩ := Bucket.find?_some ho
  obtain ⟨r, hr, hpath, hparse, htext⟩ := h.holds hmem
  rw [hparse, Option.map_some, Option.some.injEq] at hread
  subst v
  refine ⟨hr, hpath, ho.trans (congrArg some ?_)⟩
  rw [← htext]

/-- The record of an identity is read as the table has it. -/
theorem versioned_ofRecord (h : Mirrors root t b) (id : RecordId) :
    (b.versioned? (ObjectPath.ofRecord root id)).map (·.record) = t.find? id := by
  have hsame := h.same id
  cases hr : t.find? id with
  | none =>
    rw [hr, Option.map_none, Option.map_eq_none_iff] at hsame
    rw [Bucket.versioned?, hsame]
    rfl
  | some r =>
    rw [hr, Option.map_some, Option.map_eq_some_iff] at hsame
    obtain ⟨o, ho, htext⟩ := hsame
    rw [Bucket.versioned?, ho, Option.bind_some, htext, Record.parse_print (h.civil_of_find hr)]
    rfl

theorem nodup_found (h : Mirrors root t b) (source kind : String) {paths : List ObjectPath}
    (hp : paths.Nodup) : ((found b source kind paths).map (·.record)).Nodup := by
  have hread : ∀ p p' v, v ∈ b.versioned? p → v ∈ b.versioned? p' → p = p' := by
    intro p p' v hv hv'
    rw [(h.versioned_some hv).2.1, (h.versioned_some hv').2.1]
  refine List.Nodup.map_on ?_ ((hp.filterMap hread).filter _)
  intro v hv w hw heq
  obtain ⟨p, -, hv⟩ := List.mem_filterMap.mp (List.mem_filter.mp hv).1
  obtain ⟨q, -, hw⟩ := List.mem_filterMap.mp (List.mem_filter.mp hw).1
  have hpq : p = q := by rw [(h.versioned_some hv).2.1, (h.versioned_some hw).2.1, heq]
  exact Option.some.inj (hv.symm.trans (hpq ▸ hw))

/-- **A full read gives the table's records of the source and kind.** -/
theorem allOf_perm (h : Mirrors root t b) (source kind : String) :
    ((allOf root b source kind).map (·.record)).Perm (t.ofKind source kind) := by
  refine ((List.mergeSort_perm _ _).map _).trans ?_
  have hnodup := h.nodup_found source kind
    (Bucket.nodup_listing h.objects_distinct (ObjectPath.ofKind root source kind))
  have hrows : t.rows.Nodup := List.Nodup.of_map _ h.rows_distinct
  -- Neither list has duplicates, so that it is enough to compare their members.
  refine (List.perm_ext_iff_of_nodup hnodup (hrows.filter _)).mpr fun r => ?_
  rw [← Table.ofKind, Table.mem_ofKind]
  constructor
  · intro hr
    obtain ⟨v, hv, rfl⟩ := List.mem_map.mp hr
    obtain ⟨hv, hof⟩ := List.mem_filter.mp hv
    obtain ⟨p, -, hread⟩ := List.mem_filterMap.mp hv
    exact ⟨(Table.find?_some (h.versioned_some hread).1).1, of_decide_eq_true hof⟩
  · rintro ⟨hr, rfl, rfl⟩
    have hfind : t.find? r.id = some r := (Table.find?_iff h.rows_distinct).mpr ⟨hr, rfl⟩
    have hread := h.versioned_ofRecord r.id
    rw [hfind] at hread
    obtain ⟨v, hv, rfl⟩ := Option.map_eq_some_iff.mp hread
    have hlisted : ObjectPath.ofRecord root v.record.id ∈
        b.listing (ObjectPath.ofKind root v.record.source v.record.kind) :=
      Bucket.mem_listing.mpr ⟨by rw [(h.versioned_some hv).2.2]; rfl,
        ObjectPath.isAbove_ofRecord root v.record.id⟩
    refine List.mem_map_of_mem (List.mem_filter.mpr ⟨?_, decide_eq_true ⟨rfl, rfl⟩⟩)
    exact List.mem_filterMap.mpr ⟨_, hlisted, hv⟩

/-- No two records of a full read share a key, since they share the source and the kind. -/
theorem key_inj (h : Mirrors root t b) {source kind : String} {r r' : Record}
    (hr : r ∈ t.ofKind source kind) (hr' : r' ∈ t.ofKind source kind) (hkey : r.key = r'.key) :
    r = r' := by
  obtain ⟨hmem, hsource, hkind⟩ := Table.mem_ofKind.mp hr
  obtain ⟨hmem', hsource', hkind'⟩ := Table.mem_ofKind.mp hr'
  refine List.inj_on_of_nodup_map h.rows_distinct hmem hmem' ?_
  rw [Record.id, Record.id, hsource, hsource', hkind, hkind', hkey]

theorem candidates_allOf (h : Mirrors root t b) (now : Instant) (source kind : String) :
    candidates now ((allOf root b source kind).map (·.record)) =
      candidates now (t.ofKind source kind) :=
  (candidates_eq_of_perm (h.allOf_perm source kind).symm fun _ hr _ hr' => h.key_inj hr hr').symm

/-- The tag of a record in a full read is that of its object. -/
theorem find_allOf (h : Mirrors root t b) {source kind : String} {r : Record}
    (hr : r ∈ t.ofKind source kind) :
    ∃ v, ((allOf root b source kind).find? fun v => v.record.key == r.key) = some v ∧
      b.find? (ObjectPath.ofRecord root r.id) =
        some ⟨ObjectPath.ofRecord root r.id, r.print, v.tag⟩ := by
  cases hfind : (allOf root b source kind).find? fun v => v.record.key == r.key with
  | none =>
    obtain ⟨v, hv, rfl⟩ := List.mem_map.mp ((h.allOf_perm source kind).mem_iff.mpr hr)
    exact absurd (beq_self_eq_true _) (List.find?_eq_none.mp hfind v hv)
  | some v =>
    have hkey : v.record.key = r.key := by simpa using List.find?_some hfind
    have hv := List.mem_of_find?_eq_some hfind
    have hof := (h.allOf_perm source kind).mem_iff.mp (List.mem_map_of_mem hv)
    obtain rfl := h.key_inj hof hr hkey
    have hread := (List.mem_filter.mp (List.mem_mergeSort.mp hv)).1
    obtain ⟨p, -, hread⟩ := List.mem_filterMap.mp hread
    obtain ⟨-, rfl, hobject⟩ := h.versioned_some hread
    exact ⟨v, rfl, hobject⟩

end Mirrors

/-- The first candidate is claimed when its object has the tag that was read. -/
theorem run_claimFirst_cons {now : Instant} {owner : String} {lease : Span} {all : List Versioned}
    {r : Record} {v : Versioned} {o : StoredObject} (rest : List Record)
    (hv : (all.find? fun v => v.record.key == r.key) = some v)
    (ho : b.find? (ObjectPath.ofRecord root r.id) = some o) (htag : o.tag = v.tag) :
    Program.run (Bucket.handler now) (claimFirst root owner now lease all (r :: rest)).run b =
      (.ok (some (r.claimed owner now lease)),
        b.put (ObjectPath.ofRecord root r.id) (r.claimed owner now lease).print) := by
  have hobject : b.find? (ObjectPath.ofRecord root (r.claimed owner now lease).id) = some o := ho
  rw [claimFirst, hv]
  dsimp only
  rw [Program.run_exceptT_bind, run_replaceIfUnchanged hobject htag]
  rfl

/-! ## One call -/

theorem serve_get (h : Mirrors root t b) (now : Instant) (id : RecordId) :
    serve root ⟨now, .get id⟩ b = (.ok (t.find? id), b) := by
  rw [serve, job, Program.run_exceptT_bind, run_readAt h.readable]
  exact Prod.ext (congrArg Except.ok (h.versioned_ofRecord id)) rfl

theorem serve_create (h : Mirrors root t b) (now : Instant) (r : Record) :
    (serve root ⟨now, .create r⟩ b).1 = (t.answer now (.create r)).1 ∧
      Mirrors root ((t.answer now (.create r)).2.map Record.reread)
        (serve root ⟨now, .create r⟩ b).2 := by
  have hsame := h.same r.id
  rw [serve, job, run_ask]
  simp only [Bucket.answer, Table.answer]
  cases hr : t.find? r.id with
  | some stored =>
    rw [hr, Option.map_some, Option.map_eq_some_iff] at hsame
    obtain ⟨o, ho, -⟩ := hsame
    rw [ho]
    exact ⟨rfl, h.map_reread.symm ▸ h⟩
  | none =>
    rw [hr, Option.map_none, Option.map_eq_none_iff] at hsame
    have hfirst : t.find? r.firstVersion.id = none := hr
    rw [hsame]
    have hmirrors := h.put (r := r.firstVersion) (Table.distinct_insert h.rows_distinct hfirst)
      (Table.find?_insert hfirst)
    exact ⟨rfl, hmirrors⟩

theorem serve_update (h : Mirrors root t b) (now : Instant) (r : Record) :
    (serve root ⟨now, .update r⟩ b).1 = (t.answer now (.update r)).1 ∧
      Mirrors root ((t.answer now (.update r)).2.map Record.reread)
        (serve root ⟨now, .update r⟩ b).2 := by
  have hread := h.versioned_ofRecord r.id
  rw [serve, job, Program.run_exceptT_bind, run_readAt h.readable]
  simp only [Table.answer]
  cases hr : t.find? r.id with
  | none =>
    rw [hr, Option.map_eq_none_iff] at hread
    rw [hread]
    exact ⟨rfl, h.map_reread.symm ▸ h⟩
  | some stored =>
    rw [hr, Option.map_eq_some_iff] at hread
    obtain ⟨v, hv, rfl⟩ := hread
    rw [hv]
    dsimp only
    by_cases hversion : v.record.version = r.version
    · have hobject : b.find? (ObjectPath.ofRecord root r.nextVersion.id) = some _ :=
        (h.versioned_some hv).2.2
      have hstored : t.find? r.nextVersion.id = some v.record := hr
      rw [if_neg (not_not_intro hversion), if_pos hversion, Program.run_exceptT_bind,
        run_replaceIfUnchanged hobject rfl]
      have hmirrors := h.replace (r := r.nextVersion) hstored
      exact ⟨rfl, hmirrors⟩
    · rw [if_pos hversion, if_neg hversion]
      exact ⟨rfl, h.map_reread.symm ▸ h⟩

theorem serve_claim (h : Mirrors root t b) (now : Instant) (source kind owner : String)
    (lease : Span) :
    (serve root ⟨now, .claim source kind owner lease⟩ b).1 =
        (t.answer now (.claim source kind owner lease)).1 ∧
      Mirrors root ((t.answer now (.claim source kind owner lease)).2.map Record.reread)
        (serve root ⟨now, .claim source kind owner lease⟩ b).2 := by
  rw [serve, job, Program.run_exceptT_bind, run_readAll h.readable]
  dsimp only
  rw [run_now, h.candidates_allOf]
  simp only [Table.answer]
  cases hc : candidates now (t.ofKind source kind) with
  | nil => exact ⟨rfl, h.map_reread.symm ▸ h⟩
  | cons r rest =>
    have hr : r ∈ t.ofKind source kind := (mem_candidates.mp (hc ▸ List.mem_cons_self)).1
    have hmem := (Table.mem_ofKind.mp hr).1
    -- Nobody else writes, so the first candidate's object still has the tag that was read.
    obtain ⟨v, hv, hobject⟩ := h.find_allOf hr
    have hstored : t.find? (r.claimed owner now lease).id = some r :=
      (Table.find?_iff h.rows_distinct).mpr ⟨hmem, rfl⟩
    rw [run_claimFirst_cons rest hv hobject rfl]
    have hmirrors := h.replace (r := r.claimed owner now lease) hstored
    exact ⟨rfl, hmirrors⟩

/-- A full read lists the older records first. -/
theorem pairwise_allOf (source kind : String) : ((allOf root b source kind).map (·.record)).Pairwise
    fun x y => x.createdAt ≤ y.createdAt := by
  have hsorted : (allOf root b source kind).Pairwise fun x y =>
      decide (x.record.createdAt ≤ y.record.createdAt) = true := by
    refine List.pairwise_mergeSort (fun x y z hxy hyz => ?_) (fun x y => ?_) _
    · exact decide_eq_true (Instant.le_trans (of_decide_eq_true hxy) (of_decide_eq_true hyz))
    · rw [Bool.or_eq_true, decide_eq_true_eq, decide_eq_true_eq]
      by_cases hle : x.record.createdAt ≤ y.record.createdAt
      · exact .inl hle
      · exact .inr (Instant.le_of_lt (Instant.not_le.mp hle))
  exact List.pairwise_map.mpr (hsorted.imp of_decide_eq_true)

/-- A selection of a source and kind is the same on both sides, up to the order of equally old
records. -/
theorem sameByAge_allOf (h : Mirrors root t b) (source kind : String) (select : Record → Bool) :
    Request.SameByAge (Record.sorted ((t.ofKind source kind).filter select))
      (((allOf root b source kind).map (·.record)).filter select) := by
  refine Request.sameByAge_of_pairwise ?_ (Record.pairwise_sorted _)
    ((pairwise_allOf source kind).filter _)
  exact (Record.sorted_perm _).trans ((h.allOf_perm source kind).symm.filter _)

/-- **One call.**  From a mirroring pair the two stores give answers that agree, and the bucket then
mirrors the table's records as their texts show them. -/
theorem serve_mirrors (h : Mirrors root t b) (call : Call) :
    call.request.Agree (t.answer call.now call.request).1 (serve root call b).1 ∧
      Mirrors root ((t.afterCall call).map Record.reread) (afterCall root b call) := by
  obtain ⟨now, request⟩ := call
  have hsame : Mirrors root (t.map Record.reread) b := h.map_reread.symm ▸ h
  cases request with
  | prepare => exact ⟨rfl, hsame⟩
  | get id =>
    rw [afterCall, serve_get h]
    exact ⟨rfl, hsame⟩
  | create r =>
    obtain ⟨hanswer, hmirrors⟩ := serve_create h now r
    exact ⟨hanswer.symm, hmirrors⟩
  | update r =>
    obtain ⟨hanswer, hmirrors⟩ := serve_update h now r
    exact ⟨hanswer.symm, hmirrors⟩
  | claim source kind owner lease =>
    obtain ⟨hanswer, hmirrors⟩ := serve_claim h now source kind owner lease
    exact ⟨hanswer.symm, hmirrors⟩
  | byStatus source kind status since =>
    rw [afterCall, serve, job, Program.run_exceptT_bind, run_readAll h.readable]
    exact ⟨⟨_, _, rfl, rfl, sameByAge_allOf h source kind _⟩, hsame⟩
  | all source kind =>
    rw [afterCall, serve, job, Program.run_exceptT_bind, run_readAll h.readable]
    have hall := sameByAge_allOf h source kind fun _ => true
    rw [List.filter_true, List.filter_true] at hall
    exact ⟨⟨_, _, rfl, rfl, hall⟩, hsame⟩

/-! ## Every run -/

/-- Calls with times of the civil calendar leave a mirroring pair what it is. -/
theorem run_mirrors (h : Mirrors root t b) {calls : List Call}
    (hcivil : ∀ call ∈ calls, call.Civil) :
    Mirrors root (calls.foldl Table.afterCall t) (calls.foldl (afterCall root) b) := by
  induction calls generalizing t b with
  | nil => exact h
  | cons call rest ih =>
    obtain ⟨hcall, hrest⟩ := List.forall_mem_cons.mp hcivil
    have hafter := (serve_mirrors h call).2
    rw [Table.map_eq_self fun r hr => Record.reread_of_civil
      (Table.civil_afterCall h.rows_civil hcall r hr)] at hafter
    exact ih hafter hrest

/-- **The two stores agree.**  After any calls, one at a time and at any times, from two empty
stores, every further call gets answers that agree: the same replies and the same failures, and so
the same record in the hands of whoever updates one.  This holds below every root of the bucket, as
long as the times of the calls and of the records that they bring are of the civil calendar; the
last call may bring any. -/
theorem serve_agree (root : ObjectPath) (calls : List Call) (hcivil : ∀ call ∈ calls, call.Civil)
    (call : Call) : call.request.Agree
      ((calls.foldl Table.afterCall Table.empty).answer call.now call.request).1
      (serve root call (calls.foldl (afterCall root) Bucket.empty)).1 :=
  (serve_mirrors (run_mirrors (mirrors_empty root) hcivil) call).1

/-- Work that was created in the leap second at the end of 2008. -/
def newYear : Record :=
  .unassigned ⟨"", "a/b", "|"⟩ none ⟨1230767999, 1250000000, by decide, by decide, by decide⟩

/-- Both stores show when the work was created, to the leap second. -/
theorem serve_agree_newYear :
    let calls : List Call := [⟨.epoch, .create newYear⟩,
      ⟨.epoch, .claim "" "a/b" "node-a" (.seconds 60)⟩]
    (∀ call ∈ calls, call.Civil) ∧
      (serve .root ⟨.epoch, .get newYear.id⟩ (calls.foldl (afterCall .root) Bucket.empty)).1 =
        .ok (some (newYear.firstVersion.claimed "node-a" .epoch (.seconds 60))) := by
  intro calls
  have hcivil : ∀ call ∈ calls, call.Civil := by decide
  have hagree := serve_agree .root calls hcivil ⟨.epoch, .get newYear.id⟩
  exact ⟨hcivil, hagree.symm.trans (by decide +kernel)⟩

/-- **Where they part.**  Of a record that has just been created, the stores show the same just when
its times are of the civil calendar. -/
theorem agree_created_iff (root : ObjectPath) (now : Instant) (r : Record) :
    (Request.get r.id).Agree
        ((Table.empty.afterCall ⟨now, .create r⟩).answer now (.get r.id)).1
        (serve root ⟨now, .get r.id⟩ (afterCall root Bucket.empty ⟨now, .create r⟩)).1 ↔
      r.Civil := by
  let path := ObjectPath.ofRecord root r.id
  let b := Bucket.empty.put path r.firstVersion.print
  have hfind : b.find? path = some ⟨path, r.firstVersion.print, 0⟩ :=
    (Bucket.find?_put _ _ _ _).trans (if_pos rfl)
  have hreadable : b.Readable := by
    intro o ho
    obtain rfl := List.mem_singleton.mp ho
    exact ⟨_, r.firstVersion.parse_print_eq⟩
  have hread : b.versioned? path = some ⟨r.firstVersion.reread, 0⟩ := by
    rw [Bucket.versioned?, hfind, Option.bind_some, Record.parse_print_eq, Option.map_some]
  have hobjects : (serve root ⟨now, .get r.id⟩ b).1 = .ok (some r.firstVersion.reread) := by
    rw [serve, job, Program.run_exceptT_bind, run_readAt hreadable, hread]
    rfl
  have htable : ((Table.empty.afterCall ⟨now, .create r⟩).answer now (.get r.id)).1 =
      .ok (some r.firstVersion) := by
    have hnew := Table.find?_insert (t := Table.empty) (r := r.firstVersion) rfl r.id
    exact congrArg Except.ok (hnew.trans (if_pos rfl))
  have hafter : afterCall root Bucket.empty ⟨now, .create r⟩ = b := rfl
  rw [hafter, htable, hobjects]
  constructor
  · intro h
    exact (Record.reread_eq_iff (r := r.firstVersion)).mp (Option.some.inj (Except.ok.inj h)).symm
  · intro h
    have hcivil : r.firstVersion.Civil := h
    exact congrArg (fun x => Except.ok (some x)) (Record.reread_of_civil hcivil).symm

end ObjectStore

end LeasedWork
