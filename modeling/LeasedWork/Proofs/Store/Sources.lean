import LeasedWork.Proofs.Store.Requests
import LeasedWork.Proofs.Store.Versions

/-! # What a store keeps of a source

A request is about one source at most (`Request.source?`), and a store answers it from the records
of that source alone.  So two stores that hold the same records of a source, in the same order, give
exactly the same answers to whoever asks about it, and hold the same records of it afterwards
(`Backend.Alike.serve`), whatever else they hold; and requests about other sources leave these
records as they are (`Backend.Alike.other`).

This is plain for a table.  A store of objects lists the paths below that of a source and kind, in
their order as texts, and keeps those whose records are of this source and kind.  What is below a
path may also be of another source; but no two records have paths of one text
(`ObjectPath.text_ofRecord_inj`), so the order of a source's own records is the same whatever is
listed with them.
-/
namespace LeasedWork

namespace Request

/-- The source that a request is about. -/
def source? : Request → Option String
  | .prepare => none
  | .get id => some id.source
  | .create r => some r.source
  | .update r => some r.source
  | .claim source _ _ _ => some source
  | .byStatus source _ _ _ => some source
  | .all source _ => some source

/-- Whether a request is about no other source. -/
def Concerns (source : String) (request : Request) : Prop :=
  ∀ other, request.source? = some other → other = source

end Request

/-! ## Tables -/

namespace Table

/-- The records of a source. -/
def ofSource (source : String) (t : Table) : List Record :=
  t.rows.filter fun r => r.source == source

variable {t t' : Table} {source : String} {r : Record}

theorem ofSource_map {f : Record → Record} (hsource : ∀ r, (f r).source = r.source) (t : Table)
    (source : String) : (t.map f).ofSource source = (t.ofSource source).map f := by
  rw [ofSource, map, List.filter_map, ofSource]
  exact congrArg (List.map f) (List.filter_congr fun r _ => congrArg (· == source) (hsource r))

theorem mem_ofSource : r ∈ t.ofSource source ↔ r ∈ t.rows ∧ r.source = source := by
  simp [ofSource]

theorem ofKind_eq (source kind : String) (t : Table) :
    t.ofKind source kind = (t.ofSource source).filter (·.kind == kind) := by
  rw [ofKind, ofSource, List.filter_filter]
  exact List.filter_congr fun r _ => Bool.and_comm _ _

theorem find?_eq (id : RecordId) (t : Table) :
    t.find? id = (t.ofSource id.source).find? fun r => r.id == id := by
  rw [find?, ofSource, List.find?_filter]
  congr 1
  funext r
  by_cases hid : r.id = id
  · subst hid
    simp [Record.id]
  · simp [hid]

theorem ofSource_insert (t : Table) (r : Record) (source : String) :
    (t.insert r).ofSource source = t.ofSource source ++ if r.source = source then [r] else [] := by
  rw [ofSource, insert, List.filter_append, ofSource]
  congr 1
  by_cases h : r.source = source <;> simp [h]

theorem ofSource_replace (t : Table) (r : Record) (source : String) :
    (t.replace r).ofSource source =
      (t.ofSource source).map fun old => if old.id = r.id then r else old := by
  rw [ofSource, replace, List.filter_map, ofSource]
  congr 1
  refine List.filter_congr fun old _ => ?_
  dsimp only [Function.comp]
  split
  · rw [show old.source = r.source from congrArg RecordId.source ‹_›]
  · rfl

/-- A record of another source takes no place of this one's. -/
theorem ofSource_replace_of_ne (t : Table) (h : r.source ≠ source) :
    (t.replace r).ofSource source = t.ofSource source := by
  rw [ofSource_replace]
  conv_rhs => rw [← List.map_id (t.ofSource source)]
  refine List.map_congr_left fun old hold => if_neg fun hid => h ?_
  exact (congrArg RecordId.source hid).symm.trans (mem_ofSource.mp hold).2

/-- What is shown in answer to a request about a source is of this source. -/
theorem source_of_shown (now : Instant) {request : Request} (hrequest : request.Concerns source)
    (hr : r ∈ (Exchange.mk request (t.answer now request).1).shown) : r.source = source := by
  cases request with
  | prepare => cases hr
  | get id =>
    obtain rfl := hrequest _ rfl
    exact congrArg RecordId.source (find?_some (Option.mem_toList.mp hr)).2
  | create u =>
    simp only [answer] at hr
    split at hr <;> cases hr
  | update u =>
    obtain rfl := hrequest _ rfl
    by_cases hcurrent : ∃ s, t.find? u.id = some s ∧ s.version = u.version
    · obtain ⟨s, hs, hversion⟩ := hcurrent
      rw [answer_update_of_current now hs hversion] at hr
      obtain rfl := List.mem_singleton.mp hr
      rfl
    · rw [answer_update_of_stale now fun s hs hversion => hcurrent ⟨s, hs, hversion⟩] at hr
      cases hr
  | claim other kind owner lease =>
    obtain rfl := hrequest _ rfl
    rcases t.answer_claim now other kind owner lease with h | ⟨x, -, hsource, -, h⟩ <;> rw [h] at hr
    · cases hr
    · obtain rfl := List.mem_singleton.mp hr
      exact hsource
  | byStatus other kind status since =>
    obtain rfl := hrequest _ rfl
    have hmem := List.mem_filter.mp ((Record.sorted_perm _).mem_iff.mp hr)
    exact (mem_ofKind.mp hmem.1).2.1
  | all other kind =>
    obtain rfl := hrequest _ rfl
    exact (mem_ofKind.mp ((Record.sorted_perm _).mem_iff.mp hr)).2.1

/-- **A table answers a request about a source from the source's records.** -/
theorem answer_of_source (h : t.ofSource source = t'.ofSource source) (now : Instant)
    {request : Request} (hrequest : request.Concerns source) :
    (t.answer now request).1 = (t'.answer now request).1 ∧
      (t.answer now request).2.ofSource source = (t'.answer now request).2.ofSource source := by
  have hfind : ∀ id : RecordId, id.source = source → t.find? id = t'.find? id := by
    rintro id rfl
    rw [find?_eq, find?_eq, h]
  have hreplace : ∀ r, (t.replace r).ofSource source = (t'.replace r).ofSource source := by
    intro r
    rw [ofSource_replace, ofSource_replace, h]
  cases request with
  | prepare => exact ⟨rfl, h⟩
  | get id => exact ⟨congrArg Except.ok (hfind id (hrequest _ rfl)), h⟩
  | create r =>
    simp only [answer, hfind r.id (hrequest _ rfl)]
    split
    · exact ⟨rfl, h⟩
    · exact ⟨rfl, by rw [ofSource_insert, ofSource_insert, h]⟩
  | update r =>
    simp only [answer, hfind r.id (hrequest _ rfl)]
    split
    · split
      · exact ⟨rfl, hreplace _⟩
      · exact ⟨rfl, h⟩
    · exact ⟨rfl, h⟩
  | claim other kind owner lease =>
    obtain rfl := hrequest _ rfl
    simp only [answer, ofKind_eq, h]
    split
    · exact ⟨rfl, hreplace _⟩
    · exact ⟨rfl, h⟩
  | byStatus other kind status since =>
    obtain rfl := hrequest _ rfl
    simp only [answer, ofKind_eq, h, and_self]
  | all other kind =>
    obtain rfl := hrequest _ rfl
    simp only [answer, ofKind_eq, h, and_self]

/-- A request about another source leaves a source's records as they are. -/
theorem ofSource_answer (t : Table) (now : Instant) {request : Request}
    (hrequest : request.source? ≠ some source) :
    (t.answer now request).2.ofSource source = t.ofSource source := by
  have hwritten := t.written_answer now request
  generalize (t.answer now request).2 = u at hwritten ⊢
  cases hwritten with
  | none => rfl
  | created r _ =>
    have hother : r.firstVersion.source ≠ source := fun h => hrequest (congrArg some h)
    rw [ofSource_insert, if_neg hother, List.append_nil]
  | updated r _ _ _ => exact t.ofSource_replace_of_ne fun h => hrequest (congrArg some h)
  | claimed r owner lease _ _ => exact t.ofSource_replace_of_ne fun h => hrequest (congrArg some h)

end Table

/-! ## Paths as texts -/

namespace Percent

/-- Two hexadecimal digits after a percent sign have no slash. -/
theorem slash_notMem_escaped (b : UInt8) : '/' ∉ escaped b := by
  have hall : ∀ n < 256, '/' ∉ escaped (UInt8.ofNat n) := by decide +kernel
  have h := hall b.toNat b.toNat_lt
  rwa [UInt8.ofNat_toNat] at h

theorem slash_notMem_encodeByte (b : UInt8) : '/' ∉ encodeByte b := by
  have hall : ∀ n < 256, '/' ∉ encodeByte (UInt8.ofNat n) := by decide +kernel
  have h := hall b.toNat b.toNat_lt
  rwa [UInt8.ofNat_toNat] at h

/-- **A segment has no slash.** -/
theorem slash_notMem_encode (s : String) : '/' ∉ (encode s).toList := by
  unfold encode
  split
  · rw [String.toList_ofList, List.mem_flatMap]
    rintro ⟨b, -, hb⟩
    exact slash_notMem_escaped b hb
  · rw [String.toList_ofList, encodeBytes, List.mem_flatMap]
    rintro ⟨b, -, hb⟩
    exact slash_notMem_encodeByte b hb

end Percent

namespace ObjectPath

/-- What one step down adds to a path. -/
theorem exists_segments_child (p : ObjectPath) (name : String) :
    ∃ more : List String, (p.child name).segments = p.segments ++ more ∧
      (∀ s ∈ more, '/' ∉ s.toList) ∧ (name ≠ "" → more ≠ []) := by
  by_cases h : p.segments = [] ∧ name = ""
  · refine ⟨[], ?_, fun _ hs => absurd hs List.not_mem_nil, fun hname => absurd h.2 hname⟩
    rw [child, if_pos h, List.append_nil]
  · refine ⟨[Percent.encode name], segments_child h, fun s hs => ?_, fun _ => List.cons_ne_nil _ _⟩
    rw [List.mem_singleton.mp hs]
    exact Percent.slash_notMem_encode name

/-- What stands below the root in a record's path. -/
theorem exists_segments_ofRecord (root : ObjectPath) (id : RecordId) :
    ∃ below : List String, (ofRecord root id).segments = root.segments ++ below ∧
      (∀ s ∈ below, '/' ∉ s.toList) ∧ below ≠ [] := by
  obtain ⟨source, hsource, hplain, -⟩ := root.exists_segments_child id.source
  obtain ⟨kind, hkind, hplain', -⟩ := (root.child id.source).exists_segments_child id.kind
  obtain ⟨name, hname, hplain'', hne⟩ :=
    (ofKind root id.source id.kind).exists_segments_child (id.key ++ ".json")
  have hkind' : (ofKind root id.source id.kind).segments = root.segments ++ source ++ kind :=
    hkind.trans (by rw [hsource])
  refine ⟨source ++ kind ++ name, ?_, ?_, ?_⟩
  · rw [ofRecord, hname, hkind', List.append_assoc, List.append_assoc, List.append_assoc]
  · simp only [List.forall_mem_append]
    exact ⟨⟨hplain, hplain'⟩, hplain''⟩
  · exact List.append_ne_nil_of_right_ne_nil _ (hne (fileName_ne_empty id.key))

/-- Segments without slashes are told by the text that they make. -/
theorem eq_of_intercalate {xs ys : List String} (hx : ∀ s ∈ xs, '/' ∉ s.toList)
    (hy : ∀ s ∈ ys, '/' ∉ s.toList) (hxs : xs ≠ []) (hys : ys ≠ [])
    (h : String.intercalate "/" xs = String.intercalate "/" ys) : xs = ys := by
  have hsplit : ∀ zs : List String, (∀ s ∈ zs, '/' ∉ s.toList) → zs ≠ [] →
      (String.intercalate "/" zs).toList.splitOn '/' = zs.map String.toList := by
    intro zs hz hzs
    rw [String.toList_intercalate]
    refine List.splitOn_intercalate '/' ?_ fun hnil => hzs (List.map_eq_nil_iff.mp hnil)
    intro l hl
    obtain ⟨s, hs, rfl⟩ := List.mem_map.mp hl
    exact hz s hs
  have hmap := hsplit xs hx hxs
  rw [h, hsplit ys hy hys] at hmap
  exact (List.map_injective_iff.mpr fun _ _ => String.toList_inj.mp) hmap.symm

/-- **No two records have paths of one text.** -/
theorem text_ofRecord_inj {root : ObjectPath} {a b : RecordId}
    (h : (ofRecord root a).text = (ofRecord root b).text) : a = b := by
  obtain ⟨below, hbelow, hplain, hne⟩ := exists_segments_ofRecord root a
  obtain ⟨below', hbelow', hplain', hne'⟩ := exists_segments_ofRecord root b
  have hsame : below = below' := by
    rw [text, text, hbelow, hbelow'] at h
    by_cases hroot : root.segments = []
    · rw [hroot, List.nil_append, List.nil_append] at h
      exact eq_of_intercalate hplain hplain' hne hne' h
    · rw [String.intercalate_append_of_ne_nil hroot hne,
        String.intercalate_append_of_ne_nil hroot hne'] at h
      exact eq_of_intercalate hplain hplain' hne hne' ((String.append_right_inj _).mp h)
  have hsegments : (ofRecord root a).segments = (ofRecord root b).segments := by
    rw [hbelow, hbelow', hsame]
  have hpath : ofRecord root a = ofRecord root b := congrArg ObjectPath.mk hsegments
  exact ofRecord_inj.mp hpath

end ObjectPath

/-! ## Backends -/

namespace ObjectStore

variable {root : ObjectPath} {t t' : Table} {b b' : Bucket}

/-- A listing stands in the order of its paths as texts. -/
theorem pairwise_listing (b : Bucket) (above : ObjectPath) :
    (b.listing above).Pairwise fun p q => ¬ q.text < p.text := by
  have hsorted : b.sorted.Pairwise fun x y => (!(y.path.text < x.path.text)) = true := by
    refine List.pairwise_mergeSort (fun x y z hxy hyz => ?_) (fun x y => ?_) _
    · simp only [Bool.not_eq_true', decide_eq_false_iff_not, String.not_lt] at *
      exact String.le_trans hxy hyz
    · simp only [Bool.or_eq_true, Bool.not_eq_true', decide_eq_false_iff_not, String.not_lt]
      exact String.le_total _ _
  refine List.Pairwise.filter _ (List.pairwise_map.mpr (hsorted.imp fun hxy => ?_))
  rwa [Bool.not_eq_true', decide_eq_false_iff_not] at hxy

/-- The records of a source and kind, in the order in which their paths are listed. -/
def listed (root : ObjectPath) (b : Bucket) (source kind : String) : List Record :=
  (found b source kind (b.listing (ObjectPath.ofKind root source kind))).map (·.record)

theorem allOf_eq (root : ObjectPath) (b : Bucket) (source kind : String) :
    (allOf root b source kind).map (·.record) =
      (listed root b source kind).mergeSort fun x y => decide (x.createdAt ≤ y.createdAt) :=
  List.map_mergeSort fun _ _ _ _ => rfl

theorem Mirrors.listed_perm (h : Mirrors root t b) (source kind : String) :
    (listed root b source kind).Perm (t.ofKind source kind) :=
  (List.mergeSort_perm _ _).symm.trans (allOf_eq root b source kind ▸ h.allOf_perm source kind)

/-- They stand in the order of their own paths as texts. -/
theorem Mirrors.pairwise_listed (h : Mirrors root t b) (source kind : String) :
    (listed root b source kind).Pairwise fun x y =>
      ¬ (ObjectPath.ofRecord root y.id).text < (ObjectPath.ofRecord root x.id).text := by
  refine List.pairwise_map.mpr (List.Pairwise.filter _ ?_)
  refine (pairwise_listing b _).filterMap _ fun p q hpq v hv w hw => ?_
  rwa [(h.versioned_some hv).2.1, (h.versioned_some hw).2.1] at hpq

/-- **A full read of a source and kind gives the same records in the same order**, whatever else is
stored. -/
theorem allOf_of_source (h : Mirrors root t b) (h' : Mirrors root t' b') {source : String}
    (hsame : t.ofSource source = t'.ofSource source) (kind : String) :
    (allOf root b source kind).map (·.record) = (allOf root b' source kind).map (·.record) := by
  have hkind : t.ofKind source kind = t'.ofKind source kind := by
    rw [Table.ofKind_eq, Table.ofKind_eq, hsame]
  have hof := h.listed_perm source kind
  have hof' := h'.listed_perm source kind
  rw [← hkind] at hof'
  -- Both reads find the same records, in the order of their paths, in which no two are equal.
  have hlisted : listed root b source kind = listed root b' source kind := by
    refine (hof.trans hof'.symm).eq_of_pairwise (fun x y hx hy hxy hyx => ?_)
      (h.pairwise_listed source kind) (h'.pairwise_listed source kind)
    have hid : x.id = y.id := ObjectPath.text_ofRecord_inj
      (String.le_antisymm (String.not_lt.mp hxy) (String.not_lt.mp hyx))
    exact List.inj_on_of_nodup_map h.rows_distinct (Table.mem_ofKind.mp (hof.mem_iff.mp hx)).1
      (Table.mem_ofKind.mp (hof'.mem_iff.mp hy)).1 hid
  rw [allOf_eq, allOf_eq, hlisted]

/-- **A store of objects answers a request about a source from the source's records.** -/
theorem serve_of_source (h : Mirrors root t b) (h' : Mirrors root t' b') {source : String}
    (hsame : t.ofSource source = t'.ofSource source) (now : Instant) {request : Request}
    (hrequest : request.Concerns source) :
    (serve root ⟨now, request⟩ b).1 = (serve root ⟨now, request⟩ b').1 := by
  have hanswer := (Table.answer_of_source hsame now hrequest).1
  have hagree := (serve_mirrors h ⟨now, request⟩).1
  have hagree' := (serve_mirrors h' ⟨now, request⟩).1
  have hall (kind : String) := allOf_of_source h h' hsame kind
  cases request with
  | prepare | get _ | create _ | update _ | claim _ _ _ _ =>
    exact hagree.symm.trans (hanswer.trans hagree')
  | byStatus other kind status since =>
    obtain rfl := hrequest _ rfl
    rw [serve, serve, job, Program.run_exceptT_bind, Program.run_exceptT_bind,
      run_readAll h.readable, run_readAll h'.readable]
    exact congrArg (fun rs : List Record => Except.ok (rs.filter (·.hasStatus status since)))
      (hall kind)
  | all other kind =>
    obtain rfl := hrequest _ rfl
    rw [serve, serve, job, Program.run_exceptT_bind, Program.run_exceptT_bind,
      run_readAll h.readable, run_readAll h'.readable]
    exact congrArg Except.ok (hall kind)

end ObjectStore

namespace Backend

variable {b : Backend} {source : String} {s s' : b.State}

/-- Two states that hold the same records of a source, in the same order. -/
def Alike (source : String) (s s' : b.State) : Prop :=
  ∃ t t', b.Holds s t ∧ b.Holds s' t' ∧ t.ofSource source = t'.ofSource source

section Requests

variable (now : Instant) {request : Request}

/-- **What is asked about a source is answered alike**, and leaves alike what was alike. -/
theorem Alike.serve (h : Alike source s s') (hrequest : request.Concerns source) :
    (b.serve ⟨now, request⟩ s).1 = (b.serve ⟨now, request⟩ s').1 ∧
      Alike source (b.serve ⟨now, request⟩ s).2 (b.serve ⟨now, request⟩ s').2 := by
  obtain ⟨t, t', hholds, hholds', hsame⟩ := h
  obtain ⟨hanswer, hafter⟩ := Table.answer_of_source hsame now hrequest
  have hkept : (b.afterCall t ⟨now, request⟩).ofSource source =
      (b.afterCall t' ⟨now, request⟩).ofSource source := by
    rw [afterCall, afterCall, Table.ofSource_map b.source_kept, Table.ofSource_map b.source_kept]
    exact congrArg (List.map b.kept) hafter
  refine ⟨?_, _, _, (hholds.serve _).2, (hholds'.serve _).2, hkept⟩
  cases b with
  | table =>
    obtain ⟨rfl, -⟩ := hholds
    obtain ⟨rfl, -⟩ := hholds'
    exact hanswer
  | objects root => exact ObjectStore.serve_of_source hholds hholds' hsame now hrequest

/-- What is asked about other sources makes no difference. -/
theorem Alike.other (h : Alike source s s') (hrequest : request.source? ≠ some source) :
    Alike source (b.serve ⟨now, request⟩ s).2 s' := by
  obtain ⟨t, t', hholds, hholds', hsame⟩ := h
  have hown : (b.afterCall t ⟨now, request⟩).ofSource source = t.ofSource source := by
    rw [afterCall, Table.ofSource_map b.source_kept]
    refine (congrArg (List.map b.kept) (t.ofSource_answer now hrequest)).trans ?_
    conv_rhs => rw [← List.map_id (t.ofSource source)]
    exact List.map_congr_left fun r hr => hholds.kept_of_mem (Table.mem_ofSource.mp hr).1
  exact ⟨_, t', (hholds.serve _).2, hholds', hown.trans hsame⟩

/-- What is shown in answer to a request about a source is of this source. -/
theorem Holds.source_of_shown {t : Table} (h : b.Holds s t) (hrequest : request.Concerns source)
    {r : Record} (hr : r ∈ (Exchange.mk request (b.serve ⟨now, request⟩ s).1).shown) :
    r.source = source := by
  have hagree := (h.serve ⟨now, request⟩).1
  cases request with
  | prepare | get _ | create _ | update _ | claim _ _ _ _ =>
    have hanswer : (t.answer now _).1 = (b.serve ⟨now, _⟩ s).1 := hagree
    exact t.source_of_shown now hrequest (hanswer ▸ hr)
  | byStatus _ _ _ _ | all _ _ =>
    obtain ⟨rs, rs', hrs, hrs', hperm, -⟩ := hagree
    refine t.source_of_shown now hrequest ?_
    rw [hrs'] at hr
    rw [hrs]
    exact hperm.mem_iff.mpr hr

end Requests

end Backend

end LeasedWork
