import LeasedWork.Proofs.Fleet.PlanAccounts

/-! # The books of an export

Leaders bootstrap, any number of workers plan exports, and others count loaded queries, all of them
on one table (`Charter.exporting`).  A request may fail although it has reached the table, unless a
lost write is reported; a program may stop anywhere; leases run out as the clocks have it.

What everybody has done is read off the marks: which export a pass has claimed, how many queries it
has created (`Mark.created`), and by how much it has raised the number of planned queries in the
load status (`Mark.allCounted`).  The accounts of planning fit this (`Planning.Proper`) and the
stored load status (`Planning.Exact`), and every request that is made keeps the books in order
(`Planning.Fits`, `Watch.governs_planning`).
-/
namespace LeasedWork

/-! ## What marks tell -/

/-- How many planned queries the load status of an identity counts, none if there is none. -/
def Table.planned (id : RecordId) (t : Table) : UInt64 :=
  ((t.loadStatus? id).map (·.totalPartitions)).getD 0

/-- The collection of the export that has been claimed. -/
def Exchange.claimed? : Exchange → Option String
  | ⟨.claim _ _ _ _, .ok (some r)⟩ => r.exported?
  | _ => none

namespace Mark

/-- Whether a query has been created. -/
def creates (m : Mark) : Bool :=
  match m.request with
  | .create r => r.kind = queryKind.tag && (m.before.find? r.id).isNone
  | _ => false

/-- Whether an export of a collection has been completed. -/
def completes (source collection : String) (m : Mark) : Bool :=
  match m.request with
  | .update r => r.isDone source collection && m.writes r.id
  | _ => false

/-- How many planned queries the load status counts more than before. -/
def counted (id : RecordId) (m : Mark) : Nat := (m.after.planned id - m.before.planned id).toNat

/-- The collection whose export has been claimed. -/
def exportOf (marks : List Mark) : Option String := marks.findSome? fun m => m.claimed?

/-- How many queries have been created for a collection, by whoever has claimed an export of it. -/
def created (collection : String) (marks : List Mark) : Nat :=
  if exportOf marks = some collection then marks.countP creates else 0

/-- How many planned queries have been counted. -/
def allCounted (id : RecordId) (marks : List Mark) : Nat := (marks.map (counted id)).sum

variable {id : RecordId} {collection name : String} {m : Mark} {marks : List Mark}

theorem exists_of_creates (h : m.creates = true) :
    ∃ r, m.request = .create r ∧ r.kind = queryKind.tag := by
  unfold creates at h
  split at h
  · rename_i r hrequest
    exact ⟨r, hrequest, of_decide_eq_true ((Bool.and_eq_true _ _).mp h).1⟩
  · cases h

theorem exportOf_concat (marks : List Mark) (m : Mark) :
    exportOf (marks ++ [m]) = (exportOf marks).or m.claimed? := by
  rw [exportOf, List.findSome?_append, List.findSome?_singleton]
  rfl

theorem allCounted_concat (id : RecordId) (marks : List Mark) (m : Mark) :
    allCounted id (marks ++ [m]) = allCounted id marks + m.counted id := by
  simp [allCounted]

theorem counted_of_same (h : m.after.find? id = m.before.find? id) : m.counted id = 0 := by
  rw [counted, Table.planned, Table.loadStatus?, h]
  exact congrArg UInt64.toNat (UInt64.sub_self _)

theorem created_le_concat (collection : String) (marks : List Mark) (m : Mark) :
    created collection marks ≤ created collection (marks ++ [m]) := by
  unfold created
  by_cases h : exportOf marks = some collection
  · rw [if_pos h, if_pos (by rw [exportOf_concat, h]; rfl), List.countP_append]
    exact Nat.le_add_right _ _
  · rw [if_neg h]
    exact Nat.zero_le _

/-- Nothing has been created just now. -/
theorem created_concat_of_not (hidle : exportOf marks = none → marks.countP creates = 0)
    (hm : m.creates = false) : created collection (marks ++ [m]) = created collection marks := by
  have hcount : (marks ++ [m]).countP creates = marks.countP creates := by
    simp [hm]
  unfold created
  rw [hcount, exportOf_concat]
  cases h : exportOf marks with
  | none => simp [hidle h]
  | some name => rfl

/-- A query has been created just now. -/
theorem created_concat_of_creates (hexport : exportOf marks = some name) (hm : m.creates = true) :
    created collection (marks ++ [m]) =
      created collection marks + if name = collection then 1 else 0 := by
  have hcount : (marks ++ [m]).countP creates = marks.countP creates + 1 := by
    simp [hm]
  unfold created
  rw [hcount, exportOf_concat, hexport, Option.some_or]
  by_cases hname : name = collection
  · rw [if_pos (congrArg some hname), if_pos (congrArg some hname), if_pos hname]
  · have hne : ¬ some name = some collection := fun heq => hname (Option.some.inj heq)
    rw [if_neg hne, if_neg hne, if_neg hname]

end Mark

/-! ## Who takes part -/

/-- A request neither writes the load status of a collection nor completes an export of it. -/
def Request.SparesExport (source collection : String) : Request → Prop
  | .create r | .update r => r.id ≠ LoadStatus.idOf source collection ∧
      r.isDone source collection = false
  | .claim s kind _ _ => ¬ (s = source ∧ kind = sharedKind.tag)
  | .prepare | .get _ | .byStatus _ _ _ _ | .all _ _ => True

/-- A spared load status stays, and no export is completed. -/
theorem Request.SparesExport.answer {source collection : String} {request : Request}
    (h : request.SparesExport source collection) (t : Table) (now : Instant) :
    (t.answer now request).2.find? (LoadStatus.idOf source collection) =
        t.find? (LoadStatus.idOf source collection) ∧
      ∀ r ∈ (t.answer now request).2.rows, r.isDone source collection = true → r ∈ t.rows := by
  have hwritten := t.written_answer now request
  generalize (t.answer now request).2 = u at hwritten ⊢
  cases hwritten with
  | none => exact ⟨rfl, fun _ hr _ => hr⟩
  | created r hfree =>
    refine ⟨(Table.find?_insert (r := r.firstVersion) hfree _).trans (if_neg (Ne.symm h.1)), ?_⟩
    intro x hx hdone
    rcases Table.mem_insert hx with rfl | hold
    · exact absurd hdone (ne_true_of_eq_false h.2)
    · exact hold
  | updated r stored =>
    refine ⟨Table.find?_replace_of_ne (r := r.nextVersion) (Ne.symm h.1), ?_⟩
    intro x hx hdone
    rcases Table.mem_replace hx with rfl | hold
    · exact absurd hdone (ne_true_of_eq_false h.2)
    · exact hold
  | claimed r owner lease =>
    have hne : LoadStatus.idOf source collection ≠ (r.claimed owner now lease).id := by
      intro heq
      exact h ⟨(congrArg RecordId.source heq).symm, (congrArg RecordId.kind heq).symm⟩
    refine ⟨Table.find?_replace_of_ne hne, ?_⟩
    intro x hx hdone
    rcases Table.mem_replace hx with rfl | hold
    · have hnever : (r.claimed owner now lease).isDone source collection = false :=
        Record.isDone_of_status (by decide : some Status.assigned ≠ some .completed)
      exact absurd hdone (ne_true_of_eq_false hnever)
    · exact hold

/-- Those who take part in the export of a collection: candidates of the election, workers on
exports of any collections, and those who count loaded queries. -/
inductive Exporter {E : Interface} (source collection : String) :
    Program (Node.interface E) Unit → Prop
  | election (c : Candidate) (cs : List Collection) (h : c.Plans source cs) :
    Exporter source collection c.pass.alone
  | planner (n : Node) (settings : WorkerSettings) (supplier : Supplier E) (h : n.source = source)
    (hsupplier : supplier.Asks (Request.IsAside source collection)) :
    Exporter source collection (Work.pass n settings (Planning.process n) supplier).alone
  | loader (n : Node) (name : String) (records : UInt64) (h : n.source = source) :
    Exporter source collection (LoadStatus.recordLoaded n name records).run.alone

/-- Passes of elections, passes over exports and counts of loaded queries, by any nodes of a source.
A request that fails may have reached the table, unless a lost write is reported. -/
def Charter.exporting (E : Interface) (source collection : String) : Charter E Unit Unit where
  Joins _ p := Exporter source collection p
  Asks := Request.SparesExport source collection
  mayHide failure := !failure.isLostWrite

theorem Surroundings.ensures_alone {S : Surroundings} {E : Interface} {α : Type}
    {p : Program (Node.interface E) α} {post : α → S.State → Prop} {g : S.State}
    (h : S.Ensures post p g) : S.Ensures (fun _ _ => True) p.alone g :=
  h.bind fun _ _ _ => trivial

/-- **Whoever takes part plans as the surroundings have it.** -/
theorem Exporter.planning {E : Interface} {source collection : String}
    {p : Program (Node.interface E) Unit} (h : Exporter source collection p) :
    (Surroundings.planning source collection).Ensures (fun _ _ => True) p .opening := by
  cases h with
  | election c cs h => exact Surroundings.ensures_alone h.planning_pass
  | planner n settings supplier h hsupplier =>
    subst h
    exact Surroundings.ensures_alone (Work.planning_pass settings hsupplier)
  | loader n name records h =>
    subst h
    exact Surroundings.ensures_alone (LoadStatus.planning_recordLoaded n name records)

/-! ## The books -/

/-- What is known of somebody who takes part. -/
abbrev PlanEntry : Type := Entry Unit PlanAccount

/-- An entry after another mark. -/
def Entry.add {L G : Type} (e : Entry L G) (m : Mark) (g : G) : Entry L G :=
  ⟨e.label, e.marks ++ [m], g⟩

namespace Planning

open Mark

variable {source collection : String} {t t' : Table} {es : List PlanEntry} {e : PlanEntry} {i : Nat}
  {m : Mark} {g : PlanAccount}

/-- How often the load status has been written. -/
def writes (id : RecordId) (es : List PlanEntry) : Nat :=
  (es.map fun e => e.marks.countP (·.writes id)).sum

/-- How many queries have been created for a collection. -/
def allCreated (collection : String) (es : List PlanEntry) : Nat :=
  (es.map fun e => created collection e.marks).sum

/-- An account fits the marks. -/
structure Proper (source collection : String) (e : PlanEntry) : Prop where
  claimed : exportOf e.marks = e.account.collection
  idle : exportOf e.marks = none → e.marks.countP creates = 0
  missed : e.account.hasMissed = true →
    ∃ m ∈ e.marks, m.before.find? (LoadStatus.idOf source collection) = none
  lost : 0 < e.account.lost → e.account.hasMissed = true
  completed : e.account.hasCompleted = true → e.account.MayComplete collection
  marked : ∀ m ∈ e.marks, m.completes source collection = true → e.account.hasCompleted = true
  seen : ∀ x, e.account.seen = some x → x.id = LoadStatus.idOf source collection

/-- The accounts fit the stored load status, as long as no number wraps around. -/
structure Exact (source collection : String) (t : Table) (es : List PlanEntry) : Prop where
  version : ((t.find? (LoadStatus.idOf source collection)).map (·.version.toNat)).getD 0 =
    writes (LoadStatus.idOf source collection) es
  covered : ∀ e ∈ es, ∀ x, e.account.seen = some x →
    ∃ r, t.find? (LoadStatus.idOf source collection) = some r ∧ (x = r ∨ x.version < r.version)
  balance : ∀ e ∈ es, created collection e.marks =
    allCounted (LoadStatus.idOf source collection) e.marks + e.account.owed + e.account.lost
  ended : ∀ e ∈ es, e.account.hasEnded = true →
    ∃ s, t.loadStatus? (LoadStatus.idOf source collection) = some s ∧ s.totalComplete = true

/-- No number wraps around. -/
def Bounded (source collection : String) (es : List PlanEntry) : Prop :=
  writes (LoadStatus.idOf source collection) es < UInt64.size ∧
    allCreated collection es < UInt64.size

/-- How the accounts with all who take part fit the table. -/
structure Fits (source collection : String) (t : Table) (es : List PlanEntry) : Prop where
  readable : ∀ r, t.find? (LoadStatus.idOf source collection) = some r →
    ∃ s, LoadStatus.ofRecord r = .ok s
  total : t.planned (LoadStatus.idOf source collection) =
    .ofNat (es.map fun e => allCounted (LoadStatus.idOf source collection) e.marks).sum
  proper : ∀ e ∈ es, Proper source collection e
  done : ∀ r ∈ t.rows, r.isDone source collection = true →
    es.any (fun e => e.marks.any (·.completes source collection)) = true
  exact : Bounded source collection es → Exact source collection t es

/-! ### One more mark -/

theorem Proper.add (h : Proper source collection e)
    (hclaimed : (exportOf e.marks).or m.claimed? = g.collection)
    (hidle : exportOf e.marks = none → m.creates = false)
    (hmissed : g.hasMissed = true → e.account.hasMissed = true ∨
      m.before.find? (LoadStatus.idOf source collection) = none)
    (hlost : 0 < g.lost → g.hasMissed = true)
    (hcompleted : g.hasCompleted = true → g.MayComplete collection)
    (hmarked : e.account.hasCompleted = true ∨ m.completes source collection = true →
      g.hasCompleted = true)
    (hseen : ∀ x, g.seen = some x → x.id = LoadStatus.idOf source collection) :
    Proper source collection (e.add m g) where
  claimed := (exportOf_concat e.marks m).trans hclaimed
  idle hnone := by
    have hnone' : exportOf e.marks = none := by
      have hconcat := (exportOf_concat e.marks m).symm.trans hnone
      exact (Option.or_eq_none_iff.mp hconcat).1
    simp only [Entry.add, List.countP_append, h.idle hnone', List.countP_singleton, hidle hnone']
    rfl
  missed hg := by
    rcases hmissed hg with hold | hnew
    · obtain ⟨x, hx, hfree⟩ := h.missed hold
      exact ⟨x, List.mem_append_left _ hx, hfree⟩
    · exact ⟨m, List.mem_append_right _ (List.mem_singleton_self m), hnew⟩
  lost := hlost
  completed := hcompleted
  marked x hx hcompletes := by
    rcases List.mem_append.mp hx with hold | hnew
    · exact hmarked (.inl (h.marked x hold hcompletes))
    · obtain rfl := List.mem_singleton.mp hnew
      exact hmarked (.inr hcompletes)
  seen := hseen

theorem Bounded.of_add (he : es[i]? = some e)
    (h : Bounded source collection (es.set i (e.add m g))) : Bounded source collection es := by
  have hwrites := Watch.sum_map_set he (e.add m g)
    fun e => e.marks.countP (·.writes (LoadStatus.idOf source collection))
  have hcreated := Watch.sum_map_set he (e.add m g) fun e => created collection e.marks
  have hle : e.marks.countP (·.writes (LoadStatus.idOf source collection)) ≤
      (e.add m g).marks.countP (·.writes (LoadStatus.idOf source collection)) :=
    (List.sublist_append_left _ _).countP_le
  have hle' : created collection e.marks ≤ created collection (e.add m g).marks :=
    created_le_concat collection e.marks m
  obtain ⟨hbound, hbound'⟩ := h
  unfold writes at hbound
  unfold allCreated at hbound'
  constructor
  · unfold writes
    omega
  · unfold allCreated
    omega

/-- **The books stay in order** with one more mark. -/
theorem Fits.add (h : Fits source collection t es) (he : es[i]? = some e) (hbefore : m.before = t)
    (hreadable : ∀ r, m.after.find? (LoadStatus.idOf source collection) = some r →
      ∃ s, LoadStatus.ofRecord r = .ok s)
    (hproper : Proper source collection (e.add m g))
    (hdone : ∀ r ∈ m.after.rows, r.isDone source collection = true →
      r ∈ t.rows ∨ m.completes source collection = true)
    (hexact : Exact source collection t es →
      Bounded source collection (es.set i (e.add m g)) →
        Exact source collection m.after (es.set i (e.add m g))) :
    Fits source collection m.after (es.set i (e.add m g)) where
  readable := hreadable
  total := by
    have hsum := Watch.sum_map_set he (e.add m g)
      fun e => allCounted (LoadStatus.idOf source collection) e.marks
    have hconcat := allCounted_concat (LoadStatus.idOf source collection) e.marks m
    have hnext : ((es.set i (e.add m g)).map fun e =>
        allCounted (LoadStatus.idOf source collection) e.marks).sum =
          (es.map fun e => allCounted (LoadStatus.idOf source collection) e.marks).sum +
            m.counted (LoadStatus.idOf source collection) := by
      simp only [Entry.add] at hsum ⊢
      omega
    -- Both sides wrap around alike, and so this needs no bound.
    rw [hnext, UInt64.ofNat_add, ← h.total, counted, UInt64.ofNat_toNat, hbefore]
    exact ((UInt64.add_comm _ _).trans (UInt64.sub_add_cancel _ _)).symm
  proper := Watch.forall_mem_set h.proper hproper
  done r hr hisDone := by
    rw [Watch.any_set he (e.add m g) _ fun hany => ?_]
    · rcases hdone r hr hisDone with hold | hnew
      · rw [h.done r hold hisDone, Bool.true_or]
      · have hlast : (e.add m g).marks.any (·.completes source collection) = true := by
          simp [Entry.add, hnew]
        rw [hlast, Bool.or_true]
    · simp [Entry.add, hany]
  exact hbound := hexact (h.exact (hbound.of_add he)) hbound

/-- The load status has not been written just now. -/
theorem Exact.add_of_same (h : Exact source collection t es) (he : es[i]? = some e)
    (hbefore : m.before = t)
    (hsame : m.after.find? (LoadStatus.idOf source collection) =
      t.find? (LoadStatus.idOf source collection))
    (hseen : ∀ x, g.seen = some x → t.find? (LoadStatus.idOf source collection) = some x ∨
      e.account.seen = some x)
    (hbalance : created collection (e.marks ++ [m]) + e.account.owed + e.account.lost =
      created collection e.marks + g.owed + g.lost)
    (hended : g.hasEnded = true → e.account.hasEnded = true) :
    Exact source collection m.after (es.set i (e.add m g)) := by
  have hmark := hsame.trans (congrArg (·.find? (LoadStatus.idOf source collection)) hbefore.symm)
  refine ⟨?_, Watch.forall_mem_set ?_ ?_, Watch.forall_mem_set h.balance ?_,
    Watch.forall_mem_set ?_ ?_⟩
  · have hsum := Watch.sum_map_set he (e.add m g)
      fun e => e.marks.countP (·.writes (LoadStatus.idOf source collection))
    have hcount : (e.add m g).marks.countP (·.writes (LoadStatus.idOf source collection)) =
        e.marks.countP (·.writes (LoadStatus.idOf source collection)) :=
      countP_concat_of_same e.marks hmark
    rw [hsame, h.version]
    unfold writes
    omega
  · rw [hsame]
    exact h.covered
  · intro x hx
    rw [hsame]
    rcases hseen x hx with hstored | hold
    · exact ⟨x, hstored, .inl rfl⟩
    · exact h.covered e (List.mem_of_getElem? he) x hold
  · have hold := h.balance e (List.mem_of_getElem? he)
    have hconcat := allCounted_concat (LoadStatus.idOf source collection) e.marks m
    rw [counted_of_same hmark] at hconcat
    simp only [Entry.add]
    omega
  · rw [Table.loadStatus?, hsame]
    exact h.ended
  · intro hg
    rw [Table.loadStatus?, hsame]
    exact h.ended e (List.mem_of_getElem? he) (hended hg)

/-- The load status has just been created. -/
theorem Exact.add_of_created (h : Exact source collection t es) (he : es[i]? = some e)
    (hbefore : m.before = t) (hfree : t.find? (LoadStatus.idOf source collection) = none)
    {r : Record} (hr : m.after.find? (LoadStatus.idOf source collection) = some r.firstVersion)
    {s : LoadStatus} (hs : LoadStatus.ofRecord r.firstVersion = .ok s)
    (hblank : s.totalPartitions = 0)
    (hcreated : created collection (e.marks ++ [m]) = created collection e.marks) :
    Exact source collection m.after (es.set i (e.add m e.account)) := by
  have hmem := List.mem_of_getElem? he
  -- Nobody has seen a load status yet, or written one.
  have hunseen : ∀ e ∈ es, ∀ x, e.account.seen ≠ some x := by
    intro e he x hx
    obtain ⟨r', hr', -⟩ := h.covered e he x hx
    cases hfree.symm.trans hr'
  have hnotEnded : ∀ e ∈ es, e.account.hasEnded ≠ true := by
    intro e he hended
    obtain ⟨s', hs', -⟩ := h.ended e he hended
    rw [Table.loadStatus?, hfree] at hs'
    cases hs'
  refine ⟨?_, Watch.forall_mem_set (fun e he x hx => absurd hx (hunseen e he x))
    fun x hx => absurd hx (hunseen e hmem x), Watch.forall_mem_set h.balance ?_,
    Watch.forall_mem_set (fun e he hended => absurd hended (hnotEnded e he))
      fun hended => absurd hended (hnotEnded e hmem)⟩
  · have hsum := Watch.sum_map_set he (e.add m e.account)
      fun e => e.marks.countP (·.writes (LoadStatus.idOf source collection))
    have hcount : (e.add m e.account).marks.countP
        (·.writes (LoadStatus.idOf source collection)) =
          e.marks.countP (·.writes (LoadStatus.idOf source collection)) + 1 := by
      refine countP_concat_of_ne e.marks ?_
      rw [hr, hbefore, hfree]
      exact Option.some_ne_none _
    have hversion := h.version
    rw [hfree] at hversion
    have hzero : writes (LoadStatus.idOf source collection) es = 0 := hversion.symm
    rw [hr]
    unfold writes at hzero ⊢
    simp only [Option.map_some, Option.getD_some]
    have hfirst : r.firstVersion.version.toNat = 1 := rfl
    omega
  · have hold := h.balance e hmem
    have hconcat := allCounted_concat (LoadStatus.idOf source collection) e.marks m
    have hcounted : m.counted (LoadStatus.idOf source collection) = 0 := by
      rw [counted, Table.planned, Table.planned, hbefore, Table.loadStatus_of_find hr hs,
        Table.loadStatus?, hfree]
      simp [hblank]
    simp only [Entry.add]
    omega

/-- The load status that has been seen last has just been written, with what is owed. -/
theorem Exact.add_of_written (h : Exact source collection t es) (he : es[i]? = some e)
    (hbound : Bounded source collection (es.set i (e.add m g)))
    (hbefore : m.before = t) {x r' : Record} {s s' : LoadStatus}
    (hx : t.find? (LoadStatus.idOf source collection) = some x)
    (hs : LoadStatus.ofRecord x = .ok s)
    (hr' : m.after.find? (LoadStatus.idOf source collection) = some r')
    (hs' : LoadStatus.ofRecord r' = .ok s') (hversion : r'.version = x.version + 1)
    (htotal : s'.totalPartitions = s.totalPartitions + .ofNat e.account.owed)
    (hcomplete : s.totalComplete = true → s'.totalComplete = true)
    (hcreated : created collection (e.marks ++ [m]) = created collection e.marks)
    (hseen : g.seen = none) (howed : g.owed = 0) (hlost : g.lost = e.account.lost)
    (hended : g.hasEnded = true → e.account.hasEnded = true ∨ s'.totalComplete = true) :
    Exact source collection m.after (es.set i (e.add m g)) := by
  have hmem := List.mem_of_getElem? he
  have hstatus := Table.loadStatus_of_find hx hs
  have hstatus' := Table.loadStatus_of_find hr' hs'
  -- The write is one more of the record, and takes its version one further.
  have hwrites : writes (LoadStatus.idOf source collection) (es.set i (e.add m g)) =
      writes (LoadStatus.idOf source collection) es + 1 := by
    have hsum := Watch.sum_map_set he (e.add m g)
      fun e => e.marks.countP (·.writes (LoadStatus.idOf source collection))
    have hcount : (e.add m g).marks.countP (·.writes (LoadStatus.idOf source collection)) =
        e.marks.countP (·.writes (LoadStatus.idOf source collection)) + 1 := by
      refine countP_concat_of_ne e.marks ?_
      rw [hr', hbefore, hx]
      rintro ⟨⟩
      exact absurd (UInt64.add_eq_left.mp hversion.symm) (by decide)
    unfold writes
    omega
  have hsucc : r'.version.toNat = x.version.toNat + 1 := by
    have hstart := h.version
    rw [hx] at hstart
    rw [hversion]
    exact Fleet.Coherent.toNat_succ (Nat.le_of_eq hstart) (hwrites ▸ hbound.1)
  have hkeeps : ∀ e ∈ es, e.account.hasEnded = true → s'.totalComplete = true := by
    intro e he hold
    obtain ⟨s₁, hs₁, hcomplete₁⟩ := h.ended e he hold
    obtain rfl := Option.some.inj (hstatus.symm.trans hs₁)
    exact hcomplete hcomplete₁
  refine ⟨?_, Watch.forall_mem_set (fun e he y hy => ⟨r', hr', .inr ?_⟩)
    (fun y hy => nomatch hseen.symm.trans hy), Watch.forall_mem_set h.balance ?_,
    Watch.forall_mem_set (fun e he hold => ⟨s', hstatus', hkeeps e he hold⟩) fun hnew =>
      ⟨s', hstatus', (hended hnew).elim (hkeeps e hmem) id⟩⟩
  · have hstart := h.version
    rw [hx] at hstart
    rw [hr', hwrites, ← hstart]
    exact hsucc
  · -- Whatever has been seen before is of an earlier version by now.
    obtain ⟨r, hr, hcovered⟩ := h.covered e he y hy
    obtain rfl := Option.some.inj (hx.symm.trans hr)
    rw [UInt64.lt_iff_toNat_lt, hsucc]
    rcases hcovered with rfl | hlt
    · exact Nat.lt_succ_self _
    · exact Nat.lt_succ_of_lt (UInt64.lt_iff_toNat_lt.mp hlt)
  · -- What is owed is less than a word, so that the difference of the totals is just that.
    have hold := h.balance e hmem
    have hconcat := allCounted_concat (LoadStatus.idOf source collection) e.marks m
    have hle : e.account.owed < UInt64.size := by
      have hbefore' := (hbound.of_add he).2
      have hpart := Watch.le_sum_map he fun e => created collection e.marks
      unfold allCreated at hbefore'
      omega
    have hcounted : m.counted (LoadStatus.idOf source collection) = e.account.owed := by
      rw [counted, Table.planned, Table.planned, hbefore, hstatus, hstatus']
      simp only [Option.map_some, Option.getD_some]
      rw [htotal, UInt64.add_comm, UInt64.add_sub_cancel]
      exact UInt64.toNat_ofNat_of_lt hle
    simp only [Entry.add]
    omega

/-! ### One request -/

/-- The load status is as it was, and so is the rest that matters. -/
theorem Fits.keep (h : Fits source collection t es) (he : es[i]? = some e) (hbefore : m.before = t)
    (hsame : m.after.find? (LoadStatus.idOf source collection) =
      t.find? (LoadStatus.idOf source collection))
    (hdone : ∀ r ∈ m.after.rows, r.isDone source collection = true →
      r ∈ t.rows ∨ m.completes source collection = true)
    (hproper : Proper source collection (e.add m g))
    (hseen : ∀ x, g.seen = some x → t.find? (LoadStatus.idOf source collection) = some x ∨
      e.account.seen = some x)
    (hbalance : created collection (e.marks ++ [m]) + e.account.owed + e.account.lost =
      created collection e.marks + g.owed + g.lost)
    (hended : g.hasEnded = true → e.account.hasEnded = true) :
    Fits source collection m.after (es.set i (e.add m g)) :=
  h.add he hbefore (hsame ▸ h.readable) hproper hdone
    fun hexact _ => hexact.add_of_same he hbefore hsame hseen hbalance hended

/-- A mark that says nothing. -/
structure Quiet (source collection : String) (m : Mark) : Prop where
  claimed : m.claimed? = none
  creates : m.creates = false
  completes : m.completes source collection = false

theorem Proper.keep (h : Proper source collection e) (hm : Quiet source collection m) :
    Proper source collection (e.add m e.account) := by
  refine h.add ?_ (fun _ => hm.creates) .inl h.lost h.completed ?_ h.seen
  · rw [hm.claimed, Option.or_none, h.claimed]
  · rintro (hold | hnew)
    · exact hold
    · exact nomatch hm.completes.symm.trans hnew

/-- Nothing has happened that matters. -/
theorem Fits.quiet (h : Fits source collection t es) (he : es[i]? = some e) (hbefore : m.before = t)
    (hsame : m.after.find? (LoadStatus.idOf source collection) =
      t.find? (LoadStatus.idOf source collection))
    (hdone : ∀ r ∈ m.after.rows, r.isDone source collection = true → r ∈ t.rows)
    (hm : Quiet source collection m) :
    Fits source collection m.after (es.set i (e.add m e.account)) := by
  have hproper := h.proper e (List.mem_of_getElem? he)
  refine h.keep he hbefore hsame (fun r hr hisDone => .inl (hdone r hr hisDone))
    (hproper.keep hm) (fun x hx => .inr hx) ?_ id
  rw [created_concat_of_not hproper.idle hm.creates]

/-- The table has stayed as it was. -/
theorem Fits.unmoved (h : Fits source collection t es) (he : es[i]? = some e) {request : Request}
    {told : request.Answer} (hm : Quiet source collection ⟨⟨request, told⟩, t, t⟩) :
    Fits source collection t (es.set i (e.add ⟨⟨request, told⟩, t, t⟩ e.account)) :=
  h.quiet he rfl rfl (fun _ hr _ => hr) hm

/-- A request has had nothing to do with the export. -/
theorem Fits.spared (h : Fits source collection t es) (he : es[i]? = some e) {request : Request}
    (hspares : request.SparesExport source collection) (now : Instant) (told : request.Answer)
    (hm : Quiet source collection ⟨⟨request, told⟩, t, (t.answer now request).2⟩) :
    Fits source collection (t.answer now request).2
      (es.set i (e.add ⟨⟨request, told⟩, t, (t.answer now request).2⟩ e.account)) := by
  obtain ⟨hsame, hrows⟩ := hspares.answer t now
  exact h.quiet he rfl hsame hrows hm

/-- There is no load status. -/
theorem Fits.miss (h : Fits source collection t es) (he : es[i]? = some e)
    (hfree : t.find? (LoadStatus.idOf source collection) = none) {asked : RecordId} :
    Fits source collection t
      (es.set i (e.add ⟨⟨.get asked, .ok none⟩, t, t⟩ e.account.missed)) := by
  have hproper := h.proper e (List.mem_of_getElem? he)
  refine h.keep (m := ⟨⟨.get asked, .ok none⟩, t, t⟩) he rfl rfl (fun _ hr _ => .inl hr) ?_
    (fun _ hx => .inr hx) ?_ fun hended => hended
  · refine hproper.add ?_ (fun _ => rfl) (fun _ => .inr hfree) (fun _ => rfl)
      (fun hdone => ⟨(hproper.completed hdone).1, rfl, .inr rfl⟩) ?_ hproper.seen
    · rw [hproper.claimed]
      exact Option.or_none
    · rintro (hdone | hnew)
      · exact hdone
      · cases hnew
  · rw [created_concat_of_not hproper.idle rfl,
      PlanAccount.missed]
    dsimp only
    omega

/-- The load status is seen. -/
theorem Fits.see (h : Fits source collection t es) (he : es[i]? = some e) {x : Record}
    (hx : t.find? (LoadStatus.idOf source collection) = some x) {asked : RecordId} :
    Fits source collection t (es.set i
      (e.add ⟨⟨.get asked, .ok (some x)⟩, t, t⟩ { e.account with seen := some x })) := by
  have hproper := h.proper e (List.mem_of_getElem? he)
  refine h.keep (m := ⟨⟨.get asked, .ok (some x)⟩, t, t⟩) he rfl rfl (fun _ hr _ => .inl hr) ?_
    ?_ ?_ fun hended => hended
  · refine hproper.add ?_ (fun _ => rfl) .inl hproper.lost hproper.completed ?_ ?_
    · rw [hproper.claimed]
      exact Option.or_none
    · rintro (hdone | hnew)
      · exact hdone
      · cases hnew
    · rintro y ⟨⟩
      exact (Table.find?_some hx).2
  · rintro y ⟨⟩
    exact .inl hx
  · rw [created_concat_of_not hproper.idle rfl]

/-- A query has been created. -/
theorem Fits.create (h : Fits source collection t es) (he : es[i]? = some e) {r : Record}
    (hkind : r.kind = queryKind.tag) (hclaimed : e.account.collection.isSome = true)
    (hopen : e.account.hasCompleted = false) (hnever : r.isDone source collection = false)
    (hfree : t.find? r.id = none) (told : (Request.create r).Answer) :
    Fits source collection (t.insert r.firstVersion) (es.set i
      (e.add ⟨⟨.create r, told⟩, t, t.insert r.firstVersion⟩ (e.account.created collection))) := by
  have hproper := h.proper e (List.mem_of_getElem? he)
  obtain ⟨name, hname⟩ := Option.isSome_iff_exists.mp hclaimed
  have hcreates : Mark.creates ⟨⟨.create r, told⟩, t, t.insert r.firstVersion⟩ = true := by
    simp [creates, hkind, hfree]
  have hne : LoadStatus.idOf source collection ≠ r.firstVersion.id := by
    intro heq
    exact absurd ((congrArg RecordId.kind heq).trans hkind)
      (by decide : sharedKind.tag ≠ queryKind.tag)
  have hfields : (e.account.created collection).collection = e.account.collection ∧
      (e.account.created collection).hasMissed = e.account.hasMissed ∧
      (e.account.created collection).lost = e.account.lost ∧
      (e.account.created collection).hasCompleted = e.account.hasCompleted ∧
      (e.account.created collection).hasEnded = e.account.hasEnded ∧
      (e.account.created collection).seen = e.account.seen := by
    unfold PlanAccount.created
    split <;> exact ⟨rfl, rfl, rfl, rfl, rfl, rfl⟩
  obtain ⟨hcollection, hmissed, hlost, hcompleted, hended, hseen⟩ := hfields
  refine h.keep (m := ⟨⟨.create r, told⟩, t, t.insert r.firstVersion⟩) he rfl ?_ ?_ ?_
    (fun x hx => .inr (hseen ▸ hx)) ?_ fun hg => hended ▸ hg
  · exact (Table.find?_insert (r := r.firstVersion) hfree _).trans (if_neg hne)
  · intro x hx hisDone
    rcases Table.mem_insert hx with rfl | hold
    · exact absurd hisDone (ne_true_of_eq_false hnever)
    · exact .inl hold
  · refine hproper.add ?_ (fun hnone => ?_) (fun hg => .inl (hmissed ▸ hg))
      (fun hg => hmissed ▸ hproper.lost (hlost ▸ hg)) (fun hdone => ?_) ?_
      fun x hx => hproper.seen x (hseen ▸ hx)
    · rw [hcollection, hproper.claimed]
      exact Option.or_none
    · rw [hproper.claimed, hname] at hnone
      cases hnone
    · rw [hcompleted, hopen] at hdone
      cases hdone
    · rintro (hdone | hnew)
      · rw [hopen] at hdone
        cases hdone
      · cases hnew
  · -- The query counts for the collection that the planner has claimed, and for no other.
    rw [created_concat_of_creates (hproper.claimed.trans hname) hcreates, hlost,
      PlanAccount.created,
      hname]
    by_cases heq : name = collection
    · rw [if_pos heq, if_pos (congrArg some heq)]
      dsimp only
      omega
    · rw [if_neg heq, if_neg fun hsome => heq (Option.some.inj hsome)]
      omega

/-- The load status has been created. -/
theorem Fits.found (h : Fits source collection t es) (he : es[i]? = some e) {r : Record}
    (hid : r.id = LoadStatus.idOf source collection) (hblank : LoadStatus.Blank r)
    (hfree : t.find? r.id = none) (told : (Request.create r).Answer) :
    Fits source collection (t.insert r.firstVersion) (es.set i
      (e.add ⟨⟨.create r, told⟩, t, t.insert r.firstVersion⟩ e.account)) := by
  have hproper := h.proper e (List.mem_of_getElem? he)
  have hkind : r.kind = sharedKind.tag := congrArg RecordId.kind hid
  obtain ⟨s, hs, htotal, -⟩ := hblank
  have hm : Quiet source collection ⟨⟨.create r, told⟩, t, t.insert r.firstVersion⟩ := by
    refine ⟨rfl, ?_, rfl⟩
    simp [creates, hkind]
  have hr : (t.insert r.firstVersion).find? (LoadStatus.idOf source collection) =
      some r.firstVersion :=
    (Table.find?_insert (r := r.firstVersion) hfree _).trans (if_pos hid.symm)
  refine h.add (m := ⟨⟨.create r, told⟩, t, t.insert r.firstVersion⟩) he rfl ?_ (hproper.keep hm)
    ?_ fun hexact _ => ?_
  · intro x hx
    obtain rfl := Option.some.inj (hr.symm.trans hx)
    exact ⟨s, hs⟩
  · intro x hx hisDone
    have hnever : r.firstVersion.isDone source collection = false :=
      Record.isDone_of_kind (r := r.firstVersion)
        (hkind ▸ (by decide : sharedKind.tag ≠ snapshotKind.tag))
    rcases Table.mem_insert hx with rfl | hold
    · exact absurd hisDone (ne_true_of_eq_false hnever)
    · exact .inl hold
  · exact hexact.add_of_created he rfl (hid ▸ hfree) hr hs htotal (created_concat_of_not
      hproper.idle hm.creates)

/-- The load status has been written. -/
theorem Fits.write (h : Fits source collection t es) (he : es[i]? = some e) {r stored : Record}
    (hid : r.id = LoadStatus.idOf source collection) (hmay : e.account.MayWrite r)
    (hstored : t.find? r.id = some stored) (hversion : stored.version = r.version)
    (told : (Request.update r).Answer) :
    Fits source collection (t.replace r.nextVersion) (es.set i
      (e.add ⟨⟨.update r, told⟩, t, t.replace r.nextVersion⟩
        (e.account.updated source collection r))) := by
  have hmem := List.mem_of_getElem? he
  have hproper := h.proper e hmem
  have hkind : r.kind = sharedKind.tag := congrArg RecordId.kind hid
  have hnever : r.isDone source collection = false :=
    Record.isDone_of_kind (hkind ▸ (by decide : sharedKind.tag ≠ snapshotKind.tag))
  have hm : Quiet source collection ⟨⟨.update r, told⟩, t, t.replace r.nextVersion⟩ := by
    refine ⟨rfl, rfl, ?_⟩
    simp [completes, hnever]
  obtain ⟨x, s, s', hseen, hs, hrequest, hs', htotal, hcomplete⟩ := hmay
  have hr : (t.replace r.nextVersion).find? (LoadStatus.idOf source collection) =
      some r.nextVersion := by
    rw [← hid]
    exact Table.find?_replace_self (r := r.nextVersion) hstored
  rw [PlanAccount.updated, if_pos hid, hs']
  refine h.add (m := ⟨⟨.update r, told⟩, t, t.replace r.nextVersion⟩) he rfl ?_ ?_ ?_
    fun hexact hbound => ?_
  · intro y hy
    obtain rfl := Option.some.inj (hr.symm.trans hy)
    exact ⟨s', hs'⟩
  · refine hproper.add ?_ (fun _ => rfl) .inl hproper.lost (fun hdone => ?_) ?_
      fun _ hy => absurd hy (Option.some_ne_none _).symm
    · rw [hm.claimed, Option.or_none, hproper.claimed]
    · obtain ⟨hcollection, -, hended⟩ := hproper.completed hdone
      refine ⟨hcollection, rfl, hended.imp_left fun hended => ?_⟩
      dsimp only
      rw [hended, Bool.true_or]
    · rintro (hdone | hnew)
      · exact hdone
      · exact absurd (hm.completes.symm.trans hnew) Bool.noConfusion
  · intro y hy hisDone
    rcases Table.mem_replace hy with rfl | hold
    · exact absurd hisDone (ne_true_of_eq_false hnever)
    · exact .inl hold
  · -- Whoever writes with the stored version has seen what is stored.
    have hx : t.find? (LoadStatus.idOf source collection) = some x := by
      obtain ⟨r', hr', hcovered⟩ := hexact.covered e hmem x hseen
      obtain rfl := Option.some.inj ((hid ▸ hstored).symm.trans hr')
      rcases hcovered with rfl | hlt
      · exact hr'
      · rw [hversion, hrequest] at hlt
        exact absurd hlt (UInt64.lt_irrefl _)
    refine hexact.add_of_written he hbound rfl hx hs hr hs' (congrArg (· + 1) hrequest) htotal
      hcomplete (created_concat_of_not hproper.idle hm.creates) rfl rfl rfl fun hended => ?_
    exact (Bool.or_eq_true _ _).mp hended

/-- An export has been completed. -/
theorem Fits.complete (h : Fits source collection t es) (he : es[i]? = some e) {r stored : Record}
    (hdone : r.isDone source collection = true) (hmay : e.account.MayComplete collection)
    (hstored : t.find? r.id = some stored) (hversion : stored.version = r.version)
    (told : (Request.update r).Answer) :
    Fits source collection (t.replace r.nextVersion) (es.set i
      (e.add ⟨⟨.update r, told⟩, t, t.replace r.nextVersion⟩
        (e.account.updated source collection r))) := by
  have hproper := h.proper e (List.mem_of_getElem? he)
  have hne := Record.id_ne_idOf source collection (Record.isDone_iff.mp hdone).2.1
  have hwrites : Mark.writes r.id ⟨⟨.update r, told⟩, t, t.replace r.nextVersion⟩ = true :=
    decide_eq_true (Table.find?_replace_ne (r := r.nextVersion) hstored
      (congrArg (· + 1) hversion.symm))
  have hcompletes : Mark.completes source collection
      ⟨⟨.update r, told⟩, t, t.replace r.nextVersion⟩ = true :=
    (Bool.and_eq_true _ _).mpr ⟨hdone, hwrites⟩
  rw [PlanAccount.updated, if_neg hne, if_pos hdone]
  refine h.keep (m := ⟨⟨.update r, told⟩, t, t.replace r.nextVersion⟩) he rfl ?_
    (fun _ _ _ => .inr hcompletes) ?_ (fun _ hx => .inr hx) ?_ fun hended => hended
  · exact Table.find?_replace_of_ne (r := r.nextVersion) (Ne.symm hne)
  · refine hproper.add ?_ (fun _ => rfl) .inl hproper.lost (fun _ => hmay) (fun _ => rfl)
      hproper.seen
    rw [hproper.claimed]
    exact Option.or_none
  · rw [created_concat_of_not hproper.idle rfl]

/-- An export has been claimed. -/
theorem Fits.claim (h : Fits source collection t es) (he : es[i]? = some e) {x : Record}
    {s owner : String} {lease : Span} (hidle : e.account.collection = none)
    (hne : x.id ≠ LoadStatus.idOf source collection) :
    Fits source collection (t.replace (x.claimed owner now lease)) (es.set i
      (e.add ⟨⟨.claim s snapshotKind.tag owner lease, .ok (some (x.claimed owner now lease))⟩, t,
        t.replace (x.claimed owner now lease)⟩ { e.account with
          collection := (x.claimed owner now lease).exported? })) := by
  have hproper := h.proper e (List.mem_of_getElem? he)
  have hnone : exportOf e.marks = none := hproper.claimed.trans hidle
  have hnever : (x.claimed owner now lease).isDone source collection = false :=
    Record.isDone_of_status (by decide : some Status.assigned ≠ some .completed)
  -- Whoever has completed an export had claimed it before.
  have hopen : ¬ e.account.hasCompleted = true := by
    intro hdone
    obtain ⟨hcollection, -⟩ := hproper.completed hdone
    exact nomatch hidle.symm.trans hcollection
  refine h.keep (m := ⟨⟨.claim s snapshotKind.tag owner lease,
      .ok (some (x.claimed owner now lease))⟩, t, t.replace (x.claimed owner now lease)⟩) he rfl ?_
    ?_ ?_ (fun _ hx => .inr hx) ?_ fun hended => hended
  · exact Table.find?_replace_of_ne (r := x.claimed owner now lease) (Ne.symm hne)
  · intro y hy hisDone
    rcases Table.mem_replace hy with rfl | hold
    · exact absurd hisDone (ne_true_of_eq_false hnever)
    · exact .inl hold
  · refine hproper.add ?_ (fun _ => rfl) .inl hproper.lost (fun hdone => absurd hdone hopen) ?_
      hproper.seen
    · rw [hnone]
      rfl
    · rintro (hdone | hnew)
      · exact absurd hdone hopen
      · cases hnew
  · rw [created_concat_of_not hproper.idle rfl]

/-- Somebody joins. -/
theorem Fits.join (h : Fits source collection t es) :
    Fits source collection t (es ++ [⟨(), [], .opening⟩]) := by
  have hadded {motive : PlanEntry → Prop} (hold : ∀ e ∈ es, motive e)
      (hnew : motive ⟨(), [], .opening⟩) : ∀ e ∈ es ++ [⟨(), [], .opening⟩], motive e :=
    List.forall_mem_append.mpr ⟨hold, List.forall_mem_singleton.mpr hnew⟩
  have hwrites : writes (LoadStatus.idOf source collection) (es ++ [⟨(), [], .opening⟩]) =
      writes (LoadStatus.idOf source collection) es := by
    simp [writes]
  have hcreated :
      allCreated collection (es ++ [⟨(), [], .opening⟩]) = allCreated collection es := by
    simp [allCreated, created]
  refine ⟨h.readable, ?_, hadded h.proper ?_, fun r hr hdone => ?_, fun hbound => ?_⟩
  · rw [h.total]
    simp [allCounted]
  · exact ⟨rfl, fun _ => rfl, (nomatch ·), fun hg => absurd hg (Nat.lt_irrefl 0), (nomatch ·),
      fun _ hm => absurd hm List.not_mem_nil, fun _ hx => nomatch hx⟩
  · rw [List.any_append, h.done r hr hdone, Bool.true_or]
  · obtain ⟨hversion, hcovered, hbalance, hended⟩ := h.exact (by
      unfold Bounded at hbound ⊢
      rw [hwrites, hcreated] at hbound
      exact hbound)
    exact ⟨hversion.trans hwrites.symm, hadded hcovered (fun _ hx => nomatch hx),
      hadded hbalance rfl, hadded hended fun hg => nomatch hg⟩

/-- A stranger leaves the books alone. -/
theorem Fits.stranger (h : Fits source collection t es) {request : Request}
    (hspares : request.SparesExport source collection) (now : Instant) :
    Fits source collection (t.answer now request).2 es := by
  obtain ⟨hfind, hrows⟩ := hspares.answer t now
  refine ⟨hfind ▸ h.readable, ?_, h.proper, fun r hr hdone => h.done r (hrows r hr hdone) hdone,
    fun hbound => ?_⟩
  · rw [Table.planned, Table.loadStatus?, hfind]
    exact h.total
  · obtain ⟨hversion, hcovered, hbalance, hended⟩ := h.exact hbound
    refine ⟨by rw [hfind, hversion], ?_, hbalance, ?_⟩
    · rw [hfind]
      exact hcovered
    · rw [Table.loadStatus?, hfind]
      exact hended

/-! ### Any request -/

/-- A request has been answered, or it has reached the table and yet failed. -/
def IsTold {request : Request} (told answer : request.Answer) : Prop :=
  told = answer ∨ ∃ failure, told = .error failure ∧ failure.isLostWrite = false

/-- Whatever has come of a request, its account can be kept. -/
def Kept (source collection : String) (t u : Table) (es : List PlanEntry) (i : Nat) (e : PlanEntry)
    (request : Request) (told : request.Answer) : Prop :=
  ∃ g, (Surroundings.planning source collection).Tells e.account request told g ∧
    Fits source collection u (es.set i (e.add ⟨⟨request, told⟩, t, u⟩ g))

theorem Fits.kept_get (h : Fits source collection t es) (he : es[i]? = some e) (asked : RecordId)
    {told : (Request.get asked).Answer} (htold : IsTold told (.ok (t.find? asked))) :
    Kept source collection t t es i e (.get asked) told := by
  rcases htold with rfl | ⟨failure, rfl, -⟩
  · by_cases hid : asked = LoadStatus.idOf source collection
    · subst hid
      cases hfind : t.find? (LoadStatus.idOf source collection) with
      | none => exact ⟨e.account.missed, (if_pos rfl).symm, h.miss he hfind⟩
      | some x =>
        have hid := (Table.find?_some hfind).2
        exact ⟨_, ⟨hid, fun _ => h.readable x hfind, (if_pos rfl).symm⟩, h.see he hfind⟩
    · refine ⟨e.account, ?_, h.unmoved he ⟨rfl, rfl, rfl⟩⟩
      cases hfind : t.find? asked with
      | none => exact (if_neg hid).symm
      | some x =>
        exact ⟨(Table.find?_some hfind).2, fun heq => absurd heq hid, (if_neg hid).symm⟩
  · exact ⟨e.account, rfl, h.unmoved he ⟨rfl, rfl, rfl⟩⟩

theorem Fits.kept_create (h : Fits source collection t es) (he : es[i]? = some e) {r : Record}
    (hmay : (Surroundings.planning source collection).May e.account (.create r)) (now : Instant)
    {told : (Request.create r).Answer} (htold : IsTold told (t.answer now (.create r)).1) :
    Kept source collection t (t.answer now (.create r)).2 es i e (.create r) told := by
  obtain ⟨hblank, hquery, hnever⟩ := hmay
  cases hfind : t.find? r.id with
  | some x =>
    rw [Table.answer_create_of_some now hfind] at htold ⊢
    have hm : Quiet source collection ⟨⟨.create r, told⟩, t, t⟩ := by
      refine ⟨rfl, ?_, rfl⟩
      simp [creates, hfind]
    refine ⟨e.account, ?_, h.unmoved he hm⟩
    rcases htold with rfl | ⟨failure, rfl, -⟩
    · exact (if_neg fun hnew => Bool.noConfusion hnew.2).symm
    · exact .inl rfl
  | none =>
    have hanswer := Table.answer_create_of_none now hfind
    rw [hanswer] at htold ⊢
    by_cases hkind : r.kind = queryKind.tag
    · obtain ⟨hclaimed, hopen⟩ := hquery hkind
      refine ⟨_, ?_, h.create he hkind hclaimed hopen hnever hfind told⟩
      rcases htold with rfl | ⟨failure, rfl, -⟩
      · exact (if_pos ⟨hkind, rfl⟩).symm
      · exact .inr ⟨hkind, rfl⟩
    · refine ⟨e.account, ?_, ?_⟩
      · rcases htold with rfl | ⟨failure, rfl, -⟩
        · exact (if_neg fun hnew => hkind hnew.1).symm
        · exact .inl rfl
      · by_cases hid : r.id = LoadStatus.idOf source collection
        · exact h.found he hid (hblank hid) hfind told
        · have hspares : (Request.create r).SparesExport source collection := ⟨hid, hnever⟩
          have hfits := h.spared he hspares now told ⟨rfl, by simp [creates, hkind], rfl⟩
          rwa [hanswer] at hfits

theorem Fits.kept_update (h : Fits source collection t es) (he : es[i]? = some e) {r : Record}
    (hmay : (Surroundings.planning source collection).May e.account (.update r)) (now : Instant)
    {told : (Request.update r).Answer} (htold : IsTold told (t.answer now (.update r)).1) :
    Kept source collection t (t.answer now (.update r)).2 es i e (.update r) told := by
  by_cases hcurrent : ∃ stored, t.find? r.id = some stored ∧ stored.version = r.version
  · obtain ⟨stored, hstored, hversion⟩ := hcurrent
    have hanswer := Table.answer_update_of_current now hstored hversion
    rw [hanswer] at htold ⊢
    refine ⟨e.account.updated source collection r, ?_, ?_⟩
    · rcases htold with rfl | ⟨failure, rfl, hkept⟩
      · exact ⟨rfl, rfl⟩
      · exact .inr ⟨hkept, rfl⟩
    · by_cases hid : r.id = LoadStatus.idOf source collection
      · exact h.write he hid (hmay.1 hid) hstored hversion told
      · cases hdone : r.isDone source collection with
        | true => exact h.complete he hdone (hmay.2 hdone) hstored hversion told
        | false =>
          have hspares : (Request.update r).SparesExport source collection := ⟨hid, hdone⟩
          have hfits := h.spared he hspares now told
            ⟨rfl, rfl, by simp [completes, hdone]⟩
          rw [PlanAccount.updated, if_neg hid, hdone]
          rwa [hanswer] at hfits
  · -- An update of any other version changes nothing.
    have hstale : ∀ stored, t.find? r.id = some stored → stored.version ≠ r.version :=
      fun stored hstored hversion => hcurrent ⟨stored, hstored, hversion⟩
    rw [Table.answer_update_of_stale now hstale] at htold ⊢
    have hm : Quiet source collection ⟨⟨.update r, told⟩, t, t⟩ := by
      refine ⟨rfl, rfl, ?_⟩
      simp [completes, Mark.writes]
    refine ⟨e.account, ?_, h.unmoved he hm⟩
    rcases htold with rfl | ⟨failure, rfl, -⟩ <;> exact .inl rfl

theorem Fits.kept_claim (h : Fits source collection t es) (he : es[i]? = some e)
    {s kind owner : String} {lease : Span}
    (hmay : (Surroundings.planning source collection).May e.account (.claim s kind owner lease))
    (now : Instant) {told : (Request.claim s kind owner lease).Answer}
    (htold : IsTold told (t.answer now (.claim s kind owner lease)).1) :
    Kept source collection t (t.answer now (.claim s kind owner lease)).2 es i e
      (.claim s kind owner lease) told := by
  obtain ⟨hshared, hidle⟩ := hmay
  have hspares : (Request.claim s kind owner lease).SparesExport source collection :=
    fun heq => hshared heq.2
  have hspared := h.spared he hspares now
  rcases t.answer_claim now s kind owner lease with hanswer | ⟨x, hx, hsource, hkind, hanswer⟩
  · rw [hanswer] at htold ⊢
    rcases htold with rfl | ⟨failure, rfl, -⟩
    · exact ⟨e.account, rfl, h.unmoved he ⟨rfl, rfl, rfl⟩⟩
    · exact ⟨e.account, rfl, h.unmoved he ⟨rfl, rfl, rfl⟩⟩
  · rw [hanswer] at htold hspared ⊢
    rcases htold with rfl | ⟨failure, rfl, -⟩
    · by_cases hexport : kind = snapshotKind.tag
      · subst hexport
        refine ⟨_, ⟨hkind, rfl, (if_pos rfl).symm⟩, h.claim he (hidle rfl) fun heq => ?_⟩
        exact absurd (hkind.symm.trans (congrArg RecordId.kind heq))
          (by decide : snapshotKind.tag ≠ sharedKind.tag)
      · have hkind' : (x.claimed owner now lease).kind ≠ snapshotKind.tag := hkind ▸ hexport
        exact ⟨e.account, ⟨hkind, rfl, (if_neg hexport).symm⟩,
          hspared _ ⟨Record.exported_of_kind hkind', rfl, rfl⟩⟩
    · exact ⟨e.account, rfl, hspared _ ⟨rfl, rfl, rfl⟩⟩

end Planning

/-- The watch over those who take part in the export of a collection. -/
def Watch.planning (source collection : String) : Watch Unit Unit where
  surroundings := .planning source collection
  post _ _ _ := True
  Fits := Planning.Fits source collection

/-- **Every step of those who take part is accounted for.** -/
theorem Watch.governs_planning (E : Interface) (source collection : String) :
    (Watch.planning source collection).Governs (Charter.exporting E source collection) where
  joins t es _ p hfits hp := ⟨.opening, hfits.join, hp.planning⟩
  reaches t es i e now request told hfits he hmay htold := by
    have htold' : Planning.IsTold told (t.answer now request).1 := by
      refine htold.imp_right ?_
      rintro ⟨failure, hfailure, hhides⟩
      exact ⟨failure, hfailure, (Bool.not_eq_true' _).mp hhides⟩
    match request with
    | .get asked => exact hfits.kept_get he asked htold'
    | .create r => exact hfits.kept_create he hmay now htold'
    | .update r => exact hfits.kept_update he hmay now htold'
    | .claim s kind owner lease => exact hfits.kept_claim he hmay now htold'
    | .prepare | .byStatus _ _ _ _ | .all _ _ =>
      refine ⟨e.account, ?_, hfits.unmoved he ⟨rfl, rfl, rfl⟩⟩
      cases told <;> rfl
  fails t es i e request failure hfits he hmay := by
    refine ⟨e.account, ?_, ?_⟩
    · cases request with
      | create r | update r => exact .inl rfl
      | _ => rfl
    · rw [Watch.set_of_getElem he]
      exact hfits
  asks t es request now hfits hasks := hfits.stranger hasks now
  shows _ := trivial

end LeasedWork
