import LeasedWork.Proofs.Fleet.PlanBooks

/-! # Audits of exports

When an export is completed, its load status should say that all queries are planned, and count
every query that has been created for the collection (`Workshop.Trustworthy`).  It does so exactly
when no pass has left queries uncounted, provided that the pass which has completed the export has
found the load status (`Workshop.audited`).

A pass leaves queries uncounted when it stops between the creation of a page's queries and their
count.  The next pass finds these queries and does not count them either, and so the load status
stays short for good (`Workshop.short_afterRetry`).
-/
namespace LeasedWork

/-! ## The audit -/

/-- How many of the queries that have been created for a collection have not been counted. -/
def Mark.uncounted (source collection : String) (marks : List Mark) : Nat :=
  created collection marks - allCounted (LoadStatus.idOf source collection) marks

/-- There is no load status of a collection yet, and no export of it has been completed. -/
structure Table.IsUnplanned (source collection : String) (t : Table) : Prop where
  status : t.find? (LoadStatus.idOf source collection) = none
  exports : ∀ r ∈ t.rows, r.isDone source collection = false

theorem Planning.fits_start {source collection : String} {t : Table}
    (h : t.IsUnplanned source collection) : Fits source collection t [] where
  readable r hr := nomatch h.status.symm.trans hr
  total := by
    rw [Table.planned, Table.loadStatus?, h.status]
    rfl
  proper _ he := absurd he List.not_mem_nil
  done r hr hdone := absurd hdone (ne_true_of_eq_false (h.exports r hr))
  exact _ := by
    refine ⟨?_, fun _ he => absurd he List.not_mem_nil, fun _ he => absurd he List.not_mem_nil,
      fun _ he => absurd he List.not_mem_nil⟩
    rw [h.status]
    rfl

namespace Job

variable {E : Interface} (source collection : String) (job : Job E Unit Unit)

/-- A pass has completed an export of a collection. -/
def HasCompleted : Prop := ∃ m ∈ job.marks, m.completes source collection = true

/-- A job has come to its end. -/
def isOver : Bool :=
  match job.rest with
  | .done _ => true
  | .ask _ _ => false

/-- The load status of a collection was there whenever a pass asked for something. -/
def HasFound : Prop := ∀ m ∈ job.marks, m.before.Has (LoadStatus.idOf source collection)

end Job

namespace Workshop

open Mark

variable {E : Interface} {source collection : String}

/-- How many queries have been created for a collection. -/
def created (collection : String) (w : Workshop E Unit Unit) : Nat :=
  (w.jobs.map fun job => Mark.created collection job.marks).sum

/-- The load status of a collection says that all queries are planned, and counts all of them. -/
def Trustworthy (source collection : String) (w : Workshop E Unit Unit) : Prop :=
  ∃ s, w.table.loadStatus? (LoadStatus.idOf source collection) = some s ∧
    s.totalComplete = true ∧ s.totalPartitions.toNat = w.created collection

/-- What the load status of a collection says of those who take part in its export. -/
structure Audited (source collection : String) (w : Workshop E Unit Unit) : Prop where
  /-- It counts what has been created, but for what nobody has counted. -/
  total : ∀ s, w.table.loadStatus? (LoadStatus.idOf source collection) = some s →
    s.totalPartitions.toNat +
      (w.jobs.map fun job => uncounted source collection job.marks).sum = w.created collection
  /-- Nobody counts what it has not created. -/
  counted_le : ∀ job ∈ w.jobs, allCounted (LoadStatus.idOf source collection) job.marks ≤
    Mark.created collection job.marks
  /-- An export that has been completed has been completed by a pass. -/
  done : ∀ r ∈ w.table.rows, r.isDone source collection = true →
    ∃ job ∈ w.jobs, job.HasCompleted source collection
  /-- A pass that has completed an export has counted all that it has created, and all queries are
  planned, if there was a load status. -/
  completed : ∀ job ∈ w.jobs, job.HasCompleted source collection → job.HasFound source collection →
    uncounted source collection job.marks = 0 ∧
      ∃ s, w.table.loadStatus? (LoadStatus.idOf source collection) = some s ∧
        s.totalComplete = true

theorem audited_of_sound {w : Workshop E Unit Unit}
    (h : (Watch.planning source collection).Sound w)
    (hwrites : w.writes (LoadStatus.idOf source collection) < UInt64.size)
    (hcreated : w.created collection < UInt64.size) : w.Audited source collection := by
  obtain ⟨(es : List PlanEntry), hes, hfits⟩ := h
  have hmap {β : Type} (f : List Mark → β) :
      es.map (fun e => f e.marks) = w.jobs.map fun job => f job.marks :=
    Watch.map_entries (fun _ => f) hes
  have hbounded : Planning.Bounded source collection es := by
    constructor
    · unfold Planning.writes
      rw [hmap fun marks => marks.countP (·.writes (LoadStatus.idOf source collection))]
      exact hwrites
    · unfold Planning.allCreated
      rw [hmap (Mark.created collection)]
      exact hcreated
  have hexact := hfits.exact hbounded
  have hentry : ∀ job ∈ w.jobs, ∃ e ∈ es, e.marks = job.marks := by
    intro job hjob
    obtain ⟨e, he, hfollows⟩ := Watch.exists_entry hes hjob
    exact ⟨e, he, hfollows.marks⟩
  have hle : ∀ job ∈ w.jobs, allCounted (LoadStatus.idOf source collection) job.marks ≤
      Mark.created collection job.marks := by
    intro job hjob
    obtain ⟨e, he, hmarks⟩ := hentry job hjob
    have hbalance := hexact.balance e he
    rw [hmarks] at hbalance
    omega
  refine ⟨fun s hs => ?_, hle, fun r hr hdone => ?_, fun job hjob hcompleted hfound => ?_⟩
  · have htotal := hfits.total
    have hsum : (w.jobs.map fun job =>
        allCounted (LoadStatus.idOf source collection) job.marks).sum +
          (w.jobs.map fun job => uncounted source collection job.marks).sum =
            w.created collection := by
      refine Watch.sum_map_add fun job hjob => ?_
      have hle := hle job hjob
      unfold uncounted
      omega
    rw [Table.planned, hs, hmap (allCounted (LoadStatus.idOf source collection))] at htotal
    have hs' : s.totalPartitions.toNat = (w.jobs.map fun job =>
        allCounted (LoadStatus.idOf source collection) job.marks).sum := by
      have hsmall : (w.jobs.map fun job =>
          allCounted (LoadStatus.idOf source collection) job.marks).sum < UInt64.size := by
        omega
      exact (congrArg UInt64.toNat htotal).trans (UInt64.toNat_ofNat_of_lt hsmall)
    omega
  · have hany := hfits.done r hr hdone
    have hjobs := congrArg (List.any · id)
      (hmap fun marks => marks.any (·.completes source collection))
    rw [List.any_map, List.any_map] at hjobs
    obtain ⟨job, hjob, hcompletes⟩ := List.any_eq_true.mp (hjobs.symm.trans hany)
    exact ⟨job, hjob, List.any_eq_true.mp hcompletes⟩
  · obtain ⟨e, he, hmarks⟩ := hentry job hjob
    have hproper := hfits.proper e he
    obtain ⟨m, hm, hcompletes⟩ := hcompleted
    obtain ⟨-, howed, hended⟩ := hproper.completed (hproper.marked m (hmarks ▸ hm) hcompletes)
    -- Whoever has found the load status all along has lost nothing.
    have hnever : ¬ e.account.hasMissed = true := by
      intro hmissed
      obtain ⟨m, hm, hfree⟩ := hproper.missed hmissed
      have hhas := hfound m (hmarks ▸ hm)
      rw [Table.Has, hfree] at hhas
      cases hhas
    have hlost : ¬ 0 < e.account.lost := fun hlost => hnever (hproper.lost hlost)
    have hbalance := hexact.balance e he
    rw [hmarks] at hbalance
    refine ⟨?_, hexact.ended e he (hended.resolve_right hnever)⟩
    unfold uncounted
    omega

/-- **What a completed export says of its load status.** -/
theorem audited (start : Table) (hstart : start.IsUnplanned source collection)
    (moves : List (Move (Charter.exporting E source collection)))
    (hwrites : (run start moves).writes (LoadStatus.idOf source collection) < UInt64.size)
    (hcreated : (run start moves).created collection < UInt64.size) :
    (run start moves).Audited source collection ∧
      ((∃ job ∈ (run start moves).jobs, job.HasCompleted source collection ∧
          job.HasFound source collection) →
        ((run start moves).Trustworthy source collection ↔
          ∀ job ∈ (run start moves).jobs, uncounted source collection job.marks = 0)) := by
  have hW := Watch.governs_planning E source collection
  have hsound := Watch.sound_run hW (Planning.fits_start hstart) moves
  have haudited := audited_of_sound hsound hwrites hcreated
  refine ⟨haudited, ?_⟩
  rintro ⟨job, hjob, hcompleted, hfound⟩
  obtain ⟨-, s, hs, hcomplete⟩ := haudited.completed job hjob hcompleted hfound
  have htotal := haudited.total s hs
  constructor
  · rintro ⟨s', hs', -, hall⟩ job hjob
    obtain rfl := Option.some.inj (hs.symm.trans hs')
    obtain ⟨i, hi⟩ := List.getElem?_of_mem hjob
    have hpart := Watch.le_sum_map hi fun job => uncounted source collection job.marks
    omega
  · intro hall
    have hzero : ((run start moves).jobs.map fun job =>
        uncounted source collection job.marks).sum = 0 := by
      rw [List.map_congr_left hall]
      simp
    exact ⟨s, hs, hcomplete, by omega⟩

/-! ### Two runs -/

/-- The only node of a source. -/
def planningNode : Node := ⟨"db", "node-a", .seconds 60⟩

/-- One page of two queries. -/
def twoQueries : Supplier Interface.none :=
  ⟨[fun _ _ => pure ⟨["q0", "q1"], true, none⟩], fun _ _ => pure (.storage "no more pages")⟩

theorem asks_twoQueries : twoQueries.Asks (Request.IsAside "db" "db.orders") := by
  refine ⟨fun next hnext _ _ => ?_, fun _ _ => trivial⟩
  obtain rfl := List.mem_singleton.mp hnext
  trivial

/-- A candidate has bootstrapped, and then a pass over the export has planned it. -/
def onePass : List (Move (Charter.exporting Interface.none "db" "db.orders")) :=
  let turn (i : Nat) : Move (Charter.exporting Interface.none "db" "db.orders") :=
    .turn i ⟨.epoch, none, false, fun q => q.elim⟩
  [.join () _ (.election (.new planningNode [⟨"db.orders", some 100, false⟩] .default)
      [⟨"db.orders", some 100, false⟩] ⟨rfl, rfl, fun _ _ h => nomatch h⟩),
    .join () _ (.planner planningNode .default twoQueries rfl asks_twoQueries)] ++
  List.replicate 12 (turn 0) ++ List.replicate 14 (turn 1)

/-- The load status counts both queries. -/
theorem trustworthy_onePass : (run .empty onePass).Trustworthy "db" "db.orders" ∧
    (run .empty onePass).created "db.orders" = 2 := by
  have hstart : Table.empty.IsUnplanned "db" "db.orders" :=
    ⟨rfl, fun _ hr => absurd hr List.not_mem_nil⟩
  obtain ⟨hwrites, hcreated, hjobs, hcounted⟩ :
      (run .empty onePass).writes (LoadStatus.idOf "db" "db.orders") = 2 ∧
      (run .empty onePass).created "db.orders" = 2 ∧
      (run .empty onePass).jobs.any (fun job => job.marks.any (·.completes "db" "db.orders") &&
        job.marks.all fun m => (m.before.find? (LoadStatus.idOf "db" "db.orders")).isSome) = true ∧
      (run .empty onePass).jobs.all
        (fun job => uncounted "db" "db.orders" job.marks = 0) = true := by
    decide +kernel
  obtain ⟨job, hjob, hboth⟩ := List.any_eq_true.mp hjobs
  obtain ⟨hcompletes, hfinds⟩ := (Bool.and_eq_true _ _).mp hboth
  have haudit := (audited .empty hstart onePass (by rw [hwrites]; decide)
    (by rw [hcreated]; decide)).2
    ⟨job, hjob, List.any_eq_true.mp hcompletes, List.all_eq_true.mp hfinds⟩
  refine ⟨haudit.mpr fun job hjob => ?_, hcreated⟩
  exact of_decide_eq_true (List.all_eq_true.mp hcounted job hjob)

/-- A pass whose second creation fails gives the export up, and another pass plans it again. -/
def retried : List (Move (Charter.exporting Interface.none "db" "db.orders")) :=
  let turn (i : Nat) (fault : Option Failure) :
      Move (Charter.exporting Interface.none "db" "db.orders") :=
    .turn i ⟨.epoch, fault, false, fun q => q.elim⟩
  [.join () _ (.election (.new planningNode [⟨"db.orders", some 100, false⟩] .default)
      [⟨"db.orders", some 100, false⟩] ⟨rfl, rfl, fun _ _ h => nomatch h⟩),
    .join () _ (.planner planningNode .default twoQueries rfl asks_twoQueries),
    .join () _ (.planner planningNode .default twoQueries rfl asks_twoQueries)] ++
  List.replicate 12 (turn 0 none) ++ List.replicate 5 (turn 1 none) ++
  [turn 1 (some (.storage "down"))] ++ List.replicate 2 (turn 1 none) ++
  List.replicate 14 (turn 2 none)

/-- **A retry leaves the load status short.**  The query that the first pass has created is counted
by nobody: not by that pass, which fails before it counts, and not by the second one, which finds
that the query is there already. -/
theorem short_afterRetry :
    ¬ ∀ moves : List (Move (Charter.exporting Interface.none "db" "db.orders")),
      (∃ r ∈ (run .empty moves).table.rows, r.isDone "db" "db.orders" = true) →
        (∀ job ∈ (run .empty moves).jobs, job.isOver = true) →
          (run .empty moves).Trustworthy "db" "db.orders" := by
  intro hall
  obtain ⟨hdone, hover, hstatus, hcreated⟩ :
      (run .empty retried).table.rows.any (·.isDone "db" "db.orders") = true ∧
      (run .empty retried).jobs.all (·.isOver) = true ∧
      ((run .empty retried).table.loadStatus? (LoadStatus.idOf "db" "db.orders")).map
        LoadStatus.totalPartitions = some 1 ∧
      (run .empty retried).created "db.orders" = 2 := by
    decide +kernel
  obtain ⟨s, hs, -, htotal⟩ := hall retried (List.any_eq_true.mp hdone) (List.all_eq_true.mp hover)
  rw [hs] at hstatus
  have htotal' : s.totalPartitions = 1 := Option.some.inj hstatus
  rw [htotal', hcreated] at htotal
  exact absurd htotal (by decide)

end Workshop

end LeasedWork
