import LeasedWork.Proofs.Fleet.Counters
import LeasedWork.Proofs.Fleet.Exports

/-! # Accounts of planning

Whoever plans an export creates the queries of a page, adds their number to the load status of the
collection, and goes on to the next page.  An account with it (`PlanAccount`) says how many queries
it has created that it has still to count, which it *owes*, and how many will never be counted
because there was no load status, which are *lost*.

Everybody who takes part is in the same surroundings (`Surroundings.planning`), for one collection:
a load status may be created with nothing counted; it may be written with what is owed, over the
one that has been seen; and an export of the collection may be completed only by somebody who
owes nothing, and who has either written that all queries are planned or found no load status.  This
is how a pass over an export behaves (`Work.planning_pass`), for this collection or any other one,
and an election (`Candidate.planning_pass`), and whoever counts a loaded query.
-/
namespace LeasedWork

/-- The collection that the record of an export is for. -/
def Record.exported? (r : Record) : Option String :=
  if r.kind = snapshotKind.tag then
    match SnapshotId.readKey r.key with
    | .ok i => some i.collection
    | .error _ => none
  else none

/-- A record says that an export of a collection has been completed. -/
def Record.isDone (source collection : String) (r : Record) : Bool :=
  r.source = source ∧ r.exported? = some collection ∧ r.status = some .completed

namespace Record

variable {source collection : String} {r r' : Record}

theorem exported_of_kind (h : r.kind ≠ snapshotKind.tag) : r.exported? = none := if_neg h

theorem exported_congr (h : r.id = r'.id) : r.exported? = r'.exported? := by
  have hkind : r.kind = r'.kind := congrArg RecordId.kind h
  have hkey : r.key = r'.key := congrArg RecordId.key h
  rw [exported?, exported?, hkind, hkey]

/-- A partition of an export is for the same collection as its record. -/
theorem exported_of_ofRecord {p : Partition snapshotKind}
    (h : Partition.ofRecord snapshotKind r = .ok p) :
    r.exported? = some p.identity.collection := by
  unfold Partition.ofRecord at h
  unfold exported?
  split at h
  · cases h
  · rename_i hkind
    rw [if_pos (not_not.mp hkind)]
    split at h
    · cases h
    · rename_i identity hread
      obtain ⟨progress, rfl⟩ :
          ∃ progress, (⟨identity, progress, some r⟩ : Partition snapshotKind) = p := by
        cases hprogress : Partition.readProgress? snapshotKind r with
        | error failure => rw [hprogress] at h; cases h
        | ok progress => rw [hprogress] at h; exact ⟨progress, Except.ok.inj h⟩
      have hread' : SnapshotId.readKey r.key = .ok identity := hread
      rw [hread']

theorem isDone_iff : r.isDone source collection = true ↔
    r.source = source ∧ r.exported? = some collection ∧ r.status = some .completed :=
  decide_eq_true_iff

theorem isDone_of_kind (h : r.kind ≠ snapshotKind.tag) : r.isDone source collection = false := by
  rw [← Bool.not_eq_true, isDone_iff, exported_of_kind h]
  rintro ⟨-, hnone, -⟩
  cases hnone

theorem isDone_of_status (h : r.status ≠ some .completed) :
    r.isDone source collection = false := by
  rw [← Bool.not_eq_true, isDone_iff]
  exact fun hdone => h hdone.2.2

end Record

/-! ## The account -/

/-- What is known of somebody who may plan the export of a collection. -/
structure PlanAccount where
  /-- The collection whose export it has claimed. -/
  collection : Option String
  /-- The load status that it has seen last. -/
  seen : Option Record
  /-- How many queries it has created that it has still to count. -/
  owed : Nat
  /-- How many queries it has created that it had no load status to count in. -/
  lost : Nat
  /-- Whether it has written that all queries are planned. -/
  hasEnded : Bool
  /-- Whether it has found no load status. -/
  hasMissed : Bool
  /-- Whether it has completed an export of the collection. -/
  hasCompleted : Bool

namespace PlanAccount

/-- Nothing has been done yet. -/
def opening : PlanAccount := ⟨none, none, 0, 0, false, false, false⟩

/-- A query has been created. -/
def created (collection : String) (g : PlanAccount) : PlanAccount :=
  if g.collection = some collection then { g with owed := g.owed + 1 } else g

/-- There was no load status. -/
def missed (g : PlanAccount) : PlanAccount :=
  { g with owed := 0, lost := g.lost + g.owed, hasMissed := true }

/-- A record has been written. -/
def updated (source collection : String) (r : Record) (g : PlanAccount) : PlanAccount :=
  if r.id = LoadStatus.idOf source collection then
    { g with
      seen := none
      owed := 0
      hasEnded := g.hasEnded || (LoadStatus.ofRecord r.nextVersion).toOption.any (·.totalComplete) }
  else if r.isDone source collection then { g with hasCompleted := true }
  else g

/-- A load status may be written: it adds what is owed to the one that has been seen. -/
def MayWrite (r : Record) (g : PlanAccount) : Prop :=
  ∃ x s s', g.seen = some x ∧ LoadStatus.ofRecord x = .ok s ∧ r.version = x.version ∧
    LoadStatus.ofRecord r.nextVersion = .ok s' ∧
    s'.totalPartitions = s.totalPartitions + .ofNat g.owed ∧
    (s.totalComplete = true → s'.totalComplete = true)

/-- An export of the collection may be completed. -/
def MayComplete (collection : String) (g : PlanAccount) : Prop :=
  g.collection = some collection ∧ g.owed = 0 ∧ (g.hasEnded = true ∨ g.hasMissed = true)

end PlanAccount

/-- What a load status says when it is created. -/
def LoadStatus.Blank (r : Record) : Prop :=
  ∃ s, LoadStatus.ofRecord r.firstVersion = .ok s ∧ s.totalPartitions = 0 ∧
    s.totalComplete = false

/-- What surrounds somebody who may plan the export of a collection. -/
def Surroundings.planning (source collection : String) : Surroundings where
  State := PlanAccount
  May g request :=
    match request with
    | .create r => (r.id = LoadStatus.idOf source collection → LoadStatus.Blank r) ∧
        (r.kind = queryKind.tag → g.collection.isSome = true ∧ g.hasCompleted = false) ∧
        r.isDone source collection = false
    | .update r => (r.id = LoadStatus.idOf source collection → g.MayWrite r) ∧
        (r.isDone source collection = true → g.MayComplete collection)
    | .claim _ kind _ _ => kind ≠ sharedKind.tag ∧ (kind = snapshotKind.tag → g.collection = none)
    | .prepare | .get _ | .byStatus _ _ _ _ | .all _ _ => True
  Tells g request told g' :=
    match request, told with
    | .get id, .ok none =>
        g' = if id = LoadStatus.idOf source collection then g.missed else g
    | .get id, .ok (some x) => x.id = id ∧
        (id = LoadStatus.idOf source collection → ∃ s, LoadStatus.ofRecord x = .ok s) ∧
        g' = if id = LoadStatus.idOf source collection then { g with seen := some x } else g
    | .create r, .ok isNew =>
        g' = if r.kind = queryKind.tag ∧ isNew = true then g.created collection else g
    | .create r, .error _ => g' = g ∨ r.kind = queryKind.tag ∧ g' = g.created collection
    | .update r, .ok written => written = r.nextVersion ∧ g' = g.updated source collection r
    | .update r, .error failure =>
        g' = g ∨ failure.isLostWrite = false ∧ g' = g.updated source collection r
    | .claim _ kind _ _, .ok (some r) => r.kind = kind ∧ r.status = some .assigned ∧
        g' = if kind = snapshotKind.tag then { g with collection := r.exported? } else g
    | _, _ => g' = g

/-! ## What does not concern planning -/

/-- A request has nothing to do with planning a collection's export. -/
def Request.IsAside (source collection : String) : Request → Prop
  | .create r => r.id ≠ LoadStatus.idOf source collection ∧ r.kind ≠ queryKind.tag ∧
      r.isDone source collection = false
  | .update r => r.id ≠ LoadStatus.idOf source collection ∧ r.isDone source collection = false
  | .claim _ kind _ _ => kind ≠ sharedKind.tag ∧ kind ≠ snapshotKind.tag
  | .prepare | .get _ | .byStatus _ _ _ _ | .all _ _ => True

/-- It has claimed the export of some collection and not completed it, and owes nothing. -/
structure PlanAccount.Ready (name : String) (g : PlanAccount) : Prop where
  collection : g.collection = some name
  isOpen : g.hasCompleted = false
  owed : g.owed = 0

namespace Surroundings

variable {E : Interface} {α : Type} {source collection name : String} {g : PlanAccount}

theorem may_of_isAside {request : Request} (h : request.IsAside source collection) :
    (planning source collection).May g request := by
  cases request with
  | prepare | get _ | byStatus _ _ _ _ | all _ _ => trivial
  | create r => exact ⟨fun hid => absurd hid h.1, fun hkind => absurd hkind h.2.1, h.2.2⟩
  | update r =>
    exact ⟨fun hid => absurd hid h.1, fun hdone => absurd hdone (ne_true_of_eq_false h.2)⟩
  | claim s kind owner lease => exact ⟨h.1, fun hkind => absurd hkind h.2⟩

theorem ready_of_isAside {request : Request} (h : request.IsAside source collection)
    {told : request.Answer} {g' : PlanAccount} (hg : g.Ready name)
    (htold : (planning source collection).Tells g request told g') : g'.Ready name := by
  match request, told with
  | .prepare, .ok _ | .prepare, .error _ | .get _, .error _ | .byStatus _ _ _ _, .ok _
  | .byStatus _ _ _ _, .error _ | .all _ _, .ok _ | .all _ _, .error _
  | .claim _ _ _ _, .ok none | .claim _ _ _ _, .error _ => exact htold ▸ hg
  | .get id, .ok none =>
    obtain rfl := htold
    split
    · exact ⟨hg.collection, hg.isOpen, rfl⟩
    · exact hg
  | .get id, .ok (some x) =>
    obtain ⟨-, -, rfl⟩ := htold
    split
    · exact ⟨hg.collection, hg.isOpen, hg.owed⟩
    · exact hg
  | .create r, .ok isNew =>
    obtain rfl := htold
    rw [if_neg fun hnew => h.2.1 hnew.1]
    exact hg
  | .create r, .error _ =>
    obtain rfl := htold.resolve_right fun hnew => h.2.1 hnew.1
    exact hg
  | .update r, .ok _ | .update r, .error _ =>
    have hsame : g.updated source collection r = g := by
      rw [PlanAccount.updated, if_neg h.1, h.2]
      rfl
    have hg' : g' = g ∨ g' = g.updated source collection r := by
      first
        | exact .inr htold.2
        | exact htold.imp id And.right
    obtain rfl : g' = g := hg'.elim id fun heq => heq.trans hsame
    exact hg
  | .claim _ kind _ _, .ok (some r) =>
    obtain ⟨-, -, rfl⟩ := htold
    rw [if_neg h.2]
    exact hg

/-- Whoever asks only for what has nothing to do with planning stays as ready as before. -/
theorem planning_asks {p : Program (Node.interface E) α}
    (h : Accord.Asks (Request.IsAside source collection) p) (hg : g.Ready name) :
    (planning source collection).Ensures (fun _ g' => g'.Ready name) p g := by
  induction p generalizing g with
  | done a => exact hg
  | ask question next ih =>
    match question with
    | .store request =>
      exact ⟨may_of_isAside h.1, fun answer g' htold =>
        ih answer (h.2 answer) (ready_of_isAside h.1 hg htold)⟩
    | .now => exact fun now _ => ih now (h now) hg
    | .pause _ => exact ih () h hg
    | .other _ => exact fun answer => ih answer (h answer) hg

/-- A creation of anything but a query and the collection's load status. -/
theorem allows_create {k : PartitionKind} {n : Node} (p : Partition k)
    (hstatus : ∀ now,
      (n.newRecord k.tag p.key k.leased p.progressText now).id = LoadStatus.idOf source collection →
        LoadStatus.Blank (n.newRecord k.tag p.key k.leased p.progressText now))
    (hkind : k.tag ≠ queryKind.tag) :
    (planning source collection).Allows (E := E) (n.create p) g := by
  refine yields_create fun now => ⟨⟨hstatus now, fun hquery => ?_, ?_⟩, fun _ _ _ => trivial,
    fun _ _ _ => trivial⟩
  · have hid := n.id_newRecord k.tag p.key k.leased p.progressText now
    exact absurd ((congrArg RecordId.kind hid).symm.trans hquery) hkind
  · refine Record.isDone_of_status ?_
    unfold Node.newRecord
    split
    · exact (by decide : some Status.unassigned ≠ some .completed)
    · exact (by decide : (none : Option Status) ≠ some .completed)

/-- A creation of a record that is neither shared nor a query. -/
theorem allows_create_of_kind {k : PartitionKind} {n : Node} (p : Partition k)
    (hshared : k.tag ≠ sharedKind.tag) (hquery : k.tag ≠ queryKind.tag) :
    (planning source collection).Allows (E := E) (n.create p) g := by
  refine allows_create p (fun now hid => ?_) hquery
  have hid' := n.id_newRecord k.tag p.key k.leased p.progressText now
  exact absurd (congrArg RecordId.kind (hid'.symm.trans hid)) hshared

end Surroundings

/-! ## Counting -/

namespace LoadStatus

open Surroundings

variable {E : Interface} {collection name : String} {n : Node} {g : PlanAccount}

/-- What was owed is owed no longer, and if these were the last queries, then that has been written,
unless there was no load status. -/
structure Paid (collection name : String) (isLast : Bool) (g g' : PlanAccount) : Prop where
  claimed : g'.collection = g.collection
  isOpen : g'.hasCompleted = g.hasCompleted
  owed : g'.owed = 0
  ended : name = collection → isLast = true → g'.hasEnded = true ∨ g'.hasMissed = true

/-- As much is still owed as before. -/
structure Unpaid (g g' : PlanAccount) : Prop where
  claimed : g'.collection = g.collection
  isOpen : g'.hasCompleted = g.hasCompleted
  owed : g'.owed = g.owed

theorem idOf_eq_iff {source : String} :
    idOf source name = idOf source collection ↔ name = collection := by
  refine ⟨fun heq => ?_, congrArg _⟩
  have hkey : keyOf name = keyOf collection := congrArg RecordId.key heq
  exact String.append_right_inj _ |>.mp hkey

variable {count : Count} (hshare : name = collection →
  Counter.totalPartitions.share count = .ofNat g.owed) (hother : name ≠ collection → g.owed = 0)

include hother

theorem planning_look (isLast : Bool) {g₀ : PlanAccount} (hg₀ : Unpaid g g₀) :
    (planning n.source collection).Yields (E := E)
      (fun state g' => match state with
        | none => Paid collection name isLast g g'
        | some p => Unpaid g g' ∧ ∃ x, Partition.ofRecord sharedKind x = .ok p ∧
            x.id = idOf n.source name ∧ (name = collection → g'.seen = some x))
      (fun failure g' => failure.isLostWrite = true → Unpaid g g')
      (n.shared? (Partition.ofRecord sharedKind) (keyOf name)) g₀ := by
  refine yields_shared trivial (fun found g' htold => ?_) ?_
  · by_cases hname : name = collection
    · have hid : (⟨n.source, sharedKind.tag, keyOf name⟩ : RecordId) = idOf n.source collection :=
        idOf_eq_iff.mpr hname
      refine yields_build ?_ ?_ ?_
      · rintro rfl
        obtain rfl : g' = g₀.missed := htold.trans (if_pos hid)
        exact ⟨hg₀.claimed, hg₀.isOpen, rfl, fun _ _ => .inr rfl⟩
      · rintro x p rfl hp
        obtain ⟨hx, -, hg'⟩ := htold
        obtain rfl : g' = { g₀ with seen := some x } := hg'.trans (if_pos hid)
        exact ⟨⟨hg₀.claimed, hg₀.isOpen, hg₀.owed⟩, x, hp, hx, fun _ => rfl⟩
      · rintro x failure rfl - -
        obtain ⟨-, -, hg'⟩ := htold
        obtain rfl : g' = { g₀ with seen := some x } := hg'.trans (if_pos hid)
        exact ⟨hg₀.claimed, hg₀.isOpen, hg₀.owed⟩
    · -- The load status of another collection changes nothing in this account.
      have hid : (⟨n.source, sharedKind.tag, keyOf name⟩ : RecordId) ≠ idOf n.source collection :=
        fun heq => hname (idOf_eq_iff.mp heq)
      refine yields_build ?_ ?_ ?_
      · rintro rfl
        obtain rfl : g' = g₀ := htold.trans (if_neg hid)
        exact ⟨hg₀.claimed, hg₀.isOpen, hg₀.owed.trans (hother hname), fun heq => absurd heq hname⟩
      · rintro x p rfl hp
        obtain ⟨hx, -, hg'⟩ := htold
        obtain rfl : g' = g₀ := hg'.trans (if_neg hid)
        exact ⟨hg₀, x, hp, hx, fun heq => absurd heq hname⟩
      · rintro x failure rfl - -
        obtain ⟨-, -, hg'⟩ := htold
        obtain rfl : g' = g₀ := hg'.trans (if_neg hid)
        exact hg₀
  · rintro failure g' rfl -
    exact hg₀

/-- A load status that is written with what is owed. -/
theorem planning_write {source : String} {isLast : Bool} {r : Record} {s' : LoadStatus}
    {g' : PlanAccount} (hg' : Unpaid g g') (hid : r.id = idOf source name)
    (hmay : name = collection → g'.MayWrite r) (hread : ofRecord r.nextVersion = .ok s')
    (hlast : isLast = true → s'.totalComplete = true) :
    (planning source collection).May g' (.update r) ∧
      (∀ written g'', (planning source collection).Tells g' (.update r) (.ok written) g'' →
        Paid collection name isLast g g'') ∧
      ∀ failure g'', (planning source collection).Tells g' (.update r) (.error failure) g'' →
        failure.isLostWrite = true → Unpaid g g'' := by
  have hnever : r.isDone source collection = false := by
    refine Record.isDone_of_kind fun hkind => ?_
    have hshared : r.kind = sharedKind.tag := congrArg RecordId.kind hid
    exact absurd (hshared.symm.trans hkind) (by decide : sharedKind.tag ≠ snapshotKind.tag)
  refine ⟨⟨fun heq => hmay (idOf_eq_iff.mp (hid.symm.trans heq)), fun hdone => ?_⟩, ?_, ?_⟩
  · exact absurd hdone (ne_true_of_eq_false hnever)
  · rintro written g'' ⟨-, rfl⟩
    by_cases hname : name = collection
    · rw [PlanAccount.updated, if_pos (hid.trans (idOf_eq_iff.mpr hname)), hread]
      refine ⟨hg'.claimed, hg'.isOpen, rfl, fun _ hisLast => .inl ?_⟩
      rw [Bool.or_eq_true]
      exact .inr (hlast hisLast)
    · have hne : r.id ≠ idOf source collection := fun heq =>
        hname (idOf_eq_iff.mp (hid.symm.trans heq))
      rw [PlanAccount.updated, if_neg hne, hnever]
      exact ⟨hg'.claimed, hg'.isOpen, hg'.owed.trans (hother hname), fun heq => absurd heq hname⟩
  · rintro failure g'' htold hlost
    rcases htold with rfl | ⟨hkept, -⟩
    · exact hg'
    · exact absurd hlost (ne_true_of_eq_false hkept)

include hshare

theorem planning_attempt {g₀ : PlanAccount} (hg₀ : Unpaid g g₀) :
    (planning n.source collection).Yields (E := E)
      (fun _ g' => Paid collection name count.isLast g g')
      (fun failure g' => failure.isLostWrite = true → Unpaid g g')
      (attempt n name count.change) g₀ := by
  refine (planning_look hother count.isLast hg₀).bind fun state g' hstate => ?_
  cases state with
  | none => exact yields_pure hstate
  | some p =>
    obtain ⟨hg', x, hp, hid, hseen⟩ := hstate
    refine yields_ofExcept ?_ fun _ _ _ => hg'
    intro s hs
    refine yields_now fun time _ => ?_
    have hx : ofRecord x = .ok s := by
      unfold ofRecord
      rw [hp]
      exact hs
    have htotal := Counter.totalPartitions.of_change count s time
    have hcomplete := Count.totalComplete_change count s time
    have hsave : (planning n.source collection).Yields (E := E)
        (fun _ g'' => Paid collection name count.isLast g g'')
        (fun failure g'' => failure.isLostWrite = true → Unpaid g g'')
        (n.save (p.setProgress ((count.change s).stamped time).toMembers) none) g' := by
      refine yields_transition (record_setProgress hp _) (fun h => nomatch h) fun now => ?_
      have hwritten := ofRecord_proposal hp (.save n.lease) now (s := (count.change s).stamped time)
      refine planning_write hother hg' ((Node.id_proposal _ _ _ _).trans hid) ?_ hwritten ?_
      · intro hname
        refine ⟨x, s, _, hseen hname, hx, Node.version_proposal _ _ _ _, hwritten, ?_, ?_⟩
        · rw [hg'.owed, ← hshare hname]
          exact htotal
        · intro hdone
          rw [hcomplete, hdone]
          rfl
      · intro hlast
        rw [hcomplete, hlast, Bool.or_true]
    exact hsave.bind fun _ _ h => yields_pure h

variable (count) in
/-- **What is owed is counted**, as often as it has to be tried. -/
theorem planning_update : (planning n.source collection).Yields (E := E)
    (fun _ g' => Paid collection name count.isLast g g') (fun _ _ => True)
    (update n name count.change) g := by
  -- A write that is lost leaves as much owed as before, so the next attempt starts like the last.
  refine yields_persist (motive := Unpaid g) ?_ ⟨rfl, rfl, rfl⟩
  intro g₀ hg₀
  exact (planning_attempt hshare hother hg₀).imp (fun _ _ h => h) fun _ _ h => ⟨trivial, h⟩

end LoadStatus

/-! ## Passes over exports -/

/-- An export in hand, which has not been completed. -/
def Partition.InPlan (p : Partition snapshotKind) : Prop :=
  ∃ r, p.record = some r ∧ r.exported? = some p.identity.collection ∧
    r.status ≠ some .completed

section Exports

open Surroundings

variable {E : Interface} {collection : String} {n : Node} {g : PlanAccount}
  {p : Partition snapshotKind}

/-- The record of an export in hand is no load status. -/
theorem Record.id_ne_idOf {r : Record} {name : String} (source collection : String)
    (h : r.exported? = some name) : r.id ≠ LoadStatus.idOf source collection := by
  intro heq
  have hkind : r.kind = sharedKind.tag := congrArg RecordId.kind heq
  rw [exported_of_kind (hkind ▸ (by decide : sharedKind.tag ≠ snapshotKind.tag))] at h
  cases h

/-- An export in hand may be kept or given up at any time. -/
theorem Partition.InPlan.transition (hp : p.InPlan) {move : Transition}
    (hmove : ∀ now r, r.status ≠ some .completed → (move.apply now r).status ≠ some .completed) :
    (planning n.source collection).Yields (E := E)
      (fun p' g' => p'.InPlan ∧ p'.identity = p.identity ∧ g' = g) (fun _ _ => True)
      (Node.transition p move) g := by
  obtain ⟨r, hr, hexported, hstatus⟩ := hp
  refine yields_transition hr (fun _ => rfl) fun time => ?_
  have hid : (Node.proposal p move time r).id = r.id := Node.id_proposal p move time r
  have hstatus' : (Node.proposal p move time r).status ≠ some .completed := hmove time _ hstatus
  have hexported' := (Record.exported_congr hid).trans hexported
  have hnever : (Node.proposal p move time r).isDone n.source collection = false :=
    Record.isDone_of_status hstatus'
  have hne := Record.id_ne_idOf n.source collection hexported'
  refine ⟨⟨fun heq => absurd heq hne, fun hdone => ?_⟩, ?_, fun _ _ _ => trivial⟩
  · exact absurd hdone (ne_true_of_eq_false hnever)
  · rintro written g' ⟨rfl, rfl⟩
    rw [PlanAccount.updated, if_neg hne, hnever]
    exact ⟨⟨_, rfl, hexported', hstatus'⟩, rfl, rfl⟩

/-- An export in hand may be completed when nothing is owed and its last queries are counted. -/
theorem Partition.InPlan.complete (hp : p.InPlan)
    (hmay : p.identity.collection = collection → g.MayComplete collection) :
    (planning n.source collection).Allows (E := E) (Node.complete p) g := by
  obtain ⟨r, hr, hexported, -⟩ := hp
  refine yields_transition hr (fun _ => rfl) fun time => ?_
  have hexported' := (Record.exported_congr (Node.id_proposal p .complete time r)).trans hexported
  have hne := Record.id_ne_idOf n.source collection hexported'
  refine ⟨⟨fun heq => absurd heq hne, fun hdone => hmay ?_⟩, fun _ _ _ => trivial,
    fun _ _ _ => trivial⟩
  exact Option.some.inj (hexported'.symm.trans (Record.isDone_iff.mp hdone).2.1)

namespace Planning

variable {name : String}

/-- What is created is owed, if it is for the collection. -/
theorem planning_createQueries (hclaimed : g.collection = some name)
    (hopen : g.hasCompleted = false) (start : Instant) (identifiers : List String) :
    (planning n.source collection).Yields (E := E)
      (fun created g' => g'.collection = some name ∧ g'.hasCompleted = false ∧
        (name = collection → UInt64.ofNat g'.owed = .ofNat g.owed + created) ∧
        (name ≠ collection → g'.owed = g.owed)) (fun _ _ => True)
      (createQueries n name start identifiers) g := by
  induction identifiers generalizing g with
  | nil => exact yields_pure ⟨hclaimed, hopen, fun _ => (UInt64.add_zero _).symm, fun _ => rfl⟩
  | cons identifier rest ih =>
    have hcreate : (planning n.source collection).Yields (E := E)
        (fun isNew g' => g'.collection = some name ∧ g'.hasCompleted = false ∧
          (name = collection → g'.owed = g.owed + isNew.toNat) ∧
          (name ≠ collection → g'.owed = g.owed)) (fun _ _ => True)
        (n.create ((newQuery ⟨name, queryOf name identifier⟩).startingAt start)) g := by
      refine yields_create fun now => ?_
      have hid := n.id_newRecord queryKind.tag
        ((newQuery ⟨name, queryOf name identifier⟩).startingAt start).key queryKind.leased
        ((newQuery ⟨name, queryOf name identifier⟩).startingAt start).progressText now
      generalize n.newRecord queryKind.tag _ queryKind.leased _ now = r at hid ⊢
      have hkind : r.kind = queryKind.tag := congrArg RecordId.kind hid
      refine ⟨⟨fun heq => ?_, fun _ => ⟨hclaimed ▸ rfl, hopen⟩, ?_⟩, ?_, fun _ _ _ => trivial⟩
      · exact absurd (hkind.symm.trans (congrArg RecordId.kind heq))
          (by decide : queryKind.tag ≠ sharedKind.tag)
      · exact Record.isDone_of_kind (hkind ▸ (by decide : queryKind.tag ≠ snapshotKind.tag))
      · rintro isNew g' rfl
        cases isNew with
        | false =>
          rw [if_neg fun hnew => Bool.noConfusion hnew.2]
          exact ⟨hclaimed, hopen, fun _ => rfl, fun _ => rfl⟩
        | true =>
          rw [if_pos ⟨hkind, rfl⟩, PlanAccount.created]
          by_cases hname : name = collection
          · rw [if_pos (hname ▸ hclaimed)]
            exact ⟨hclaimed, hopen, fun _ => rfl, fun hne => absurd hname hne⟩
          · rw [if_neg fun heq => hname (Option.some.inj (hclaimed.symm.trans heq))]
            exact ⟨hclaimed, hopen, fun heq => absurd heq hname, fun _ => rfl⟩
    refine hcreate.bind ?_
    rintro isNew g' ⟨hclaimed', hopen', howed, hsame⟩
    refine (ih hclaimed' hopen').bind ?_
    rintro others g'' ⟨hclaimed'', hopen'', howed', hsame'⟩
    refine yields_pure ⟨hclaimed'', hopen'', fun hname => ?_, fun hname =>
      (hsame' hname).trans (hsame hname)⟩
    -- Both counts are words, and what is owed adds up as they do.
    rw [howed' hname, howed hname, UInt64.ofNat_add, UInt64.add_assoc]
    cases isNew <;> rfl

/-- **A page is planned**: nothing is owed afterwards, and if it was the last one then that has been
written, unless there was no load status. -/
theorem planning_planPage (hp : p.InPlan) (hg : g.Ready p.identity.collection) (page : Page) :
    (planning n.source collection).Yields (E := E)
      (fun p' g' => p'.InPlan ∧ p'.identity = p.identity ∧ g'.Ready p.identity.collection ∧
        (p.identity.collection = collection → page.isFinal = true →
          g'.hasEnded = true ∨ g'.hasMissed = true)) (fun _ _ => True)
      (planPage n p page) g := by
  refine yields_now fun start _ => ?_
  refine (planning_createQueries hg.collection hg.isOpen start page.identifiers).bind ?_
  rintro created g' ⟨hclaimed, hopen, howed, hsame⟩
  have hcount : (planning n.source collection).Yields (E := E)
      (fun _ g'' => LoadStatus.Paid collection p.identity.collection page.isFinal g' g'')
      (fun _ _ => True)
      (LoadStatus.update n p.identity.collection (.planned created page.isFinal)) g' := by
    refine LoadStatus.planning_update (.planned created page.isFinal) (fun hname => ?_)
      fun hname => (hsame hname).trans hg.owed
    rw [howed hname, hg.owed]
    exact (UInt64.zero_add created).symm
  refine hcount.bind fun _ g'' hpaid => ?_
  have hsave : (planning n.source collection).Yields (E := E)
      (fun p' g' => p'.InPlan ∧ p'.identity = p.identity ∧ g' = g'') (fun _ _ => True)
      (n.save p none) g'' := by
    refine hp.transition fun now r hstatus => ?_
    unfold Transition.apply
    dsimp only
    split <;> exact hstatus
  refine hsave.imp ?_ fun _ _ _ => trivial
  rintro p' _ ⟨hp', hidentity, rfl⟩
  exact ⟨hp', hidentity, ⟨hpaid.claimed.trans hclaimed, hpaid.isOpen.trans hopen, hpaid.owed⟩,
    hpaid.ended⟩

theorem planning_planFrom
    {refuse : Partition snapshotKind → Option String → Program (Node.interface E) Failure}
    {pages : List (NextPage E)} (hp : p.InPlan) (hg : g.Ready p.identity.collection)
    (cursor : Option String)
    (hpages : ∀ next ∈ pages, ∀ p cursor,
      Accord.Asks (Request.IsAside n.source collection) (next p cursor).run)
    (hrefuse : ∀ p cursor, Accord.Asks (Request.IsAside n.source collection) (refuse p cursor)) :
    (planning n.source collection).Ensures (fun done g' => done.partition.InPlan ∧
        ∀ outcome, done.verdict = .ok outcome → outcome = .completed ∧
          (done.partition.identity.collection = collection → g'.MayComplete collection))
      (planFrom n refuse p cursor pages) g := by
  induction pages generalizing p cursor g with
  | nil =>
    refine (planning_asks (hrefuse p cursor) hg).bind fun failure g' _ => ?_
    exact ⟨hp, fun _ hverdict => nomatch hverdict⟩
  | cons next rest ih =>
    obtain ⟨hnext, hrest⟩ := List.forall_mem_cons.mp hpages
    refine (planning_asks (hnext p cursor) hg).bind fun answer g' hg' => ?_
    cases answer with
    | error failure => exact ⟨hp, fun _ hverdict => nomatch hverdict⟩
    | ok page =>
      refine Ensures.bind (planning_planPage hp hg' page) fun planned g'' hplanned => ?_
      cases planned with
      | error failure => exact ⟨hp, fun _ hverdict => nomatch hverdict⟩
      | ok p' =>
        -- Between two pages nothing is owed.
        obtain ⟨hp', hidentity, hready, hended⟩ := hplanned
        rw [← hidentity] at hready hended
        dsimp only
        split
        · rename_i hfinal
          refine ⟨hp', fun outcome hverdict => ⟨(Except.ok.inj hverdict).symm, fun hname => ?_⟩⟩
          exact ⟨hready.collection.trans (congrArg some hname), hready.owed, hended hname hfinal⟩
        · exact ih hp' hready page.cursor hrest

end Planning

namespace Work

theorem planning_finish (limit : Option UInt64) {done : Processed snapshotKind (Supplier E)}
    (hp : done.partition.InPlan) (hdone : ∀ outcome, done.verdict = .ok outcome →
      outcome = .completed ∧
        (done.partition.identity.collection = collection → g.MayComplete collection)) :
    (planning n.source collection).Allows (E := E) (finish limit done) g := by
  unfold finish
  split
  · rename_i outcome hverdict
    obtain ⟨rfl, hmay⟩ := hdone outcome hverdict
    exact (hp.complete hmay).bind fun _ _ => allows_pure _
  · split
    · exact allows_pure _
    · refine Ensures.bind (hp.transition fun _ _ _ => ?_) fun _ _ _ => trivial
      exact (by decide : some Status.unassigned ≠ some .completed)

/-- **A pass over an export** of the collection or any other one. -/
theorem planning_pass (settings : WorkerSettings) {supplier : Supplier E}
    (hsupplier : supplier.Asks (Request.IsAside n.source collection)) :
    (planning n.source collection).Ensures (fun _ _ => True)
      (pass n settings (Planning.process n) supplier) .opening := by
  have hclaim : (planning n.source collection).Yields (E := E)
      (fun found g' => ∀ p, found = some p → p.InPlan ∧ g'.Ready p.identity.collection)
      (fun _ _ => True) (n.claim snapshotKind settings.leaseDuration) .opening := by
    refine yields_claim rfl ⟨(by decide : snapshotKind.tag ≠ sharedKind.tag), fun _ => rfl⟩ ?_
      fun _ _ _ => trivial
    intro found g' htold
    refine yields_build (fun _ _ h => nomatch h) ?_ fun _ _ _ _ => trivial
    rintro r p rfl hp _ ⟨⟩
    obtain ⟨-, hstatus, rfl⟩ := htold
    rw [if_pos rfl]
    have hexported := Record.exported_of_ofRecord hp
    refine ⟨⟨r, Factory.record_ofRecord hp, hexported, ?_⟩, ⟨hexported, rfl, rfl⟩⟩
    rw [hstatus]
    decide
  refine Ensures.bind hclaim fun answer g' hanswer => ?_
  match answer with
  | .error failure => trivial
  | .ok none => trivial
  | .ok (some p) =>
    obtain ⟨hp, hg'⟩ := hanswer p rfl
    refine (Planning.planning_planFrom hp hg' none hsupplier.1 hsupplier.2).bind ?_
    rintro done g'' ⟨hp', hdone⟩
    exact Ensures.bind (planning_finish settings.maxClosedCount hp' hdone) fun _ _ _ => trivial

end Work

end Exports

/-! ## Other passes -/

namespace LoadStatus

/-- Shared state that counts nothing. -/
theorem blank_of_members {r : Record} {ms : Json.Members} {s : LoadStatus}
    (hkind : r.kind = sharedKind.tag) (hkeeps : sharedKind.Keeps ms)
    (hr : r.progress = some (sharedKind.text ms)) (hread : ofMembers ms = .ok s)
    (htotal : s.totalPartitions = 0) (hcomplete : s.totalComplete = false) : Blank r := by
  refine ⟨s, ?_, htotal, hcomplete⟩
  unfold ofRecord
  rw [ofRecord_shared (r := r.firstVersion) hkind hkeeps hr]
  exact hread

/-- **Whoever counts a loaded query** plans nothing. -/
theorem planning_recordLoaded {E : Interface} {collection : String} (n : Node) (name : String)
    (records : UInt64) : (Surroundings.planning n.source collection).Ensures (E := E)
      (fun _ _ => True) (recordLoaded n name records).run .opening := by
  have hupdate : (Surroundings.planning n.source collection).Yields (E := E)
      (fun _ g' => Paid collection name false .opening g') (fun _ _ => True)
      (update n name (loaded records)) .opening :=
    planning_update (.loaded records) (fun _ => rfl) fun _ => rfl
  exact Surroundings.Ensures.imp hupdate fun _ _ _ => trivial

end LoadStatus

namespace Candidate

open Surroundings

variable {E : Interface} {source collection : String} {cs : List Collection} {n : Node}
  {c : Candidate} {g : PlanAccount}

/-- Shared state may be created when no query is planned by what it says. -/
theorem allows_createShared {key : String} {ms : Json.Members} {s : LoadStatus}
    (hkeeps : sharedKind.Keeps ms) (hread : LoadStatus.ofMembers ms = .ok s)
    (htotal : s.totalPartitions = 0) (hcomplete : s.totalComplete = false) :
    (planning source collection).Allows (E := E) (n.create (newShared key ms)) g := by
  refine allows_create _ (fun now _ => ?_) (by decide : sharedKind.tag ≠ queryKind.tag)
  have hid := n.id_newRecord sharedKind.tag key sharedKind.leased
    (newShared key ms).progressText now
  exact LoadStatus.blank_of_members (congrArg RecordId.kind hid) hkeeps
    (n.progress_newRecord _ _ _ _ now) hread htotal hcomplete

theorem allows_pinSnapshot (c : Collection) (proposed : Instant) :
    (planning source collection).Allows (E := E) (pinSnapshot n c proposed) g := by
  refine (allows_createShared (Collection.keeps_toMembers proposed.millis_range)
    (c.ofMembers_toMembers proposed.millis) rfl rfl).bind fun isNew g' => ?_
  cases isNew with
  | true => exact allows_pure proposed
  | false =>
    exact (allows_shared trivial).bind fun _ _ => allows_pure _

theorem allows_createExport (snapshot : Instant) (c : Collection) :
    (planning source collection).Allows (E := E) (createExport n snapshot c) g := by
  unfold createExport
  cases c.exportSize with
  | none => exact allows_pure ()
  | some size =>
    refine (allows_create_of_kind _ (by decide : snapshotKind.tag ≠ sharedKind.tag)
      (by decide : snapshotKind.tag ≠ queryKind.tag)).bind fun _ g' => ?_
    exact (allows_createShared (LoadStatus.keeps_toMembers _) (LoadStatus.ofMembers_toMembers _)
      rfl rfl).bind fun _ _ => allows_pure ()

theorem allows_createStream (snapshot : Instant) (c : Collection) :
    (planning source collection).Allows (E := E) (createStream n snapshot c) g := by
  unfold createStream
  cases c.stream with
  | false => exact allows_pure ()
  | true =>
    exact (allows_create_of_kind _ (by decide : streamKind.tag ≠ sharedKind.tag)
      (by decide : streamKind.tag ≠ queryKind.tag)).bind fun _ _ => allows_pure ()

theorem allows_createCollections (proposed : Instant) (cs : List Collection) :
    (planning source collection).Allows (E := E) (createCollections n proposed cs) g := by
  induction cs generalizing g with
  | nil => exact allows_pure ()
  | cons c rest ih =>
    have hcreate : ∀ g, (planning source collection).Allows (E := E)
        (createCollection n proposed c) g := by
      intro g
      rw [createCollection_eq]
      refine (allows_pinSnapshot c proposed).bind fun snapshot _ => ?_
      refine (allows_createExport snapshot c).bind fun _ _ => ?_
      exact allows_createStream snapshot c
    exact (hcreate g).bind fun _ _ => ih

/-- What the steps of a pass keep, whether they fail or not, a pass keeps up to the renewal. -/
theorem keeps_takeSteps {S : Surroundings} {motive : Candidate → S.State → Prop}
    {steps : List (Candidate → Node.Action E Candidate)}
    (hsteps : ∀ step ∈ steps, ∀ c g, motive c g →
      S.Yields motive (fun _ g' => motive c g') (step c) g) {g : S.State} (hc : motive c g) :
    S.Ensures motive (takeSteps steps c) g := by
  induction steps generalizing c g with
  | nil => exact hc
  | cons step rest ih =>
    obtain ⟨hstep, hrest⟩ := List.forall_mem_cons.mp hsteps
    refine Ensures.bind (hstep c g hc) fun x g' hx => ?_
    cases x with
    | error failure => exact hx
    | ok c' => exact ih hrest hx

variable (hplans : c.Plans source cs)

include hplans

theorem Plans.planning_ensureCreated : (planning source collection).Yields (E := E)
    (fun c' _ => c'.Plans source cs) (fun _ _ => True) c.ensureCreated g := by
  unfold Candidate.ensureCreated
  cases c.hasCreated with
  | true => exact yields_pure hplans
  | false =>
    have hcreate : (planning source collection).Allows (E := E) (c.node.create newLeader) g :=
      allows_create_of_kind _ (by decide : leaderKind.tag ≠ sharedKind.tag)
        (by decide : leaderKind.tag ≠ queryKind.tag)
    exact Yields.bind hcreate fun _ _ _ => yields_pure { hplans with }

theorem Plans.planning_compete : (planning source collection).Yields (E := E)
    (fun c' _ => c'.Plans source cs) (fun _ _ => True) c.compete g := by
  unfold Candidate.compete
  cases hheld : c.held with
  | some p => exact yields_pure hplans
  | none =>
    have hclaim : (planning source collection).Yields (E := E)
        (fun held _ => ∀ p r, held = some p → p.record = some r → r.kind = leaderKind.tag)
        (fun _ _ => True) (c.node.claim leaderKind none) g := by
      refine yields_claim rfl ⟨(by decide : leaderKind.tag ≠ sharedKind.tag), fun heq => ?_⟩ ?_
        fun _ _ _ => trivial
      · exact absurd heq (by decide : leaderKind.tag ≠ snapshotKind.tag)
      · intro found g' htold
        refine yields_build (fun _ _ _ h => nomatch h) ?_ fun _ _ _ _ => trivial
        rintro r p rfl hp _ r' ⟨⟩ hr'
        obtain rfl := Option.some.inj ((Factory.record_ofRecord hp).symm.trans hr')
        exact htold.1
    exact hclaim.bind fun held _ hleader => yields_pure { hplans with leader := hleader }

theorem Plans.planning_initialize : (planning source collection).Yields (E := E)
    (fun c' _ => c'.Plans source cs) (fun _ _ => True) c.initialize? g := by
  unfold Candidate.initialize?
  cases hheld : c.held with
  | none => exact yields_pure hplans
  | some p =>
    dsimp only
    split
    · exact yields_pure hplans
    · have hbootstrap : (planning source collection).Allows (E := E) c.bootstrap g :=
        yields_now fun now _ => yields_ofExcept
          (fun proposed _ => allows_createCollections proposed c.collections) fun _ _ => trivial
      refine Yields.bind hbootstrap fun _ _ _ => yields_pure { hplans with leader := ?_ }
      rintro _ r ⟨⟩ hr
      exact hplans.leader p r hheld hr

theorem Plans.planning_renew : (planning source collection).Ensures (E := E)
    (fun _ _ => True) c.renew g := by
  unfold Candidate.renew
  cases hheld : c.held with
  | none => trivial
  | some p =>
    have hsave : (planning source collection).Allows (E := E)
        (c.node.save p (some c.settings.leaseExtension)) g := by
      cases hr : p.record with
      | none =>
        have hrecord : Held.record p = none := hr
        refine yields_now fun now _ => ?_
        rw [hrecord]
        exact yields_error trivial
      | some r =>
        refine yields_transition hr (fun _ => rfl) fun now => ?_
        have hid := Node.id_proposal p (.save c.settings.leaseExtension) now r
        have hkind := (congrArg RecordId.kind hid).trans (hplans.leader p r hheld hr)
        have hnever : (Node.proposal p (.save c.settings.leaseExtension) now r).isDone source
            collection = false :=
          Record.isDone_of_kind fun heq => absurd (hkind.symm.trans heq)
            (by decide : leaderKind.tag ≠ snapshotKind.tag)
        refine ⟨⟨fun heq => ?_, fun hdone => ?_⟩, fun _ _ _ => trivial, fun _ _ _ => trivial⟩
        · exact absurd (hkind.symm.trans (congrArg RecordId.kind heq))
            (by decide : leaderKind.tag ≠ sharedKind.tag)
        · exact absurd hdone (ne_true_of_eq_false hnever)
    refine Ensures.bind hsave fun answer _ _ => ?_
    cases answer <;> trivial

/-- **A pass of the election** plans nothing. -/
theorem Plans.planning_pass : (planning source collection).Ensures (E := E)
    (fun _ _ => True) c.pass g := by
  refine (keeps_takeSteps (motive := fun c _ => Plans source cs c) ?_ hplans).bind
    fun c' _ hplans' => hplans'.planning_renew
  intro step hstep c g hplans
  suffices hkeeps : (planning source collection).Yields (fun c' _ => c'.Plans source cs)
      (fun _ _ => True) (step c) g from hkeeps.imp (fun _ _ h => h) fun _ _ _ => hplans
  simp only [List.mem_cons, List.not_mem_nil, or_false] at hstep
  rcases hstep with rfl | rfl | rfl
  · exact hplans.planning_ensureCreated
  · exact hplans.planning_compete
  · exact hplans.planning_initialize

end Candidate

end LeasedWork
