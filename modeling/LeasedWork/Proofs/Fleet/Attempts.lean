import LeasedWork.Proofs.Fleet.Paging
import Mathlib.Data.List.Dedup

/-! # Attempts at planning an export

A supplier that is asked for page after page answers with pages that are not the last one, and then
with one that ends the planning, or with a failure: this is a `Paging`.  An `Attempt` plans an
export from it, with the table for itself.  It asks for the first page without a cursor and for
every other page with the cursor of the page before, and adds and counts just those queries that
were not there.  So an attempt after one that has failed comes to what a single one would have come
to (`Attempt.exact_and_restartable`).

A query that two identifiers name, or that an earlier attempt has added, is found under its key and
not counted again.  Hence everything is said of the keys (`Paging.keys`, `Attempt.newKeys`), not of
the identifiers.
-/
namespace LeasedWork

open Surroundings Table

/-! ## Programs that ask nobody else -/

/-- A program asks the store and the clock, and nobody else. -/
def Program.Secluded {E : Interface} {α : Type} : Program (Node.interface E) α → Prop
  | .done _ => True
  | .ask (.store _) next => ∀ answer, Secluded (next answer)
  | .ask .now next => ∀ now, Secluded (next now)
  | .ask (.pause _) next => Secluded (next ())
  | .ask (.other _) _ => False

namespace Program

variable {E : Interface} {α β : Type} {p : Program (Node.interface E) α}

theorem Secluded.bind {f : α → Program (Node.interface E) β} (hp : p.Secluded)
    (hf : ∀ a, (f a).Secluded) : (p >>= f).Secluded := by
  induction p with
  | done a => exact hf a
  | ask question next ih =>
    match question with
    | .store _ => exact fun answer => ih _ (hp answer)
    | .now => exact fun now => ih _ (hp now)
    | .pause _ => exact ih _ hp
    | .other _ => exact hp.elim

/-- What only the rest of the world changes is as before. -/
theorem Secluded.run {σ γ : Type} {h : Handler (Node.interface E) σ} (view : σ → γ)
    (hview : ∀ question s, (∀ q, question ≠ .other q) → view (h.answer question s).2 = view s)
    (hp : p.Secluded) (s : σ) : view (p.run h s).2 = view s := by
  induction p generalizing s with
  | done a => rfl
  | ask question next ih =>
    rw [run_ask]
    match question with
    | .store request => exact (ih _ (hp _) _).trans (hview (.store request) s nofun)
    | .now => exact (ih _ (hp _) _).trans (hview .now s nofun)
    | .pause d => exact (ih _ hp _).trans (hview (.pause d) s nofun)
    | .other _ => exact hp.elim

end Program

namespace Node

open Program

variable {E : Interface} {α β : Type}

theorem secluded_bind {action : Action E α} {f : α → Action E β} (h : Secluded action.run)
    (hf : ∀ a, Secluded (f a).run) : Secluded (action >>= f).run := by
  rw [ExceptT.run_bind]
  refine h.bind fun x => ?_
  cases x with
  | ok a => exact hf a
  | error failure => trivial

theorem secluded_store (request : Request) : Secluded (store request : Action E _).run :=
  fun _ => trivial

theorem secluded_now : Secluded (now : Action E Instant).run := fun _ => trivial

theorem secluded_create {k : PartitionKind} (n : Node) (p : Partition k) :
    Secluded (n.create p : Action E Bool).run :=
  secluded_bind secluded_now fun _ => secluded_store _

theorem secluded_transition {P : Type} [Held P] (p : P) (move : Transition) :
    Secluded (transition p move : Action E P).run := by
  simp only [transition]
  split
  · trivial
  · refine secluded_bind secluded_now fun time => ?_
    split
    · trivial
    · exact secluded_bind (secluded_store _) fun _ => trivial

theorem secluded_build {P : Type} (build : Record → Except Failure P) (r : Option Record) :
    Secluded (build? build r : Action E (Option P)).run := by
  cases r with
  | none => trivial
  | some r =>
    simp only [build?, ofExcept]
    cases build r <;> trivial

end Node

namespace Contention

open Program

theorem secluded_persist {E : Interface} {α : Type} {operation : Node.Action E α}
    (h : Secluded operation.run) : Secluded (persist operation).run := by
  suffices hfrom : ∀ left done, Secluded (persistFrom operation done left).run from
    hfrom retries 0
  intro left
  induction left with
  | zero => exact fun _ => h
  | succ left ih =>
    intro done
    refine h.bind fun x => ?_
    cases x with
    | ok a => trivial
    | error failure =>
      dsimp only
      split
      · exact ih (done + 1)
      · trivial

end Contention

namespace Planning

open Program Node

variable {E : Interface}

theorem secluded_update (n : Node) (collection : String) (change : LoadStatus → LoadStatus) :
    Secluded (LoadStatus.update n collection change : Action E Unit).run := by
  refine Contention.secluded_persist (secluded_bind ?_ fun state => ?_)
  · exact secluded_bind (secluded_store _) fun _ => secluded_build _ _
  · cases state with
    | none => trivial
    | some state =>
      refine secluded_bind ?_ fun status => secluded_bind secluded_now fun time => ?_
      · trivial
      · exact secluded_bind (secluded_transition _ _) fun _ => trivial

theorem secluded_createQueries (n : Node) (collection : String) (start : Instant)
    (identifiers : List String) :
    Secluded (createQueries n collection start identifiers : Action E UInt64).run := by
  induction identifiers with
  | nil => trivial
  | cons identifier rest ih =>
    exact secluded_bind (secluded_create _ _) fun _ => secluded_bind ih fun _ => trivial

/-- The supplier is not asked while one of its pages is planned. -/
theorem secluded_planPage (n : Node) (p : Partition snapshotKind) (page : Page) :
    Secluded (planPage n p page : Action E (Partition snapshotKind)).run := by
  refine secluded_bind secluded_now fun start => ?_
  refine secluded_bind (secluded_createQueries _ _ _ _) fun created => ?_
  exact secluded_bind (secluded_update _ _ _) fun _ => secluded_transition _ _

end Planning

/-! ## Keys -/

/-- The key of an identifier: the identifier itself if it names the collection first. -/
def keyFor (collection identifier : String) : String :=
  if (collection ++ "|").toList <+: identifier.toList then identifier
  else collection ++ "|" ++ identifier

theorem key_queryOf (collection identifier : String) :
    QueryId.key ⟨collection, Planning.queryOf collection identifier⟩ =
      keyFor collection identifier := by
  have hwhole : (collection ++ "|").toList = collection.toList ++ [keySeparator] := by
    rw [String.toList_append]
    rfl
  rw [QueryId.key, QueryId.keyChars, ← String.toList_inj, String.toList_ofList, keyFor, hwhole]
  by_cases hprefix : collection.toList ++ [keySeparator] <+: identifier.toList
  · have hrest := List.prefix_iff_eq_append.mp hprefix
    rw [Planning.queryOf, if_pos (List.isPrefixOf_iff_prefix.mpr hprefix), if_pos hprefix,
      String.toList_ofList]
    simpa using hrest
  · rw [Planning.queryOf, if_neg fun h => hprefix (List.isPrefixOf_iff_prefix.mp h),
      if_neg hprefix, String.toList_append, hwhole]
    simp

/-! ## Pagings -/

/-- What a supplier answers that is asked for page after page. -/
structure Paging where
  front : List Page
  stop : Except Failure Page
  goesOn : ∀ page ∈ front, page.isFinal = false
  stops : ∀ page, stop = .ok page → page.isFinal = true

namespace Paging

def answers (x : Paging) : List (Except Failure Page) := x.front.map .ok ++ [x.stop]

/-- What the pages are asked for with. -/
def cursors (x : Paging) : List (Option String) := none :: x.front.map Page.cursor

/-- The pages that there are to plan. -/
def pages (x : Paging) : List Page := x.front ++ x.stop.toOption.toList

/-- Whether the page that ends the planning is reached. -/
def isFinished (x : Paging) : Bool := x.stop.toBool

def verdict (x : Paging) : Except Failure Outcome := x.stop.map fun _ => .completed

/-- The keys of all identifiers, with repetitions. -/
def keys (x : Paging) (collection : String) : List String :=
  x.pages.flatMap fun page => page.identifiers.map (keyFor collection)

/-- What is noted of a question for a page: for which export it was, and with which cursor. -/
@[reducible] def questions : Interface := ⟨SnapshotId × Option String, fun _ => Unit⟩

/-- Notes what it is asked for, and gives an answer. -/
def give (answer : Except Failure Page) : NextPage questions := fun p cursor => do
  let _ ← ExceptT.lift
    (Program.question (I := Node.interface questions) (.other (p.identity, cursor)))
  Node.ofExcept answer

end Paging

/-! ## Runs -/

/-- A table that one program has for itself, how much it has asked, and what has been noted. -/
structure Registry where
  table : Table
  asked : Nat
  noted : List (SnapshotId × Option String)

namespace Registry

/-- Answers out of the table. The clock may show any time at each question. -/
def handler (clock : Nat → Instant) : Handler (Node.interface Paging.questions) Registry where
  answer
    | .store request, s =>
      ((s.table.answer (clock s.asked) request).1,
        ⟨(s.table.answer (clock s.asked) request).2, s.asked + 1, s.noted⟩)
    | .now, s => (clock s.asked, { s with asked := s.asked + 1 })
    | .pause _, s => ((), { s with asked := s.asked + 1 })
    | .other question, s => ((), { s with noted := s.noted ++ [question] })

variable (clock : Nat → Instant)

/-- What comes true of programs that have a table for themselves comes true here. -/
theorem ensures_run {α : Type} {post : α → Table → Prop}
    {p : Program (Node.interface Paging.questions) α} {s : Registry}
    (hp : (alone fun _ => True).Ensures post p s.table) :
    post (p.run (handler clock) s).1 (p.run (handler clock) s).2.table := by
  have htable : ∀ (question : Node.Question Paging.questions) (s : Registry),
      (∀ request, question ≠ .store request) →
        ((handler clock).answer question s).2.table = s.table := by
    intro question s hother
    match question with
    | .store request => exact absurd rfl (hother request)
    | .now => rfl
    | .pause _ => rfl
    | .other _ => rfl
  exact Ensures.run (S := alone fun _ => True) (handler clock) Registry.table
    (fun _ s => ⟨clock s.asked, rfl⟩) htable (fun _ => trivial) hp

/-- Programs that ask nobody else leave no note. -/
theorem secluded_run {α : Type} {p : Program (Node.interface Paging.questions) α}
    (hp : p.Secluded) (s : Registry) : (p.run (handler clock) s).2.noted = s.noted := by
  refine hp.run noted (fun question s hother => ?_) s
  match question with
  | .store _ => rfl
  | .now => rfl
  | .pause _ => rfl
  | .other q => exact absurd rfl (hother q)

end Registry

namespace Planning

variable {clock : Nat → Instant} {p : Partition snapshotKind} {s : LoadStatus} {d : Registry}

theorem run_give (answer : Except Failure Page) (p : Partition snapshotKind)
    (cursor : Option String) (d : Registry) :
    (Paging.give answer p cursor).run.run (Registry.handler clock) d =
      (answer, { d with noted := d.noted ++ [(p.identity, cursor)] }) := rfl

theorem run_planPage (hp : p.IsHeld d.table)
    (hs : d.table.loadStatus? (LoadStatus.idOf n.source p.identity.collection) = some s)
    (page : Page) : ∃ p' d', (planPage n p page).run.run (Registry.handler clock) d =
      (.ok p', d') ∧ d'.noted = d.noted ∧ Furthered n.source p
        (page.identifiers.map (queryOf p.identity.collection)) page.isFinal s d.table p'
        d'.table := by
  have hpost := Registry.ensures_run clock (furthered_planPage hp hs page)
  have hnoted := Registry.secluded_run clock (secluded_planPage n p page) d
  rcases hrun : (planPage n p page).run.run (Registry.handler clock) d with ⟨result, d'⟩
  rw [hrun] at hpost hnoted
  cases result with
  | error failure => exact hpost.elim
  | ok p' => exact ⟨p', d', rfl, hnoted, hpost⟩

/-- **A run of a planning**, by induction on the pages before it stops. What each page comes to is
put together by `Furthered.trans`. -/
theorem run_planFrom (clock : Nat → Instant) (d : Registry)
    (refuse : Partition snapshotKind → Option String →
      Program (Node.interface Paging.questions) Failure) (rest : List (NextPage Paging.questions))
    {front : List Page} {stop : Except Failure Page}
    (hfront : ∀ page ∈ front, page.isFinal = false)
    (hstop : ∀ page, stop = .ok page → page.isFinal = true) (cursor : Option String)
    (hp : p.IsHeld d.table)
    (hs : d.table.loadStatus? (LoadStatus.idOf n.source p.identity.collection) = some s) :
    ∃ done d', (planFrom n refuse p cursor
        ((front.map Except.ok ++ [stop]).map Paging.give ++ rest)).run (Registry.handler clock) d =
          (done, d') ∧
      done.verdict = stop.map (fun _ => .completed) ∧ done.state = ⟨rest, refuse⟩ ∧
      d'.noted = d.noted ++ (cursor :: front.map Page.cursor).map (p.identity, ·) ∧
      Furthered n.source p
        ((front ++ stop.toOption.toList).flatMap fun page =>
          page.identifiers.map (queryOf p.identity.collection))
        stop.toBool s d.table done.partition d'.table := by
  induction front generalizing p s d cursor with
  -- No page that goes on is left: the next answer ends the planning.
  | nil =>
    rw [List.map_nil, List.nil_append, List.map_singleton, List.singleton_append, planFrom,
      Program.run_bind, run_give]
    cases stop with
    | error failure => exact ⟨_, _, rfl, rfl, rfl, rfl, furthered_refl hp hs⟩
    | ok page =>
      dsimp only
      obtain ⟨p', d', hrun, hnoted, hplanned⟩ :=
        run_planPage (d := { d with noted := d.noted ++ [(p.identity, cursor)] }) hp hs page
      rw [Program.run_bind, hrun]
      dsimp only
      have hfinal := hstop page rfl
      rw [if_pos hfinal]
      refine ⟨_, _, rfl, rfl, rfl, hnoted, ?_⟩
      rw [hfinal] at hplanned
      show Furthered n.source p (page.identifiers.map _ ++ []) true s d.table p' d'.table
      rwa [List.append_nil]
  | cons page front ih =>
    rw [List.map_cons, List.cons_append, List.map_cons, List.cons_append, planFrom,
      Program.run_bind, run_give]
    obtain ⟨hmore, hfront⟩ := List.forall_mem_cons.mp hfront
    dsimp only
    obtain ⟨p', d', hrun, hnoted, hplanned⟩ :=
      run_planPage (d := { d with noted := d.noted ++ [(p.identity, cursor)] }) hp hs page
    rw [Program.run_bind, hrun]
    dsimp only
    rw [hmore] at hplanned ⊢
    obtain ⟨new, s', hadds, hs', hcounts⟩ := hplanned.counted
    rw [← hplanned.identity] at hs'
    -- The rest is planned from the cursor of this page, over the load status that it has left.
    obtain ⟨done, d'', hrun', hverdict, hstate, hnoted', hrest⟩ :=
      ih d' hfront page.cursor hplanned.held hs'
    refine ⟨done, d'', hrun', hverdict, hstate, ?_, ?_⟩
    · rw [hnoted', hnoted, hplanned.identity]
      simp
    · rw [hplanned.identity] at hrest
      rw [List.cons_append, List.flatMap_cons]
      refine hplanned.trans fun s'' hs'' => ?_
      obtain rfl := Option.some.inj (hs'.symm.trans hs'')
      exact hrest

end Planning

/-! ## Attempts -/

/-- A node plans an export that it has in hand, over a table that it has for itself. -/
structure Attempt where
  node : Node
  piece : Partition snapshotKind
  paging : Paging
  /-- What the supplier would answer after that. -/
  rest : List (NextPage Paging.questions)
  refuse : Partition snapshotKind → Option String →
    Program (Node.interface Paging.questions) Failure
  clock : Nat → Instant
  before : Table

namespace Attempt

variable (a : Attempt)

def collection : String := a.piece.identity.collection

def statusId : RecordId := LoadStatus.idOf a.node.source a.collection

def queryId (key : String) : RecordId := ⟨a.node.source, queryKind.tag, key⟩

def run : Processed snapshotKind (Supplier Paging.questions) × Registry :=
  (Planning.process a.node a.piece ⟨a.paging.answers.map Paging.give ++ a.rest, a.refuse⟩).run
    (Registry.handler a.clock) ⟨a.before, 0, []⟩

def done : Processed snapshotKind (Supplier Paging.questions) := a.run.1

def after : Table := a.run.2.table

/-- What the supplier has been asked. -/
def noted : List (SnapshotId × Option String) := a.run.2.noted

/-- The keys of the queries that are to be added. -/
def newKeys : List String :=
  (a.paging.keys a.collection).dedup.filter fun key => (a.before.find? (a.queryId key)).isNone

/-- The export in hand is the stored one, and the collection has a load status. -/
structure Ready (s : LoadStatus) : Prop where
  held : a.piece.IsHeld a.before
  status : a.before.loadStatus? a.statusId = some s

/-- What an attempt comes to. -/
structure Exact (s : LoadStatus) : Prop where
  /-- Pages are asked for up to the one at which the planning stops, and no others. -/
  noted : a.noted = a.paging.cursors.map (a.piece.identity, ·)
  rest : a.done.state = ⟨a.rest, a.refuse⟩
  verdict : a.done.verdict = a.paging.verdict
  /-- Every identifier of every page has a query now. -/
  queries : ∀ key ∈ a.paging.keys a.collection, a.after.Has (a.queryId key)
  added : ∀ key ∈ a.newKeys, ∃ r, a.after.find? (a.queryId key) = some r ∧
    r.status = some .unassigned
  /-- Those that were there are as they were. -/
  untouched : ∀ id r, id.kind = queryKind.tag → a.before.find? id = some r →
    a.after.find? id = some r
  only : ∀ id, id.kind = queryKind.tag → a.after.Has id → a.before.Has id ∨
    ∃ key ∈ a.paging.keys a.collection, id = a.queryId key
  status : ∃ s', a.after.loadStatus? a.statusId = some s' ∧
    (s.totalPartitions.toNat + a.newKeys.length < UInt64.size →
      s'.totalPartitions.toNat = s.totalPartitions.toNat + a.newKeys.length) ∧
    s'.totalComplete = (s.totalComplete || a.paging.isFinished) ∧
    s'.loadedPartitions = s.loadedPartitions ∧ s'.loadedRecords = s.loadedRecords
  /-- Of the other records only the load status and the export itself may have changed. -/
  others : ∀ id, id.kind ≠ queryKind.tag → id ≠ a.statusId →
    a.piece.record.map Record.id ≠ some id → a.after.find? id = a.before.find? id

/-- The queries on all pages. -/
def queries : List String :=
  a.paging.pages.flatMap fun page => page.identifiers.map (Planning.queryOf a.collection)

variable {a} {s : LoadStatus}

theorem run_of_ready (h : a.Ready s) :
    a.noted = a.paging.cursors.map (a.piece.identity, ·) ∧ a.done.state = ⟨a.rest, a.refuse⟩ ∧
    a.done.verdict = a.paging.verdict ∧ Furthered a.node.source a.piece a.queries
      a.paging.isFinished s a.before a.done.partition a.after := by
  obtain ⟨done, d', hrun, hverdict, hstate, hnoted, hplanned⟩ :=
    Planning.run_planFrom a.clock ⟨a.before, 0, []⟩ a.refuse a.rest a.paging.goesOn a.paging.stops
      none h.held h.status
  have hrun' : a.run = (done, d') := hrun
  simp only [noted, Attempt.done, after, hrun']
  exact ⟨hnoted, hstate, hverdict, hplanned⟩

theorem keys_eq (a : Attempt) : a.paging.keys a.collection =
    a.queries.map fun query => QueryId.key ⟨a.collection, query⟩ := by
  simp only [Paging.keys, queries, List.map_flatMap, List.map_map, Function.comp_def, key_queryOf]

theorem mem_newKeys {key : String} :
    key ∈ a.newKeys ↔ key ∈ a.paging.keys a.collection ∧ ¬ a.before.Has (a.queryId key) := by
  rw [newKeys, List.mem_filter, List.mem_dedup, Has, Option.isNone_iff_eq_none,
    Option.not_isSome_iff_eq_none]

theorem nodup_newKeys (a : Attempt) : a.newKeys.Nodup := (List.nodup_dedup _).filter _

/-- The keys of what has been added. -/
theorem newKeys_perm {new : List String}
    (h : Adds a.node.source a.collection a.queries new a.before a.after) :
    a.newKeys.Perm (new.map fun query => QueryId.key ⟨a.collection, query⟩) := by
  have hnodup : (new.map fun query => QueryId.key ⟨a.collection, query⟩).Nodup :=
    h.nodup.map fun _ _ => QueryId.key_injective
  refine (List.perm_ext_iff_of_nodup a.nodup_newKeys hnodup).mpr fun key => ?_
  rw [mem_newKeys, keys_eq, List.mem_map, List.mem_map]
  constructor
  · rintro ⟨⟨query, hquery, rfl⟩, hfree⟩
    exact ⟨query, (h.mem query).mpr ⟨hquery, Option.not_isSome_iff_eq_none.mp hfree⟩, rfl⟩
  · rintro ⟨query, hnew, rfl⟩
    obtain ⟨hquery, hfree⟩ := (h.mem query).mp hnew
    exact ⟨⟨query, hquery, rfl⟩, Option.not_isSome_iff_eq_none.mpr hfree⟩

/-- The load status afterwards, counted in words. -/
theorem status_after (h : a.Ready s) : ∃ s', a.after.loadStatus? a.statusId = some s' ∧
    s'.totalPartitions = s.totalPartitions + .ofNat a.newKeys.length ∧
    s'.totalComplete = (s.totalComplete || a.paging.isFinished) ∧
    s'.loadedPartitions = s.loadedPartitions ∧ s'.loadedRecords = s.loadedRecords := by
  obtain ⟨-, -, -, hplanned⟩ := run_of_ready h
  obtain ⟨new, s', hadds, hs', hcounts⟩ := hplanned.counted
  have hlength : new.length = a.newKeys.length := by
    rw [(newKeys_perm hadds).length_eq, List.length_map]
  rw [hlength] at hcounts
  have hloaded := congrArg LoadStatus.loadedPartitions hcounts
  have hrecords := congrArg LoadStatus.loadedRecords hcounts
  exact ⟨s', hs', congrArg LoadStatus.totalPartitions hcounts,
    congrArg LoadStatus.totalComplete hcounts, hloaded, hrecords⟩

theorem has_after (h : a.Ready s) {id : RecordId} (hkind : id.kind = queryKind.tag) :
    a.after.Has id ↔ a.before.Has id ∨ ∃ key ∈ a.paging.keys a.collection, id = a.queryId key := by
  obtain ⟨-, -, -, hplanned⟩ := run_of_ready h
  obtain ⟨new, s', hadds, -, -⟩ := hplanned.counted
  by_cases hnew : ∃ query ∈ new, id = LeasedWork.queryId a.node.source a.collection query
  · obtain ⟨query, hquery, rfl⟩ := hnew
    obtain ⟨r, hr, -⟩ := hadds.added query hquery
    refine iff_of_true (has_of_find hr) (.inr ⟨_, ?_, rfl⟩)
    rw [keys_eq]
    exact List.mem_map_of_mem ((hadds.mem query).mp hquery).1
  · have hsame : a.after.find? id = a.before.find? id :=
      hadds.same id hkind fun query hquery heq => hnew ⟨query, hquery, heq⟩
    rw [Has, Has, hsame]
    refine ⟨.inl, ?_⟩
    rintro (hstored | ⟨key, hkey, rfl⟩)
    · exact hstored
    · rw [keys_eq, List.mem_map] at hkey
      obtain ⟨query, hquery, rfl⟩ := hkey
      by_contra hfree
      have hmem := (hadds.mem query).mpr ⟨hquery, Option.not_isSome_iff_eq_none.mp hfree⟩
      exact hnew ⟨query, hmem, rfl⟩

/-- **One attempt.** -/
theorem exact_of_ready (h : a.Ready s) : a.Exact s := by
  obtain ⟨hnoted, hstate, hverdict, hplanned⟩ := run_of_ready h
  obtain ⟨new, -, hadds, -, -⟩ := hplanned.counted
  obtain ⟨s', hs', htotal, hcomplete, hloaded, hrecords⟩ := status_after h
  exact {
    noted := hnoted
    rest := hstate
    verdict := hverdict
    queries := fun key hkey => (has_after h rfl).mpr (.inr ⟨key, hkey, rfl⟩)
    added := by
      intro key hkey
      obtain ⟨query, hquery, rfl⟩ := List.mem_map.mp ((newKeys_perm hadds).mem_iff.mp hkey)
      obtain ⟨r, hr, hstatus, -⟩ := hadds.added query hquery
      exact ⟨r, hr, hstatus⟩
    untouched := by
      intro id r hkind hr
      refine (hadds.same id hkind fun query hquery heq => ?_).trans hr
      rw [heq, ((hadds.mem query).mp hquery).2] at hr
      cases hr
    only := fun id hkind => (has_after h hkind).mp
    status := by
      refine ⟨s', hs', fun hsmall => ?_, hcomplete, hloaded, hrecords⟩
      rw [htotal, UInt64.toNat_add, UInt64.toNat_ofNat_of_lt' (by omega), Nat.mod_eq_of_lt hsmall]
    others := hplanned.same }

/-- An attempt starts where another one starts, for the same collection. -/
structure Begins (cut whole : Attempt) : Prop where
  source : cut.node.source = whole.node.source
  collection : cut.collection = whole.collection
  before : cut.before = whole.before
  held : cut.piece.IsHeld cut.before

/-- An attempt starts where another one has come to. Meanwhile the queries may have changed, but
there are no others, and none have been planned. -/
structure Follows (again cut : Attempt) : Prop where
  source : again.node.source = cut.node.source
  collection : again.collection = cut.collection
  held : again.piece.IsHeld again.before
  queries : ∀ id, id.kind = queryKind.tag → (again.before.Has id ↔ cut.after.Has id)
  status : ∀ s, cut.after.loadStatus? cut.statusId = some s →
    ∃ s', again.before.loadStatus? again.statusId = some s' ∧
      s'.totalPartitions = s.totalPartitions ∧ s'.totalComplete = s.totalComplete

/-- An attempt with the export and the table that another one has left. -/
def next (a : Attempt) (paging : Paging) : Attempt :=
  { a with piece := a.done.partition, before := a.after, paging := paging }

/-- The export is still in hand, so one may go on at once. -/
theorem next_follows (h : a.Ready s) (paging : Paging) : (a.next paging).Follows a := by
  obtain ⟨-, -, -, hplanned⟩ := run_of_ready h
  have hcollection : (a.next paging).collection = a.collection :=
    congrArg SnapshotId.collection hplanned.identity
  have hstatus : (a.next paging).statusId = a.statusId :=
    congrArg (LoadStatus.idOf a.node.source) hcollection
  exact ⟨rfl, hcollection, hplanned.held, fun _ _ => Iff.rfl,
    fun s hs => ⟨s, hstatus ▸ hs, rfl, rfl⟩⟩

section Repeated

variable {whole cut again : Attempt}

theorem Begins.ready (hcut : cut.Begins whole) (h : whole.Ready s) : cut.Ready s where
  held := hcut.held
  status := by
    rw [hcut.before, statusId, hcut.source, hcut.collection]
    exact h.status

theorem Begins.queryId_eq (hcut : cut.Begins whole) (key : String) :
    cut.queryId key = whole.queryId key := by
  rw [queryId, queryId, hcut.source]

theorem Follows.queryId_eq (hagain : again.Follows cut) (key : String) :
    again.queryId key = cut.queryId key := by
  rw [queryId, queryId, hagain.source]

/-- The pages before a failure are among all pages. -/
theorem Begins.keys_subset (hcut : cut.Begins whole) {failure : Failure}
    (hstop : cut.paging.stop = .error failure) (hfront : cut.paging.front <+: whole.paging.front) :
    cut.paging.keys cut.collection ⊆ whole.paging.keys whole.collection := by
  have hpages : cut.paging.pages = cut.paging.front := by
    rw [Paging.pages, hstop]
    exact List.append_nil _
  intro key hkey
  rw [hcut.collection, Paging.keys, hpages, List.mem_flatMap] at hkey
  obtain ⟨page, hpage, hkey⟩ := hkey
  exact List.mem_flatMap.mpr ⟨page, List.mem_append_left _ (hfront.subset hpage), hkey⟩

/-- What is new to the whole attempt is new to the first one, or else to the second one. -/
theorem newKeys_append (h : whole.Ready s) (hcut : cut.Begins whole) {failure : Failure}
    (hstop : cut.paging.stop = .error failure) (hfront : cut.paging.front <+: whole.paging.front)
    (hagain : again.Follows cut) (hpaging : again.paging = whole.paging) :
    whole.newKeys.Perm (cut.newKeys ++ again.newKeys) := by
  have hcollection : again.collection = whole.collection := hagain.collection.trans hcut.collection
  -- What the first attempt has added is there when the second one starts.
  have hbefore (key : String) : again.before.Has (whole.queryId key) ↔
      whole.before.Has (whole.queryId key) ∨ key ∈ cut.paging.keys cut.collection := by
    rw [hagain.queries _ rfl, has_after (hcut.ready h) rfl, hcut.before]
    simp [queryId, hcut.source]
  have hfirst (key : String) : key ∈ cut.newKeys ↔
      key ∈ cut.paging.keys cut.collection ∧ ¬ whole.before.Has (whole.queryId key) := by
    rw [mem_newKeys, hcut.before, hcut.queryId_eq]
  have hsecond (key : String) : key ∈ again.newKeys ↔
      key ∈ whole.paging.keys whole.collection ∧ ¬ again.before.Has (whole.queryId key) := by
    rw [mem_newKeys, hpaging, hcollection, hagain.queryId_eq, hcut.queryId_eq]
  have hsubset := hcut.keys_subset hstop hfront
  refine (List.perm_ext_iff_of_nodup whole.nodup_newKeys ?_).mpr fun key => ?_
  · rw [List.nodup_append]
    refine ⟨cut.nodup_newKeys, again.nodup_newKeys, ?_⟩
    rintro key hkey _ hkey' rfl
    exact ((hsecond key).mp hkey').2 ((hbefore key).mpr (.inr ((hfirst key).mp hkey).1))
  · rw [List.mem_append, mem_newKeys, hfirst, hsecond, hbefore, not_or]
    constructor
    · rintro ⟨hkey, hfree⟩
      by_cases hcutKey : key ∈ cut.paging.keys cut.collection
      · exact .inl ⟨hcutKey, hfree⟩
      · exact .inr ⟨hkey, hfree, hcutKey⟩
    · rintro (⟨hkey, hfree⟩ | ⟨hkey, hfree, -⟩)
      · exact ⟨hsubset hkey, hfree⟩
      · exact ⟨hkey, hfree⟩

/-- **Planning is exact, and may be started again.**  A node that holds an export, of which the
collection has a load status, asks its supplier for the pages up to the one that ends the planning,
or up to the first failure.  It adds a query for each identifier under its key and leaves the
queries that there are as they are; the load status counts those that it has added, as long as the
count fits into a word, and says that they are all if the last page was reached.

If an attempt has failed after some of the pages, another one that starts from there comes to the
same queries, and to the same counts, as one that has not failed.  Between the two, queries may be
worked on and the export may change hands. -/
theorem exact_and_restartable (h : whole.Ready s) : whole.Exact s ∧
    ∀ (cut again : Attempt) (failure : Failure), cut.Begins whole →
      cut.paging.stop = .error failure → cut.paging.front <+: whole.paging.front →
      again.Follows cut → again.paging = whole.paging →
      (∀ id, id.kind = queryKind.tag → (again.after.Has id ↔ whole.after.Has id)) ∧
      ∃ s₁ s₂, again.after.loadStatus? again.statusId = some s₁ ∧
        whole.after.loadStatus? whole.statusId = some s₂ ∧
        s₁.totalPartitions = s₂.totalPartitions ∧ s₁.totalComplete = s₂.totalComplete := by
  refine ⟨exact_of_ready h, fun cut again failure hcut hstop hfront hagain hpaging => ?_⟩
  obtain ⟨s₀, hs₀, htotal₀, hcomplete₀, -⟩ := status_after (hcut.ready h)
  obtain ⟨s₀', hs₀', htotal₀', hcomplete₀'⟩ := hagain.status s₀ hs₀
  have hready : again.Ready s₀' := ⟨hagain.held, hs₀'⟩
  obtain ⟨s₁, hs₁, htotal₁, hcomplete₁, -⟩ := status_after hready
  obtain ⟨s₂, hs₂, htotal₂, hcomplete₂, -⟩ := status_after h
  have hcollection : again.collection = whole.collection := hagain.collection.trans hcut.collection
  refine ⟨fun id hkind => ?_, s₁, s₂, hs₁, hs₂, ?_, ?_⟩
  · have hsubset := hcut.keys_subset hstop hfront
    rw [has_after hready hkind, has_after h hkind, hagain.queries id hkind,
      has_after (hcut.ready h) hkind, hcut.before, hpaging, hcollection]
    simp only [hagain.queryId_eq, hcut.queryId_eq]
    constructor
    · rintro ((hstored | ⟨key, hkey, rfl⟩) | hnew)
      · exact .inl hstored
      · exact .inr ⟨key, hsubset hkey, rfl⟩
      · exact .inr hnew
    · rintro (hstored | hnew)
      · exact .inl (.inl hstored)
      · exact .inr hnew
  · have hlength := (newKeys_append h hcut hstop hfront hagain hpaging).length_eq
    rw [htotal₁, htotal₂, htotal₀', htotal₀, hlength, List.length_append, UInt64.ofNat_add,
      UInt64.add_assoc]
  · have hunfinished : cut.paging.isFinished = false := by
      rw [Paging.isFinished, hstop]
      rfl
    rw [hcomplete₁, hcomplete₂, hcomplete₀', hcomplete₀, hunfinished, Bool.or_false, hpaging]

end Repeated

/-- A load status in which nothing has been counted. -/
def ordersStatus : Record :=
  (Record.shared (LoadStatus.idOf "db" "db.orders")
    (some (sharedKind.text (LoadStatus.starting .epoch).toMembers)) .epoch).firstVersion

/-- An export that has been claimed. It has no progress. -/
def ordersExport : Record :=
  ((Record.unassigned (snapshotKind.recordId "db" ⟨"db.orders", 100, .epoch⟩) none .epoch).claimed
    "node-a" .epoch (.seconds 60)).firstVersion

/-- A query that is there already. -/
def ordersQuery : Record :=
  (Record.unassigned ⟨"db", "DATA_QUERY", "db.orders|q1"⟩ none .epoch).firstVersion

def firstPage : Page := ⟨["q0", "db.orders|q1"], false, some "doc-1"⟩

def secondPage : Page := ⟨["q1", "db.orders|q|2", "q0"], false, none⟩

/-- An attempt that sees both pages. -/
def wholeAttempt : Attempt where
  node := ⟨"db", "node-a", .seconds 60⟩
  piece := ⟨⟨"db.orders", 100, .epoch⟩, none, some ordersExport⟩
  paging := ⟨[firstPage], .ok secondPage, by decide, by rintro _ ⟨⟩; rfl⟩
  rest := []
  refuse _ _ := pure .unreadable
  clock _ := .epoch
  before := ⟨[ordersStatus, ordersExport, ordersQuery]⟩

/-- An attempt that fails after the first page. -/
def brokenAttempt : Attempt :=
  { wholeAttempt with paging := ⟨[firstPage], .error (.storage "down"), by decide, nofun⟩ }

/-- An attempt that goes on with what is left. -/
def secondAttempt : Attempt := brokenAttempt.next wholeAttempt.paging

/-- Two queries are new, and they are there after the second attempt. -/
theorem exact_and_restartable_twoAttempts :
    wholeAttempt.noted = [(⟨"db.orders", 100, .epoch⟩, none),
      (⟨"db.orders", 100, .epoch⟩, some "doc-1")] ∧
    wholeAttempt.newKeys = ["db.orders|q|2", "db.orders|q0"] ∧
    secondAttempt.after.Has ⟨"db", "DATA_QUERY", "db.orders|q|2"⟩ ∧
    ∃ s, secondAttempt.after.loadStatus? secondAttempt.statusId = some s ∧
      s.totalPartitions.toNat = 2 ∧ s.totalComplete = true := by
  have hstatus : wholeAttempt.before.loadStatus? wholeAttempt.statusId =
      some (LoadStatus.starting .epoch) := by
    have hfind : wholeAttempt.before.find? wholeAttempt.statusId = some ordersStatus := by
      decide +kernel
    exact loadStatus_of_find hfind (LoadStatus.ofRecord_of_text rfl rfl)
  have hheld : wholeAttempt.piece.IsHeld wholeAttempt.before :=
    ⟨ordersExport, rfl, rfl, by decide +kernel⟩
  have hready : wholeAttempt.Ready (LoadStatus.starting .epoch) := ⟨hheld, hstatus⟩
  have hbegins : brokenAttempt.Begins wholeAttempt := ⟨rfl, rfl, rfl, hheld⟩
  obtain ⟨hexact, hrestart⟩ := exact_and_restartable hready
  have hfollows : secondAttempt.Follows brokenAttempt := next_follows (hbegins.ready hready) _
  obtain ⟨hqueries, s₁, s₂, hs₁, hs₂, htotal, hcomplete⟩ :=
    hrestart brokenAttempt secondAttempt (.storage "down") hbegins rfl (List.prefix_refl _)
      hfollows rfl
  have hnew : wholeAttempt.newKeys = ["db.orders|q|2", "db.orders|q0"] := by decide +kernel
  obtain ⟨s₃, hs₃, hcount, hlast, -, -⟩ := hexact.status
  obtain rfl := Option.some.inj (hs₂.symm.trans hs₃)
  refine ⟨hexact.noted, hnew, ?_, s₁, hs₁, ?_, hcomplete.trans hlast⟩
  · refine (hqueries _ rfl).mpr (hexact.queries "db.orders|q|2" ?_)
    decide +kernel
  · rw [htotal, hcount (by rw [hnew]; decide), hnew]
    rfl

end Attempt

end LeasedWork
