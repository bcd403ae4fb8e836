import LeasedWork.Proofs.Fleet.Handovers
import LeasedWork.Proofs.Partition.Grammars

/-! # Positions are kept

Whoever reads a stream notes how far, whoever loads a query notes every batch, and a transition
writes down what has been noted.  A `Logbook` is kept beside a site at which nodes do so with
partitions that they have created, with a progress or without, and got in all the ways that there
are.  Each identity carries what its last writer had noted (`Logbook.kept`), and each partition in
hand what was kept of its record when a node got it and what its holder has noted since
(`Sheet.gains`).

Whatever a node gets then shows what the record that was first stored under its identity makes of
all this (`Gain.shown`): a query counts every batch, and a stream stands at the last position, if
it was created with a progress (`Logbook.gains_kept`).  Without one it has nowhere to put a
position: `Partition.advance` passes over it, and nobody learns that the position is lost
(`Logbook.position_passed_over`).

A copy that others have overtaken cannot be written, so that what is kept only grows
(`Logbook.Sound.kept_prefix_step`).
-/
namespace LeasedWork

/-! ## What is noted -/

/-- What a holder notes with the partition in hand. -/
inductive Gain
  | position (token : Option String) (checkpoint : Checkpoint)
  | batch (records : UInt64)
  deriving DecidableEq, Repr

namespace Gain

def position? : Gain → Option (Option String × Checkpoint)
  | .position token checkpoint => some (token, checkpoint)
  | .batch _ => none

def records? : Gain → Option UInt64
  | .position _ _ => none
  | .batch records => some records

/-- The last position noted. -/
def last? (gains : List Gain) : Option (Option String × Checkpoint) :=
  (gains.filterMap position?).getLast?

/-- The records of each batch noted. -/
def batches (gains : List Gain) : List UInt64 := gains.filterMap records?

end Gain

/-- A stream's progress at a position, or where it was. -/
def StreamProgress.standingAt (x : StreamProgress) :
    Option (Option String × Checkpoint) → StreamProgress
  | none => x
  | some (token, checkpoint) => { x with resumeToken := token, checkpoint := some checkpoint }

/-- A query's progress after some more batches. The counts are words. -/
def QueryProgress.adding (x : QueryProgress) (batches : List UInt64) : QueryProgress where
  executedQueries := .ofNat (x.executedQueries.toNat + batches.length)
  loadedRecords := .ofNat (x.loadedRecords.toNat + (batches.map UInt64.toNat).sum)
  startTime := x.startTime

/-- What gains make of the progress that a partition was created with. A query without any starts
from zero at its first batch; a stream stays without. -/
def Gain.shown : (k : BuiltIn) → List Gain → Option k.kind.Progress → Option k.kind.Progress
  | .stream, gains, x => x.map (·.standingAt (last? gains))
  | .query, gains, x =>
    if batches gains = [] then x else some ((x.getD .none).adding (batches gains))
  | _, _, x => x

/-- A partition in hand, with what was kept of its record when a node got it and what its holder has
noted since. -/
structure Sheet where
  partition : AnyPartition
  gains : List Gain

/-- Notes a gain. There are positions of streams alone, and batches of queries alone. -/
def Sheet.note : Gain → Sheet → Sheet
  | .position token checkpoint, ⟨⟨.stream, p⟩, gains⟩ =>
    ⟨⟨.stream, p.advance token checkpoint⟩, gains ++ [.position token checkpoint]⟩
  | .batch records, ⟨⟨.query, p⟩, gains⟩ =>
    ⟨⟨.query, p.recordBatch records⟩, gains ++ [.batch records]⟩
  | _, e => e

/-- A sheet shows what its gains make of the progress of a record. -/
def Sheet.Tells (e : Sheet) (origin : Record) : Prop :=
  ∃ x, Partition.readProgress? e.partition.builtIn.kind origin = .ok x ∧
    e.partition.partition.progress = Gain.shown e.partition.builtIn e.gains x

namespace Gain

variable {gains : List Gain}

@[simp]
theorem last?_position (token : Option String) (checkpoint : Checkpoint) :
    last? (gains ++ [.position token checkpoint]) = some (token, checkpoint) := by
  simp [last?, position?]

@[simp]
theorem batches_batch (records : UInt64) :
    batches (gains ++ [.batch records]) = batches gains ++ [records] := by
  simp [batches, records?]

@[simp]
theorem shown_nil (k : BuiltIn) (x : Option k.kind.Progress) : shown k [] x = x := by
  cases k with
  | stream => cases x <;> rfl
  | query => rfl
  | leader | shared | snapshot => rfl

end Gain

theorem QueryProgress.adding_nil (x : QueryProgress) : x.adding [] = x := by
  simp [adding]

theorem QueryProgress.adding_concat (x : QueryProgress) (batches : List UInt64)
    (records : UInt64) : x.adding (batches ++ [records]) =
      { x.adding batches with
        executedQueries := (x.adding batches).executedQueries + 1
        loadedRecords := (x.adding batches).loadedRecords + records } := by
  simp [adding, ← Nat.add_assoc, UInt64.ofNat_add]

namespace Gain

variable {gains : List Gain}

/-- A position replaces the one before, if there is a progress to keep it. -/
theorem shown_position (token : Option String) (checkpoint : Checkpoint)
    (x : Option StreamProgress) :
    shown .stream (gains ++ [.position token checkpoint]) x = (shown .stream gains x).map fun y =>
      { y with resumeToken := token, checkpoint := some checkpoint } := by
  simp only [shown, last?_position, Option.map_map]
  refine Option.map_congr fun y _ => ?_
  dsimp only [Function.comp]
  rcases last? gains with _ | ⟨token', checkpoint'⟩ <;> rfl

/-- A batch is counted, from zero if nothing has been counted so far. -/
theorem shown_batch (records : UInt64) (x : Option QueryProgress) :
    shown .query (gains ++ [.batch records]) x = some
      { ((shown .query gains x).getD .none : QueryProgress) with
        executedQueries := ((shown .query gains x).getD .none : QueryProgress).executedQueries + 1
        loadedRecords :=
          ((shown .query gains x).getD .none : QueryProgress).loadedRecords + records } := by
  have hsofar : ((shown .query gains x).getD .none : QueryProgress) =
      (x.getD .none).adding (batches gains) := by
    simp only [shown]
    split
    · rename_i hnone
      rw [hnone, QueryProgress.adding_nil]
    · rfl
  rw [hsofar, ← QueryProgress.adding_concat]
  simp only [shown, batches_batch]
  exact if_neg (List.append_ne_nil_of_right_ne_nil _ (List.cons_ne_nil _ _))

end Gain

/-- A query's progress after some batches more: untouched by none, and else grown by as many queries
and records, as long as words can count them. -/
structure QueryProgress.Counted (batches : List UInt64) (x y : Option QueryProgress) : Prop where
  untouched : batches = [] → y = x
  grown : batches ≠ [] → ∃ z, y = some z ∧ z.startTime = (x.getD .none).startTime ∧
    ((x.getD .none).executedQueries.toNat + batches.length < UInt64.size →
      z.executedQueries.toNat = (x.getD .none).executedQueries.toNat + batches.length) ∧
    ((x.getD .none).loadedRecords.toNat + (batches.map UInt64.toNat).sum < UInt64.size →
      z.loadedRecords.toNat =
        (x.getD .none).loadedRecords.toNat + (batches.map UInt64.toNat).sum)

theorem QueryProgress.counted_shown (gains : List Gain) (x : Option QueryProgress) :
    Counted (Gain.batches gains) x (Gain.shown .query gains x) where
  untouched hnone := if_pos hnone
  grown hsome := ⟨_, if_neg hsome, rfl, fun hbound => UInt64.toNat_ofNat_of_lt' hbound,
    fun hbound => UInt64.toNat_ofNat_of_lt' hbound⟩

namespace Sheet

/-- **Noting a gain** shows in the progress in hand. -/
theorem Tells.note {e : Sheet} {origin : Record} (h : e.Tells origin) (g : Gain) :
    (e.note g).Tells origin := by
  obtain ⟨⟨k, p⟩, gains⟩ := e
  obtain ⟨x, hx, hshown⟩ := h
  cases g with
  | position token checkpoint =>
    cases k with
    | stream =>
      refine ⟨x, hx, Eq.trans ?_ (Gain.shown_position token checkpoint x).symm⟩
      exact congrArg (Option.map _) hshown
    | leader | shared | snapshot | query => exact ⟨x, hx, hshown⟩
  | batch records =>
    cases k with
    | query =>
      refine ⟨x, hx, Eq.trans ?_ (Gain.shown_batch records x).symm⟩
      exact congrArg (fun y : Option QueryProgress => some
        { y.getD .none with executedQueries := (y.getD .none).executedQueries + 1
                            loadedRecords := (y.getD .none).loadedRecords + records }) hshown
    | leader | shared | snapshot | stream => exact ⟨x, hx, hshown⟩

/-- The progress in hand of any kind but shared state can be stored, as one that was read can. -/
theorem Tells.storable {e : Sheet} {origin : Record} (h : e.Tells origin)
    (hk : e.partition.builtIn ≠ .shared) : e.partition.note.Storable := by
  obtain ⟨⟨k, p⟩, gains⟩ := e
  obtain ⟨x, hx, hshown⟩ := h
  have hread : Note.Storable ⟨k, x⟩ := Note.storable_of_read hk hx
  cases k with
  | shared => exact absurd rfl hk
  | snapshot =>
    obtain rfl : p.progress = x := hshown
    exact hread
  | leader | stream | query => trivial

/-- So it is read back of a record that is written with it. -/
theorem Tells.readProgress? {e : Sheet} {origin r : Record} (h : e.Tells origin)
    (hk : e.partition.builtIn ≠ .shared) (hkind : r.kind = Held.tag e.partition)
    (hprogress : r.progress = Held.progressText e.partition) :
    Partition.readProgress? e.partition.builtIn.kind r = .ok e.partition.partition.progress :=
  Note.Describes.readProgress (x := e.partition.note) ⟨hkind, hprogress, h.storable hk⟩

theorem record_note (e : Sheet) (g : Gain) :
    Held.record (e.note g).partition = Held.record e.partition := by
  obtain ⟨⟨k, p⟩, gains⟩ := e
  cases g <;> cases k <;> rfl

theorem builtIn_note (e : Sheet) (g : Gain) :
    (e.note g).partition.builtIn = e.partition.builtIn := by
  obtain ⟨⟨k, p⟩, gains⟩ := e
  cases g <;> cases k <;> rfl

theorem gains_prefix_note (e : Sheet) (g : Gain) : e.gains <+: (e.note g).gains := by
  obtain ⟨⟨k, p⟩, gains⟩ := e
  cases g <;> cases k <;> first | exact List.prefix_append _ _ | exact List.prefix_refl _

end Sheet

/-! ## The logbook -/

instance : Grip Sheet where
  hand e := ⟨.builtIn, e.partition⟩
  moved _ e p := { e with partition := p }

/-- Nodes at work on one store, and beside them what has been noted. -/
structure Logbook (b : Backend) where
  site : Site b Sheet
  /-- The record that was first stored under an identity. -/
  origin : RecordId → Option Record
  /-- What the last one to write the record of an identity had noted. -/
  kept : RecordId → List Gain
  /-- How often the stored record of an identity has changed. -/
  writes : RecordId → Nat

namespace Logbook

open Backend.Session

variable {b : Backend}

/-- What may happen. Any request may fail, without having had an effect. -/
inductive Move
  | create (n : Node) (p : AnyPartition) (fault : Option Failure)
  /-- Of a creation that fails on its way, only the keys that it got to count. -/
  | createEach (n : Node) (kind : String) (progress : Option String) (keys : List String)
    (fault : Option Failure)
  | fetch (n : Node) (f : Fetch) (fault : Option Failure)
  /-- A partition in hand is saved, completed, closed or given up. -/
  | transition (i : Nat) (t : Transition) (fault : Option Failure)
  | note (i : Nat) (g : Gain)
  | copy (i : Nat)
  | setClock (t : Instant)

/-- The sheet of a partition that a node has got. -/
def sheet (w : Logbook b) (p : AnyPartition) : Sheet :=
  ⟨p, ((Held.record p).map fun r => w.kept r.id).getD []⟩

/-- What is done. -/
def deed (w : Logbook b) : Move → Site.Deed Sheet
  | .create n p fault => .ask (n.create p.partition) (fault.map .early)
  | .createEach n kind progress keys fault =>
    .ask (n.createEach kind progress keys) (fault.map .early)
  | .fetch n f fault => .fetch n (f.errand w.sheet) (fault.map .early)
  | .transition i t fault => .transition i t (fault.map .early)
  | .note i g => .revise i (·.note g)
  | .copy i => .copy i
  | .setClock t => .setClock t

/-- What is kept once the holder of a sheet has written. -/
def keptBy (w : Logbook b) (e : Sheet) (id : RecordId) : List Gain :=
  if (Held.record e.partition).any (·.id = id) then e.gains else w.kept id

/-- What is kept after a move. -/
def keptAfter (w : Logbook b) : Move → RecordId → List Gain
  | .transition i t fault =>
    match w.site.hands[i]? with
    | none => w.kept
    | some e => if (w.site.move (fault.map .early) e t).1.isOk then w.keptBy e else w.kept
  | .create _ _ _ | .createEach _ _ _ _ _ | .fetch _ _ _ | .note _ _ | .copy _ | .setClock _ =>
    w.kept

/-- The logbook when the site has become another one. -/
def after (w : Logbook b) (site : Site b Sheet) (kept : RecordId → List Gain) : Logbook b where
  site := site
  origin id := (w.origin id).or (site.stored id)
  kept := kept
  writes id := w.writes id + if site.stored id = w.site.stored id then 0 else 1

/-- The logbook after a move. -/
def step (w : Logbook b) (m : Move) : Logbook b := w.after (w.site.step (w.deed m)) (w.keptAfter m)

/-- The logbook after some moves, from an empty store at a time. -/
def run (b : Backend) (start : Instant) (moves : List Move) : Logbook b :=
  moves.foldl step ⟨.starting b Sheet start, fun _ => none, fun _ => [], fun _ => 0⟩

/-- The partitions that a node gets. -/
def fetch (w : Logbook b) (fault : Option Failure) (n : Node) (f : Fetch) :
    Except Failure (List AnyPartition) × b.Session :=
  w.site.session.fetch w.site.now (fault.map .early) n (f.errand id)

/-! ## The invariant -/

/-- What is stored has as many versions as there were writes, and shows what the kept gains make of
the first record. -/
structure Faithful (w : Logbook b) : Prop where
  reached : w.site.session.Reached
  missing : ∀ id, w.site.stored id = none → w.origin id = none ∧ w.kept id = [] ∧ w.writes id = 0
  version : ∀ id r, w.site.stored id = some r → r.version = .ofNat (w.writes id)
  progress : ∀ id r, w.site.stored id = some r → ∀ k : BuiltIn, r.kind = k.kind.tag → k ≠ .shared →
    ∃ o, w.origin id = some o ∧ Partition.readProgress? k.kind r =
      (Partition.readProgress? k.kind o).map (Gain.shown k (w.kept id))

/-- What a logbook knows of a partition in hand: the record it has was stored after some number of
writes, and if that was the last one, everything kept was noted by its holder too. -/
structure Backs (w : Logbook b) (e : Sheet) (r : Record) : Prop where
  record : Held.record e.partition = some r
  kind : r.kind = Held.tag e.partition
  version : ∃ n ≤ w.writes r.id, r.version = .ofNat n ∧
    (n = w.writes r.id → w.kept r.id <+: e.gains)
  tells : e.partition.builtIn ≠ .shared → ∃ o, w.origin r.id = some o ∧ e.Tells o

/-- **The invariant.** -/
structure Sound (w : Logbook b) : Prop extends Faithful w where
  sheets : ∀ e ∈ w.site.hands, ∃ r, w.Backs e r

/-- What may come of the stored record of an identity. -/
inductive Change (w : Logbook b) (id : RecordId) (gains : List Gain) :
    Option Record → Option Record → Prop
  | same (x : Option Record) (hgains : gains = w.kept id) : Change w id gains x x
  | created (r : Record) (hversion : r.version = 1) (hgains : gains = w.kept id) :
    Change w id gains none (some r)
  | rewritten (r r' : Record) (hversion : r'.version = r.version + 1)
    (hprogress : ∀ k : BuiltIn, r'.kind = k.kind.tag → k ≠ .shared →
      ∃ o, w.origin id = some o ∧ Partition.readProgress? k.kind r' =
        (Partition.readProgress? k.kind o).map (Gain.shown k gains)) :
    Change w id gains (some r) (some r')

variable {w : Logbook b} {s s' : b.Session} {site : Site b Sheet} {kept : RecordId → List Gain}
  {id : RecordId} {e : Sheet} {r : Record} {m : Move}

theorem ne_of_version {r r' : Record} (h : r'.version = r.version + 1) : some r' ≠ some r := by
  intro hsame
  rw [Option.some.inj hsame] at h
  exact absurd (UInt64.add_eq_left.mp h.symm) (by decide)

theorem keptAfter_transition {i : Nat} (hi : w.site.hands[i]? = some e) (t : Transition)
    (fault : Option Failure) : w.keptAfter (.transition i t fault) =
      if (w.site.move (fault.map .early) e t).1.isOk then w.keptBy e else w.kept := by
  simp only [keptAfter, hi]

/-- Either nothing comes of it, or another record is stored. -/
theorem Change.same_or_ne {old new : Option Record} {gains : List Gain}
    (h : w.Change id gains old new) : (new = old ∧ gains = w.kept id) ∨ new ≠ old := by
  cases h with
  | same x hgains => exact .inl ⟨rfl, hgains⟩
  | created r => exact .inr (Option.some_ne_none r)
  | rewritten r r' hversion => exact .inr (ne_of_version hversion)

/-- What is known of a partition in hand stays so, whatever comes of the stored records. -/
theorem Backs.after (he : w.Backs e r)
    (hchange : w.Change r.id (kept r.id) (w.site.stored r.id) (site.stored r.id)) :
    (w.after site kept).Backs e r := by
  refine ⟨he.record, he.kind, ?_, fun hk => ?_⟩
  · obtain ⟨n, hn, hversion, hkept⟩ := he.version
    refine ⟨n, Nat.le_trans hn (Nat.le_add_right _ _), hversion, ?_⟩
    simp only [Logbook.after]
    rcases hchange.same_or_ne with ⟨hsame, hgains⟩ | hne
    · rw [if_pos hsame, hgains]
      exact hkept
    · -- A write leaves the version in hand behind.
      rw [if_neg hne]
      omega
  · obtain ⟨o, ho, htells⟩ := he.tells hk
    exact ⟨o, by simp only [Logbook.after, ho, Option.some_or], htells⟩

theorem Backs.keptBy (he : w.Backs e r) (id : RecordId) :
    w.keptBy e id = if id = r.id then e.gains else w.kept id := by
  rw [Logbook.keptBy, he.record]
  simp only [Option.any_some, decide_eq_true_eq, eq_comm (a := r.id)]

/-- Noting a gain leaves the record in hand alone. -/
theorem Backs.note (he : w.Backs e r) (g : Gain) : w.Backs (e.note g) r := by
  refine ⟨(e.record_note g).trans he.record, ?_, ?_, fun hk => ?_⟩
  · exact he.kind.trans (congrArg (fun k : BuiltIn => k.kind.tag) (e.builtIn_note g)).symm
  · obtain ⟨n, hn, hversion, hkept⟩ := he.version
    exact ⟨n, hn, hversion, fun h => (hkept h).trans (e.gains_prefix_note g)⟩
  · rw [e.builtIn_note] at hk
    obtain ⟨o, ho, htells⟩ := he.tells hk
    exact ⟨o, ho, htells.note g⟩

/-- **What comes of the stored records** is told as before. -/
theorem Faithful.after (hw : Faithful w) (hsite : site.session.Reached)
    (hchange : ∀ id, w.Change id (kept id) (w.site.stored id) (site.stored id)) :
    Faithful (w.after site kept) where
  reached := hsite
  missing id hnone := by
    have hnone : site.stored id = none := hnone
    have hc := hchange id
    simp only [Logbook.after, hnone, Option.or_none]
    rw [hnone] at hc
    generalize hold : w.site.stored id = old at hc
    -- A record that is missing has not been created, for none is ever removed.
    cases hc with
    | same x hgains =>
      obtain ⟨hfirst, hkept, hnever⟩ := hw.missing id hold
      exact ⟨hfirst, hgains.trans hkept, by rw [hnever]; rfl⟩
  version id r hr := by
    have hr : site.stored id = some r := hr
    have hc := hchange id
    simp only [Logbook.after, hr]
    rw [hr] at hc
    generalize hold : w.site.stored id = old at hc
    cases hc with
    | same => rw [if_pos rfl]; exact hw.version id r hold
    | created r hversion => rw [(hw.missing id hold).2.2, hversion]; rfl
    | rewritten r₀ r hversion =>
      rw [if_neg (ne_of_version hversion), hversion, hw.version id r₀ hold, UInt64.ofNat_add]
      rfl
  progress id r hr k hkind hk := by
    have hr : site.stored id = some r := hr
    have hc := hchange id
    simp only [Logbook.after, hr]
    rw [hr] at hc
    generalize hold : w.site.stored id = old at hc
    cases hc with
    | same x hgains =>
      obtain ⟨o, ho, hshown⟩ := hw.progress id r hold k hkind hk
      exact ⟨o, by rw [ho, Option.some_or], hgains ▸ hshown⟩
    | created r hversion hgains =>
      obtain ⟨hfirst, hkept, -⟩ := hw.missing id hold
      refine ⟨r, by rw [hfirst]; rfl, ?_⟩
      rw [hgains, hkept]
      cases Partition.readProgress? k.kind r with
      | error => rfl
      | ok x => exact congrArg Except.ok (Gain.shown_nil k x).symm
    | rewritten r₀ r hversion hprogress =>
      obtain ⟨o, ho, hshown⟩ := hprogress k hkind hk
      exact ⟨o, by rw [ho, Option.some_or], hshown⟩

theorem readProgress?_kept (k : PartitionKind) (r : Record) :
    Partition.readProgress? k (b.kept r) = Partition.readProgress? k r := by
  rw [Partition.readProgress?, Partition.readProgress?, b.progress_kept]

/-- What is read of a stored record is known. -/
theorem Faithful.backs (hw : Faithful w) (hr : w.site.stored r.id = some (b.kept r))
    (hrecord : Held.record e.partition = some r) (hkind : r.kind = Held.tag e.partition)
    (hprogress : e.partition.builtIn ≠ .shared →
      Partition.readProgress? e.partition.builtIn.kind r = .ok e.partition.partition.progress)
    (hgains : e.gains = w.kept r.id) : w.Backs e r := by
  refine ⟨hrecord, hkind, ⟨w.writes r.id, Nat.le_refl _, ?_, fun _ => ?_⟩, fun hk => ?_⟩
  · exact (b.version_kept r).symm.trans (hw.version _ _ hr)
  · exact hgains ▸ List.prefix_refl _
  · obtain ⟨o, ho, hshown⟩ := hw.progress r.id _ hr _ ((b.kind_kept r).trans hkind) hk
    rw [readProgress?_kept, hprogress hk, ← hgains] at hshown
    obtain ⟨x, hx, hsame⟩ := Fleet.exists_of_map hshown.symm
    exact ⟨o, ho, x, hx, hsame.symm⟩

/-! ## What comes of the stored records -/

theorem change_of_same (hsame : Same w.site.session s) (id : RecordId) :
    w.Change id (w.kept id) (w.site.stored id) (s.stored id) := by
  rw [hsame id]
  exact .same _ rfl

/-- Records in their first version have come under free identities, and nothing else. -/
def Grown (s s' : b.Session) : Prop :=
  ∀ id, s'.stored id = s.stored id ∨ s.stored id = none ∧ ∃ r, s'.stored id = some r ∧ r.version = 1

theorem Grown.trans {s'' : b.Session} (h : Grown s s') (h' : Grown s' s'') : Grown s s'' := by
  intro id
  rcases h' id with hsame | ⟨hfree, hnew⟩
  · rw [hsame]
    exact h id
  · rcases h id with hsame | ⟨-, r, hr, -⟩
    · exact .inr ⟨hsame ▸ hfree, hnew⟩
    · rw [hfree] at hr
      cases hr

theorem Grown.change (h : Grown w.site.session s) (id : RecordId) :
    w.Change id (w.kept id) (w.site.stored id) (s.stored id) := by
  rcases h id with hsame | ⟨hfree, r, hr, hversion⟩
  · rw [hsame]
    exact .same _ rfl
  · rw [hr, show w.site.stored id = none from hfree]
    exact .created r hversion rfl

/-- A request to create a record. -/
theorem grown_create (hs : s.Reached) (now : Instant) (fault : Option Failure) (r : Record) :
    Grown s (s.answer now (fault.map .early) (.create r)).2 := by
  rcases create_early hs now fault r with ⟨-, hsame⟩ | ⟨-, hfree, hwrote⟩
  · exact fun id => .inl (hsame id)
  · intro id
    by_cases hid : id = r.id
    · exact .inr ⟨hid ▸ hfree, _, hid ▸ hwrote.self, b.version_kept _⟩
    · exact .inl (hwrote.other hid)

/-- Creations one after the other. -/
theorem grown_createEach (hs : s.Reached) (now : Instant) (fault : Option Failure) (n : Node)
    (kind : String) (progress : Option String) (keys : List String) :
    Grown s (s.perform now (fault.map .early) (n.createEach kind progress keys)).2 := by
  induction keys generalizing s with
  | nil => exact fun _ => .inl rfl
  | cons key rest ih =>
    let r := n.newRecord kind key (kind ≠ sharedKind.tag) progress now
    have hperform : s.perform now (fault.map .early) (n.createEach kind progress (key :: rest)) =
        s.perform now (fault.map .early)
          (Node.store (.create r) >>= fun _ => n.createEach kind progress rest) := rfl
    have hgrown := grown_create hs now fault r
    have hlater := s.later_answer now (fault.map .early) (.create r)
    rw [hperform, perform_bind, perform_store]
    rcases hanswer : s.answer now (fault.map .early) (.create r) with ⟨e | isNew, s'⟩ <;>
      rw [hanswer] at hgrown hlater
    · exact hgrown
    · exact hgrown.trans (ih (hs.later hlater))

/-- Getting partitions writes at most a claim, and that leaves the progress alone. -/
theorem Faithful.change_fetch (hw : Faithful w) {H : Type} (mishap : Option Mishap) (n : Node)
    (x : Errand H) (id : RecordId) : w.Change id (w.kept id) (w.site.stored id)
      ((w.site.session.fetch w.site.now mishap n x).2.stored id) := by
  rcases stored_fetch hw.reached w.site.now mishap n x with hsame | ⟨r, owner, lease, hr, hwrote⟩
  · exact change_of_same hsame id
  · by_cases hid : id = r.id
    · subst hid
      rw [show w.site.stored r.id = some r from hr, show (w.site.session.fetch w.site.now mishap n
        x).2.stored r.id = some (b.kept (r.claimed owner w.site.now lease)) from hwrote.self]
      refine .rewritten _ _ (b.version_kept _) fun k hkind hk => ?_
      rw [readProgress?_kept]
      rw [b.kind_kept] at hkind
      exact hw.progress r.id r hr k hkind hk
    · rw [show (w.site.session.fetch w.site.now mishap n x).2.stored id = _ from hwrote.other hid]
      exact .same _ rfl

/-- The record that a transition writes shows the gains of its holder. -/
theorem Backs.rewritten (he : w.Backs e r) {stored u : Record}
    (hcurrent : stored.version = r.version) (hid : u.id = r.id)
    (hversion : u.version = r.version + 1)
    (hprogress : u.progress = Held.progressText e.partition) :
    w.Change r.id e.gains (some stored) (some u) := by
  have hkind : u.kind = Held.tag e.partition := (congrArg RecordId.kind hid).trans he.kind
  refine .rewritten _ _ (hcurrent ▸ hversion) fun k hk hshared => ?_
  obtain rfl : k = e.partition.builtIn := Note.tag_injective (hk.symm.trans hkind)
  obtain ⟨o, ho, htells⟩ := he.tells hshared
  have ⟨x, hx, hshown⟩ := htells
  refine ⟨o, ho, ?_⟩
  rw [htells.readProgress? hshared hkind hprogress, hx, hshown]
  rfl

/-- **What comes of the stored records** in one move. -/
theorem Sound.change (hw : Sound w) (m : Move) (id : RecordId) : w.Change id (w.keptAfter m id)
    (w.site.stored id) ((w.site.step (w.deed m)).stored id) := by
  cases m with
  | create n p fault =>
    have hgrown := grown_create hw.reached w.site.now fault
      (n.newRecord (Held.tag p) (Held.key p) (Held.leased p) p.note.text w.site.now)
    exact hgrown.change id
  | createEach n kind progress keys fault =>
    exact (grown_createEach hw.reached w.site.now fault n kind progress keys).change id
  | fetch n f fault =>
    rw [Site.stored, Site.stored, deed, Site.session_step_fetch]
    exact hw.change_fetch (fault.map .early) n (f.errand w.sheet) id
  | transition i t fault =>
    rw [deed]
    cases hi : w.site.hands[i]? with
    | none =>
      rw [Site.step_transition_of_none hi, keptAfter, hi]
      exact .same _ rfl
    | some e =>
      obtain ⟨r, he⟩ := hw.sheets e (List.mem_of_getElem? hi)
      rw [Site.stored, Site.stored, Site.session_step_transition hi, keptAfter_transition hi]
      rcases Site.move_early hw.reached fault e t with
        ⟨⟨error, herror⟩, hsame⟩ |
        ⟨r', u, hr', ⟨hid, hversion, hprogress⟩, hdone, ⟨stored, hstored, hcurrent⟩, hwrote⟩
      · rw [herror]
        exact change_of_same hsame id
      · obtain rfl : r = r' := Option.some.inj (he.record.symm.trans hr')
        rw [hdone]
        change w.Change id (w.keptBy e id) _ _
        rw [he.keptBy]
        -- One record is another now, and what is kept of it is what its holder has noted.
        by_cases hrid : id = r.id
        · subst hrid
          have hself : (w.site.move (fault.map .early) e t).2.stored u.id = _ := hwrote.self
          rw [if_pos rfl, ← hid, hself, show w.site.session.stored u.id = _ from hstored, hid]
          refine he.rewritten (hcurrent.trans hversion) ((b.id_kept _).trans hid) ?_ ?_
          · exact (b.version_kept _).trans (congrArg (· + 1) hversion)
          · exact (b.progress_kept _).trans hprogress
        · rw [if_neg hrid, hwrote.other fun h => hrid (h.trans hid)]
          exact .same _ rfl
  | note | copy | setClock => exact .same _ rfl

/-! ## What is in hand -/

/-- A partition as it was read of a record. -/
structure ReadOf (p : AnyPartition) (r : Record) : Prop where
  record : Held.record p = some r
  kind : r.kind = Held.tag p
  progress : Partition.readProgress? p.builtIn.kind r = .ok p.partition.progress

theorem readOf_ofRecord {k : BuiltIn} {p : Partition k.kind}
    (h : Partition.ofRecord k.kind r = .ok p) : ReadOf ⟨k, p⟩ r := by
  obtain ⟨hkind, -, hprogress, hrecord⟩ := Partition.identify_of_ofRecord h
  exact ⟨hrecord, hkind, hprogress⟩

/-- What a node has just got is on its sheet. -/
theorem Sound.backs_fetch (hw : Sound w) {fault : Option Failure} {n : Node} {f : Fetch}
    {es : List Sheet}
    (h : w.site.fetch (fault.map .early) n (f.errand w.sheet) =
      (.ok es, (w.site.step (w.deed (.fetch n f fault))).session))
    (hw' : Faithful (w.step (.fetch n f fault))) :
    ∀ e ∈ es, ∃ r, (w.step (.fetch n f fault)).Backs e r := by
  intro e he
  obtain ⟨r, hmake, hr⟩ := stored_of_fetch hw.reached h e he
  obtain ⟨k, p, hp, rfl⟩ := Fetch.exists_of_make hmake
  have hread := readOf_ofRecord hp
  refine ⟨r, hw'.backs hr hread.record hread.kind (fun _ => hread.progress) ?_⟩
  rw [sheet, hread.record]
  rfl

/-- What is in hand after a transition that succeeds is what was written. -/
theorem Sound.backs_move (hw : Sound w) {i : Nat} {t : Transition} {fault : Option Failure}
    {e e' : Sheet} (hi : w.site.hands[i]? = some e)
    (h : w.site.move (fault.map .early) e t =
      (.ok e', (w.site.step (w.deed (.transition i t fault))).session))
    (hw' : Faithful (w.step (.transition i t fault))) :
    ∃ r, (w.step (.transition i t fault)).Backs e' r := by
  obtain ⟨r, he⟩ := hw.sheets e (List.mem_of_getElem? hi)
  rcases Site.move_early hw.reached fault e t with
    ⟨⟨error, herror⟩, -⟩ | ⟨r', u, hr', ⟨hid, -, hprogress⟩, hdone, -, hwrote⟩
  · rw [h] at herror
    cases herror
  · obtain rfl : r = r' := Option.some.inj (he.record.symm.trans hr')
    have hkind : u.kind = Held.tag e.partition := (congrArg RecordId.kind hid).trans he.kind
    have hkept : (w.step (.transition i t fault)).kept = w.keptBy e := by
      change w.keptAfter (.transition i t fault) = _
      rw [keptAfter_transition hi, hdone]
      rfl
    rw [h] at hdone hwrote
    obtain rfl := Except.ok.inj hdone
    refine ⟨u.nextVersion, hw'.backs hwrote.self rfl hkind (fun hk => ?_) ?_⟩
    · obtain ⟨o, -, htells⟩ := he.tells hk
      exact htells.readProgress? hk hkind hprogress
    · rw [hkept, he.keptBy]
      exact (if_pos hid).symm

/-- All that is in hand is known. -/
theorem Sound.sheets_step (hw : Sound w) (m : Move) (hw' : Faithful (w.step m)) :
    ∀ e ∈ (w.step m).site.hands, ∃ r, (w.step m).Backs e r := by
  intro e he
  rcases Site.mem_hands_step he with he | ⟨n, x, mishap, es, hdeed, hget, hrun⟩ |
    ⟨i, t, mishap, e', hdeed, hi, hrun⟩ | hdeed | ⟨i, change, e', hdeed, he', rfl⟩
  · obtain ⟨r, hbacks⟩ := hw.sheets e he
    exact ⟨r, hbacks.after (hw.change m r.id)⟩
  · cases m with
    | fetch n f fault =>
      cases hdeed
      exact hw.backs_fetch hrun hw' e hget
    | _ => cases hdeed
  · cases m with
    | transition i t fault =>
      cases hdeed
      exact hw.backs_move hi hrun hw'
    | _ => cases hdeed
  · cases m <;> cases hdeed
  · cases m with
    | note i g =>
      cases hdeed
      obtain ⟨r, hbacks⟩ := hw.sheets e' he'
      exact ⟨r, (hbacks.after (hw.change (.note i g) r.id)).note g⟩
    | _ => cases hdeed

/-! ## Runs -/

/-- **One move** keeps the invariant. -/
theorem Sound.step (hw : Sound w) (m : Move) : Sound (w.step m) :=
  have hw' : Faithful (w.step m) :=
    hw.toFaithful.after (hw.reached.later (w.site.later_step (w.deed m))) (hw.change m)
  { hw' with sheets := hw.sheets_step m hw' }

theorem run_append (b : Backend) (start : Instant) (moves more : List Move) :
    run b start (moves ++ more) = more.foldl step (run b start moves) := List.foldl_append

/-- **The invariant holds throughout a run.** -/
theorem sound_run (b : Backend) (start : Instant) (moves : List Move) :
    Sound (run b start moves) := by
  induction moves using List.reverseRecOn with
  | nil =>
    have hempty (id : RecordId) : (run b start []).site.stored id = none := stored_empty b id
    exact {
      reached := reached_empty b
      missing _ _ := ⟨rfl, rfl, rfl⟩
      version id r hr := by cases (hempty id).symm.trans hr
      progress id r hr := by cases (hempty id).symm.trans hr
      sheets _ he := absurd he List.not_mem_nil }
  | append_singleton moves m ih =>
    rw [run_append]
    exact ih.step m

/-! ## Nothing kept is dropped -/

/-- Whoever writes has noted all that was kept, as long as versions tell records apart. -/
theorem Backs.kept_prefix (he : w.Backs e r) (hw : Faithful w) {stored : Record}
    (hstored : w.site.stored r.id = some stored) (hcurrent : stored.version = r.version)
    (hbound : w.writes r.id < UInt64.size) : w.kept r.id <+: e.gains := by
  obtain ⟨n, hn, hversion, hkept⟩ := he.version
  refine hkept ?_
  -- The stored version is the one in hand, and neither count has come round.
  have hsame : (UInt64.ofNat n).toNat = (UInt64.ofNat (w.writes r.id)).toNat := by
    rw [← hversion, ← hcurrent, hw.version _ stored hstored]
  rwa [UInt64.toNat_ofNat_of_lt' (Nat.lt_of_le_of_lt hn hbound),
    UInt64.toNat_ofNat_of_lt' hbound] at hsame

/-- **What a transition keeps**, if it succeeds. -/
theorem Sound.kept_transition (hw : Sound w) {i : Nat} {t : Transition} {fault : Option Failure}
    (he : w.site.hands[i]? = some e) (hr : Held.record e.partition = some r)
    (hok : (w.site.move (fault.map .early) e t).1.isOk = true) :
    (∀ id, w.keptAfter (.transition i t fault) id = if id = r.id then e.gains else w.kept id) ∧
      (w.writes r.id < UInt64.size → w.kept r.id <+: e.gains) := by
  obtain ⟨r', hbacks⟩ := hw.sheets e (List.mem_of_getElem? he)
  obtain rfl := Option.some.inj (hr.symm.trans hbacks.record)
  refine ⟨fun id => ?_, ?_⟩
  · rw [keptAfter_transition he, if_pos hok]
    exact hbacks.keptBy id
  · rcases Site.move_early hw.reached fault e t with
      ⟨⟨error, herror⟩, -⟩ | ⟨r', u, hr', ⟨hid, hversion, -⟩, -, ⟨stored, hstored, hcurrent⟩, -⟩
    · rw [herror] at hok
      cases hok
    · obtain rfl : r = r' := Option.some.inj (hr.symm.trans hr')
      exact hbacks.kept_prefix hw.toFaithful (hid ▸ hstored) (hcurrent.trans hversion)

theorem writes_le_step (w : Logbook b) (m : Move) (id : RecordId) :
    w.writes id ≤ (w.step m).writes id := Nat.le_add_right _ _

/-- **What is kept only grows**, in one move. -/
theorem Sound.kept_prefix_step (hw : Sound w) (m : Move) (id : RecordId)
    (hbound : (w.step m).writes id < UInt64.size) : w.kept id <+: (w.step m).kept id := by
  change w.kept id <+: w.keptAfter m id
  cases m with
  | create | createEach | fetch | note | copy | setClock => exact List.prefix_refl _
  | transition i t fault =>
    cases hi : w.site.hands[i]? with
    | none => simp only [keptAfter, hi, List.prefix_refl]
    | some e =>
      obtain ⟨r, he⟩ := hw.sheets e (List.mem_of_getElem? hi)
      by_cases hok : (w.site.move (fault.map .early) e t).1.isOk = true
      · obtain ⟨hkept, hprefix⟩ := hw.kept_transition hi he.record hok
        rw [hkept]
        split
        · subst id
          exact hprefix (Nat.lt_of_le_of_lt (w.writes_le_step _ r.id) hbound)
        · exact List.prefix_refl _
      · have hsame : w.keptAfter (.transition i t fault) id = w.kept id := by
          rw [keptAfter_transition hi, if_neg hok]
        exact hsame ▸ List.prefix_refl _

/-- **What is kept only grows**, in any number of moves. -/
theorem kept_prefix_run (b : Backend) (start : Instant) (moves more : List Move) (id : RecordId)
    (hbound : (run b start (moves ++ more)).writes id < UInt64.size) :
    (run b start moves).kept id <+: (run b start (moves ++ more)).kept id := by
  induction more using List.reverseRecOn with
  | nil => exact (List.append_nil moves).symm ▸ List.prefix_refl _
  | append_singleton more m ih =>
    rw [← List.append_assoc, run_append] at hbound ⊢
    exact (ih (Nat.lt_of_le_of_lt (writes_le_step _ m id) hbound)).trans
      ((sound_run b start (moves ++ more)).kept_prefix_step m id hbound)

/-! ## What is shown -/

/-- **A partition that a node gets** shows what has been kept of its record. -/
theorem Sound.told (hw : Sound w) {fault : Option Failure} {n : Node} {f : Fetch}
    {ps : List AnyPartition} (hps : (w.fetch fault n f).1 = .ok ps) {k : BuiltIn}
    {p : Partition k.kind} (hp : ⟨k, p⟩ ∈ ps) (hk : k ≠ .shared) :
    ∃ r o x, p.record = some r ∧ w.origin r.id = some o ∧
      Partition.readProgress? k.kind o = .ok x ∧ p.progress = Gain.shown k (w.kept r.id) x := by
  obtain ⟨r, hmake, hr⟩ := stored_of_fetch hw.reached (Prod.ext hps rfl) _ hp
  obtain ⟨k', q, hq, hpq⟩ := Fetch.exists_of_make hmake
  cases hpq
  -- The record that it was read of had the same progress before.
  have hsame := progress_fetch hw.reached w.site.now (fault.map .early) n (f.errand id) r.id
  rw [show (w.site.session.fetch w.site.now (fault.map .early) n (f.errand id)).2.stored r.id = _
    from hr] at hsame
  obtain ⟨stored, hstored, hprogress⟩ := Option.map_eq_some_iff.mp hsame.symm
  rw [b.progress_kept] at hprogress
  have hread := readOf_ofRecord hq
  have hkind : stored.kind = k.kind.tag :=
    (congrArg RecordId.kind (id_of_stored hw.reached hstored)).trans hread.kind
  obtain ⟨o, ho, hshown⟩ := hw.progress r.id stored hstored k hkind hk
  have hown : Partition.readProgress? k.kind stored = .ok p.progress := by
    rw [Partition.readProgress?, hprogress]
    exact hread.progress
  rw [hown] at hshown
  obtain ⟨x, hx, hkept⟩ := Fleet.exists_of_map hshown.symm
  exact ⟨r, o, x, hread.record, ho, hx, hkept.symm⟩

/-- A claim fails only for a record whose key does not fit, or whose first progress is none. -/
theorem Sound.claim_error (hw : Sound w) {n : Node} {k : BuiltIn} {lease : Option Span}
    {error : Failure} (hleased : k.kind.leased = true)
    (h : (w.fetch none n (.claim k lease)).1 = .error error) :
    ∃ r o, w.site.stored r.id = some r ∧ r.source = n.source ∧ r.kind = k.kind.tag ∧
      w.origin r.id = some o ∧ ((∃ fault, k.kind.identify r.key = .error fault) ∨
        ∃ fault, Partition.readProgress? k.kind o = .error fault) := by
  let request : Request := .claim n.source k.kind.tag n.owner (lease.getD n.lease)
  have hrequest : ((Fetch.claim k lease).errand fun p => p).request n = .ok request :=
    if_pos hleased
  rcases error_of_fetch hw.reached (Prod.ext h rfl) with
    hrefused | ⟨m, hm, -⟩ | ⟨asked, reply, hasked, hserve, r', hr', hmake, -⟩
  · cases hrequest.symm.trans hrefused
  · cases hm
  · obtain rfl := Except.ok.inj (hrequest.symm.trans hasked)
    obtain rfl := Option.mem_toList.mp hr'
    obtain ⟨t, -, hholds, -⟩ := hw.reached.exists_chronicle r'.id
    have hagree := (hholds.serve ⟨w.site.now, request⟩).1
    obtain ⟨r, hr, hsource, hkind, rfl⟩ :=
      Table.exists_of_answer_claim (Eq.trans hagree hserve)
    have hfind : w.site.stored r.id = some r :=
      (stored_eq hholds r.id).trans ((Table.find?_iff hholds.distinct).mpr ⟨hr, rfl⟩)
    have hk : k ≠ .shared := by
      rintro rfl
      cases hleased
    obtain ⟨o, ho, hshown⟩ := hw.progress r.id r hfind k hkind hk
    refine ⟨r, o, hfind, hsource, hkind, ho, ?_⟩
    cases hkey : k.kind.identify r.key with
    | error fault => exact .inl ⟨fault, rfl⟩
    | ok i =>
      cases hx : Partition.readProgress? k.kind o with
      | error fault => exact .inr ⟨fault, rfl⟩
      | ok x =>
        -- Of such a record a partition is made, also when it has been claimed.
        exfalso
        rw [hx] at hshown
        have hbuild := Fleet.error_of_map hmake
        have hprogress : Partition.readProgress? k.kind (r.claimed n.owner w.site.now
            (lease.getD n.lease)) = .ok (Gain.shown k (w.kept r.id) x) := hshown
        rw [Partition.ofRecord_of_identify
          (r := r.claimed n.owner w.site.now (lease.getD n.lease)) hkind hkey, hprogress] at hbuild
        cases hbuild

/-- **Gains are kept.**  Nodes create partitions, with a progress or without, get them, note
positions and batches, and make transitions, in any order and on either backend, while any request
may fail.  At any time

* a stream that a node gets stands where the last position kept says, if it was created with a
  progress, and shows no position whatever has been kept if it was not;
* a query that a node gets counts every batch kept;
* what a transition keeps is all that its holder has noted, and the gains kept before are among it;
* as long as the versions of an identity do not repeat, nothing kept of it is ever dropped;
* nobody fails to claim a partition for what has been kept, but only for its key or for the progress
  that it was created with. -/
theorem gains_kept (b : Backend) (start : Instant) (moves : List Move) :
    (∀ fault n f ps, ((run b start moves).fetch fault n f).1 = .ok ps →
      (∀ p, ⟨.stream, p⟩ ∈ ps → ∃ r o x, p.record = some r ∧
        (run b start moves).origin r.id = some o ∧ Partition.readProgress? streamKind o = .ok x ∧
        p.progress = x.map (·.standingAt (Gain.last? ((run b start moves).kept r.id)))) ∧
      ∀ p, ⟨.query, p⟩ ∈ ps → ∃ r o x, p.record = some r ∧
        (run b start moves).origin r.id = some o ∧ Partition.readProgress? queryKind o = .ok x ∧
        QueryProgress.Counted (Gain.batches ((run b start moves).kept r.id)) x p.progress) ∧
    (∀ i t fault e r p, (run b start moves).site.hands[i]? = some e →
      Held.record e.partition = some r →
      ((run b start moves).site.perform (fault.map .early)
        (Node.transition e.partition t)).1 = .ok p →
      (run b start (moves ++ [.transition i t fault])).kept r.id = e.gains ∧
        ((run b start moves).writes r.id < UInt64.size →
          (run b start moves).kept r.id <+: e.gains)) ∧
    (∀ more id, (run b start (moves ++ more)).writes id < UInt64.size →
      (run b start moves).kept id <+: (run b start (moves ++ more)).kept id) ∧
    ∀ n k lease error, k.kind.leased = true →
      ((run b start moves).fetch none n (.claim k lease)).1 = .error error →
      ∃ r o, (run b start moves).site.stored r.id = some r ∧ r.source = n.source ∧
        r.kind = k.kind.tag ∧ (run b start moves).origin r.id = some o ∧
        ((∃ fault, k.kind.identify r.key = .error fault) ∨
          ∃ fault, Partition.readProgress? k.kind o = .error fault) := by
  have hw := sound_run b start moves
  refine ⟨fun fault n f ps hps => ⟨fun p hp => ?_, fun p hp => ?_⟩, ?_,
    kept_prefix_run b start moves, fun n k lease error => hw.claim_error⟩
  · exact hw.told hps hp (by decide)
  · obtain ⟨r, o, x, hr, ho, hx, hshown⟩ := hw.told hps hp (by decide)
    exact ⟨r, o, x, hr, ho, hx, hshown ▸ QueryProgress.counted_shown _ x⟩
  · intro i t fault e r p he hr hdone
    have hok : ((run b start moves).site.move (fault.map .early) e t).1.isOk = true := by
      rw [Site.isOk_move, show ((run b start moves).site.perform (fault.map .early)
        (Node.transition (Grip.hand e).piece t)).1 = _ from hdone]
      rfl
    obtain ⟨hkept, hprefix⟩ := hw.kept_transition he hr hok
    rw [run_append]
    exact ⟨(hkept r.id).trans (if_pos rfl), hprefix⟩

/-- A stream is read up to `a`, saved, read up to `b` and given up. Another node reads it up to `c`,
but does not get this written. -/
def twoReaders : List Move :=
  let first : Node := ⟨"db", "node-a", .seconds 60⟩
  let second : Node := ⟨"db", "node-b", .seconds 60⟩
  [.create first ⟨.stream, newStream "orders" ⟨-1, none, none, true⟩⟩ none,
    .fetch first (.claim .stream none) none,
    .note 0 (.position (some "a") ⟨1, 0, 10⟩),
    .transition 0 (.save (.seconds 60)) none,
    .note 0 (.position (some "b") ⟨2, 0, 20⟩),
    .transition 0 .giveUp none,
    .fetch second (.claim .stream none) none,
    .note 1 (.position (some "c") ⟨3, 0, 30⟩),
    .transition 1 (.save (.seconds 60)) (some .unreadable),
    .setClock (Instant.epoch.after (.seconds 600))]

/-- Whoever gets the stream then goes on at `b`. -/
theorem gains_kept_twoReaders : ∃ p : Partition streamKind,
    ((run .table .epoch twoReaders).fetch none ⟨"db", "node-c", .seconds 60⟩
      (.claimAny "STREAM" none)).1 = .ok [⟨.stream, p⟩] ∧
    p.progress = some ⟨-1, some "b", some ⟨2, 0, 20⟩, true⟩ := by
  let w := run .table .epoch twoReaders
  let third : Node := ⟨"db", "node-c", .seconds 60⟩
  let orders : RecordId := ⟨"db", "STREAM", "orders"⟩
  obtain ⟨hshown, -⟩ := gains_kept .table .epoch twoReaders
  have hgot : (w.fetch none third (.claimAny "STREAM" none)).1.toOption.map
      (List.map fun p => (p.builtIn, (Held.record p).map Record.id)) =
        some [(.stream, some orders)] := by
    decide +kernel
  have horigin : (w.origin orders).map (fun o => (Partition.readProgress? streamKind o).toOption) =
      some (some (some ⟨-1, none, none, true⟩)) := by
    decide +kernel
  have hlast : Gain.last? (w.kept orders) = some (some "b", ⟨2, 0, 20⟩) := by decide +kernel
  cases hfetch : (w.fetch none third (.claimAny "STREAM" none)).1 with
  | error e =>
    rw [hfetch] at hgot
    cases hgot
  | ok ps =>
    rw [hfetch] at hgot
    obtain ⟨⟨k, p⟩, rest, rfl, hp, hrest⟩ := List.map_eq_cons_iff.mp (Option.some.inj hgot)
    obtain rfl := List.map_eq_nil_iff.mp hrest
    obtain ⟨rfl, hid⟩ := Prod.mk.injEq .. ▸ hp
    obtain ⟨r, o, x, hr, ho, hx, hprogress⟩ :=
      (hshown none third _ _ hfetch).1 p List.mem_cons_self
    have hrid : r.id = orders := by
      rw [show Held.record (AnyPartition.mk .stream p) = some r from hr] at hid
      exact Option.some.inj hid
    rw [hrid] at ho hprogress
    rw [ho, Option.map_some, hx] at horigin
    obtain rfl : x = some ⟨-1, none, none, true⟩ := Option.some.inj (Option.some.inj horigin)
    rw [hlast] at hprogress
    exact ⟨p, rfl, hprogress⟩

/-- A stream that is created without a progress is read up to a position and given up. -/
def withoutProgress : List Move :=
  let n : Node := ⟨"db", "node-a", .seconds 60⟩
  [.createEach n "STREAM" none ["orders"] none,
    .fetch n (.claim .stream none) none,
    .note 0 (.position (some "a") ⟨1, 0, 10⟩),
    .transition 0 .giveUp none]

/-- **The position is passed over**: the transition has succeeded, and whoever gets the stream then
sees nothing. -/
theorem position_passed_over :
    Gain.last? ((run .table .epoch withoutProgress).kept ⟨"db", "STREAM", "orders"⟩) =
      some (some "a", ⟨1, 0, 10⟩) ∧
    ((run .table .epoch withoutProgress).fetch none ⟨"db", "node-b", .seconds 60⟩
      (.claimAny "STREAM" none)).1.toOption.map
        (List.map fun p => (p.builtIn, p.note.text)) = some [(.stream, none)] := by
  decide +kernel

end Logbook

end LeasedWork
