import LeasedWork.Partition.BuiltIn
import LeasedWork.Proofs.Json.Members
import LeasedWork.Proofs.Record.RoundTrip

/-! # Progress reads back

A partition's progress is kept in its record as text.  A kind *keeps* a progress when the text
written for it is read as the same progress (`PartitionKind.Keeps`); then a partition that is made
of a record with this text has just this progress (`Partition.ofRecord_of_keeps`).
-/
namespace LeasedWork

open Json

theorem SnapshotProgress.time_starting (collection : String) (time : Instant) :
    (starting collection time).time = time := by
  simp only [starting]
  split <;> rfl

namespace PartitionKind

/-- The text that records keep for a progress. -/
def text (k : PartitionKind) (x : k.Progress) : String := (k.write x).print

/-- A progress is read back from its own text. -/
def Keeps (k : PartitionKind) (x : k.Progress) : Prop :=
  (Tree.ofString? (k.text x)).bind k.read = some x

variable {k : PartitionKind} {x : k.Progress}

theorem keeps_of_exact (hexact : Exact (k.write x)) (hread : k.read (k.write x).toTree = some x) :
    k.Keeps x := by
  rw [Keeps, text, Tree.ofString_print hexact, Option.bind_some, hread]

/-- Progress that is kept is told apart by its text. -/
theorem eq_of_text {y : k.Progress} (hx : k.Keeps x) (hy : k.Keeps y) (h : k.text x = k.text y) :
    x = y := by
  unfold Keeps at hx hy
  rw [h, hy] at hx
  exact (Option.some.inj hx).symm

theorem keeps_leader (x : LeaderProgress) : leaderKind.Keeps x := by
  refine keeps_of_exact ⟨trivial, trivial⟩ ?_
  obtain ⟨f, hfields, hf⟩ := fields_toTree (j := x.write) ["initialized"] rfl rfl (by decide)
  have hread : f.required "initialized" Read.bool = some x.initialized :=
    Found.required_of_read (hf _ List.mem_cons_self) rfl
  change LeaderProgress.read x.write.toTree = some x
  rw [LeaderProgress.read, hfields, Option.bind_eq_bind, Option.bind_some, hread]
  rfl

/-- Shared state is kept as long as its values are not nested too deep. -/
theorem keeps_shared {ms : Members} (hexact : ∀ m ∈ ms, Exact m.2) (hsorted : ms.Sorted)
    (hvalues : ∀ m ∈ ms, Restores 126 m.2) : sharedKind.Keeps ms :=
  keeps_of_exact (membersExact_iff.mpr hexact)
    (Members.ofTree_toTree (restores_object hsorted hvalues))

/-- What is read of the text of an export's progress has its time as that is read back. -/
theorem read_snapshot (x : SnapshotProgress) :
    (Tree.ofString? (snapshotKind.text x)).bind snapshotKind.read =
      some { x with time := x.time.reread } := by
  have hexact : Exact (snapshotKind.write x) := ⟨trivial, trivial, trivial, trivial⟩
  obtain ⟨f, hfields, hf⟩ := fields_toTree (j := x.write)
    ["databaseName", "collectionName", "exportTime"] rfl rfl (by decide)
  simp only [List.forall_mem_cons] at hf
  obtain ⟨hdatabase, hcollection, htime, -⟩ := hf
  have htext : ∀ s, Read.text (toTree (.text s)) = some s := fun _ => rfl
  rw [text, Tree.ofString_print hexact, Option.bind_some]
  change SnapshotProgress.read x.write.toTree = _
  rw [SnapshotProgress.read, hfields, Option.bind_eq_bind, Option.bind_some,
    Found.required_of_read hdatabase (htext _), Found.required_of_read hcollection (htext _),
    Found.required_of_read htime (Timestamp.read_toJson _)]
  rfl

/-- **The progress of an export is kept** exactly when its time is one of the civil calendar. -/
theorem keeps_snapshot {x : SnapshotProgress} : snapshotKind.Keeps x ↔ x.time.Civil := by
  rw [Keeps, read_snapshot, Option.some.injEq, ← Instant.reread_eq_iff]
  exact ⟨congrArg SnapshotProgress.time, fun h => by rw [h]⟩

/-- A time that is read as an export's is of the civil calendar. -/
theorem civil_of_read {t : Tree} {x : SnapshotProgress} (h : SnapshotProgress.read t = some x) :
    x.time.Civil := by
  obtain ⟨_, -, h⟩ := Option.bind_eq_some_iff.mp h
  obtain ⟨_, -, h⟩ := Option.bind_eq_some_iff.mp h
  obtain ⟨_, -, h⟩ := Option.bind_eq_some_iff.mp h
  obtain ⟨time, htime, h⟩ := Option.bind_eq_some_iff.mp h
  obtain rfl := Option.some.inj h
  obtain ⟨_, -, htime⟩ := Option.bind_eq_some_iff.mp htime
  exact Record.civil_of_readTime htime

/-- The progress of a new export is kept. -/
theorem keeps_starting (collection : String) {time : Instant} (h : time.Civil) :
    snapshotKind.Keeps (SnapshotProgress.starting collection time) :=
  keeps_snapshot.mpr ((SnapshotProgress.time_starting collection time).symm ▸ h)

theorem read_checkpoint (c : Checkpoint) : Checkpoint.read c.write.toTree = some c := by
  obtain ⟨f, hfields, hf⟩ := fields_toTree (j := c.write)
    ["commitNum", "opNum", "recordCount"] rfl rfl (by decide)
  simp only [List.forall_mem_cons] at hf
  obtain ⟨hcommit, hoperation, hrecords, -⟩ := hf
  rw [Checkpoint.read, hfields, Option.bind_eq_bind, Option.bind_some,
    Found.required_of_read hcommit (read_word _), Found.required_of_read hoperation (read_word _),
    Found.required_of_read hrecords (read_word _)]
  rfl

/-- A stream writes its token and its checkpoint only when it has them. -/
theorem keeps_stream (x : StreamProgress) : streamKind.Keeps x := by
  obtain ⟨start, token, checkpoint, waits⟩ := x
  have hexact : Exact (StreamProgress.mk start token checkpoint waits).write := by
    cases token <;> cases checkpoint <;>
      simp [StreamProgress.write, Checkpoint.write, Exact, MembersExact, exact_signed, exact_word]
  refine keeps_of_exact hexact ?_
  let members : Members := [("startTime", signed start)]
    ++ (token.map fun token => ("resumeToken", Json.text token)).toList
    ++ (checkpoint.map fun c => ("checkpoint", c.write)).toList ++ [("waitForExport", .bool waits)]
  have hnames : (members.map Prod.fst).Nodup := by
    cases token <;> cases checkpoint <;> simp [members]
  obtain ⟨f, hfields, hf, habsent⟩ := fields_of_nodup
    ["startTime", "resumeToken", "checkpoint", "waitForExport"] hnames
  have hstart := hf ("startTime", signed start) (by simp [members]) (by simp)
  have hwaits := hf ("waitForExport", .bool waits) (by simp [members]) (by simp)
  have htoken : f.withDefault "resumeToken" (Read.optional Read.text) none = some token := by
    cases token with
    | none =>
      exact Found.withDefault_of_absent _
        (habsent "resumeToken" (by cases checkpoint <;> simp [members]))
    | some s =>
      exact Found.withDefault_of_read _
        (hf ("resumeToken", .text s) (by simp [members]) (by simp)) rfl
  have hcheckpoint : f.withDefault "checkpoint" (Read.optional Checkpoint.read) none =
      some checkpoint := by
    cases checkpoint with
    | none =>
      exact Found.withDefault_of_absent _
        (habsent "checkpoint" (by cases token <;> simp [members]))
    | some c =>
      exact Found.withDefault_of_read _
        (hf ("checkpoint", c.write) (by simp [members]) (by simp))
        (read_optional read_checkpoint (fun _ => Tree.noConfusion) (some c))
  have hbool : ∀ b, Read.bool (toTree (.bool b)) = some b := fun _ => rfl
  change StreamProgress.read (toTree (.object members)) = some _
  rw [StreamProgress.read, hfields, Option.bind_eq_bind, Option.bind_some,
    Found.required_of_read hstart (read_signed _), htoken, hcheckpoint,
    Found.withDefault_of_read _ hwaits (hbool _)]
  rfl

theorem keeps_query (x : QueryProgress) : queryKind.Keeps x := by
  refine keeps_of_exact ⟨exact_word _, exact_word _, exact_signed _, trivial⟩ ?_
  obtain ⟨f, hfields, hf⟩ := fields_toTree (j := x.write)
    ["executedQueries", "loadedRecords", "startTime"] rfl rfl (by decide)
  simp only [List.forall_mem_cons] at hf
  obtain ⟨hexecuted, hloaded, hstart, -⟩ := hf
  change QueryProgress.read x.write.toTree = some x
  rw [QueryProgress.read, hfields, Option.bind_eq_bind, Option.bind_some,
    Found.withDefault_of_read _ hexecuted (read_word _),
    Found.withDefault_of_read _ hloaded (read_word _),
    Found.withDefault_of_read _ hstart (read_signed _)]
  rfl

end PartitionKind

namespace Partition

variable {k : PartitionKind} {r : Record} {x : k.Progress}

theorem readProgress?_of_keeps (hx : k.Keeps x) (hr : r.progress = some (k.text x)) :
    readProgress? k r = .ok (some x) := by
  have hread : (Tree.ofString? (k.text x)).bind k.read = some x := hx
  rw [readProgress?, hr]
  dsimp only
  rw [hread]

/-- **The partition behind a record** whose text its kind keeps. -/
theorem ofRecord_of_keeps {i : k.Identity} (hkind : r.kind = k.tag)
    (hkey : k.identify r.key = .ok i) (hx : k.Keeps x) (hr : r.progress = some (k.text x)) :
    ofRecord k r = .ok ⟨i, some x, some r⟩ := by
  rw [ofRecord, if_neg (not_not_intro hkind), hkey]
  dsimp only
  rw [readProgress?_of_keeps hx hr]
  rfl

/-- The text that is written for a partition is the one that it was made of. -/
theorem progressText_of_ofRecord {p : Partition k} (hx : k.Keeps x)
    (hr : r.progress = some (k.text x)) (h : ofRecord k r = .ok p) :
    p.progressText = r.progress := by
  rw [ofRecord] at h
  split at h
  · cases h
  · split at h
    · cases h
    · rw [readProgress?_of_keeps hx hr] at h
      obtain rfl := Except.ok.inj h
      exact hr.symm

end Partition

end LeasedWork
