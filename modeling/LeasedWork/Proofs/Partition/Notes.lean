import LeasedWork.Proofs.Json.Plain
import LeasedWork.Proofs.Partition.Progress

/-! # Progress of any kind

A *note* is a progress as a node has it in memory, of whichever built-in kind, or none.  It can be
stored (`Note.Storable`) whatever its values are, with two exceptions: shared state, which may hold
anything, has to be plain as deep as the reader goes, and the time of an export has to be of the
civil calendar.  Then a partition that is made of a record with its text has just this note
(`Note.Describes.of_ofRecord`), and the text is never what a partition fails to be made for
(`Note.Describes.ne_unreadable`).
-/
namespace LeasedWork

open Json

/-- A progress of a built-in kind, or that there is none. -/
structure Note where
  builtIn : BuiltIn
  progress : Option builtIn.kind.Progress

/-- What a partition has in memory. -/
def AnyPartition.note (p : AnyPartition) : Note := ⟨p.builtIn, p.partition.progress⟩

namespace Note

/-- The text that records keep. -/
def text (x : Note) : Option String := x.progress.map x.builtIn.kind.text

/-- Whether a note is read back: of shared state, the values must not be nested too deep, and a leap
second as the time of an export must end a minute. -/
def Storable : Note → Prop
  | ⟨.shared, some values⟩ => Plain maxDepth (.object values)
  | ⟨.snapshot, some x⟩ => x.time.Civil
  | _ => True

/-- **Every kind keeps what can be stored.** -/
theorem Storable.keeps {b : BuiltIn} {x : b.kind.Progress} (h : Storable ⟨b, some x⟩) :
    b.kind.Keeps x := by
  cases b with
  | leader => exact PartitionKind.keeps_leader x
  | shared =>
    exact PartitionKind.keeps_of_exact (k := sharedKind) (Plain.exact h)
      (Members.ofTree_toTree (Plain.restores h))
  | snapshot => exact PartitionKind.keeps_snapshot.mpr h
  | stream => exact PartitionKind.keeps_stream x
  | query => exact PartitionKind.keeps_query x

/-- Progress that is read of a record, of any kind but shared state, is read back. -/
theorem storable_of_read {b : BuiltIn} (hb : b ≠ .shared) {r : Record}
    {x : Option b.kind.Progress} (h : Partition.readProgress? b.kind r = .ok x) :
    Storable ⟨b, x⟩ := by
  cases b with
  | shared => exact absurd rfl hb
  | leader | stream | query => trivial
  | snapshot =>
    cases x with
    | none => trivial
    | some x =>
      rw [Partition.readProgress?] at h
      split at h
      · cases h
      · split at h <;> cases h
        rename_i hread
        obtain ⟨t, -, ht⟩ := Option.bind_eq_some_iff.mp hread
        exact PartitionKind.civil_of_read ht

/-- A record of an identity has the progress of a note, of the identity's kind. -/
structure Describes (x : Note) (r : Record) : Prop where
  kind : r.kind = x.builtIn.kind.tag
  progress : r.progress = x.text
  storable : x.Storable

theorem tag_injective {a b : BuiltIn} (h : a.kind.tag = b.kind.tag) : a = b := by
  cases a <;> cases b <;> first | rfl | exact absurd h (by decide)

variable {x : Note} {r : Record} {b : BuiltIn}

/-- A record of the kind with the progress is described as well. -/
theorem Describes.congr (h : x.Describes r) {r' : Record} (hkind : r'.kind = r.kind)
    (hprogress : r'.progress = r.progress) : x.Describes r' :=
  ⟨hkind.trans h.kind, hprogress.trans h.progress, h.storable⟩

theorem Describes.readProgress (h : x.Describes r) :
    Partition.readProgress? x.builtIn.kind r = .ok x.progress := by
  obtain ⟨c, progress⟩ := x
  cases progress with
  | none =>
    have hnone : r.progress = none := h.progress
    rw [Partition.readProgress?, hnone]
  | some y => exact Partition.readProgress?_of_keeps h.storable.keeps h.progress

/-- **A partition that is made of a record** has the note that describes the record. -/
theorem Describes.of_ofRecord (h : x.Describes r) {p : Partition b.kind}
    (hp : Partition.ofRecord b.kind r = .ok p) : (AnyPartition.mk b p).note = x := by
  unfold Partition.ofRecord at hp
  split at hp
  · cases hp
  · rename_i hkind
    obtain rfl := tag_injective ((not_not.mp hkind).symm.trans h.kind)
    split at hp
    · cases hp
    · rw [h.readProgress] at hp
      obtain rfl := Except.ok.inj hp
      rfl

/-- And if none can be made, it is not for its text. -/
theorem Describes.ne_unreadable (h : x.Describes r) :
    Partition.ofRecord b.kind r ≠ .error .unreadable := by
  intro herror
  unfold Partition.ofRecord at herror
  split at herror
  · cases herror
  · rename_i hkind
    obtain rfl := tag_injective ((not_not.mp hkind).symm.trans h.kind)
    split at herror
    · cases herror
    · rw [h.readProgress] at herror
      cases herror

end Note

end LeasedWork
