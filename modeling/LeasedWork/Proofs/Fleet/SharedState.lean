import LeasedWork.Fleet.Election
import LeasedWork.Proofs.Partition.Keys
import LeasedWork.Proofs.Partition.Progress

/-! # What shared state says

Two things are kept as shared state: a collection with the time of its snapshot, and the load status
of a collection.  Both are read back as they were written: the time that is found in a collection's
state is the one that was put there (`Candidate.pinnedTime_of_toMembers`), and the counters of a
load status are those that were written (`LoadStatus.ofMembers_toMembers`).
-/
namespace LeasedWork

open Json

variable {depth : Nat}

theorem restores_text (s : String) : Restores depth (.text s) := rfl

theorem restores_bool (b : Bool) : Restores depth (.bool b) := rfl

theorem restores_integer (i : Int) : Restores depth (.integer i) := rfl

/-! ## Collections -/

namespace Collection

variable {c : Collection} {ms : Int}

/-- The members in the order of their names, in which they are kept. -/
theorem toMembers_eq (c : Collection) (ms : Int) : c.toMembers ms =
    [("collection", .text c.name),
     ("export", c.exportSize.elim .null fun size =>
       .object [("partitionSize", .integer size.toNat)]),
     ("snapshotTime", .integer ms),
     ("stream", .bool c.stream)] := by
  obtain ⟨name, exportSize, stream⟩ := c
  cases exportSize <;> rfl

theorem mem_toMembers {m : String × Json} (h : m ∈ c.toMembers ms) :
    m = (snapshotMember, .integer ms) ∨ m ∈ c.entries :=
  (Members.mem_insert h).imp_right Members.mem_of_mem_ofList

theorem exact_of_mem (hms : Int64.minValue.toInt ≤ ms ∧ ms ≤ Int64.maxValue.toInt) :
    ∀ m ∈ c.toMembers ms, Exact m.2 := by
  have hmax : Int64.maxValue.toInt < (UInt64.size : Int) := by decide
  have hsize : ∀ size : UInt64, Exact (.object [("partitionSize", word size)]) :=
    fun size => ⟨exact_word size, trivial⟩
  have hentries : ∀ m ∈ c.entries, Exact m.2 :=
    List.forall_mem_cons.mpr ⟨trivial, List.forall_mem_cons.mpr
      ⟨exact_optional hsize c.exportSize, List.forall_mem_singleton.mpr trivial⟩⟩
  intro m hm
  rcases mem_toMembers hm with rfl | hm
  · exact ⟨hms.1, Int.lt_of_le_of_lt hms.2 hmax⟩
  · exact hentries m hm

theorem restores_of_mem : ∀ m ∈ c.toMembers ms, Restores (depth + 1) m.2 := by
  have hexport : Restores (depth + 1)
      (optional (fun size => .object [("partitionSize", word size)]) c.exportSize) := by
    cases c.exportSize with
    | none => rfl
    | some size =>
      exact restores_object (List.pairwise_singleton _ _)
        (List.forall_mem_singleton.mpr (restores_integer _))
  have hentries : ∀ m ∈ c.entries, Restores (depth + 1) m.2 :=
    List.forall_mem_cons.mpr ⟨restores_text _,
      List.forall_mem_cons.mpr ⟨hexport, List.forall_mem_singleton.mpr (restores_bool _)⟩⟩
  intro m hm
  rcases mem_toMembers hm with rfl | hm
  · exact restores_integer ms
  · exact hentries m hm

/-- A collection's state is read back. -/
theorem keeps_toMembers (hms : Int64.minValue.toInt ≤ ms ∧ ms ≤ Int64.maxValue.toInt) :
    sharedKind.Keeps (c.toMembers ms) :=
  PartitionKind.keeps_shared (exact_of_mem hms) (Members.sorted_insert (Members.sorted_ofList _))
    restores_of_mem

end Collection

/-- The time of a collection's snapshot is found in the collection's state. -/
theorem Candidate.pinnedTime_of_toMembers {c : Collection} {t : Instant} (ht : t.Whole)
    {p : Partition sharedKind} (hp : p.progress = some (c.toMembers t.millis)) :
    pinnedTime (some p) = some t := by
  have hget : p.get? Collection.snapshotMember = some (.integer t.millis) := by
    rw [Partition.get?, Partition.values, hp]
    exact Members.get?_insert_self _ _ _
  simp only [pinnedTime, Option.bind_eq_bind, Option.bind_some, hget]
  rw [if_pos t.millis_range, ht]

/-! ## Load status -/

namespace LoadStatus

variable (s : LoadStatus)

theorem exact_of_mem : ∀ m ∈ s.toMembers, Exact m.2 := by
  have hentries : ∀ m ∈ s.entries, Exact m.2 := by
    simp only [entries, List.forall_mem_cons, exact_word, exact_signed, true_and]
    exact ⟨trivial, fun _ h => nomatch h⟩
  exact fun m hm => hentries m (Members.mem_of_mem_ofList hm)

theorem restores_of_mem : ∀ m ∈ s.toMembers, Restores depth m.2 := by
  have hentries : ∀ m ∈ s.entries, Restores depth m.2 := by
    simp only [entries, List.forall_mem_cons]
    exact ⟨rfl, rfl, rfl, rfl, rfl, fun _ h => nomatch h⟩
  exact fun m hm => hentries m (Members.mem_of_mem_ofList hm)

theorem keeps_toMembers : sharedKind.Keeps s.toMembers :=
  PartitionKind.keeps_shared s.exact_of_mem (Members.sorted_ofList _) s.restores_of_mem

/-- **A load status is read back.** -/
theorem ofMembers_toMembers : ofMembers s.toMembers = .ok s := by
  have hnames : ∀ m ∈ s.toMembers, m.1 ∈ ["totalPartitions", "loadedPartitions", "loadedRecords",
      "lastUpdateTimestamp", "totalPartitionsComplete"] := fun m hm =>
    List.mem_map_of_mem (f := Prod.fst) (Members.mem_of_mem_ofList hm)
  obtain ⟨f, hfields, hf, -⟩ := fields_of_nodup ["totalPartitions", "loadedPartitions",
    "loadedRecords", "lastUpdateTimestamp", "totalPartitionsComplete"]
    (Members.sorted_ofList s.entries).nodup
  have hentries : ∀ m ∈ s.entries, f m.1 = some m.2.toTree := by
    intro m hm
    have hmem : m ∈ s.toMembers :=
      Members.mem_ofList (by decide : ["totalPartitions", "loadedPartitions", "loadedRecords",
        "lastUpdateTimestamp", "totalPartitionsComplete"].Nodup) hm
    exact hf m hmem (hnames m hmem)
  simp only [entries, List.forall_mem_cons] at hentries
  obtain ⟨htotal, hloaded, hrecords, hupdate, hcomplete, -⟩ := hentries
  have hbool : ∀ b, Read.bool (toTree (.bool b)) = some b := fun _ => rfl
  have hread : read (Json.object s.toMembers).toTree = some s := by
    have hfields' : (Json.object s.toMembers).toTree.fields? _ = some f := hfields
    rw [read, hfields', Option.bind_eq_bind, Option.bind_some,
      Found.withDefault_of_read _ htotal (read_word _),
      Found.withDefault_of_read _ hloaded (read_word _),
      Found.withDefault_of_read _ hrecords (read_word _),
      Found.withDefault_of_read _ hupdate (read_signed _),
      Found.withDefault_of_read _ hcomplete (hbool _)]
    rfl
  rw [ofMembers, hread]

/-- Whatever else shared state says, it counts nothing unless it names a counter. -/
theorem ofMembers_of_foreign {ms : Json.Members} (hms : ms.Sorted)
    (hnames : ∀ m ∈ ms, m.1 ∉ ["totalPartitions", "loadedPartitions", "loadedRecords",
      "lastUpdateTimestamp", "totalPartitionsComplete"]) :
    ofMembers ms = .ok ⟨0, 0, 0, 0, false⟩ := by
  obtain ⟨f, hfields, -, habsent⟩ := fields_of_nodup ["totalPartitions", "loadedPartitions",
    "loadedRecords", "lastUpdateTimestamp", "totalPartitionsComplete"] hms.nodup
  have hf : ∀ name ∈ ["totalPartitions", "loadedPartitions", "loadedRecords",
      "lastUpdateTimestamp", "totalPartitionsComplete"], f name = none := by
    intro name hname
    refine habsent name fun hmem => ?_
    obtain ⟨m, hm, rfl⟩ := List.mem_map.mp hmem
    exact hnames m hm hname
  simp only [List.forall_mem_cons] at hf
  obtain ⟨htotal, hloaded, hrecords, hupdate, hcomplete, -⟩ := hf
  have hread : read (Json.object ms).toTree = some ⟨0, 0, 0, 0, false⟩ := by
    rw [read, hfields, Option.bind_eq_bind, Option.bind_some,
      Found.withDefault_of_absent _ htotal, Found.withDefault_of_absent _ hloaded,
      Found.withDefault_of_absent _ hrecords, Found.withDefault_of_absent _ hupdate,
      Found.withDefault_of_absent _ hcomplete]
    rfl
  rw [ofMembers, hread]

end LoadStatus

/-- A collection's own state counts nothing. -/
theorem Collection.ofMembers_toMembers (c : Collection) (ms : Int) :
    LoadStatus.ofMembers (c.toMembers ms) = .ok ⟨0, 0, 0, 0, false⟩ := by
  refine LoadStatus.ofMembers_of_foreign (Members.sorted_insert (Members.sorted_ofList _)) ?_
  have hentries : ∀ m ∈ c.entries, m.1 ∉ ["totalPartitions", "loadedPartitions", "loadedRecords",
      "lastUpdateTimestamp", "totalPartitionsComplete"] := by
    simp only [entries, List.forall_mem_cons]
    exact ⟨by decide, by decide, by decide, fun _ h => nomatch h⟩
  intro m hm
  rcases mem_toMembers hm with rfl | hm
  · exact (by decide : snapshotMember ∉ ["totalPartitions", "loadedPartitions", "loadedRecords",
      "lastUpdateTimestamp", "totalPartitionsComplete"])
  · exact hentries m hm

end LeasedWork
