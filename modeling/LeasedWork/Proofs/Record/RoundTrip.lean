import LeasedWork.Proofs.Json.Spellings
import LeasedWork.Proofs.Time.Timestamp
import LeasedWork.Record.Wire
import Mathlib.Data.List.Nodup

/-! # Stored records read back

A store of objects keeps a record as text and gets it back by reading that text.  Nothing is lost
on the way but what the text does not show (`Record.parse_print`): whatever the texts, the counters
and the status of a record are, its text holds exactly that record, as long as its times are of the
civil calendar (`Record.Civil`).  A leap second that ends no minute is read as the second after it
(`Record.reread`).

A reader also accepts texts that nobody writes: members in another order or as an array, some of
them left out, times with an offset.  What is written for such a text is written again for itself
(`Record.rewriting_settles`).
-/
namespace LeasedWork

open Json

theorem Status.ofName_name (s : Status) : Status.ofName? s.name = some s := by
  cases s <;> decide

theorem Status.read_toJson (s : Status) : Status.read s.toJson.toTree = some s :=
  Status.ofName_name s

theorem Timestamp.read_toJson (t : Instant) :
    Timestamp.read (Timestamp.toJson t).toTree = some t.reread := by
  simp only [Timestamp.toJson, toTree, Timestamp.read, Option.bind_some, Timestamp.ofString_text]

namespace Json

theorem read_word (n : UInt64) : Read.word (word n).toTree = some n := by
  have hn : n.toNat < 18446744073709551616 := n.toNat_lt
  simp [word, toTree, Read.word, hn]

theorem exact_word (n : UInt64) : Exact (word n) := by
  have hn : n.toNat < 18446744073709551616 := n.toNat_lt
  have hmin : Int64.minValue.toInt = -9223372036854775808 := rfl
  have hsize : UInt64.size = 18446744073709551616 := rfl
  unfold word Exact
  omega

theorem read_signed (n : Int64) : Read.signed (signed n).toTree = some n := by
  have hrange : Int64.minValue.toInt ≤ n.toInt ∧ n.toInt ≤ Int64.maxValue.toInt :=
    ⟨n.minValue_le_toInt, Int.le_of_lt_add_one n.toInt_lt⟩
  rw [signed, toTree, Read.signed, if_pos hrange, Int64.ofInt_toInt]

theorem exact_signed (n : Int64) : Exact (signed n) := by
  have hlt : n.toInt < 9223372036854775808 := n.toInt_lt
  have hsize : UInt64.size = 18446744073709551616 := rfl
  refine ⟨n.minValue_le_toInt, ?_⟩
  omega

/-- An optional field is read as its value is, whenever what is written for a value is no `null`. -/
theorem read_optional_map {α : Type} {write : α → Json} {read : Reads α} {f : α → α}
    (hread : ∀ x, read (write x).toTree = some (f x)) (hnull : ∀ x, (write x).toTree ≠ .null)
    (x : Option α) : Read.optional read (optional write x).toTree = some (x.map f) := by
  cases x with
  | none => rfl
  | some x =>
    unfold optional Read.optional
    split
    · exact absurd ‹_› (hnull x)
    · rw [hread, Option.map_some, Option.map_some]

theorem read_optional {α : Type} {write : α → Json} {read : Reads α}
    (hread : ∀ x, read (write x).toTree = some x) (hnull : ∀ x, (write x).toTree ≠ .null)
    (x : Option α) : Read.optional read (optional write x).toTree = some x := by
  rw [read_optional_map (f := id) hread hnull, Option.map_id, id]

theorem exact_optional {α : Type} {write : α → Json} (h : ∀ x, Exact (write x)) (x : Option α) :
    Exact (optional write x) := by
  cases x with
  | none => trivial
  | some x => exact h x

theorem lookup_of_mem {α β : Type} [BEq α] [LawfulBEq α] {entries : List (α × β)} {key : α}
    {value : β} (hdistinct : (entries.map Prod.fst).Nodup) (h : (key, value) ∈ entries) :
    List.lookup key entries = some value := by
  induction entries with
  | nil => cases h
  | cons e rest ih =>
    rw [List.map_cons, List.nodup_cons] at hdistinct
    rw [List.lookup_cons]
    rcases List.mem_cons.mp h with rfl | hrest
    · rw [beq_self_eq_true]
    · have hne : (key == e.1) = false := by
        rw [beq_eq_false_iff_ne]
        intro heq
        exact hdistinct.1 (heq ▸ List.mem_map_of_mem (f := Prod.fst) hrest)
      rw [hne]
      exact ih hdistinct.2 hrest

theorem Found.required_of_read {α : Type} {f : Found} {name : String} {t : Tree} {read : Reads α}
    {x : α} (h : f name = some t) (hread : read t = some x) : f.required name read = some x := by
  rw [Found.required, h, Option.bind_some, hread]

theorem Found.withDefault_of_read {α : Type} {f : Found} {name : String} {t : Tree}
    {read : Reads α} {x : α} (absent : α) (h : f name = some t) (hread : read t = some x) :
    f.withDefault name read absent = some x := by
  rw [Found.withDefault, h, ← hread]

theorem Found.withDefault_of_absent {α : Type} {f : Found} {name : String} {read : Reads α}
    (absent : α) (h : f name = none) : f.withDefault name read absent = some absent := by
  rw [Found.withDefault, h]

theorem membersToTree_eq_map (members : List (String × Json)) :
    membersToTree members = members.map fun m => (some m.1, m.2.toTree) := by
  induction members with
  | nil => rfl
  | cons m rest ih => rw [membersToTree, ih, List.map_cons]

/-- An object whose members have names of their own gives the fields that it holds, and no other. -/
theorem fields_of_nodup {members : List (String × Json)} (names : List String)
    (hnodup : (members.map Prod.fst).Nodup) :
    ∃ f : Found, (Json.object members).toTree.fields? names = some f ∧
      (∀ m ∈ members, m.1 ∈ names → f m.1 = some m.2.toTree) ∧
      ∀ name, name ∉ members.map Prod.fst → f name = none := by
  have hkeys : (membersToTree members).map Prod.fst = (members.map Prod.fst).map some := by
    rw [membersToTree_eq_map, List.map_map, List.map_map]
    rfl
  have hdistinct : ((membersToTree members).map Prod.fst).Nodup :=
    hkeys ▸ hnodup.map (Option.some_injective _)
  have hall : (membersToTree members).all (fun m => m.1.isSome) = true := by
    simp [membersToTree_eq_map]
  -- No name stands twice among the members, and so none of those that are looked for does.
  have honce : names.all (fun name => Tree.countOf name (membersToTree members) ≤ 1) = true := by
    rw [List.all_eq_true]
    intro name _
    have hle := List.nodup_iff_count_le_one.mp hdistinct (some name)
    rw [List.count, List.countP_map] at hle
    exact decide_eq_true hle
  refine ⟨_, by rw [toTree, Tree.fields?, hall, honce]; rfl, fun m hm hname => ?_,
    fun name hname => ?_⟩
  · rw [if_pos hname]
    refine lookup_of_mem hdistinct ?_
    rw [membersToTree_eq_map]
    exact List.mem_map_of_mem (f := fun m => (some m.1, m.2.toTree)) hm
  · have habsent : List.lookup (some name) (membersToTree members) = none := by
      refine List.lookup_eq_none_iff.mpr fun m hm => ?_
      rw [bne_iff_ne]
      intro heq
      refine hname ((List.mem_map_of_injective (Option.some_injective _)).mp ?_)
      rw [← hkeys, heq]
      exact List.mem_map_of_mem hm
    rw [habsent, ite_self]

/-- A structure whose fields are each written once gives every one of them. -/
theorem fields_toTree {j : Json} {members : List (String × Json)} (names : List String)
    (hj : j = .object members) (hnames : members.map Prod.fst = names) (hnodup : names.Nodup) :
    ∃ f : Found, j.toTree.fields? names = some f ∧ ∀ m ∈ members, f m.1 = some m.2.toTree := by
  subst hj hnames
  obtain ⟨f, hfields, hf, -⟩ := fields_of_nodup _ hnodup
  exact ⟨f, hfields, fun m hm => hf m hm (List.mem_map_of_mem hm)⟩

end Json

namespace Record

theorem exact_toJson (r : Record) : Exact r.toJson := by
  have htext : ∀ s, Exact (.text s) := fun _ => trivial
  have htime : ∀ t, Exact (Timestamp.toJson t) := fun _ => trivial
  have hstatus : ∀ s : Status, Exact s.toJson := fun _ => trivial
  simp only [toJson, Exact, MembersExact, exact_optional hstatus, exact_optional htext,
    exact_optional htime, exact_word, htime, and_self]

/-- The times that a record holds. -/
def times (r : Record) : List Instant :=
  r.createdAt :: (r.leaseExpiry.toList ++ r.reopenAt.toList ++ r.completedAt.toList)

/-- All times of the record are of the civil calendar. -/
def Civil (r : Record) : Prop := ∀ t ∈ r.times, t.Civil

instance (r : Record) : Decidable r.Civil := inferInstanceAs (Decidable (∀ t ∈ r.times, t.Civil))

/-- The record as its text shows it. -/
def reread (r : Record) : Record :=
  { r with
    leaseExpiry := r.leaseExpiry.map Instant.reread, reopenAt := r.reopenAt.map Instant.reread
    createdAt := r.createdAt.reread, completedAt := r.completedAt.map Instant.reread }

theorem civil_iff {r : Record} : r.Civil ↔ r.createdAt.Civil ∧ (∀ t ∈ r.leaseExpiry, t.Civil) ∧
    (∀ t ∈ r.reopenAt, t.Civil) ∧ ∀ t ∈ r.completedAt, t.Civil := by
  simp only [Civil, times, List.forall_mem_cons, List.forall_mem_append, Option.mem_toList,
    Option.mem_def, and_assoc]

theorem civil_reread (r : Record) : r.reread.Civil := by
  have hoption (x : Option Instant) : ∀ t ∈ x.map Instant.reread, t.Civil := by
    intro t ht
    obtain ⟨t, -, rfl⟩ := Option.map_eq_some_iff.mp ht
    exact t.civil_reread
  exact civil_iff.mpr ⟨r.createdAt.civil_reread, hoption _, hoption _, hoption _⟩

theorem reread_of_civil {r : Record} (h : r.Civil) : r.reread = r := by
  have hoption {x : Option Instant} (hx : ∀ t ∈ x, t.Civil) : x.map Instant.reread = x := by
    cases x with
    | none => rfl
    | some t => exact congrArg some (Instant.reread_of_civil (hx t rfl))
  obtain ⟨hcreated, hlease, hreopen, hdone⟩ := civil_iff.mp h
  rw [reread, Instant.reread_of_civil hcreated, hoption hlease, hoption hreopen, hoption hdone]

theorem reread_eq_iff {r : Record} : r.reread = r ↔ r.Civil :=
  ⟨fun h => h ▸ r.civil_reread, reread_of_civil⟩

/-- What a record is read back as is written alike. -/
theorem print_reread (r : Record) : r.reread.print = r.print := by
  have htime (t : Instant) : Timestamp.toJson t.reread = Timestamp.toJson t :=
    congrArg Json.text (Timestamp.text_reread t)
  have hoption (x : Option Instant) :
      optional Timestamp.toJson (x.map Instant.reread) = optional Timestamp.toJson x := by
    cases x with
    | none => rfl
    | some t => exact htime t
  simp only [print, toJson, reread, htime, hoption]

theorem read_toJson (r : Record) : Record.read r.toJson.toTree = some r.reread := by
  have hword : ∀ s, Read.text (toTree (.text s)) = some s := fun _ => rfl
  have hbool : ∀ b, Read.bool (toTree (.bool b)) = some b := fun _ => rfl
  have htext : ∀ x : Option String, Read.optional Read.text (optional .text x).toTree = some x :=
    read_optional (fun _ => rfl) (fun _ => Tree.noConfusion)
  have htime : ∀ x, Read.optional Timestamp.read (optional Timestamp.toJson x).toTree =
      some (x.map Instant.reread) :=
    read_optional_map Timestamp.read_toJson (fun _ => Tree.noConfusion)
  have hstatus : ∀ x, Read.optional Status.read (optional Status.toJson x).toTree = some x :=
    read_optional Status.read_toJson (fun _ => Tree.noConfusion)
  -- Every field is found under its own name, as it was written.
  obtain ⟨f, hfields, hf⟩ := fields_toTree (j := r.toJson) fieldNames rfl rfl (by decide)
  simp only [List.forall_mem_cons] at hf
  obtain ⟨hsource, hkind, hkey, hstat, howner, hlease, hreopen, hclosed, hprogress, hversion,
    hcreated, hdone, hreadOnly, -⟩ := hf
  rw [Record.read, hfields, Option.bind_eq_bind, Option.bind_some,
    Found.required_of_read hsource (hword r.source), Found.required_of_read hkind (hword r.kind),
    Found.required_of_read hkey (hword r.key),
    Found.required_of_read hcreated (Timestamp.read_toJson _),
    Found.withDefault_of_read _ hstat (hstatus _), Found.withDefault_of_read _ howner (htext _),
    Found.withDefault_of_read _ hlease (htime _), Found.withDefault_of_read _ hreopen (htime _),
    Found.withDefault_of_read _ hclosed (read_word _),
    Found.withDefault_of_read _ hprogress (htext _),
    Found.withDefault_of_read _ hversion (read_word _),
    Found.withDefault_of_read _ hdone (htime _),
    Found.withDefault_of_read _ hreadOnly (hbool r.readOnly)]
  rfl

/-- **A record's text holds the record** as the text shows it. -/
theorem parse_print_eq (r : Record) : parse? r.print = some r.reread := by
  rw [parse?, print, Tree.ofString_print r.exact_toJson, Option.bind_some, read_toJson]

theorem parse_print {r : Record} (h : r.Civil) : parse? r.print = some r := by
  rw [parse_print_eq, reread_of_civil h]

theorem civil_of_readTime {t : Tree} {time : Instant} (h : Timestamp.read t = some time) :
    time.Civil := by
  unfold Timestamp.read at h
  split at h
  · obtain ⟨s, -, hs⟩ := Option.bind_eq_some_iff.mp h
    exact Timestamp.civil_of_ofString hs
  · cases h

/-- A time that may be missing is of the civil calendar if it is read. -/
theorem civil_of_withDefault {f : Found} {name : String} {x : Option Instant}
    (h : f.withDefault name (Read.optional Timestamp.read) none = some x) : ∀ t ∈ x, t.Civil := by
  unfold Found.withDefault Read.optional at h
  split at h
  · cases h
    exact fun _ ht => nomatch ht
  · split at h
    · cases h
      exact fun _ ht => nomatch ht
    · obtain ⟨time, htime, rfl⟩ := Option.map_eq_some_iff.mp h
      intro t ht
      exact Option.some.inj ht ▸ civil_of_readTime htime

/-- **Whatever text holds a record**, the record's times are of the civil calendar. -/
theorem civil_of_parse {s : String} {r : Record} (h : parse? s = some r) : r.Civil := by
  obtain ⟨t, -, h⟩ := Option.bind_eq_some_iff.mp h
  obtain ⟨_, -, h⟩ := Option.bind_eq_some_iff.mp h
  obtain ⟨_, -, h⟩ := Option.bind_eq_some_iff.mp h
  obtain ⟨_, -, h⟩ := Option.bind_eq_some_iff.mp h
  obtain ⟨_, -, h⟩ := Option.bind_eq_some_iff.mp h
  obtain ⟨_, -, h⟩ := Option.bind_eq_some_iff.mp h
  obtain ⟨_, -, h⟩ := Option.bind_eq_some_iff.mp h
  obtain ⟨leaseExpiry, hlease, h⟩ := Option.bind_eq_some_iff.mp h
  obtain ⟨reopenAt, hreopen, h⟩ := Option.bind_eq_some_iff.mp h
  obtain ⟨_, -, h⟩ := Option.bind_eq_some_iff.mp h
  obtain ⟨_, -, h⟩ := Option.bind_eq_some_iff.mp h
  obtain ⟨_, -, h⟩ := Option.bind_eq_some_iff.mp h
  obtain ⟨createdAt, hcreated, h⟩ := Option.bind_eq_some_iff.mp h
  obtain ⟨completedAt, hdone, h⟩ := Option.bind_eq_some_iff.mp h
  obtain ⟨_, -, h⟩ := Option.bind_eq_some_iff.mp h
  obtain rfl := Option.some.inj h
  obtain ⟨_, -, hcreated⟩ := Option.bind_eq_some_iff.mp hcreated
  exact civil_iff.mpr ⟨civil_of_readTime hcreated, civil_of_withDefault hlease,
    civil_of_withDefault hreopen, civil_of_withDefault hdone⟩

/-- What is written for the record that a text holds, if it holds one. -/
def rewrite? (text : String) : Option String := (parse? text).map print

/-- **Writing and reading settle at once.**  A record is read back from its text as it was if its
times are of the civil calendar, and only then: with any texts, any status or none, any counters,
and any times to the nanosecond from the year -262143 to the year 262142, leap seconds at the end of
a minute among them.  So whatever text is read, and however it was laid out, what is written for it
holds the same record, and is what is written for itself. -/
theorem rewriting_settles :
    (∀ r : Record, parse? r.print = some r ↔ r.Civil) ∧
      ∀ text, (rewrite? text).bind parse? = parse? text ∧
        (rewrite? text).bind rewrite? = rewrite? text := by
  refine ⟨fun r => ?_, fun text => ?_⟩
  · rw [parse_print_eq, Option.some.injEq, reread_eq_iff]
  · cases hr : parse? text with
    | none => simp only [rewrite?, hr, Option.map_none, Option.bind_none, and_self]
    | some r =>
      have hparse := parse_print (civil_of_parse hr)
      have hrewrite : rewrite? r.print = some r.print := by
        rw [rewrite?, hparse, Option.map_some]
      have htext : rewrite? text = some r.print := by rw [rewrite?, hr, Option.map_some]
      rw [htext, Option.bind_some, Option.bind_some]
      exact ⟨hparse, hrewrite⟩

/-- An array that stops after the creation time, which has an offset, is rewritten in full. -/
example :
    rewrite?
      "[\"db\",\"WORK\",\"a\",null,null,null,null,3,null,7,\"1970-01-01T01:00:00.250+01:00\"]" =
    some { Record.unassigned ⟨"db", "WORK", "a"⟩ none
        ⟨0, 250000000, by decide, by decide, by decide⟩ with
      status := none, closedCount := 3, version := 7 }.print := by
  decide +kernel

end Record

end LeasedWork
