import LeasedWork.Partition.BuiltIn
import Mathlib.Data.List.Nodup

/-! # What progress texts hold

A schema says which trees are read as the progress of a kind, by their shape alone (`Json.Shape`).
Most progress is a structure of named fields (`Json.Structured`): an object that has each field at
most once, and may have members of other names, or an array of the first fields.  Shared state is
any object of values (`Json.Valued`).  The readers take the trees that fit, and no others
(`BuiltIn.exists_read_iff`).
-/
namespace LeasedWork

namespace Json

/-! ## Shapes of single values -/

/-- Which trees stand for a value of some type. -/
abbrev Shape := Tree → Prop

namespace Shape

def bool : Shape := fun t => ∃ b, t = .bool b

/-- A text without half a surrogate pair in it. -/
def text : Shape := fun t => ∃ s, t = .text (some s)

/-- A number without a fraction and an exponent, within bounds. -/
def between (least most : Int) : Shape :=
  fun t => ∃ i, t = .number (.integer i) ∧ least ≤ i ∧ i ≤ most

def word : Shape := between 0 (UInt64.size - 1)

def signed : Shape := between Int64.minValue.toInt Int64.maxValue.toInt

def time : Shape := fun t => ∃ s, t = .text (some s) ∧ ∃ i, Timestamp.ofString? s = some i

def optional (shape : Shape) : Shape := fun t => t = .null ∨ shape t

end Shape

/-- A reader takes the trees of a shape, and no others. -/
def Takes {α : Type} (read : Reads α) (shape : Shape) : Prop :=
  ∀ t, (∃ x, read t = some x) ↔ shape t

namespace Takes

variable {α : Type} {read : Reads α} {shape : Shape}

theorem bool : Takes Read.bool .bool := by
  intro t
  cases t <;> simp [Read.bool, Shape.bool]

theorem text : Takes Read.text .text := by
  intro t
  cases t with
  | text s => cases s <;> simp [Read.text, Shape.text]
  | _ => simp [Read.text, Shape.text]

theorem word : Takes Read.word .word := by
  have hsize : UInt64.size = 18446744073709551616 := rfl
  intro t
  cases t with
  | number n =>
    cases n with
    | integer i =>
      simp [Read.word, Shape.word, Shape.between]
      omega
    | real x => simp [Read.word, Shape.word, Shape.between]
  | _ => simp [Read.word, Shape.word, Shape.between]

theorem signed : Takes Read.signed .signed := by
  intro t
  cases t with
  | number n => cases n <;> simp [Read.signed, Shape.signed, Shape.between]
  | _ => simp [Read.signed, Shape.signed, Shape.between]

theorem time : Takes Timestamp.read .time := by
  intro t
  cases t with
  | text s => cases s <;> simp [Timestamp.read, Shape.time]
  | _ => simp [Timestamp.read, Shape.time]

theorem optional (h : Takes read shape) : Takes (Read.optional read) (.optional shape) := by
  intro t
  unfold Read.optional Shape.optional
  split
  · simp
  · rename_i hnull
    rw [or_iff_right hnull, ← h t]
    simp

end Takes

/-! ## Structures -/

/-- A field of a structure. -/
structure Field where
  name : String
  shape : Shape
  /-- The field has a value of its own when it is absent. -/
  mayBeAbsent : Bool := false

/-- What may be found for a field. -/
def Field.Accepts (d : Field) : Option Tree → Prop
  | none => d.mayBeAbsent = true
  | some t => d.shape t

/-- Array entries that stand for the fields of a structure, in their order. -/
def Positional : List Field → List Tree → Prop
  | fields, [] => ∀ d ∈ fields, d.mayBeAbsent = true
  | [], _ :: _ => False
  | d :: fields, t :: items => d.shape t ∧ Positional fields items

/-- The trees of a structure. -/
inductive Structured (fields : List Field) : Shape
  /-- All names have values, no field occurs twice, and what is there fits. -/
  | object {members : List (Option String × Tree)} (hnames : ∀ m ∈ members, m.1 ≠ none)
      (honce : ∀ d ∈ fields, Tree.countOf d.name members ≤ 1)
      (hthere : ∀ d ∈ fields, ∀ t, (some d.name, t) ∈ members → d.shape t)
      (habsent : ∀ d ∈ fields, d.mayBeAbsent = false → ∃ t, (some d.name, t) ∈ members) :
      Structured fields (.object members)
  | array {items : List Tree} (h : Positional fields items) : Structured fields (.array items)

variable {fields : List Field} {t : Tree}

theorem Tree.lookup_eq_none_iff {name : String} {members : List (Option String × Tree)} :
    List.lookup (some name) members = none ↔ ∀ t, (some name, t) ∉ members := by
  rw [List.lookup_eq_none_iff]
  constructor
  · intro h t hmem
    exact absurd (h _ hmem) (by simp)
  · intro h m hm
    rw [bne_iff_ne]
    intro heq
    exact h m.2 (heq ▸ hm)

theorem accepts_lookup_iff {d : Field} {members : List (Option String × Tree)}
    (honce : Tree.countOf d.name members ≤ 1) :
    d.Accepts (List.lookup (some d.name) members) ↔
      (∀ t, (some d.name, t) ∈ members → d.shape t) ∧
      (d.mayBeAbsent = false → ∃ t, (some d.name, t) ∈ members) := by
  cases hfound : List.lookup (some d.name) members with
  | none =>
    have hnone := Tree.lookup_eq_none_iff.mp hfound
    simp [Field.Accepts, hnone]
  | some t =>
    have hmem := (Tree.lookup_eq_some_iff honce).mp hfound
    have honly : ∀ u, (some d.name, u) ∈ members → u = t := fun u hu =>
      Option.some.inj (((Tree.lookup_eq_some_iff honce).mpr hu).symm.trans hfound)
    constructor
    · exact fun h => ⟨fun u hu => honly u hu ▸ h, fun _ => ⟨t, hmem⟩⟩
    · exact fun h => h.1 t hmem

/-- Entries are told apart by their places, as the fields have different names. -/
theorem accepts_zip_iff (hnames : (fields.map Field.name).Nodup) (items : List Tree) :
    items.length ≤ fields.length ∧
      (∀ d ∈ fields, d.Accepts (List.lookup d.name ((fields.map Field.name).zip items))) ↔
    Positional fields items := by
  induction fields generalizing items with
  | nil => cases items <;> simp [Positional]
  | cons d fields ih =>
    cases items with
    | nil => simp [Positional, Field.Accepts]
    | cons t items =>
      rw [List.map_cons, List.nodup_cons] at hnames
      have hothers : ∀ e ∈ fields, List.lookup e.name
          ((d.name, t) :: (fields.map Field.name).zip items) =
            List.lookup e.name ((fields.map Field.name).zip items) := by
        intro e he
        have hne : (e.name == d.name) = false := by
          rw [beq_eq_false_iff_ne]
          exact fun heq => hnames.1 (heq ▸ List.mem_map_of_mem he)
        rw [List.lookup_cons, hne]
      have htail : (∀ e ∈ fields, e.Accepts (List.lookup e.name
          ((d.name, t) :: (fields.map Field.name).zip items))) ↔
            ∀ e ∈ fields, e.Accepts (List.lookup e.name ((fields.map Field.name).zip items)) :=
        forall₂_congr fun e he => by rw [hothers e he]
      rw [List.map_cons, List.zip_cons_cons, List.forall_mem_cons, htail, Positional,
        ← ih hnames.2 items, List.lookup_cons_self, List.length_cons, List.length_cons,
        Nat.add_le_add_iff_right]
      exact and_left_comm

/-- **Structures are found** in the trees that have their fields, and in no others. -/
theorem exists_fields_iff (hnames : (fields.map Field.name).Nodup) :
    (∃ f, t.fields? (fields.map Field.name) = some f ∧ ∀ d ∈ fields, d.Accepts (f d.name)) ↔
      Structured fields t := by
  have hmem : ∀ d ∈ fields, d.name ∈ fields.map Field.name := fun d => List.mem_map_of_mem
  cases t with
  | object members =>
    constructor
    · rintro ⟨f, hf, haccepts⟩
      rw [Tree.fields?] at hf
      split at hf
      · rename_i hshape
        cases hf
        simp only [Bool.and_eq_true, List.all_eq_true, List.forall_mem_map, decide_eq_true_eq,
          Option.isSome_iff_ne_none] at hshape
        obtain ⟨hvalued, honce⟩ := hshape
        have hlookup : ∀ d ∈ fields, d.Accepts (List.lookup (some d.name) members) := by
          intro d hd
          have haccept := haccepts d hd
          dsimp only at haccept
          rwa [if_pos (hmem d hd)] at haccept
        exact .object hvalued honce
          (fun d hd => ((accepts_lookup_iff (honce d hd)).mp (hlookup d hd)).1)
          fun d hd => ((accepts_lookup_iff (honce d hd)).mp (hlookup d hd)).2
      · cases hf
    · rintro (⟨hvalued, honce, hthere, habsent⟩ | -)
      have hshape : (members.all (fun m => m.1.isSome) &&
          (fields.map Field.name).all (fun name => Tree.countOf name members ≤ 1)) = true := by
        simp only [Bool.and_eq_true, List.all_eq_true, List.forall_mem_map, decide_eq_true_eq,
          Option.isSome_iff_ne_none]
        exact ⟨hvalued, honce⟩
      refine ⟨_, if_pos hshape, fun d hd => ?_⟩
      rw [if_pos (hmem d hd)]
      exact (accepts_lookup_iff (honce d hd)).mpr ⟨hthere d hd, habsent d hd⟩
  | array items =>
    -- An array holds the fields by their places, and its length has to be theirs.
    have hfields : Structured fields (.array items) ↔ Positional fields items :=
      ⟨fun h => by cases h; assumption, .array⟩
    rw [hfields, ← accepts_zip_iff hnames, Tree.fields?, List.length_map]
    split
    · simp [*]
    · simp [*]
  | _ => exact ⟨fun ⟨_, hf, _⟩ => (nomatch hf), fun h => nomatch h⟩

/-! ## Values -/

/-- The trees that have a value, when their arrays and objects may be nested so deep. -/
inductive Valued : Nat → Shape
  | null {depth : Nat} : Valued depth .null
  | bool {depth : Nat} (b : Bool) : Valued depth (.bool b)
  | integer {depth : Nat} (i : Int) : Valued depth (.number (.integer i))
  | real {depth : Nat} (x : Binary64) : Valued depth (.number (.real (some x)))
  | text {depth : Nat} (s : String) : Valued depth (.text (some s))
  | array {depth : Nat} {items : List Tree} (h : ∀ t ∈ items, Valued depth t) :
      Valued (depth + 1) (.array items)
  | object {depth : Nat} {members : List (Option String × Tree)}
      (hnames : ∀ m ∈ members, m.1 ≠ none) (h : ∀ m ∈ members, Valued depth m.2) :
      Valued (depth + 1) (.object members)

mutual

/-- **The trees that have a value** are those without a number that is too large and a text that
stands for nothing, and not nested too deep. -/
theorem exists_ofTree_iff (depth : Nat) (t : Tree) :
    (∃ x, ofTree? depth t = some x) ↔ Valued depth t :=
  -- The numbers and texts without a value are the leaves that are refused; every level below an
  -- array or an object takes one of the depth that is left.
  match t with
  | .null => iff_of_true ⟨_, rfl⟩ .null
  | .bool b => iff_of_true ⟨_, rfl⟩ (.bool b)
  | .number (.integer i) => iff_of_true ⟨_, rfl⟩ (.integer i)
  | .number (.real none) => iff_of_false (fun ⟨_, h⟩ => nomatch h) fun h => nomatch h
  | .number (.real (some x)) => iff_of_true ⟨_, rfl⟩ (.real x)
  | .text none => iff_of_false (fun ⟨_, h⟩ => nomatch h) fun h => nomatch h
  | .text (some s) => iff_of_true ⟨_, rfl⟩ (.text s)
  | .array items => by
    have hitems := exists_ofItems_iff (depth - 1) items
    cases depth with
    | zero => exact iff_of_false (fun ⟨_, h⟩ => nomatch h) fun h => nomatch h
    | succ depth =>
      have hvalued : Valued (depth + 1) (.array items) ↔ ∀ t ∈ items, Valued depth t :=
        ⟨fun h => by cases h; assumption, .array⟩
      rw [Nat.add_sub_cancel] at hitems
      rw [hvalued, ← hitems, ofTree?, if_neg (Nat.succ_ne_zero depth), Nat.add_sub_cancel]
      simp only [Option.map_eq_some_iff]
      exact ⟨fun ⟨_, xs, h, _⟩ => ⟨xs, h⟩, fun ⟨xs, h⟩ => ⟨_, xs, h, rfl⟩⟩
  | .object members => by
    have hmembers := exists_ofMembers_iff (depth - 1) members
    cases depth with
    | zero => exact iff_of_false (fun ⟨_, h⟩ => nomatch h) fun h => nomatch h
    | succ depth =>
      have hvalued : Valued (depth + 1) (.object members) ↔
          ∀ m ∈ members, m.1 ≠ none ∧ Valued depth m.2 :=
        ⟨fun h => by
          cases h with
          | object hnames h => exact fun m hm => ⟨hnames m hm, h m hm⟩,
          fun h => .object (fun m hm => (h m hm).1) fun m hm => (h m hm).2⟩
      rw [Nat.add_sub_cancel] at hmembers
      rw [hvalued, ← hmembers, ofTree?, if_neg (Nat.succ_ne_zero depth), Nat.add_sub_cancel]
      simp only [Option.map_eq_some_iff]
      exact ⟨fun ⟨_, xs, h, _⟩ => ⟨xs, h⟩, fun ⟨xs, h⟩ => ⟨_, xs, h, rfl⟩⟩

theorem exists_ofItems_iff (depth : Nat) (ts : List Tree) :
    (∃ xs, ofItems? depth ts = some xs) ↔ ∀ t ∈ ts, Valued depth t :=
  match ts with
  | [] => iff_of_true ⟨_, rfl⟩ fun _ h => nomatch h
  | t :: ts => by
    rw [List.forall_mem_cons, ← exists_ofTree_iff depth t, ← exists_ofItems_iff depth ts, ofItems?]
    simp only [Option.bind_eq_bind, Option.bind_eq_some_iff]
    exact ⟨fun ⟨_, x, hx, xs, hxs, _⟩ => ⟨⟨x, hx⟩, xs, hxs⟩,
      fun ⟨⟨x, hx⟩, xs, hxs⟩ => ⟨_, x, hx, xs, hxs, rfl⟩⟩

theorem exists_ofMembers_iff (depth : Nat) (ms : List (Option String × Tree)) :
    (∃ xs, ofMembers? depth ms = some xs) ↔ ∀ m ∈ ms, m.1 ≠ none ∧ Valued depth m.2 :=
  match ms with
  | [] => iff_of_true ⟨_, rfl⟩ fun _ h => nomatch h
  | (none, t) :: ms => iff_of_false (fun ⟨_, h⟩ => nomatch h) fun h =>
      (h _ List.mem_cons_self).1 rfl
  | (some name, t) :: ms => by
    rw [List.forall_mem_cons, ← exists_ofTree_iff depth t, ← exists_ofMembers_iff depth ms,
      ofMembers?]
    simp only [Option.bind_eq_bind, Option.bind_eq_some_iff]
    exact ⟨fun ⟨_, _, _, x, hx, xs, hxs, _⟩ => ⟨⟨nofun, x, hx⟩, xs, hxs⟩,
      fun ⟨⟨_, x, hx⟩, xs, hxs⟩ => ⟨_, name, rfl, x, hx, xs, hxs, rfl⟩⟩

end

/-- The value of an object is an object, and no other tree has one. -/
theorem exists_object_of_ofTree {depth : Nat} {t : Tree} {ms : Members}
    (h : ofTree? depth t = some (.object ms)) : ∃ members, t = .object members := by
  cases t with
  | object members => exact ⟨members, rfl⟩
  | number n => cases n <;> simp [ofTree?] at h
  | _ => simp [ofTree?] at h

/-! ## Fields that are read -/

/-- Something is made of what was found for some fields just when each of them accepts it. -/
def MadeOf {α : Type} (f : Found) (fields : List Field) (x : Option α) : Prop :=
  (∃ a, x = some a) ↔ ∀ d ∈ fields, d.Accepts (f d.name)

namespace MadeOf

variable {α β : Type} {f : Found} {d : Field}

theorem nothing (a : α) : MadeOf f [] (some a) :=
  iff_of_true ⟨a, rfl⟩ (List.forall_mem_nil _)

/-- Reads one more field before the others. -/
theorem field {x : Option α} {g : α → Option β} (hx : (∃ a, x = some a) ↔ d.Accepts (f d.name))
    (hg : ∀ a, MadeOf f fields (g a)) : MadeOf f (d :: fields) (x.bind g) := by
  rw [MadeOf, List.forall_mem_cons, ← hx]
  constructor
  · rintro ⟨b, h⟩
    obtain ⟨a, ha, hb⟩ := Option.bind_eq_some_iff.mp h
    exact ⟨⟨a, ha⟩, (hg a).mp ⟨b, hb⟩⟩
  · rintro ⟨⟨a, rfl⟩, hrest⟩
    exact (hg a).mpr hrest

end MadeOf

namespace Takes

variable {α : Type} {read : Reads α} {shape : Shape} {f : Found} {name : String}

theorem required (h : Takes read shape) :
    (∃ x, f.required name read = some x) ↔ Field.Accepts ⟨name, shape, false⟩ (f name) := by
  rw [Found.required]
  cases f name with
  | none => simp [Field.Accepts]
  | some t => exact h t

theorem withDefault (h : Takes read shape) (absent : α) :
    (∃ x, f.withDefault name read absent = some x) ↔
      Field.Accepts ⟨name, shape, true⟩ (f name) := by
  rw [Found.withDefault]
  cases f name with
  | none => simp [Field.Accepts]
  | some t => exact h t

/-- **A structure is read** when its fields are found and each of them is read. -/
theorem structured {g : Found → Option α} (hnames : (fields.map Field.name).Nodup)
    (hg : ∀ f, MadeOf f fields (g f)) :
    Takes (fun t => (t.fields? (fields.map Field.name)).bind g) (Structured fields) := by
  intro t
  rw [← exists_fields_iff hnames]
  constructor
  · rintro ⟨x, h⟩
    obtain ⟨f, hf, hx⟩ := Option.bind_eq_some_iff.mp h
    exact ⟨f, hf, (hg f).mp ⟨x, hx⟩⟩
  · rintro ⟨f, hf, haccepts⟩
    obtain ⟨x, hx⟩ := (hg f).mpr haccepts
    exact ⟨x, Option.bind_eq_some_iff.mpr ⟨f, hf, hx⟩⟩

end Takes

end Json

open Json

/-! ## The schema of each kind -/

namespace Schema

def leader : Shape := Structured [⟨"initialized", .bool, false⟩]

def snapshot : Shape :=
  Structured [⟨"databaseName", .text, false⟩, ⟨"collectionName", .text, false⟩,
    ⟨"exportTime", .time, false⟩]

def checkpoint : Shape :=
  Structured [⟨"commitNum", .word, false⟩, ⟨"opNum", .word, false⟩, ⟨"recordCount", .word, false⟩]

def stream : Shape :=
  Structured [⟨"startTime", .signed, false⟩, ⟨"resumeToken", .optional .text, true⟩,
    ⟨"checkpoint", .optional checkpoint, true⟩, ⟨"waitForExport", .bool, true⟩]

def query : Shape :=
  Structured [⟨"executedQueries", .word, true⟩, ⟨"loadedRecords", .word, true⟩,
    ⟨"startTime", .signed, true⟩]

/-- Any object of values. -/
def shared : Shape := fun t => (∃ members, t = .object members) ∧ Valued maxDepth t

end Schema

/-- The schema of a kind's progress. -/
def BuiltIn.schema : BuiltIn → Shape
  | .leader => Schema.leader
  | .shared => Schema.shared
  | .snapshot => Schema.snapshot
  | .stream => Schema.stream
  | .query => Schema.query

namespace Schema

theorem takes_leader : Takes LeaderProgress.read leader :=
  .structured (by decide) fun _ => .field Takes.bool.required fun _ => .nothing _

theorem takes_snapshot : Takes SnapshotProgress.read snapshot :=
  .structured (by decide) fun _ => .field Takes.text.required fun _ =>
    .field Takes.text.required fun _ => .field Takes.time.required fun _ => .nothing _

theorem takes_checkpoint : Takes Checkpoint.read checkpoint :=
  .structured (by decide) fun _ => .field Takes.word.required fun _ =>
    .field Takes.word.required fun _ => .field Takes.word.required fun _ => .nothing _

theorem takes_stream : Takes StreamProgress.read stream :=
  .structured (by decide) fun _ => .field Takes.signed.required fun _ =>
    .field (Takes.text.optional.withDefault _) fun _ =>
      .field (takes_checkpoint.optional.withDefault _) fun _ =>
        .field (Takes.bool.withDefault _) fun _ => .nothing _

theorem takes_query : Takes QueryProgress.read query :=
  .structured (by decide) fun _ => .field (Takes.word.withDefault _) fun _ =>
    .field (Takes.word.withDefault _) fun _ => .field (Takes.signed.withDefault _) fun _ =>
      .nothing _

theorem takes_shared : Takes Members.ofTree? shared := by
  intro t
  rw [shared, ← exists_ofTree_iff]
  unfold Members.ofTree?
  constructor
  · rintro ⟨ms, h⟩
    split at h
    · rename_i hvalue
      exact ⟨exists_object_of_ofTree hvalue, _, hvalue⟩
    · cases h
  · rintro ⟨⟨members, rfl⟩, x, hvalue⟩
    rw [hvalue]
    rw [ofTree?, if_neg (by decide), Option.map_eq_some_iff] at hvalue
    obtain ⟨ms, -, rfl⟩ := hvalue
    exact ⟨_, rfl⟩

end Schema

/-- **The progress that is read** is what fits the schema of its kind. -/
theorem BuiltIn.takes_read (b : BuiltIn) : Takes b.kind.read b.schema :=
  match b with
  | .leader => Schema.takes_leader
  | .shared => Schema.takes_shared
  | .snapshot => Schema.takes_snapshot
  | .stream => Schema.takes_stream
  | .query => Schema.takes_query

end LeasedWork
