import LeasedWork.Store.Table
import Mathlib.Data.List.Nodup

/-! # What a table holds

A table is what it finds under each identity, as long as its rows have distinct identities.  Every
request leaves them distinct (`Table.distinct_answer`), and the writing ones have one effect each:
they put one record under its identity and leave every other identity alone
(`Table.find?_insert`, `Table.find?_replace`).
-/
namespace LeasedWork

/-! ## Lists with keys -/

theorem findKey_some {α κ : Type} [DecidableEq κ] {key : α → κ} {xs : List α} {k : κ} {x : α}
    (h : (xs.find? fun x => key x == k) = some x) : x ∈ xs ∧ key x = k :=
  ⟨List.mem_of_find?_eq_some h, by simpa using List.find?_some h⟩

theorem findKey_none {α κ : Type} [DecidableEq κ] {key : α → κ} {xs : List α} {k : κ} :
    (xs.find? fun x => key x == k) = none ↔ ∀ x ∈ xs, key x ≠ k := by
  simp

/-- Where keys are distinct, an entry is found under its key. -/
theorem findKey_iff {α κ : Type} [DecidableEq κ] {key : α → κ} {xs : List α}
    (hd : (xs.map key).Nodup) {k : κ} {x : α} :
    (xs.find? fun x => key x == k) = some x ↔ x ∈ xs ∧ key x = k := by
  refine ⟨findKey_some, ?_⟩
  rintro ⟨hx, rfl⟩
  cases h : xs.find? fun y => key y == key x with
  | none => exact absurd rfl (findKey_none.mp h x hx)
  | some y =>
    obtain ⟨hy, hkey⟩ := findKey_some h
    rw [List.inj_on_of_nodup_map hd hy hx hkey]

/-! ## Rows -/

namespace Table

/-- No two rows are of one identity. -/
def Distinct (t : Table) : Prop := (t.rows.map Record.id).Nodup

theorem distinct_empty : empty.Distinct := List.nodup_nil

theorem find?_some {t : Table} {id : RecordId} {r : Record} (h : t.find? id = some r) :
    r ∈ t.rows ∧ r.id = id := findKey_some h

theorem find?_none {t : Table} {id : RecordId} : t.find? id = none ↔ ∀ r ∈ t.rows, r.id ≠ id :=
  findKey_none

theorem find?_iff {t : Table} (hd : t.Distinct) {id : RecordId} {r : Record} :
    t.find? id = some r ↔ r ∈ t.rows ∧ r.id = id := findKey_iff hd

theorem mem_ofKind {t : Table} {source kind : String} {r : Record} :
    r ∈ t.ofKind source kind ↔ r ∈ t.rows ∧ r.source = source ∧ r.kind = kind := by
  simp [ofKind]

/-! ## Writes -/

theorem find?_insert {t : Table} {r : Record} (h : t.find? r.id = none) (id : RecordId) :
    (t.insert r).find? id = if id = r.id then some r else t.find? id := by
  rw [insert, find?, List.find?_append]
  by_cases hid : id = r.id
  · subst hid
    rw [if_pos rfl, show t.rows.find? _ = none from h]
    simp
  · have hne : (r.id == id) = false := beq_eq_false_iff_ne.mpr fun h => hid h.symm
    rw [if_neg hid, List.find?_cons, hne]
    exact Option.or_none

/-- What is stored stays when a record comes under a free identity. -/
theorem find?_insert_of_stored {t : Table} {r s : Record} {id : RecordId}
    (h : t.find? r.id = none) (hs : t.find? id = some s) : (t.insert r).find? id = some s := by
  rw [find?_insert h, if_neg, hs]
  rintro rfl
  rw [h] at hs
  cases hs

theorem distinct_insert {t : Table} (hd : t.Distinct) {r : Record} (h : t.find? r.id = none) :
    (t.insert r).Distinct := by
  unfold Distinct insert
  rw [List.map_append, List.nodup_append]
  refine ⟨hd, by simp, ?_⟩
  rintro id hid _ hr rfl
  obtain ⟨s, hs, rfl⟩ := List.mem_map.mp hid
  exact find?_none.mp h s hs (List.mem_singleton.mp hr)

theorem find?_replace (t : Table) (r : Record) (id : RecordId) :
    (t.replace r).find? id = if id = r.id then (t.find? id).map fun _ => r else t.find? id := by
  unfold replace find?
  induction t.rows with
  | nil => simp
  | cons old rest ih =>
    rw [List.map_cons, List.find?_cons, List.find?_cons, ih]
    by_cases hold : old.id = r.id
    · by_cases hid : id = r.id
      · simp [hold, hid]
      · have hne : (r.id == id) = false := beq_eq_false_iff_ne.mpr fun h => hid h.symm
        simp [hold, hid, hne]
    · by_cases hid : id = r.id
      · have hne : (old.id == r.id) = false := beq_eq_false_iff_ne.mpr hold
        simp [hold, hid, hne]
      · simp [hold, hid]

/-- A record that takes the place of a stored one. -/
theorem find?_replace_of_stored {t : Table} {r s : Record} (h : t.find? r.id = some s)
    (id : RecordId) : (t.replace r).find? id = if id = r.id then some r else t.find? id := by
  rw [find?_replace]
  split
  · subst id
    rw [h, Option.map_some]
  · rfl

theorem find?_replace_self {t : Table} {r s : Record} (h : t.find? r.id = some s) :
    (t.replace r).find? r.id = some r := by
  rw [find?_replace, if_pos rfl, h]
  rfl

theorem find?_replace_of_ne {t : Table} {r : Record} {id : RecordId} (h : id ≠ r.id) :
    (t.replace r).find? id = t.find? id := by
  rw [find?_replace, if_neg h]

theorem find?_replace_of_none {t : Table} {r : Record} {id : RecordId} (h : t.find? id = none) :
    (t.replace r).find? id = none := by
  rw [find?_replace, h]
  split <;> rfl

/-- The next version of a record is another record. -/
theorem find?_replace_ne {t : Table} {r s : Record} (h : t.find? r.id = some s)
    (hversion : r.version = s.version + 1) : (t.replace r).find? r.id ≠ t.find? r.id := by
  rw [find?_replace_self h, h]
  intro heq
  have hsame : s.version + 1 = s.version := by
    rw [← hversion, Option.some.inj heq]
  exact absurd (UInt64.add_eq_left.mp hsame) (by decide)

theorem ids_replace (t : Table) (r : Record) :
    (t.replace r).rows.map Record.id = t.rows.map Record.id := by
  unfold replace
  rw [List.map_map]
  refine List.map_congr_left fun old _ => ?_
  by_cases h : old.id = r.id
  · simp [h]
  · simp [h]

theorem mem_insert {t : Table} {r x : Record} (h : x ∈ (t.insert r).rows) : x = r ∨ x ∈ t.rows :=
  (List.mem_append.mp h).symm.imp_left List.mem_singleton.mp

theorem mem_replace {t : Table} {r x : Record} (h : x ∈ (t.replace r).rows) :
    x = r ∨ x ∈ t.rows := by
  obtain ⟨old, hold, rfl⟩ := List.mem_map.mp h
  by_cases hid : old.id = r.id
  · rw [if_pos hid]
    exact .inl rfl
  · rw [if_neg hid]
    exact .inr hold

theorem distinct_replace {t : Table} (hd : t.Distinct) (r : Record) : (t.replace r).Distinct := by
  unfold Distinct
  rw [ids_replace]
  exact hd

/-- A table with each of its records changed. -/
def map (f : Record → Record) (t : Table) : Table := ⟨t.rows.map f⟩

section Map

variable {f : Record → Record} (hid : ∀ r, (f r).id = r.id) (t : Table)

include hid

theorem find?_map (id : RecordId) : (t.map f).find? id = (t.find? id).map f := by
  rw [find?, map, List.find?_map]
  exact congrArg (Option.map f ∘ (t.rows.find? ·)) (funext fun r => congrArg (· == id) (hid r))

theorem distinct_map : (t.map f).Distinct ↔ t.Distinct := by
  rw [Distinct, map, List.map_map]
  exact iff_of_eq (congrArg (fun g => (t.rows.map g).Nodup) (funext hid))

end Map

theorem map_eq_self {f : Record → Record} {t : Table} (h : ∀ r ∈ t.rows, f r = r) : t.map f = t :=
  congrArg Table.mk ((List.map_congr_left h).trans (List.map_id t.rows))

/-! ## Updates -/

/-- An update of the stored version succeeds. -/
theorem answer_update_of_current {t : Table} {r stored : Record} (now : Instant)
    (hs : t.find? r.id = some stored) (hversion : stored.version = r.version) :
    t.answer now (.update r) = (.ok r.nextVersion, t.replace r.nextVersion) := by
  simp only [answer, hs, hversion, if_true]

/-- An update of any other version is lost, and changes nothing. -/
theorem answer_update_of_stale {t : Table} {r : Record} (now : Instant)
    (h : ∀ stored, t.find? r.id = some stored → stored.version ≠ r.version) :
    t.answer now (.update r) = (.error (.lostWriteOf r), t) := by
  cases hs : t.find? r.id with
  | none => simp only [answer, hs]
  | some stored => simp only [answer, hs, h stored hs, if_false]

/-- **No request stores two records under one identity.** -/
theorem distinct_answer {t : Table} (hd : t.Distinct) (now : Instant) (request : Request) :
    (t.answer now request).2.Distinct := by
  cases request with
  | prepare | get _ | byStatus _ _ _ _ | all _ _ => exact hd
  | create r =>
    simp only [answer]
    split
    · exact hd
    · exact distinct_insert hd ‹_›
  | update r =>
    simp only [answer]
    split
    · split
      · exact distinct_replace hd _
      · exact hd
    · exact hd
  | claim source kind owner lease =>
    simp only [answer]
    split
    · exact distinct_replace hd _
    · exact hd

end Table

end LeasedWork
