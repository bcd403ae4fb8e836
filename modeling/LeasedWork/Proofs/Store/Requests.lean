import LeasedWork.Proofs.Record.Candidates
import LeasedWork.Proofs.Store.Tables

/-! # What a request does to a table

A request either leaves a table as it is, or puts one record into it: a new one under a free
identity, or the next version of a stored one (`Table.Written`).  So whatever is stored stays
stored, perhaps in another version (`Table.within_answer`).
-/
namespace LeasedWork

namespace Table

/-- What a request leaves of a table: as it was, or with the one record that it writes. -/
inductive Written (t : Table) (now : Instant) : Request → Table → Prop
  | none (request : Request) : Written t now request t
  | created (r : Record) (hfree : t.find? r.id = none) :
    Written t now (.create r) (t.insert r.firstVersion)
  | updated (r stored : Record) (hstored : t.find? r.id = some stored)
    (hversion : stored.version = r.version) :
    Written t now (.update r) (t.replace r.nextVersion)
  | claimed (r : Record) (owner : String) (lease : Span) (hr : r ∈ t.rows)
    (havailable : r.isAvailable now = true) :
    Written t now (.claim r.source r.kind owner lease) (t.replace (r.claimed owner now lease))

/-- **What a request does to a table.** -/
theorem written_answer (t : Table) (now : Instant) (request : Request) :
    t.Written now request (t.answer now request).2 := by
  cases request with
  | prepare | get _ | byStatus _ _ _ _ | all _ _ => exact .none _
  | create r =>
    simp only [answer]
    split
    · exact .none _
    · exact .created r ‹_›
  | update r =>
    simp only [answer]
    split
    · split
      · exact .updated r _ ‹_› ‹_›
      · exact .none _
    · exact .none _
  | claim source kind owner lease =>
    simp only [answer]
    split
    · rename_i r rest hc
      have hmem : r ∈ candidates now (t.ofKind source kind) := hc ▸ List.mem_cons_self
      obtain ⟨hof, havailable⟩ := mem_candidates.mp hmem
      obtain ⟨hr, rfl, rfl⟩ := mem_ofKind.mp hof
      exact .claimed r owner lease hr havailable
    · exact .none _

theorem answer_create_of_some {t : Table} {r x : Record} (now : Instant)
    (h : t.find? r.id = some x) : t.answer now (.create r) = (.ok false, t) := by
  simp only [answer, h]

theorem answer_create_of_none {t : Table} {r : Record} (now : Instant) (h : t.find? r.id = none) :
    t.answer now (.create r) = (.ok true, t.insert r.firstVersion) := by
  simp only [answer, h]

/-- A successful update gives the next version of what it was asked for. -/
theorem eq_of_answer_update {t : Table} {r written : Record} {now : Instant}
    (h : (t.answer now (.update r)).1 = .ok written) : written = r.nextVersion := by
  simp only [answer] at h
  split at h
  · split at h
    · exact (Except.ok.inj h).symm
    · cases h
  · cases h

/-- A claim finds nothing, or assigns a stored record of its kind. -/
theorem answer_claim (t : Table) (now : Instant) (source kind owner : String) (lease : Span) :
    t.answer now (.claim source kind owner lease) = (.ok none, t) ∨
    ∃ x ∈ t.rows, x.source = source ∧ x.kind = kind ∧
      t.answer now (.claim source kind owner lease) =
        (.ok (some (x.claimed owner now lease)), t.replace (x.claimed owner now lease)) := by
  cases hc : candidates now (t.ofKind source kind) with
  | nil => exact .inl (by simp only [answer, hc])
  | cons x rest =>
    have hmem : x ∈ candidates now (t.ofKind source kind) := hc ▸ List.mem_cons_self
    obtain ⟨hx, hsource, hkind⟩ := mem_ofKind.mp (mem_candidates.mp hmem).1
    exact .inr ⟨x, hx, hsource, hkind, by simp only [answer, hc]⟩

/-- A successful claim gives a stored record of its kind, assigned. -/
theorem exists_of_answer_claim {t : Table} {r : Record} {now : Instant} {source kind owner : String}
    {lease : Span} (h : (t.answer now (.claim source kind owner lease)).1 = .ok (some r)) :
    ∃ x ∈ t.rows, x.source = source ∧ x.kind = kind ∧ r = x.claimed owner now lease := by
  rcases t.answer_claim now source kind owner lease with hnone | ⟨x, hx, hsource, hkind, hsome⟩
  · rw [hnone] at h
    cases h
  · rw [hsome] at h
    exact ⟨x, hx, hsource, hkind, (Option.some.inj (Except.ok.inj h)).symm⟩

/-! ## Records stay -/

/-- A record of an identity is stored. -/
def Has (t : Table) (id : RecordId) : Prop := (t.find? id).isSome

/-- Whatever is stored in one table is stored in the other, perhaps in another version. -/
def Within (t u : Table) : Prop := ∀ id, t.Has id → u.Has id

variable {t u v : Table} {r : Record} {id : RecordId}

theorem has_iff : t.Has id ↔ ∃ r, t.find? id = some r := Option.isSome_iff_exists

theorem has_of_find (h : t.find? id = some r) : t.Has id := has_iff.mpr ⟨r, h⟩

theorem within_refl (t : Table) : t.Within t := fun _ => id

theorem within_insert (h : t.find? r.id = none) : t.Within (t.insert r) := by
  intro id hid
  obtain ⟨s, hs⟩ := has_iff.mp hid
  exact has_of_find (find?_insert_of_stored h hs)

theorem within_replace (t : Table) (r : Record) : t.Within (t.replace r) := by
  intro id hid
  obtain ⟨s, hs⟩ := has_iff.mp hid
  rw [Has, find?_replace]
  split
  · rw [hs]
    rfl
  · exact hid

/-- **No request deletes a record.** -/
theorem within_answer (t : Table) (now : Instant) (request : Request) :
    t.Within (t.answer now request).2 := by
  have h := t.written_answer now request
  generalize (t.answer now request).2 = u at h ⊢
  cases h with
  | none => exact within_refl t
  | created r hfree => exact within_insert hfree
  | updated r stored => exact within_replace t _
  | claimed r owner lease => exact within_replace t _

/-- There is a record once one has been created, or was to be. -/
theorem has_of_create (t : Table) (now : Instant) (r : Record) :
    (t.answer now (.create r)).2.Has r.id := by
  simp only [answer]
  split
  · exact has_of_find ‹_›
  · have hfree : t.find? r.firstVersion.id = none := ‹_›
    have hnew := find?_insert hfree r.id
    exact has_of_find (hnew.trans (if_pos rfl))

end Table

end LeasedWork
