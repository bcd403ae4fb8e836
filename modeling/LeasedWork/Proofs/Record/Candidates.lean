import LeasedWork.Record.Lease

/-! # The order of claims and of lists

A list of records is shown by age and key, and the available ones are claimed by urgency, age and
key.  Both orders are total, and two records are equal in them only if their keys are.  So among
records of distinct keys the order of claims does not depend on the order in which the records
were found (`candidates_eq_of_perm`): it is this that lets different stores agree on the next
record of a claim.
-/
namespace LeasedWork

protected theorem Instant.lt_trans {a b c : Instant} (h : a < b) (h' : b < c) : a < c := by
  rw [Instant.lt_def] at *; omega

protected theorem Instant.le_of_lt {a b : Instant} (h : a < b) : a ≤ b := by
  rw [Instant.lt_def] at h; rw [Instant.le_def]; omega

protected theorem Instant.lt_irrefl (a : Instant) : ¬ a < a := by
  rw [Instant.lt_def]; omega

protected theorem Instant.lt_or_eq_or_lt (a b : Instant) : a < b ∨ a = b ∨ b < a := by
  by_cases h : a ≤ b
  · by_cases h' : b ≤ a
    · exact .inr (.inl (Instant.le_antisymm h h'))
    · exact .inl (Instant.not_le.mp h')
  · exact .inr (.inr (Instant.not_le.mp h))

namespace Record

theorem isOlder_iff {a b : Record} : isOlder a b = true ↔
    a.createdAt < b.createdAt ∨ a.createdAt = b.createdAt ∧ a.key ≤ b.key := by
  simp only [isOlder, Bool.or_eq_true, Bool.and_eq_true, beq_iff_eq, decide_eq_true_eq,
    Bool.not_eq_true', decide_eq_false_iff_not, String.not_lt]

theorem isOlder_trans (a b c : Record) (h : isOlder a b = true) (h' : isOlder b c = true) :
    isOlder a c = true := by
  rw [isOlder_iff] at *
  rcases h with h | ⟨h, hk⟩ <;> rcases h' with h' | ⟨h', hk'⟩
  · exact .inl (Instant.lt_trans h h')
  · exact .inl (h' ▸ h)
  · exact .inl (h ▸ h')
  · exact .inr ⟨h.trans h', String.le_trans hk hk'⟩

theorem isOlder_total (a b : Record) : (isOlder a b || isOlder b a) = true := by
  rw [Bool.or_eq_true, isOlder_iff, isOlder_iff]
  rcases Instant.lt_or_eq_or_lt a.createdAt b.createdAt with h | h | h
  · exact .inl (.inl h)
  · rcases String.le_total a.key b.key with hk | hk
    · exact .inl (.inr ⟨h, hk⟩)
    · exact .inr (.inr ⟨h.symm, hk⟩)
  · exact .inr (.inl h)

theorem key_eq_of_isOlder {a b : Record} (h : isOlder a b = true) (h' : isOlder b a = true) :
    a.key = b.key := by
  rw [isOlder_iff] at *
  rcases h with h | ⟨h, hk⟩ <;> rcases h' with h' | ⟨h', hk'⟩
  · exact absurd (Instant.lt_trans h h') (Instant.lt_irrefl _)
  · exact absurd (h' ▸ h) (Instant.lt_irrefl _)
  · exact absurd (h ▸ h') (Instant.lt_irrefl _)
  · exact String.le_antisymm hk hk'

theorem createdAt_le_of_isOlder {a b : Record} (h : isOlder a b = true) :
    a.createdAt ≤ b.createdAt := by
  rcases isOlder_iff.mp h with h | ⟨h, -⟩
  · exact Instant.le_of_lt h
  · exact h ▸ Instant.le_refl _

/-- A sorted list holds the same records, older ones first. -/
theorem pairwise_sorted (rs : List Record) :
    (sorted rs).Pairwise fun a b => a.createdAt ≤ b.createdAt := by
  have hsorted : (sorted rs).Pairwise fun a b => isOlder a b = true :=
    List.pairwise_mergeSort isOlder_trans isOlder_total rs
  exact hsorted.imp createdAt_le_of_isOlder

theorem sorted_perm (rs : List Record) : (sorted rs).Perm rs := List.mergeSort_perm _ _

end Record

namespace Availability

variable {a b : Availability × Record}

theorem rank_injective {x y : Availability} (h : x.rank = y.rank) : x = y := by
  cases x <;> cases y <;> first | rfl | cases h

theorem precedes_iff : precedes a b = true ↔
    a.1.rank < b.1.rank ∨ a.1.rank = b.1.rank ∧ Record.isOlder a.2 b.2 = true := by
  simp only [precedes, Bool.or_eq_true, Bool.and_eq_true, beq_iff_eq, decide_eq_true_eq]

theorem precedes_trans (a b c : Availability × Record) (h : precedes a b = true)
    (h' : precedes b c = true) : precedes a c = true := by
  rw [precedes_iff] at *
  rcases h with h | ⟨h, ho⟩ <;> rcases h' with h' | ⟨h', ho'⟩
  · exact .inl (Nat.lt_trans h h')
  · exact .inl (h' ▸ h)
  · exact .inl (h ▸ h')
  · exact .inr ⟨h.trans h', Record.isOlder_trans _ _ _ ho ho'⟩

theorem precedes_total (a b : Availability × Record) :
    (precedes a b || precedes b a) = true := by
  rw [Bool.or_eq_true, precedes_iff, precedes_iff]
  rcases Nat.lt_trichotomy a.1.rank b.1.rank with h | h | h
  · exact .inl (.inl h)
  · rcases Bool.or_eq_true _ _ ▸ Record.isOlder_total a.2 b.2 with ho | ho
    · exact .inl (.inr ⟨h, ho⟩)
    · exact .inr (.inr ⟨h.symm, ho⟩)
  · exact .inr (.inl h)

theorem key_eq_of_precedes (h : precedes a b = true) (h' : precedes b a = true) :
    a.1 = b.1 ∧ a.2.key = b.2.key := by
  rw [precedes_iff] at *
  have hrank : a.1.rank = b.1.rank := by omega
  exact ⟨rank_injective hrank, Record.key_eq_of_isOlder (h.resolve_left (by omega)).2
    (h'.resolve_left (by omega)).2⟩

end Availability

namespace Record

/-- A leased record whose deadline has passed, or that has none. -/
def Expired (now : Instant) (r : Record) : Prop :=
  r.status = some .assigned ∧ ∀ deadline, r.leaseExpiry = some deadline → deadline ≤ now

/-- A closed record whose time to open again has come, or that has none. -/
def Reopened (now : Instant) (r : Record) : Prop :=
  r.status = some .closed ∧ ∀ time, r.reopenAt = some time → time ≤ now

/-- Whether a record may be claimed, told from its status and its times. -/
def Claimable (now : Instant) (r : Record) : Prop :=
  r.Expired now ∨ r.status = some .unassigned ∨ r.Reopened now

theorem hasPassed_iff {now : Instant} {time : Option Instant} :
    hasPassed now time = true ↔ ∀ t, time = some t → t ≤ now := by
  cases time with
  | none => simp [hasPassed]
  | some t => simp [hasPassed, Instant.hasElapsed]

variable {now : Instant} {r : Record}

/-- **The three reasons for a claim**, each told from the status and the times of the record. -/
theorem availability_iff : (r.availability now = some .expired ↔ r.Expired now) ∧
    (r.availability now = some .unassigned ↔ r.status = some .unassigned) ∧
    (r.availability now = some .reopened ↔ r.Reopened now) := by
  unfold Expired Reopened
  rw [← hasPassed_iff, ← hasPassed_iff, availability]
  rcases r.status with _ | _ | _ | _ | _ <;> simp

theorem isAvailable_iff : r.isAvailable now = true ↔ r.Claimable now := by
  obtain ⟨hexpired, hunassigned, hreopened⟩ := @availability_iff now r
  rw [Claimable, ← hexpired, ← hunassigned, ← hreopened, isAvailable]
  rcases r.availability now with _ | _ | _ | _ <;> simp

end Record

/-- The available records of a list with the reasons why they may be claimed. -/
def offers (now : Instant) (rs : List Record) : List (Availability × Record) :=
  rs.filterMap fun r => (r.availability now).map fun a => (a, r)

theorem mem_offers {now : Instant} {rs : List Record} {x : Availability × Record} :
    x ∈ offers now rs ↔ x.2 ∈ rs ∧ x.2.availability now = some x.1 := by
  simp only [offers, List.mem_filterMap, Option.map_eq_some_iff]
  constructor
  · rintro ⟨r, hr, a, ha, rfl⟩
    exact ⟨hr, ha⟩
  · rintro ⟨hr, ha⟩
    exact ⟨x.2, hr, x.1, ha, rfl⟩

/-- The candidates for a claim are the available records of the list. -/
theorem mem_candidates {now : Instant} {rs : List Record} {r : Record} :
    r ∈ candidates now rs ↔ r ∈ rs ∧ r.isAvailable now = true := by
  have hmem : r ∈ candidates now rs ↔ ∃ a, (a, r) ∈ offers now rs := by
    simp [candidates, offers, List.mem_mergeSort]
  rw [hmem, Record.isAvailable, Option.isSome_iff_exists]
  simp only [mem_offers, exists_and_left]

/-- **The order of claims depends on the records alone**, not on the order in which they were
found, as long as no two of them share a key. -/
theorem candidates_eq_of_perm {now : Instant} {rs rs' : List Record} (h : rs.Perm rs')
    (hkeys : ∀ a ∈ rs, ∀ b ∈ rs, a.key = b.key → a = b) :
    candidates now rs = candidates now rs' := by
  have hsorted : ∀ xs : List (Availability × Record),
      (xs.mergeSort Availability.precedes).Pairwise fun a b => Availability.precedes a b = true :=
    List.pairwise_mergeSort Availability.precedes_trans Availability.precedes_total
  have hperm : (offers now rs).Perm (offers now rs') := h.filterMap _
  refine congrArg (List.map Prod.snd) (List.Perm.eq_of_pairwise ?_ (hsorted _) (hsorted _) ?_)
  · intro a b ha hb hab hba
    have ha' := (mem_offers.mp (List.mem_mergeSort.mp ha)).1
    have hb' := (mem_offers.mp (List.mem_mergeSort.mp hb)).1
    obtain ⟨hreason, hkey⟩ := Availability.key_eq_of_precedes hab hba
    exact Prod.ext hreason (hkeys _ ha' _ (h.mem_iff.mpr hb') hkey)
  · exact (List.mergeSort_perm _ _).trans (hperm.trans (List.mergeSort_perm _ _).symm)

end LeasedWork
