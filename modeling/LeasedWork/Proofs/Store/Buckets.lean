import LeasedWork.Proofs.Store.Tables
import LeasedWork.Store.Bucket

/-! # What a bucket holds

A bucket is what it finds under each path, as long as its objects have distinct paths; every
request leaves them distinct (`Bucket.distinct_answer`).  A write puts one object under its path,
with the tag of the next write (`Bucket.find?_put`).
-/
namespace LeasedWork.Bucket

/-- No two objects have one path. -/
def Distinct (b : Bucket) : Prop := (b.objects.map StoredObject.path).Nodup

theorem distinct_empty : empty.Distinct := List.nodup_nil

theorem find?_some {b : Bucket} {path : ObjectPath} {o : StoredObject}
    (h : b.find? path = some o) : o ∈ b.objects ∧ o.path = path := findKey_some h

theorem find?_iff {b : Bucket} (hd : b.Distinct) {path : ObjectPath} {o : StoredObject} :
    b.find? path = some o ↔ o ∈ b.objects ∧ o.path = path := findKey_iff hd

/-! ## Writes -/

theorem find?_put (b : Bucket) (path : ObjectPath) (text : String) (p : ObjectPath) :
    (b.put path text).find? p = if p = path then some ⟨path, text, b.nextTag⟩ else b.find? p := by
  have hkept : (b.objects.filter fun o => o.path ≠ path).find? (fun o => o.path == p) =
      if p = path then none else b.objects.find? fun o => o.path == p := by
    rw [List.find?_filter]
    by_cases hp : p = path
    · rw [if_pos hp]
      refine List.find?_eq_none.mpr fun o _ h => ?_
      obtain ⟨hne, heq⟩ := of_decide_eq_true h
      exact of_decide_eq_true hne ((eq_of_beq heq).trans hp)
    · rw [if_neg hp]
      congr 1
      funext o
      by_cases ho : o.path = p
      · simp [ho, hp]
      · simp [beq_false_of_ne ho]
  rw [find?, put, List.find?_append, hkept]
  by_cases hp : p = path
  · simp [hp]
  · have hne : (path == p) = false := beq_eq_false_iff_ne.mpr fun h => hp h.symm
    simp [hp, hne, find?]

theorem distinct_put {b : Bucket} (hd : b.Distinct) (path : ObjectPath) (text : String) :
    (b.put path text).Distinct := by
  unfold Distinct put
  rw [List.map_append, List.nodup_append]
  refine ⟨hd.sublist (List.filter_sublist.map _), by simp, ?_⟩
  rintro p hp _ hq rfl
  obtain ⟨o, ho, rfl⟩ := List.mem_map.mp hp
  have hne : o.path ≠ path := of_decide_eq_true (List.mem_filter.mp ho).2
  exact hne (List.mem_singleton.mp hq)

/-! ## Answers -/

section Answers

variable {b : Bucket} {path : ObjectPath} {text : String} {tag : Nat} {o : StoredObject}

theorem answer_get_of_some (h : b.find? path = some o) : b.answer (.get path) = (.ok o, b) := by
  simp only [answer, h]

theorem answer_get_of_none (h : b.find? path = none) :
    b.answer (.get path) = (.error .notFound, b) := by
  simp only [answer, h]

theorem answer_create_of_some (h : b.find? path = some o) :
    b.answer (.create path text) = (.error .alreadyExists, b) := by
  simp only [answer, h]

theorem answer_create_of_none (h : b.find? path = none) :
    b.answer (.create path text) = (.ok (), b.put path text) := by
  simp only [answer, h]

theorem answer_replace_of_tag (h : b.find? path = some o) (htag : o.tag = tag) :
    b.answer (.replace path tag text) = (.ok (), b.put path text) := by
  simp only [answer, h, htag, if_true]

theorem answer_replace_of_ne (h : ∀ o, b.find? path = some o → o.tag ≠ tag) :
    b.answer (.replace path tag text) = (.error .precondition, b) := by
  cases hfind : b.find? path with
  | none => simp only [answer, hfind]
  | some o => simp only [answer, hfind, h o hfind, if_false]

end Answers

/-- **No request leaves two objects under one path.** -/
theorem distinct_answer {b : Bucket} (hd : b.Distinct) (request : BucketRequest) :
    (b.answer request).2.Distinct := by
  cases request with
  | list _ => exact hd
  | get path =>
    simp only [answer]
    split
    · exact hd
    · exact hd
  | create path text =>
    simp only [answer]
    split
    · exact hd
    · exact distinct_put hd _ _
  | replace path tag text =>
    simp only [answer]
    split
    · split
      · exact distinct_put hd _ _
      · exact hd
    · exact hd

/-! ## Listings -/

/-- The paths that a listing shows. -/
def listing (b : Bucket) (above : ObjectPath) : List ObjectPath :=
  (b.sorted.map (·.path)).filter above.isAbove

theorem mem_listing {b : Bucket} {above path : ObjectPath} :
    path ∈ b.listing above ↔ (b.find? path).isSome ∧ above.isAbove path = true := by
  have hsome : (b.find? path).isSome ↔ ∃ o ∈ b.objects, o.path = path := by
    simp [find?]
  simp [listing, sorted, List.mem_mergeSort, hsome]

theorem nodup_listing {b : Bucket} (hd : b.Distinct) (above : ObjectPath) :
    (b.listing above).Nodup := by
  have hperm : (b.sorted.map (·.path)).Perm (b.objects.map (·.path)) :=
    (List.mergeSort_perm _ _).map _
  exact (hperm.nodup_iff.mpr hd).filter _

end LeasedWork.Bucket
