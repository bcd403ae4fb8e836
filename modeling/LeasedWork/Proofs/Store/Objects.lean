import LeasedWork.Proofs.Store.Buckets
import LeasedWork.Store.Objects

/-! # Requests to a store of objects, one at a time

When nothing else happens to the bucket while a request is answered, the program of the request
can be run in one go (`Bucket.handler`).  Then a record is read as it stands
(`ObjectStore.run_readAt`), a listing gives all records of a source and kind
(`ObjectStore.run_readAll`), and a replacement with a tag that has just been read succeeds
(`ObjectStore.run_replaceIfUnchanged`).  All of this is for buckets in which every object holds a
record, as those written by the store do.
-/
namespace LeasedWork

namespace Bucket

/-- A bucket that nobody else uses, at a time. -/
def handler (now : Instant) : Handler objectInterface Bucket where
  answer
    | .bucket request, b => b.answer request
    | .now, b => (now, b)

/-- Every object holds a record. -/
def Readable (b : Bucket) : Prop := ∀ o ∈ b.objects, ∃ r, Record.parse? o.text = some r

/-- The record at a path. -/
def versioned? (b : Bucket) (path : ObjectPath) : Option ObjectStore.Versioned :=
  (b.find? path).bind fun o => (Record.parse? o.text).map fun r => ⟨r, o.tag⟩

end Bucket

namespace ObjectStore

variable {α : Type} {now : Instant} {b : Bucket}

theorem run_ask (request : BucketRequest) (f : request.Answer → Job α) (b : Bucket) :
    Program.run (Bucket.handler now) (do let a ← ask request; f a : Job α).run b =
      Program.run (Bucket.handler now) (f (b.answer request).1).run (b.answer request).2 := rfl

theorem run_now (f : Instant → Job α) (b : Bucket) :
    Program.run (Bucket.handler now) (do let time ← ObjectStore.now; f time : Job α).run b =
      Program.run (Bucket.handler now) (f now).run b := rfl

/-- A record is read as it stands. -/
theorem run_readAt (hb : b.Readable) (path : ObjectPath) :
    Program.run (Bucket.handler now) (readAt path).run b = (.ok (b.versioned? path), b) := by
  rw [readAt, run_ask]
  simp only [Bucket.answer, Bucket.versioned?]
  cases h : b.find? path with
  | none => rfl
  | some o =>
    obtain ⟨r, hr⟩ := hb o (Bucket.find?_some h).1
    simp only [Option.bind_some, hr, Option.map_some]
    rfl

/-- The records at some paths that are of a source and kind. -/
def found (b : Bucket) (source kind : String) (paths : List ObjectPath) : List Versioned :=
  (paths.filterMap b.versioned?).filter fun v =>
    decide (v.record.source = source ∧ v.record.kind = kind)

theorem run_readEach (hb : b.Readable) (source kind : String) (paths : List ObjectPath) :
    Program.run (Bucket.handler now) (readEach source kind paths).run b =
      (.ok (found b source kind paths), b) := by
  induction paths with
  | nil => rfl
  | cons path rest ih =>
    rw [readEach, Program.run_exceptT_bind, run_readAt hb]
    dsimp only
    rw [Program.run_exceptT_bind, ih]
    cases h : b.versioned? path with
    | none => simp only [found, List.filterMap_cons, h]; rfl
    | some v =>
      simp only [found, List.filterMap_cons, h]
      by_cases hv : v.record.source = source ∧ v.record.kind = kind
      · rw [if_pos hv, List.filter_cons, if_pos (decide_eq_true hv)]
        rfl
      · rw [if_neg hv, List.filter_cons, if_neg (by simpa using hv)]
        rfl

/-- What a full read of a source and kind gives. -/
def allOf (root : ObjectPath) (b : Bucket) (source kind : String) : List Versioned :=
  (found b source kind (b.listing (ObjectPath.ofKind root source kind))).mergeSort
    fun x y => decide (x.record.createdAt ≤ y.record.createdAt)

theorem run_readAll (hb : b.Readable) (root : ObjectPath) (source kind : String) :
    Program.run (Bucket.handler now) (readAll root source kind).run b =
      (.ok (allOf root b source kind), b) := by
  rw [readAll, run_ask]
  simp only [Bucket.answer]
  rw [Program.run_exceptT_bind, ← Bucket.listing, run_readEach hb]
  rfl

/-- A replacement succeeds with the tag that the object has. -/
theorem run_replaceIfUnchanged {root : ObjectPath} {r : Record} {o : StoredObject} {tag : Nat}
    (h : b.find? (ObjectPath.ofRecord root r.id) = some o) (htag : o.tag = tag) :
    Program.run (Bucket.handler now) (replaceIfUnchanged root r tag).run b =
      (.ok true, b.put (ObjectPath.ofRecord root r.id) r.print) := by
  rw [replaceIfUnchanged, run_ask]
  simp only [Bucket.answer, h, htag, if_true]
  rfl

end ObjectStore

end LeasedWork
