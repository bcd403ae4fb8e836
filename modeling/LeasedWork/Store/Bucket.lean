import LeasedWork.Failure
import LeasedWork.Program.Basic
import LeasedWork.Store.ObjectPath

/-!
# Buckets of objects

A bucket keeps texts under paths. Every write gives an object a tag that no object had before, and
a conditional write succeeds only where there is no object, or only where the object still has a
given tag.
-/

namespace LeasedWork

/-- A request to a bucket. -/
inductive BucketRequest
  /-- The paths below a path, in their order as texts. -/
  | list (above : ObjectPath)
  | get (path : ObjectPath)
  /-- Writes where there is no object. -/
  | create (path : ObjectPath) (text : String)
  /-- Writes where the object has the given tag. -/
  | replace (path : ObjectPath) (tag : Nat) (text : String)
  deriving Repr

/-- An object of a bucket. -/
structure StoredObject where
  path : ObjectPath
  text : String
  tag : Nat
  deriving DecidableEq, Repr

namespace BucketRequest

@[reducible] def Reply : BucketRequest → Type
  | .list _ => List ObjectPath
  | .get _ => StoredObject
  | .create _ _ => Unit
  | .replace _ _ _ => Unit

abbrev Answer (r : BucketRequest) : Type := Except BucketFault r.Reply

end BucketRequest

/-- Objects of distinct paths, and the tag of the next write. -/
structure Bucket where
  objects : List StoredObject
  nextTag : Nat
  deriving Repr

namespace Bucket

def empty : Bucket := ⟨[], 0⟩

def find? (b : Bucket) (path : ObjectPath) : Option StoredObject :=
  b.objects.find? fun o => o.path == path

/-- Writes an object whatever there was before. -/
def put (path : ObjectPath) (text : String) (b : Bucket) : Bucket :=
  { b with objects := b.objects.filter (fun o => o.path ≠ path) ++ [⟨path, text, b.nextTag⟩]
           nextTag := b.nextTag + 1 }

def delete (path : ObjectPath) (b : Bucket) : Bucket :=
  { b with objects := b.objects.filter fun o => o.path ≠ path }

/-- The objects in the order of their paths as texts. -/
def sorted (b : Bucket) : List StoredObject :=
  b.objects.mergeSort fun x y => !(y.path.text < x.path.text)

/-- The answer to a request, and the bucket after it. -/
def answer (request : BucketRequest) (b : Bucket) : request.Answer × Bucket :=
  match request with
  | .list above => (.ok ((b.sorted.map (·.path)).filter above.isAbove), b)
  | .get path =>
    match b.find? path with
    | some o => (.ok o, b)
    | none => (.error .notFound, b)
  | .create path text =>
    match b.find? path with
    | some _ => (.error .alreadyExists, b)
    | none => (.ok (), b.put path text)
  | .replace path tag text =>
    match b.find? path with
    | some o => if o.tag = tag then (.ok (), b.put path text) else (.error .precondition, b)
    | none => (.error .precondition, b)

end Bucket

end LeasedWork
