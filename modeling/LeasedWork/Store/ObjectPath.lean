import LeasedWork.Record.Basic
import LeasedWork.Text.Percent

/-!
# Object paths

A path names an object of a bucket by its segments. Those of a record's path are percent-encoded:
its root, its source, its kind and its key. The empty text adds no segment to the empty path, and
everywhere else an empty one.
-/

namespace LeasedWork

/-- The name of an object. -/
structure ObjectPath where
  segments : List String
  deriving DecidableEq, Repr

namespace ObjectPath

def root : ObjectPath := ⟨[]⟩

/-- The path of a text in which slashes separate segments; empty segments do not count. -/
def ofText (s : String) : ObjectPath :=
  ⟨((s.splitOn "/").filter (· ≠ "")).map Percent.encode⟩

/-- A text without one slash at its start, and then without one at its end. -/
def withoutOuterSlashes (cs : List Char) : List Char :=
  let cs := if cs.head? = some '/' then cs.tail else cs
  if cs.getLast? = some '/' then cs.dropLast else cs

/-- Whether a segment can stand in a path as it is. -/
def isPlain (segment : String) : Bool :=
  segment ≠ "" && segment ≠ "." && segment ≠ ".."
    && segment.toList.all fun c => 32 ≤ c.toNat && c.toNat ≠ 127

/-- The path whose segments are written as they are, if all of them can be. One slash may stand
before the first segment and one after the last. -/
def parse? (s : String) : Option ObjectPath :=
  if s = "" ∨ s = "/" then some root
  else
    let segments := (String.ofList (withoutOuterSlashes s.toList)).splitOn "/"
    if segments.all isPlain then some ⟨segments⟩ else none

/-- The path one segment below. -/
def child (p : ObjectPath) (name : String) : ObjectPath :=
  if p.segments = [] ∧ name = "" then p else ⟨p.segments ++ [Percent.encode name]⟩

/-- The path in one piece, with slashes between its segments. -/
def text (p : ObjectPath) : String := String.intercalate "/" p.segments

/-- Whether the second path lies below the first one by at least one whole segment. -/
def isAbove (p q : ObjectPath) : Bool :=
  p.segments.isPrefixOf q.segments && p.segments.length < q.segments.length

/-- The last segment of a path, which the root does not have. -/
def lastSegment? (p : ObjectPath) : Option String := p.segments.getLast?

/-- Where the records of a source and kind are kept below a root. -/
def ofKind (root : ObjectPath) (source kind : String) : ObjectPath :=
  (root.child source).child kind

/-- Where a record is kept below a root. -/
def ofRecord (root : ObjectPath) (id : RecordId) : ObjectPath :=
  (ofKind root id.source id.kind).child (id.key ++ ".json")

end ObjectPath

end LeasedWork
