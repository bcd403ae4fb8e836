import LeasedWork.Store.Bucket
import LeasedWork.Store.FileTree

/-!
# Directories of objects

A directory keeps each text in a file whose place is the path without its empty segments, so that
paths which differ in these share a file. A text is written under a longer name beside its place
before it gets its own. A place whose whole path is too long cannot be looked at, whatever there is
on the way. Whether a file has changed cannot be told, so that nothing is replaced on condition.
-/

namespace LeasedWork

namespace Directory

/-- Where the file of a path is. -/
def place (p : ObjectPath) : List String := p.segments.filter (· ≠ "")

/-- The path of the folder that places are below. Only its length counts. -/
def home : String := "/tmp/.tmp000000"

/-- Whether the whole path of a place is too long to be looked up. -/
def isTooFar (place : List String) : Bool :=
  FileTree.pathLimit < (String.intercalate "/" (home :: place)).utf8ByteSize

/-- What is put after a file's name while its text is written. -/
def stagingMark : String := "#1"

/-- The place where a text is written first. -/
def staged (place : List String) : List String :=
  place.dropLast ++ [place.getLast?.getD "" ++ stagingMark]

/-- Makes the folders that the place of a new file lies in. -/
def ready (place : List String) (t : FileTree) : Except FileFault Unit × FileTree :=
  match t.find [] place.dropLast with
  | .ok (.folder _ _) => (.ok (), t)
  | .ok (.file _) => (.error .notFolder, t)
  | .error .missing => t.ensureFolders [] place.dropLast
  | .error fault => (.error fault, t)

/-- Writes a new file. -/
def create (place : List String) (text : String) (t : FileTree) :
    Except BucketFault Unit × FileTree :=
  if isTooFar (staged place) then (.error .generic, t)
  else
    match ready place t with
    | (.error _, t) => (.error .generic, t)
    | (.ok _, t) =>
      if (staged place).any FileTree.isTooLong then (.error .generic, t)
      else if (t.at? place).isSome then (.error .alreadyExists, t)
      else (.ok (), t.add place (.file text))

/-- What stands at a place. -/
def look (place : List String) (t : FileTree) : Except FileFault FileTree :=
  if isTooFar place then .error .nameTooLong else t.find [] place

/-- The paths of the files below a place, in their order as texts. -/
def below (place : List String) (t : FileTree) : List ObjectPath :=
  let paths := t.files.map fun p => ObjectPath.mk (place ++ p)
  paths.mergeSort fun p q => !(q.text < p.text)

/-- The answer to a request, and the files after it. -/
def answer (request : BucketRequest) (t : FileTree) : request.Answer × FileTree :=
  match request with
  | .list above =>
    match look (place above) t with
    | .ok (.file _) | .error .missing => (.ok [], t)
    | .ok found => (.ok (below (place above) found), t)
    | .error _ => (.error .generic, t)
  | .get path =>
    match look (place path) t with
    | .ok (.file text) => (.ok ⟨path, text, 0⟩, t)
    | .ok (.folder _ _) | .error .missing => (.error .notFound, t)
    | .error _ => (.error .generic, t)
  | .create path text => create (place path) text t
  | .replace _ _ _ => (.error .notImplemented, t)

end Directory

end LeasedWork
