/-!
# File trees

A tree of folders and files. A place lists the names that lead to it from the root folder. `walk`
goes along names from a folder and finds the first thing that is wrong from the left: something is
missing, a file stands where a folder should, or a name is too long. A folder is made with all
those above it that are missing; what was made stays when a later step fails.
-/

namespace LeasedWork

/-- A file, or a folder with what is in it by name. -/
inductive FileTree
  | file (text : String)
  /-- A folder may be one in which nothing can be made and names have no limit. -/
  | folder (isOpen : Bool) (children : List (String × FileTree))

/-- Why nothing is found or made at a place. -/
inductive FileFault
  | missing
  | alreadyThere
  | notFolder
  | nameTooLong
  deriving DecidableEq, Repr

namespace FileFault

/-- The fault in the words of the operating system. -/
def message : FileFault → String
  | .missing => "No such file or directory (os error 2)"
  | .alreadyThere => "File exists (os error 17)"
  | .notFolder => "Not a directory (os error 20)"
  | .nameTooLong => "File name too long (os error 36)"

end FileFault

namespace FileTree

def emptyFolder : FileTree := .folder true []

/-- The greatest number of bytes in a path that is looked up as a whole. -/
def pathLimit : Nat := 4095

/-- The greatest number of bytes in a name. -/
def nameLimit : Nat := 255

def isTooLong (name : String) : Bool := nameLimit < name.utf8ByteSize

def child? (name : String) : FileTree → Option FileTree
  | .file _ => none
  | .folder _ children => children.lookup name

/-- What stands at a place. -/
def at? (t : FileTree) : List String → Option FileTree
  | [] => some t
  | name :: rest => (t.child? name).bind fun c => c.at? rest

/-- Puts something at a place where nothing is, in a folder that is there. -/
def add : FileTree → List String → FileTree → FileTree
  | t, [], _ => t
  | .file text, _ :: _, _ => .file text
  | .folder isOpen children, [name], new => .folder isOpen (children ++ [(name, new)])
  | .folder isOpen children, name :: rest, new =>
    .folder isOpen (children.map fun c => if c.1 = name then (c.1, c.2.add rest new) else c)

mutual

/-- The places of all files, from the tree's own place on. -/
def files : FileTree → List (List String)
  | .file _ => [[]]
  | .folder _ children => filesIn children

/-- The places of all files in the given entries of a folder. -/
def filesIn : List (String × FileTree) → List (List String)
  | [] => []
  | (name, t) :: rest => (files t).map (name :: ·) ++ filesIn rest

end

/-! ## Finding -/

/-- The place that names lead to from a place. Nothing need stand at the last of them. -/
def walk (t : FileTree) (place : List String) : List String → Except FileFault (List String)
  | [] => .ok place
  | name :: rest =>
    match t.at? place with
    | none => .error .missing
    | some (.file _) => .error .notFolder
    | some (.folder isOpen _) =>
      if name = "." then walk t place rest
      else if name = ".." then walk t place.dropLast rest
      else if isOpen && isTooLong name then .error .nameTooLong
      else walk t (place ++ [name]) rest

/-- What stands where names lead to. -/
def find (t : FileTree) (start names : List String) : Except FileFault FileTree := do
  match t.at? (← t.walk start names) with
  | some found => .ok found
  | none => .error .missing

/-! ## Making folders -/

/-- Makes a folder in one that is there. -/
def makeFolder (t : FileTree) (start names : List String) : Except FileFault FileTree := do
  let parent ← t.walk start names.dropLast
  match t.at? parent with
  | none => .error .missing
  | some (.file _) => .error .notFolder
  | some (.folder isOpen children) =>
    let name := names.getLast?.getD "."
    if name = "." ∨ name = ".." then .error .alreadyThere
    else if isOpen && isTooLong name then .error .nameTooLong
    else if (children.lookup name).isSome then .error .alreadyThere
    else if isOpen then .ok (t.add (parent ++ [name]) emptyFolder)
    else .error .missing

/-- Makes a folder unless it is there. -/
def ensureFolder (t : FileTree) (start names : List String) : Except FileFault FileTree :=
  match t.makeFolder start names with
  | .error .alreadyThere =>
    match t.find start names with
    | .ok (.folder _ _) => .ok t
    | _ => .error .alreadyThere
  | result => result

/-- Goes along names from the place of a folder and makes the folders that are missing. -/
def makeAlong (place : List String) : List String → FileTree → Except FileFault Unit × FileTree
  | [], t => (.ok (), t)
  | name :: rest, t =>
    if name = ".." then makeAlong place.dropLast rest t
    else
      match t.ensureFolder place [name] with
      | .ok t => makeAlong (place ++ [name]) rest t
      | .error fault => (.error fault, t)

/-- Makes a folder and those above it, unless they are there. A name of one dot adds no folder. -/
def ensureFolders (start names : List String) (t : FileTree) : Except FileFault Unit × FileTree :=
  match t.ensureFolder start names with
  | .ok t => (.ok (), t)
  | .error .missing =>
    match makeAlong start (names.filter (· ≠ ".")).dropLast t with
    | (.error fault, t) => (.error fault, t)
    | (.ok _, t) =>
      match t.ensureFolder start names with
      | .ok t => (.ok (), t)
      | .error fault => (.error fault, t)
  | .error fault => (.error fault, t)

end FileTree

end LeasedWork
