import LeasedWork.Failure
import LeasedWork.Store.FileTree

/-!
# The data folder

A directory of records is made where it is missing, in a system of which only what every system has
is known: its topmost folders, and the devices, which are files. Paths that do not start at the root
folder start at a working folder. The root folder is there however its path is written.
-/

namespace LeasedWork

namespace DataFolder

/-- Folders that every system has. -/
def folders : List (List String) :=
  [["bin"], ["boot"], ["dev"], ["etc"], ["home"], ["lib"], ["mnt"], ["opt"], ["root"], ["run"],
   ["sbin"], ["srv"], ["tmp"], ["usr"], ["var"], ["dev", "pts"], ["dev", "shm"], ["usr", "bin"],
   ["usr", "lib"], ["usr", "local"], ["usr", "share"], ["var", "lib"], ["var", "log"],
   ["var", "tmp"]]

/-- Files that every system has. -/
def files : List (List String) :=
  [["bin", "sh"], ["dev", "console"], ["dev", "full"], ["dev", "null"], ["dev", "ptmx"],
   ["dev", "random"], ["dev", "stderr"], ["dev", "stdin"], ["dev", "stdout"], ["dev", "tty"],
   ["dev", "urandom"], ["dev", "zero"], ["etc", "group"], ["etc", "hostname"], ["etc", "hosts"],
   ["etc", "passwd"], ["proc", "version"]]

/-- Folders that the system keeps for itself: nothing can be made in them. -/
def closedFolders : List (List String) := [["proc"], ["proc", "self"], ["dev", "fd"]]

/-- Where paths start that do not start at the root folder. -/
def workingFolder : List String := ["srv", "node"]

/-- The system before anything was made. -/
def system : FileTree :=
  let t := (folders ++ [workingFolder]).foldl (fun t p => t.add p .emptyFolder) .emptyFolder
  let t := closedFolders.foldl (fun t p => t.add p (.folder false [])) t
  files.foldl (fun t p => t.add p (.file "")) t

/-- The names in a path. -/
def namesIn (path : String) : List String := (path.splitOn "/").filter (· ≠ "")

/-- Whether a path names nothing but the root folder. -/
def isRoot (path : String) : Bool := path.startsWith "/" && (namesIn path).all (· = ".")

/-- Makes the folder of a path in words, unless it is there. -/
def make (path : String) : Except String Unit :=
  if isRoot path then .ok ()
  else if path.toList.contains '\x00' then .error "file name contained an unexpected NUL byte"
  else if FileTree.pathLimit < path.utf8ByteSize then .error FileFault.nameTooLong.message
  else
    let start := if path.startsWith "/" then [] else workingFolder
    (system.ensureFolders start (namesIn path)).1.mapError FileFault.message

/-- Opens the folder of a path, which has to have a name. -/
def openAt (path : String) : Except Failure Unit :=
  match make path with
  | .error reason => .error (.settings ("Failed to create data directory: " ++ reason))
  | .ok _ => if path = "" then .error (.bucket .generic) else .ok ()

end DataFolder

end LeasedWork
