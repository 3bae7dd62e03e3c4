import IngestionQueue.Bytes.Utf8
import IngestionQueue.Error
import IngestionQueue.Text.Path

/-!
# File trees

A tree holds files and directories, each under the names that lead to it from the root. Following names looks
into every directory on the way: a place that is missing, a file where a directory has to be and a name that
is too long are errors, and the first of them counts. Writing a file creates the directories above it, which
stay even if the file itself is refused.
-/

namespace IngestionQueue

inductive FileTree.Entry
  | file (content : Bytes)
  | directory
  deriving DecidableEq, Repr

/-- The root itself is the entry without names, and may be missing. -/
structure FileTree where
  entries : List (List Path.Name × FileTree.Entry)
  deriving DecidableEq, Repr

namespace FileTree

/-- The tree whose root is missing. -/
def missing : FileTree := ⟨[]⟩

/-- The tree whose root is a directory without entries. -/
def empty : FileTree := ⟨[([], .directory)]⟩

def entry? (t : FileTree) (place : List Path.Name) : Option Entry :=
  (t.entries.find? fun e => e.1 == place).map Prod.snd

def insert (t : FileTree) (place : List Path.Name) (e : Entry) : FileTree :=
  ⟨(place, e) :: t.entries.filter fun f => f.1 != place⟩

/-- The greatest length of a name, in bytes. -/
def maxNameLength : Nat := 255

def isTooLong (name : Path.Name) : Bool :=
  maxNameLength < (Utf8.encode name).length

/-- The entry at the end of the names, followed from a place. -/
def follow (t : FileTree) (place : List Path.Name) : List Path.Name → Except FileFault Entry
  | [] =>
    match t.entry? place with
    | some e => .ok e
    | none => .error .notFound
  | name :: rest =>
    match t.entry? place with
    | none => .error .notFound
    | some (.file _) => .error .notDirectory
    | some .directory =>
      if isTooLong name then .error .nameTooLong else follow t (place ++ [name]) rest

/-- Creates the directories from a place down the names, up to the first one that cannot be created. -/
def makeDirectories (t : FileTree) (place : List Path.Name) (names : List Path.Name) :
    FileTree × Except FileFault Unit :=
  match t.entry? place, names with
  | some (.file _), [] => (t, .error .exists)
  | some (.file _), _ :: _ => (t, .error .notDirectory)
  | some .directory, [] => (t, .ok ())
  | none, [] => (t.insert place .directory, .ok ())
  | some .directory, name :: rest =>
    if isTooLong name then (t, .error .nameTooLong) else makeDirectories t (place ++ [name]) rest
  | none, name :: rest =>
    let t := t.insert place .directory
    if isTooLong name then (t, .error .nameTooLong) else makeDirectories t (place ++ [name]) rest
termination_by names.length

/-- The character that no name may contain. -/
def nul : Char := Char.ofNat 0

/-- The last segment of a path that is not empty. -/
def lastSegment (path : List Char) : Path.Name :=
  ((Path.segments path).reverse.find? fun s => !s.isEmpty).getD []

/-- Whether what a path leads to has to be a directory, because of a slash or a dot at its end. -/
def wantsDirectory (path : List Char) : Bool :=
  path.getLast? == some '/' || lastSegment path == ['.']

/-- The entry that a path leads to. -/
def lookUp (t : FileTree) (path : List Char) : Except FileFault Entry :=
  if path.contains nul then .error .nulInName
  else match t.follow [] (Path.names path) with
    | .ok (.file content) => if wantsDirectory path then .error .notDirectory else .ok (.file content)
    | other => other

/-- Creates or overwrites the file of a path whose directories exist. -/
def create (t : FileTree) (path : List Char) (content : Bytes) : FileTree × Except FileFault Unit :=
  if path.contains nul then (t, .error .nulInName)
  else if lastSegment path == ['.'] then
    match t.lookUp path with
    | .error fault => (t, .error fault)
    | .ok _ => (t, .error .isDirectory)
  else if wantsDirectory path then (t, .error .isDirectory)
  else
    let place := Path.names path
    if isTooLong (place.getLastD []) then (t, .error .nameTooLong)
    else match t.entry? place with
      | some .directory => (t, .error .isDirectory)
      | _ => (t.insert place (.file content), .ok ())

/-- Writes a file, creating the directories above it first. -/
def write (t : FileTree) (path : List Char) (content : Bytes) : FileTree × Except FileFault Unit :=
  match Path.names path with
  | [] => t.create path content
  | names =>
    let above := names.dropLast
    if above.any fun name => name.contains nul then (t, .error .nulInName)
    else match t.makeDirectories [] above with
      | (t, .error fault) => (t, .error fault)
      | (t, .ok ()) => t.create path content

end FileTree

end IngestionQueue
