import IngestionQueue.FileTree
import IngestionQueue.Text.Blank

/-!
# The object store

Objects are bytes under a key. They are kept in memory, where every key but the empty one is its own place, or
in a file tree, where the key is a path below the root. Such a path may not be blank, absolute, or step to a
parent, so an object never lies outside the root.
-/

namespace IngestionQueue

inductive ObjectStore
  | memory (objects : List (String × Bytes))
  | files (tree : FileTree)
  deriving Repr

namespace ObjectStore

/-- Whether a key is a path below the root. -/
def isBelowRoot (key : String) : Bool :=
  !(Text.isBlankText key || Path.isAbsolute key.toList || Path.climbs key.toList)

/-- Stores an object. A put that fails may have created directories. -/
def put (o : ObjectStore) (key : String) (content : Bytes) : ObjectStore × Except ObjectError Unit :=
  match o with
  | memory objects =>
    if key.isEmpty then (o, .error (.invalidKey key))
    else (memory ((key, content) :: objects.filter fun p => p.1 != key), .ok ())
  | files tree =>
    if isBelowRoot key then
      match tree.write key.toList content with
      | (tree, .ok ()) => (files tree, .ok ())
      | (tree, .error fault) => (files tree, .error (.io fault))
    else (o, .error (.invalidKey key))

def get (o : ObjectStore) (key : String) : Except ObjectError Bytes :=
  match o with
  | memory objects =>
    match objects.find? fun p => p.1 == key with
    | some (_, content) => .ok content
    | none => .error (.notFound key)
  | files tree =>
    if isBelowRoot key then
      match tree.lookUp key.toList with
      | .ok (.file content) => .ok content
      | .ok .directory => .error (.io .isDirectory)
      | .error .notFound => .error (.notFound key)
      | .error fault => .error (.io fault)
    else .error (.invalidKey key)

/-- Whether there is an object under a key; a directory is none. -/
def contains (o : ObjectStore) (key : String) : Except ObjectError Bool :=
  match o with
  | memory objects => .ok (objects.any fun p => p.1 == key)
  | files tree =>
    if isBelowRoot key then
      match tree.lookUp key.toList with
      | .ok (.file _) => .ok true
      | .ok .directory => .ok false
      | .error .notFound => .ok false
      | .error fault => .error (.io fault)
    else .error (.invalidKey key)

/-- Takes an object out of a store in memory. -/
def remove (o : ObjectStore) (key : String) : ObjectStore × Option Bytes :=
  match o with
  | memory objects =>
    (memory (objects.filter fun p => p.1 != key),
      (objects.find? fun p => p.1 == key).map Prod.snd)
  | files _ => (o, none)

/-- The number of objects in a store in memory, or of files in a tree. -/
def size : ObjectStore → Nat
  | memory objects => objects.length
  | files tree => tree.entries.countP fun e => e.2 != .directory

end ObjectStore

end IngestionQueue
