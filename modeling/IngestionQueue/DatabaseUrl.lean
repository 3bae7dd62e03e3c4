import IngestionQueue.Bytes.Utf8
import IngestionQueue.Error
import IngestionQueue.Text.Occurrence
import IngestionQueue.Text.Path
import IngestionQueue.Text.Quoted

/-!
# Database locations

A database is named by a URL: the scheme `sqlite:`, then the path of a file or `:memory:`, then parameters
after a question mark. A parameter that is unknown or has an unknown value is refused, and so is a file that
cannot be opened.
-/

namespace IngestionQueue.DatabaseUrl

/-- A text with its escapes resolved: a percent sign with two hexadecimal digits is a byte. -/
def percentDecode : Bytes → Bytes
  | 37 :: h :: l :: rest =>
    match Hex.digitValue? (Char.ofNat h.toNat), Hex.digitValue? (Char.ofNat l.toNat) with
    | some high, some low => UInt8.ofNat (16 * high + low) :: percentDecode rest
    | _, _ => 37 :: percentDecode (h :: l :: rest)
  | b :: rest => b :: percentDecode rest
  | [] => []

/-- A name or a value of a parameter, where a plus sign is a space. -/
def formDecode (cs : List Char) : String :=
  let spaced := cs.map fun c => if c == '+' then ' ' else c
  String.ofList (Utf8.decodeReplacing (percentDecode (Utf8.encode spaced)))

/-- The parameters in order, each a name with a value. -/
def parameters (text : List Char) : List (String × String) :=
  ((Path.splitAt (· == '&') text).filter fun p => !p.isEmpty).map fun p =>
    (formDecode (p.takeWhile (· != '=')), formDecode ((p.dropWhile (· != '=')).drop 1))

structure Location where
  inMemory : Bool
  path : List Char
  readOnly : Bool
  vfs : Option String
  deriving DecidableEq, Repr

inductive Fault
  | unknownValue (value parameter : String)
  | unknownParameter (name : String)
  | illFormedPath (fault : Utf8.Fault)
  | cannotOpen
  | noSuchVfs (name : String)
  | readOnly
  deriving DecidableEq, Repr

namespace Fault

def message : Fault → String
  | unknownValue value parameter =>
    let shown := Text.quoted value
    s!"error with configuration: unknown value {shown} for `{parameter}`"
  | unknownParameter name =>
    s!"error with configuration: unknown query parameter `{name}` while parsing connection URL"
  | illFormedPath fault => "error with configuration: " ++ fault.message
  | cannotOpen => "Database error [14]: unable to open database file"
  | noSuchVfs name => s!"Database error [1]: no such vfs: {name}"
  | readOnly => "Database error [8]: attempt to write a readonly database"

def toError (f : Fault) : AppError := .database f.message

end Fault

/-- The location after one parameter. -/
def Location.set (l : Location) (p : String × String) : Except Fault Location :=
  match p with
  | ("mode", "ro") => .ok { l with readOnly := true }
  | ("mode", "rw") => .ok l
  | ("mode", "rwc") => .ok l
  | ("mode", "memory") => .ok { l with inMemory := true }
  | ("mode", value) => .error (.unknownValue value "mode")
  | ("cache", "private") => .ok l
  | ("cache", "shared") => .ok l
  | ("cache", value) => .error (.unknownValue value "cache")
  | ("immutable", "true") | ("immutable", "1") | ("immutable", "false") | ("immutable", "0") => .ok l
  | ("immutable", value) => .error (.unknownValue value "immutable")
  | ("vfs", value) => .ok { l with vfs := some value }
  | (name, _) => .error (.unknownParameter name)

/-- The file that a URL names, and its parameters. -/
def parse (url : String) : Except Fault Location := do
  let rest := Text.withoutLeading "sqlite:".toList (Text.withoutLeading "sqlite://".toList url.toList)
  let name := rest.takeWhile (· != '?')
  let bytes := percentDecode (Utf8.encode name)
  let place : Location := ⟨name == ":memory:".toList, Utf8.decode bytes, false, none⟩
  match Utf8.fault? bytes with
  | some fault => throw (.illFormedPath fault)
  | none => (parameters ((rest.dropWhile (· != '?')).drop 1)).foldlM Location.set place

/-- The ways to open a file that the engine knows besides the usual one. -/
def knownVfs : List String := ["unix", "unix-dotfile", "unix-excl", "unix-none", "memdb"]

/-- Why a new database cannot be made at a location, given which directories there are. -/
def Location.fault? (l : Location) (isDirectory : List Path.Name → Bool) : Option Fault :=
  let place := Path.names l.path
  let reachable := if Path.isAbsolute l.path then isDirectory place.dropLast else place.length ≤ 1
  match l.vfs with
  | some name =>
    if knownVfs.contains name then none else some (.noSuchVfs name)
  | none =>
    if l.inMemory then if l.readOnly then some .readOnly else none
    else if l.readOnly || !reachable || (Path.isAbsolute l.path && isDirectory place) then some .cannotOpen
    else none

/-- Checks that a new database can be made at a URL. -/
def check (url : String) (isDirectory : List Path.Name → Bool) : Except AppError Unit :=
  match parse url with
  | .error f => .error f.toError
  | .ok l =>
    match l.fault? isDirectory with
    | some f => .error f.toError
    | none => .ok ()

end IngestionQueue.DatabaseUrl
