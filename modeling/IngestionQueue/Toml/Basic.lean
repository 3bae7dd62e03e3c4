import IngestionQueue.Number.Binary64

/-!
# TOML documents

A document is a tree of tables. While it is read, a table remembers how it came about: a header defines it, a
longer header or a dotted key implies it. A table is defined by one header at most, a dotted key does not
reach into a table that a header defined, and no key is given twice.
-/

namespace IngestionQueue

/-- A value; a date or a time is kept as its normal text. -/
inductive Toml
  | string (s : String)
  | integer (n : Int)
  | float (x : Binary64)
  | bool (b : Bool)
  | moment (text : String)
  | array (items : List Toml)
  | table (fields : List (String × Toml))

namespace Toml

/-- How a table came about. -/
inductive Origin
  | header
  | impliedByHeader
  | dottedKey
  deriving DecidableEq, Repr

/-- A place of a document that is being read: a value, a table, or the tables of an array with the last one
first. -/
inductive Node
  | value (v : Toml)
  | table (origin : Origin) (entries : List (String × Node))
  | tables (last : List (String × Node)) (earlier : List (List (String × Node)))

abbrev Entries := List (String × Node)

namespace Entries

def node? (es : Entries) (key : String) : Option Node :=
  (List.find? (fun e => e.1 == key) es).map Prod.snd

/-- The entries with the node of a key replaced, or added at the end. -/
def set (es : Entries) (key : String) (n : Node) : Entries :=
  if (node? es key).isSome then List.map (fun e => if e.1 == key then (key, n) else e) es
  else es ++ [(key, n)]

/-- Changes the table that a path leads to, implying the tables that are missing. Of an array of tables the
last one is meant. A dotted path does not lead through a table that a header defined. -/
def alter (dotted : Bool) (f : Origin → Entries → Option Entries) (origin : Origin) :
    List String → Entries → Option Entries
  | [], es => f origin es
  | key :: path, es =>
    match node? es key with
    | none =>
      let implied := if dotted then Origin.dottedKey else .impliedByHeader
      (alter dotted f implied path []).map fun inner => set es key (.table implied inner)
    | some (.value _) => none
    | some (.tables last earlier) =>
      (alter dotted f .header path last).map fun inner => set es key (.tables inner earlier)
    | some (.table o inner) =>
      if dotted && o == .header then none
      else (alter dotted f o path inner).map fun inner => set es key (.table o inner)

/-- Adds a value under a dotted key. A table that a longer header implied does not take one. -/
def insert (path : List String) (key : String) (v : Toml) (origin : Origin) (es : Entries) : Option Entries :=
  alter true (fun o inner =>
    if !path.isEmpty && o != .dottedKey then none
    else if (node? inner key).isSome then none
    else some (set inner key (.value v))) origin path es

/-- Defines the table of a header. -/
def define (path : List String) (key : String) (es : Entries) : Option Entries :=
  alter false (fun _ inner =>
    match node? inner key with
    | none => some (set inner key (.table .header []))
    | some (.table .impliedByHeader entries) => some (set inner key (.table .header entries))
    | some _ => none) .header path es

/-- Begins another table of the array of a header. -/
def append (path : List String) (key : String) (es : Entries) : Option Entries :=
  alter false (fun _ inner =>
    match node? inner key with
    | none => some (set inner key (.tables [] []))
    | some (.tables last earlier) => some (set inner key (.tables [] (last :: earlier)))
    | some _ => none) .header path es

/-- Adds a value under a dotted key to the table of a header. -/
def insertAt (header path : List String) (key : String) (v : Toml) (es : Entries) : Option Entries :=
  alter false (insert path key v) .header header es

end Entries

mutual

/-- The value of a node. -/
def Node.toToml : Node → Toml
  | .value v => v
  | .table _ entries => .table (entriesToToml entries)
  | .tables last earlier => .array (tablesToToml earlier [.table (entriesToToml last)])

def entriesToToml : List (String × Node) → List (String × Toml)
  | [] => []
  | (key, n) :: rest => (key, n.toToml) :: entriesToToml rest

/-- The tables of an array, from the last one to the first, before some others. -/
def tablesToToml : List (List (String × Node)) → List Toml → List Toml
  | [], after => after
  | entries :: earlier, after => tablesToToml earlier (.table (entriesToToml entries) :: after)

end

end Toml

end IngestionQueue
