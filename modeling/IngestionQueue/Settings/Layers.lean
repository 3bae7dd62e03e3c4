import IngestionQueue.Number.Literal
import IngestionQueue.Number.Shortest
import IngestionQueue.Settings.Basic
import IngestionQueue.Toml.Reading

/-!
# Where settings come from

Settings are read from layers: the defaults, a file, and the variables of the environment whose name begins
with `INGEST_`. Names are compared in lower case, and a later layer replaces what an earlier one says. A value
that is not of the type of its field is converted where that makes sense, and refused elsewhere.
-/

namespace IngestionQueue.Settings

/-- A value of a layer. Of a table only the names of its entries matter. -/
inductive Raw
  | bool (b : Bool)
  | int (n : Int)
  | float (x : Binary64)
  | text (s : String)
  | list
  | table (keys : List String)

namespace Raw

def ofToml : Toml → Raw
  | .string s => text s
  | .integer n => int n
  | .float x => float x
  | .bool b => bool b
  | .moment s => text s
  | .array _ => list
  | .table fields => table (fields.map Prod.fst)

/-- The value of an environment variable: a truth value, an integer, a number, or else the text itself. -/
def ofVariable (value : String) : Raw :=
  let lower := value.toList.map Char.toLower
  if lower == "true".toList then bool true
  else if lower == "false".toList then bool false
  else match Literal.int64? value.toList, Literal.float? value.toList with
    | some n, _ => int n
    | none, some x => float x
    | none, none => text value

def isTrueWord (word : String) : Bool := ["true", "on", "yes"].contains word

def isFalseWord (word : String) : Bool := ["false", "off", "no"].contains word

/-- An integer between two bounds. -/
def toInt? (least greatest : Int) (r : Raw) : Option Int :=
  let found : Option Int := match r with
    | bool b => some (if b then 1 else 0)
    | int n => some n
    | float x => if least < 0 then some (x.roundAway Word.least Word.greatest)
        else some (x.roundAway 0 Word.greatestUnsigned)
    | text s =>
      let word := String.ofList (s.toList.map Char.toLower)
      if isTrueWord word then some 1
      else if isFalseWord word then some 0
      else Literal.integer? least greatest s.toList
    | list | table _ => none
  found.filter fun n => decide (least ≤ n ∧ n ≤ greatest)

def toNat64? (r : Raw) : Option Nat :=
  (r.toInt? 0 Word.greatestUnsigned).map Int.toNat

def toBool? : Raw → Option Bool
  | bool b => some b
  | int n => some (n != 0)
  | float x => some (!x.isZero)
  | text s =>
    let word := String.ofList (s.toList.map Char.toLower)
    if word == "1" || isTrueWord word then some true
    else if word == "0" || isFalseWord word then some false
    else none
  | list | table _ => none

def toText? : Raw → Option String
  | bool b => some (if b then "true" else "false")
  | int n => some (toString n)
  | float x => some x.toText
  | text s => some s
  | list | table _ => none

/-- A log format by its name, or by the only entry of a table. -/
def toLogFormat? : Raw → Option LogFormat
  | text s => ofName? s
  | table [key] => ofName? key
  | _ => none
where
  ofName? (name : String) : Option LogFormat :=
    match String.ofList (name.toList.map Char.toLower) with
    | "pretty" => some .pretty
    | "json" => some .json
    | _ => none

/-- A value of a later layer over one of an earlier layer. Tables are merged, and an empty one changes
nothing. -/
def replacing (earlier : Option Raw) (later : Raw) : Raw :=
  match later, earlier with
  | table keys, some (table others) => table (others ++ keys.filter fun k => !others.contains k)
  | table [], some other => other
  | later, _ => later

end Raw

/-- The values of the layers that were read, each name once. -/
abbrev Layers := List (String × Raw)

namespace Layers

def get? (ls : Layers) (name : String) : Option Raw :=
  (List.find? (fun l => l.1 == name) ls).map Prod.snd

def set (ls : Layers) (name : String) (r : Raw) : Layers :=
  (name, Raw.replacing (get? ls name) r) :: List.filter (fun l => l.1 != name) ls

end Layers

/-- A letter in lower case, as far as names of settings have such letters. -/
def lowerChar (c : Char) : Char :=
  if c.toNat == 0x212A then 'k' else c.toLower

def lower (s : String) : String :=
  String.ofList (s.toList.map lowerChar)

def isKeyChar (c : Char) : Bool :=
  ('a' ≤ c && c ≤ 'z') || ('A' ≤ c && c ≤ 'Z') || Literal.isDigit c || c == '_' || c == '-' || c == ' '

/-- Whether a text is a series of steps: a dot with a name, or a number in brackets. -/
def isSteps : Nat → List Char → Bool
  | _, [] => true
  | 0, _ => false
  | fuel + 1, '.' :: rest =>
    !(rest.takeWhile isKeyChar).isEmpty && isSteps fuel (rest.dropWhile isKeyChar)
  | fuel + 1, '[' :: rest =>
    let inner := Text.trimChars (rest.takeWhile (· != ']'))
    (Literal.int64? inner).isSome && inner.head? != some '+' &&
      (rest.dropWhile (· != ']')).head? == some ']' && isSteps fuel ((rest.dropWhile (· != ']')).drop 1)
  | _, _ => false

/-- A name that may be followed by steps into a value: the name, and what a value at the end of the steps
makes of the whole. -/
def splitKey (key : String) (r : Raw) : String × Raw :=
  let cs := key.toList
  let steps := cs.dropWhile isKeyChar
  let name := String.ofList (cs.takeWhile isKeyChar)
  if name.isEmpty || !isSteps steps.length steps then (key, r)
  else match steps with
    | '.' :: rest => (name, .table [String.ofList (rest.takeWhile isKeyChar)])
    | '[' :: _ => (name, .list)
    | _ => (name, r)

/-- Adds a value under a key. -/
def Layers.add (ls : Layers) (entry : String × Raw) : Layers :=
  let (name, r) := splitKey entry.1 entry.2
  ls.set (lower name) r

def defaults : Layers := [
  ("database_url", .text "~/.ingest/ingest.db"),
  ("storage_root", .text "./.storage"),
  ("worker_id", .text "ingest-worker-1"),
  ("worker_concurrency", .int 1),
  ("poll_interval_ms", .int 2000),
  ("heartbeat_interval_ms", .int 10000),
  ("lease_timeout_secs", .int 300),
  ("recovery_interval_secs", .int 60),
  ("retry_base_secs", .int 15),
  ("retry_max_secs", .int 1800),
  ("default_max_attempts", .int 5),
  ("chunk_size", .int 900),
  ("chunk_overlap", .int 120),
  ("rpc_enabled", .bool true),
  ("rpc_host", .text "127.0.0.1"),
  ("rpc_port", .int 9531),
  ("log_format", .text "pretty")]

/-- What the name of an environment variable of the settings begins with, in lower case. -/
def variableMark : String := "ingest_"

/-- The setting that an environment variable is for. -/
def variableKey? (name : String) : Option String :=
  let cs := (lower name).toList
  if variableMark.toList.isPrefixOf cs then some (String.ofList (cs.drop variableMark.length)) else none

/-- The settings that the layers describe. -/
def ofLayers (ls : Layers) : Option Settings := do
  let text (name : String) : Option String := (ls.get? name).bind Raw.toText?
  let nat (name : String) : Option Nat := (ls.get? name).bind Raw.toNat64?
  return {
    databaseUrl := ← text "database_url"
    storageRoot := ← text "storage_root"
    workerId := ← text "worker_id"
    workerConcurrency := ← nat "worker_concurrency"
    pollIntervalMs := ← nat "poll_interval_ms"
    heartbeatIntervalMs := ← nat "heartbeat_interval_ms"
    leaseTimeoutSecs := ← nat "lease_timeout_secs"
    recoveryIntervalSecs := ← nat "recovery_interval_secs"
    retryBaseSecs := ← nat "retry_base_secs"
    retryMaxSecs := ← nat "retry_max_secs"
    defaultMaxAttempts := ← (ls.get? "default_max_attempts").bind (Raw.toInt? Word.least32 Word.greatest32)
    chunkSize := ← nat "chunk_size"
    chunkOverlap := ← nat "chunk_overlap"
    rpcEnabled := ← (ls.get? "rpc_enabled").bind Raw.toBool?
    rpcHost := ← text "rpc_host"
    rpcPort := ← ((ls.get? "rpc_port").bind (Raw.toInt? 0 0xFFFF)).map Int.toNat
    logFormat := ← (ls.get? "log_format").bind Raw.toLogFormat?
    logDir := ← match ls.get? "log_dir" with
      | none => some none
      | some r => r.toText?.map some }

/-- The layers of a file and of the environment over the defaults. -/
def layers (file : Option String) (environment : List (String × String)) : Except SettingsError Layers :=
  let fromFile : Except SettingsError Layers := match file with
    | none => .ok defaults
    | some text =>
      match Toml.parse text with
      | none => .error .unreadable
      | some fields => .ok (fields.foldl (fun ls f => ls.add (f.1, Raw.ofToml f.2)) defaults)
  fromFile.map fun ls => environment.foldl (fun ls v =>
    match variableKey? v.1 with
    | some key => ls.add (key, Raw.ofVariable v.2)
    | none => ls) ls

/-- Reads the settings from the text of a file, if there is one, and from the environment. -/
def load (file : Option String) (environment : List (String × String)) : Except SettingsError Settings := do
  match ofLayers (← layers file environment) with
  | none => throw .invalid
  | some s =>
    s.validate
    return s

end IngestionQueue.Settings
