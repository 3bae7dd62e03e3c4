import IngestionQueue.Chunk
import IngestionQueue.Number.Word
import IngestionQueue.Text.Occurrence

/-!
# Settings

The settings of the server, the checks that they have to pass, and what is derived from them. Durations are
unsigned 64-bit numbers; where they are compared and used as signed ones, their bits are read so, and seconds
become milliseconds without leaving the range.
-/

namespace IngestionQueue

inductive LogFormat
  | pretty
  | json
  deriving DecidableEq, Repr

structure Settings where
  databaseUrl : String
  storageRoot : String
  workerId : String
  workerConcurrency : Nat
  pollIntervalMs : Nat
  heartbeatIntervalMs : Nat
  leaseTimeoutSecs : Nat
  recoveryIntervalSecs : Nat
  retryBaseSecs : Nat
  retryMaxSecs : Nat
  defaultMaxAttempts : Int
  chunkSize : Nat
  chunkOverlap : Nat
  rpcEnabled : Bool
  rpcHost : String
  rpcPort : Nat
  logFormat : LogFormat
  logDir : Option String
  deriving DecidableEq, Repr

/-- Why there are no settings. -/
inductive SettingsError
  | unreadable
  | invalid
  | maxAttempts (n : Int)
  | leaseTimeout (leaseSecs heartbeatMs : Nat)
  | notPositive
  | retryRange (base max : Nat)
  | chunking (e : DomainError)
  deriving DecidableEq, Repr

def SettingsError.message : SettingsError → String
  | unreadable => "Failed to read configuration"
  | invalid => "Invalid configuration"
  | maxAttempts n => s!"default_max_attempts must be at least 1 (got {n})"
  | leaseTimeout leaseSecs heartbeatMs =>
    s!"lease_timeout_secs ({leaseSecs}s) must exceed heartbeat_interval_ms ({heartbeatMs}ms)"
  | notPositive =>
    "poll_interval_ms, heartbeat_interval_ms and recovery_interval_secs must be positive"
  | retryRange base max => s!"retry_base_secs ({base}) exceeds retry_max_secs ({max})"
  | chunking _ => "Invalid chunking settings"

namespace Settings

def leaseTimeoutMs (s : Settings) : Int :=
  Word.mulSaturating (Word.wrap s.leaseTimeoutSecs) 1000

def chunkConfig (s : Settings) : Except DomainError ChunkConfig :=
  ChunkConfig.check s.chunkSize s.chunkOverlap

/-- The first check that the settings do not pass. -/
def validate (s : Settings) : Except SettingsError Unit :=
  if s.defaultMaxAttempts < 1 then .error (.maxAttempts s.defaultMaxAttempts)
  else if s.leaseTimeoutMs ≤ Word.wrap s.heartbeatIntervalMs then
    .error (.leaseTimeout s.leaseTimeoutSecs s.heartbeatIntervalMs)
  else if s.pollIntervalMs = 0 ∨ s.heartbeatIntervalMs = 0 ∨ s.recoveryIntervalSecs = 0 then
    .error .notPositive
  else if s.retryMaxSecs < s.retryBaseSecs then .error (.retryRange s.retryBaseSecs s.retryMaxSecs)
  else match s.chunkConfig with
    | .error e => .error (.chunking e)
    | .ok _ => .ok ()

/-- A path with a tilde at its beginning replaced by the home directory. -/
def expandHome (home : String) (path : String) : String :=
  match path.toList with
  | ['~'] => home
  | '~' :: '/' :: rest => home ++ "/" ++ String.ofList rest
  | _ => path

def scheme : String := "sqlite:"

/-- The URL of the database; a bare path gets the scheme. -/
def fullDatabaseUrl (s : Settings) (home : String) : String :=
  let expanded := expandHome home s.databaseUrl
  if scheme.toList.isPrefixOf expanded.toList then expanded else "sqlite://" ++ expanded

/-- The path of the database, unless it is kept in memory. -/
def databasePath (s : Settings) (home : String) : Option String :=
  let url := (s.fullDatabaseUrl home).toList
  let bare := Text.withoutLeading scheme.toList (Text.withoutLeading "sqlite://".toList url)
  let path := bare.takeWhile (· != '?')
  if path.isEmpty || Text.hasWord ":memory:".toList path then none else some (String.ofList path)

def storageDirectory (s : Settings) (home : String) : String :=
  expandHome home s.storageRoot

def logDirectory (s : Settings) (home : String) : Option String :=
  (s.logDir.filter fun d => !d.isEmpty).map (expandHome home)

/-- The names of the workers: the name itself for one, the name with a number for several. -/
def workerIds (s : Settings) : List String :=
  let stem := s.workerId
  if s.workerConcurrency = 1 then [stem]
  else (List.range s.workerConcurrency).map fun i =>
    let number := i + 1
    s!"{stem}-{number}"

end Settings

end IngestionQueue
