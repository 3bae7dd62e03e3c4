import IngestionQueue.Backoff
import IngestionQueue.Checked
import IngestionQueue.Chunk

/-!
# Workers

A worker claims a job and makes an attempt: it finds the source of the version, marks the document as being
processed, reads the object, cuts its text into chunks and writes them, all under its lease. An attempt that
fails is repeated later, or the job is given up with its last one. A worker that has lost its lease writes
nothing more. Where the time of the next attempt overflows, the call ends before the failure is recorded.
-/

namespace IngestionQueue

/-- An attempt whose source is known and whose document is marked as being processed. -/
structure Attempt where
  lease : Lease
  source : DocumentSource
  objectKey : String
  deriving DecidableEq, Repr

namespace Attempt

/-- The object key of a source, unless it is missing or blank. -/
def keyOf (source : DocumentSource) : Option String :=
  source.objectKey.filter fun key => !Text.isBlankText key

/-- Looks up the source of a version and the key of its object. -/
def resolve (lease : Lease) (versionId : String) : Service Attempt := do
  let found ← Service.read fun s => s.source? versionId
  let source ← Service.orElseThrow found (.notFound s!"document version {versionId}")
  let key ← Service.orElseThrow (keyOf source)
    (.validation s!"document version {versionId} has no object key")
  return ⟨lease, source, key⟩

/-- Marks the document as being processed. -/
def mark (a : Attempt) : Service Unit := do
  Service.query (Query.markProcessing (← Service.now) a.lease a.source.documentId)

/-- What an attempt does before it reads the object. -/
def start (lease : Lease) (versionId : String) : Service Attempt := do
  let a ← resolve lease versionId
  mark a
  return a

/-- The text of the object. -/
def load (a : Attempt) : Service String := do
  let bytes ← Service.getObject a.objectKey
  let parser := a.source.parser
  Service.orElseThrow (parser.decode bytes) (.unsupportedParser parser.name)

def advance (a : Attempt) : Service Unit := do
  Service.query (Query.advanceStage (← Service.now) a.lease .chunking progressChunking)

/-- The chunks of a text under fresh identifiers, numbered from `first` on. -/
def number : List String → Int → Service (List NewChunk)
  | [], _ => return []
  | piece :: rest, first => do
    let id ← Service.freshId
    let chunk : NewChunk := ⟨id, first, piece, Text.wordCount piece⟩
    return chunk :: (← number rest (first + 1))

/-- Cuts the text and writes the chunks; the result is their number. -/
def write (chunking : ChunkConfig) (a : Attempt) (text : String) : Service Nat := do
  match chunking.chunk text with
  | [] => throw .emptyContent
  | pieces =>
    let chunks ← number pieces 1
    Service.query (Query.finalize (← Service.now) a.lease a.source chunks)

/-- Reads the object and writes its chunks; the result is their number. -/
def finish (chunking : ChunkConfig) (a : Attempt) : Service Nat := do
  let text ← load a
  advance a
  write chunking a text

/-- One attempt of a job for a version. -/
def run (chunking : ChunkConfig) (lease : Lease) (versionId : String) : Service Nat := do
  finish chunking (← start lease versionId)

end Attempt

/-- How the code of an attempt came to its end. -/
inductive Execution
  | finished (result : Except AppError Nat)
  | crashed (message : Option String)

/-- What a worker reports of a job that it claimed. -/
inductive JobOutcome
  | completed (chunks : Nat)
  | retrying (nextRunAt : Int)
  | deadLettered
  | leaseLost
  deriving DecidableEq, Repr

/-- What the worker reports of an execution that leaves nothing to record, or the error to be recorded. -/
def Execution.verdict : Execution → Except String JobOutcome
  | .finished (.ok chunks) => .ok (.completed chunks)
  | .finished (.error e) => if e.isLeaseLost then .ok .leaseLost else .error e.message
  | .crashed message =>
    let text := message.getD "unknown panic"
    .error s!"worker panicked: {text}"

/-- A failed attempt as it is to be recorded, and what the worker reports of it then. -/
structure Failure where
  outcome : FailureOutcome
  report : JobOutcome
  error : String
  deriving DecidableEq, Repr

structure Worker where
  id : String
  leaseTimeout : Int
  retry : RetryPolicy
  chunking : ChunkConfig
  deriving DecidableEq, Repr

namespace Worker

/-- What a worker is called, and how it is timed, unless it is told otherwise. -/
def defaultId : String := "ingest-worker-1"

def defaultPollInterval : Nat := 2000

def defaultHeartbeatInterval : Nat := 10000

def defaultLeaseTimeout : Int := 300000

def claim (w : Worker) : Checked (Option ClaimedJob) :=
  Checked.claimNext w.id w.leaseTimeout

/-- How a failed attempt is recorded, and what the worker reports of it. -/
def decide (w : Worker) (job : ClaimedJob) (message : String) (now : Int) : Except Word.Overflow Failure :=
  match w.retry.decide job.attemptCount job.maxAttempts with
  | .retry delay =>
    (Word.addChecked now delay).map fun nextRunAt =>
      ⟨.retry nextRunAt, .retrying nextRunAt, truncateError message⟩
  | .deadLetter => .ok ⟨.deadLetter, .deadLettered, truncateError message⟩

/-- Decides how a failed attempt is recorded. -/
def judge (w : Worker) (job : ClaimedJob) (message : String) : Checked Failure := do
  Checked.ofArithmetic (w.decide job message (← Service.now))

/-- Records a failed attempt. -/
def record (w : Worker) (job : ClaimedJob) (f : Failure) : Service JobOutcome := do
  let recorded ← Service.attempt (Service.query (Query.recordFailure (← Service.now) (job.lease w.id)
    job.documentId job.documentVersionId f.outcome f.error))
  match recorded with
  | .ok () => return f.report
  | .error e => if e.isLeaseLost then return .leaseLost else throw e

/-- Ends the work on a claimed job. -/
def settle (w : Worker) (job : ClaimedJob) (e : Execution) : Checked JobOutcome :=
  match e.verdict with
  | .ok report => return report
  | .error message => do
    w.record job (← w.judge job message)

/-- Claims a job and makes one attempt of it, unless there is nothing to claim. -/
def processNext (w : Worker) : Checked (Option JobOutcome) := do
  match ← w.claim with
  | none => return none
  | some job =>
    let result ← Service.attempt (Attempt.run w.chunking (job.lease w.id) job.documentVersionId)
    return some (← w.settle job (.finished result))

/-- Polls up to `fuel` times. The first `faults` polls fail, and the worker is told to stop when a poll finds
nothing, or once it has claimed as many jobs as it may. An overflow ends the worker itself. -/
def poll (w : Worker) : Nat → Nat → Option Nat → Checked Unit
  | 0, _, _ => return ()
  | _ + 1, _, some 0 => return ()
  | fuel + 1, faults + 1, jobs => poll w fuel faults jobs
  | fuel + 1, 0, jobs => do
    match ← Checked.attempt w.processNext with
    | .ok none => return ()
    | _ => poll w fuel 0 (jobs.map (· - 1))

end Worker

/-- The attempts that the jobs have left, taken together. -/
def Store.attemptsLeft (s : Store) : Nat :=
  s.jobs.foldr (fun j left => (j.maxAttempts - j.attemptCount).toNat + left) 0

/-- Runs a worker until it is told to stop. Every claim uses up one of the attempts that are left, so no run
makes more polls than these and the failing ones, and one that finds nothing. -/
def Worker.run (w : Worker) (faults : Nat) (jobs : Option Nat) : Checked Unit := do
  let left ← Service.read Store.attemptsLeft
  w.poll (faults + left + 1) faults jobs

/-- What keeps a lease alive while the attempt runs, until the lease is lost. -/
structure LeaseKeeper where
  lease : Lease
  active : Bool
  deriving DecidableEq, Repr

namespace LeaseKeeper

def ofLease (lease : Lease) : LeaseKeeper := ⟨lease, true⟩

def beat (k : LeaseKeeper) : Service Unit := do
  Service.query (Query.heartbeat (← Service.now) k.lease)

/-- The keeper after a heartbeat. An error of the database does not stop it, a lost lease does. -/
def after (k : LeaseKeeper) (result : Except AppError Unit) : LeaseKeeper :=
  match result with
  | .ok () => k
  | .error e => { k with active := k.active && !e.isLeaseLost }

end LeaseKeeper

end IngestionQueue
