import IngestionQueue.Cli.Command
import IngestionQueue.Text.Grid

/-!
# What the client prints

A reply carries a result or an error. The client reads the fields of a result that it shows, and prints jobs
and documents as tables.
-/

namespace IngestionQueue.Cli

open Json (Record Decoder)

/-- The error of a reply. -/
structure ReplyError where
  code : Int
  message : String

/-- A reply as it is read. -/
structure Reply where
  version : String
  id : Nat
  result : Option Json
  error : Option ReplyError

def ReplyError.decoder : Decoder ReplyError :=
  ((Record.pure ReplyError.mk)
    |>.field "code" Decoder.int32
    |>.field "message" Decoder.string).decoder "JsonRpcError"

def Reply.decoder : Decoder Reply :=
  ((Record.pure Reply.mk)
    |>.field "jsonrpc" Decoder.string
    |>.field "id" Decoder.nat64
    |>.optionalField "result" Decoder.value
    |>.optionalField "error" ReplyError.decoder).decoder "JsonRpcResponse"

/-- The result in the text of a reply, if there was a reply. -/
def resultOf (text : Option String) : Except String Json :=
  match text with
  | none => .error "Failed to connect to daemon"
  | some text =>
    match Json.decode Reply.decoder text with
    | .error _ => .error "Failed to parse response"
    | .ok reply =>
      match reply.error, reply.result with
      | some e, _ =>
        let code := e.code
        let message := e.message
        .error s!"RPC error ({code}): {message}"
      | none, some result => .ok result
      | none, none => .error "No result in response"

structure EnqueueResult where
  jobId : String
  status : String
  stage : String
  created : Bool
  deriving DecidableEq, Repr

def EnqueueResult.decoder : Decoder EnqueueResult :=
  ((Record.pure EnqueueResult.mk)
    |>.field "job_id" Decoder.string
    |>.field "status" Decoder.string
    |>.field "stage" Decoder.string
    |>.field "created" Decoder.bool).decoder "EnqueueResult"

def EnqueueResult.text (r : EnqueueResult) : String :=
  let heading := if r.created then "✓ Job enqueued" else "○ Existing job returned (idempotent)"
  let created := if r.created then "true" else "false"
  let table := Text.Grid.text ["job_id", "status", "stage", "created"] [[r.jobId, r.status, r.stage, created]]
  s!"{heading}\n\n{table}\n"

structure UploadResult where
  documentId : String
  version : Int
  objectKey : String
  jobId : String
  jobStatus : String
  deriving DecidableEq, Repr

def UploadResult.decoder : Decoder UploadResult :=
  ((Record.pure UploadResult.mk)
    |>.field "document_id" Decoder.string
    |>.field "version" Decoder.int32
    |>.field "object_key" Decoder.string
    |>.field "job_id" Decoder.string
    |>.field "job_status" Decoder.string).decoder "UploadResult"

def UploadResult.text (r : UploadResult) (fileName : String) (size : Nat) : String :=
  let table := Text.Grid.text ["document_id", "version", "object_key", "job_id", "job_status"]
    [[r.documentId, toString r.version, r.objectKey, r.jobId, r.jobStatus]]
  s!"✓ Uploaded {fileName} ({size} bytes)\n\n{table}\n"

structure JobResult where
  jobId : String
  documentId : String
  documentVersionId : String
  status : String
  stage : String
  progress : Int
  attemptCount : Int
  maxAttempts : Int
  nextRunAt : Int
  lockedBy : Option String
  error : Option String
  terminal : Bool
  deriving DecidableEq, Repr

def JobResult.decoder : Decoder JobResult :=
  ((Record.pure JobResult.mk)
    |>.field "job_id" Decoder.string
    |>.field "document_id" Decoder.string
    |>.field "document_version_id" Decoder.string
    |>.field "status" Decoder.string
    |>.field "stage" Decoder.string
    |>.field "progress" Decoder.int32
    |>.field "attempt_count" Decoder.int32
    |>.field "max_attempts" Decoder.int32
    |>.field "next_run_at" Decoder.int64
    |>.optionalField "locked_by" Decoder.string
    |>.optionalField "error" Decoder.string
    |>.field "terminal" Decoder.bool).decoder "JobView"

/-- A line with a label. -/
def labelled (label value : String) : String :=
  s!"  {label} {value}\n"

def JobResult.text (r : JobResult) : String :=
  let id := r.jobId
  let stage := r.stage
  let progress := r.progress
  let attempt := r.attemptCount
  let most := r.maxAttempts
  let document := r.documentId
  let version := r.documentVersionId
  let next := r.nextRunAt
  s!"Job {id}\n\n" ++ labelled "Status:" r.status ++ labelled "Stage:" s!"{stage} ({progress}%)" ++
    labelled "Attempts:" s!"{attempt}/{most}" ++ labelled "Document:" s!"{document} / {version}" ++
    (r.lockedBy.map (labelled "Locked by:")).getD "" ++
    (if r.terminal then "" else labelled "Next run:" s!"{next} (epoch ms)") ++
    (r.error.map (labelled "Error:")).getD ""

structure DeadLetterRow where
  jobId : String
  documentId : String
  action : String
  attemptCount : Int
  error : Option String
  deriving DecidableEq, Repr

def DeadLetterRow.decoder : Decoder DeadLetterRow :=
  ((Record.pure DeadLetterRow.mk)
    |>.field "job_id" Decoder.string
    |>.field "document_id" Decoder.string
    |>.field "action" Decoder.string
    |>.field "attempt_count" Decoder.int32
    |>.optionalField "error" Decoder.string).decoder "DeadLetterRow"

/-- The jobs of a list of dead letters. -/
structure DeadLetters where
  jobs : List DeadLetterRow

def DeadLetters.decoder : Decoder DeadLetters :=
  ((Record.pure DeadLetters.mk)
    |>.field "jobs" (Decoder.list DeadLetterRow.decoder)).decoder "DeadLetters"

/-- The number of characters of an error that is shown in a table. -/
def shownErrorLength : Nat := 60

def shownError (error : Option String) : String :=
  match error with
  | none => ""
  | some e =>
    if shownErrorLength < e.length then String.ofList (e.toList.take shownErrorLength) ++ "..." else e

def DeadLetters.text (d : DeadLetters) : String :=
  if d.jobs.isEmpty then "✓ No dead-lettered jobs\n"
  else
    let count := d.jobs.length
    let table := Text.Grid.text ["job_id", "document_id", "action", "attempts", "error"]
      (d.jobs.map fun r => [r.jobId, r.documentId, r.action, toString r.attemptCount, shownError r.error])
    s!"{count} dead-lettered job(s)\n\n{table}\n"

/-- The counts of the queue, or why they could not be had. -/
def statsText (url : String) (result : Except String Json) : String :=
  "Queue Status\n\n" ++
    match result with
    | .error e => labelled "Status:" "ERROR" ++ labelled "Error:" e
    | .ok stats =>
      let shown (name : String) : String := String.ofList (Json.print ((stats.field? name).getD .null))
      labelled "RPC URL:" url ++ labelled "Status:" "ONLINE" ++ "\n" ++
        labelled "Total Jobs:" (shown "total_jobs") ++ labelled "Queued:" (shown "queued_jobs") ++
        labelled "Processing:" (shown "processing_jobs") ++ labelled "Retrying:" (shown "retrying_jobs") ++
        labelled "Completed:" (shown "completed_jobs") ++
        labelled "Dead letter:" (shown "dead_letter_jobs") ++ "\n" ++
        labelled "Uptime:" (shown "uptime_seconds" ++ " seconds")

end IngestionQueue.Cli
