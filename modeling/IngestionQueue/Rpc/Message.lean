import IngestionQueue.Wire.Ingestion

/-!
# Parameters and results of the remote methods

Each method reads its parameters from a record, given as an object or as an array, and writes its result as an
object. An enqueue without an action is an upload, and a list of dead letters without a limit has at most
fifty.
-/

namespace IngestionQueue.Rpc

open Json (Record Decoder)

/-- The parameters of an enqueue. -/
def enqueueParams : Decoder EnqueueRequest :=
  ((Record.pure EnqueueRequest.mk)
    |>.field "tenant_id" Decoder.string
    |>.field "workspace_id" Decoder.string
    |>.field "kb_id" Decoder.string
    |>.field "document_id" Decoder.string
    |>.field "document_version_id" Decoder.string
    |>.defaultField "action" Decoder.string IngestAction.upload.name
    |>.trailingField "idempotency_key" Decoder.string).decoder "EnqueueRequest"

/-- The parameters of an upload, whose content is text of base 64. -/
structure UploadParams where
  tenantId : String
  workspaceId : String
  kbId : String
  fileName : String
  contentBase64 : String
  idempotencyKey : Option String
  deriving DecidableEq, Repr

def UploadParams.decoder : Decoder UploadParams :=
  ((Record.pure UploadParams.mk)
    |>.field "tenant_id" Decoder.string
    |>.field "workspace_id" Decoder.string
    |>.field "kb_id" Decoder.string
    |>.field "filename" Decoder.string
    |>.field "content_base64" Decoder.string
    |>.trailingField "idempotency_key" Decoder.string).decoder "UploadRequest"

structure ReindexParams where
  tenantId : String
  documentId : String
  idempotencyKey : Option String
  deriving DecidableEq, Repr

def ReindexParams.decoder : Decoder ReindexParams :=
  ((Record.pure ReindexParams.mk)
    |>.field "tenant_id" Decoder.string
    |>.field "document_id" Decoder.string
    |>.trailingField "idempotency_key" Decoder.string).decoder "ReindexRequest"

structure JobParams where
  jobId : String
  tenantId : Option String
  deriving DecidableEq, Repr

def JobParams.decoder : Decoder JobParams :=
  ((Record.pure JobParams.mk)
    |>.field "job_id" Decoder.string
    |>.trailingField "tenant_id" Decoder.string).decoder "JobRequest"

structure DeadLettersParams where
  limit : Int
  deriving DecidableEq, Repr

/-- The limit of a list of dead letters that names none. -/
def defaultLimit : Int := 50

def DeadLettersParams.decoder : Decoder DeadLettersParams :=
  ((Record.pure DeadLettersParams.mk)
    |>.defaultField "limit" Decoder.int64 defaultLimit).decoder "DeadLettersRequest"

/-- The result of an enqueue or a reindex. -/
structure EnqueueResponse where
  jobId : String
  status : String
  stage : String
  attemptCount : Int
  created : Bool
  deriving DecidableEq, Repr

namespace EnqueueResponse

def ofJob (j : Job) (created : Bool) : EnqueueResponse :=
  ⟨j.id, j.status.name, j.stage.name, j.attemptCount, created⟩

def toJson (r : EnqueueResponse) : Json := .object [
  ("job_id", .string r.jobId),
  ("status", .string r.status),
  ("stage", .string r.stage),
  ("attempt_count", .int r.attemptCount),
  ("created", .bool r.created)]

def decoder : Decoder EnqueueResponse :=
  ((Record.pure EnqueueResponse.mk)
    |>.field "job_id" Decoder.string
    |>.field "status" Decoder.string
    |>.field "stage" Decoder.string
    |>.field "attempt_count" Decoder.int32
    |>.field "created" Decoder.bool).decoder "EnqueueResponse"

end EnqueueResponse

structure UploadResponse where
  documentId : String
  documentVersionId : String
  version : Int
  objectKey : String
  jobId : String
  jobStatus : String
  deriving DecidableEq, Repr

namespace UploadResponse

def ofReceipt (r : UploadReceipt) : UploadResponse :=
  ⟨r.documentId, r.documentVersionId, r.version, r.objectKey, r.job.id, r.job.status.name⟩

def toJson (r : UploadResponse) : Json := .object [
  ("document_id", .string r.documentId),
  ("document_version_id", .string r.documentVersionId),
  ("version", .int r.version),
  ("object_key", .string r.objectKey),
  ("job_id", .string r.jobId),
  ("job_status", .string r.jobStatus)]

def decoder : Decoder UploadResponse :=
  ((Record.pure UploadResponse.mk)
    |>.field "document_id" Decoder.string
    |>.field "document_version_id" Decoder.string
    |>.field "version" Decoder.int32
    |>.field "object_key" Decoder.string
    |>.field "job_id" Decoder.string
    |>.field "job_status" Decoder.string).decoder "UploadResponse"

end UploadResponse

structure StatsResponse where
  totalJobs : Int
  queuedJobs : Int
  processingJobs : Int
  retryingJobs : Int
  completedJobs : Int
  deadLetterJobs : Int
  uptimeSeconds : Int
  deriving DecidableEq, Repr

namespace StatsResponse

def ofStats (s : QueueStats) (uptime : Int) : StatsResponse :=
  ⟨s.total, s.queued, s.processing, s.retrying, s.completed, s.deadLetter, uptime⟩

def toJson (r : StatsResponse) : Json := .object [
  ("total_jobs", .int r.totalJobs),
  ("queued_jobs", .int r.queuedJobs),
  ("processing_jobs", .int r.processingJobs),
  ("retrying_jobs", .int r.retryingJobs),
  ("completed_jobs", .int r.completedJobs),
  ("dead_letter_jobs", .int r.deadLetterJobs),
  ("uptime_seconds", .int r.uptimeSeconds)]

def decoder : Decoder StatsResponse :=
  ((Record.pure StatsResponse.mk)
    |>.field "total_jobs" Decoder.int64
    |>.field "queued_jobs" Decoder.int64
    |>.field "processing_jobs" Decoder.int64
    |>.field "retrying_jobs" Decoder.int64
    |>.field "completed_jobs" Decoder.int64
    |>.field "dead_letter_jobs" Decoder.int64
    |>.field "uptime_seconds" Decoder.int64).decoder "StatsResponse"

end StatsResponse

/-- A job that was given up. -/
structure DeadLetterEntry where
  jobId : String
  tenantId : String
  documentId : String
  documentVersionId : String
  action : String
  attemptCount : Int
  maxAttempts : Int
  error : Option String
  finishedAt : Option Int
  deriving DecidableEq, Repr

namespace DeadLetterEntry

def ofJob (j : Job) : DeadLetterEntry :=
  ⟨j.id, j.tenantId, j.documentId, j.documentVersionId, j.action.name, j.attemptCount, j.maxAttempts, j.error,
    j.finishedAt⟩

def toJson (e : DeadLetterEntry) : Json := .object [
  ("job_id", .string e.jobId),
  ("tenant_id", .string e.tenantId),
  ("document_id", .string e.documentId),
  ("document_version_id", .string e.documentVersionId),
  ("action", .string e.action),
  ("attempt_count", .int e.attemptCount),
  ("max_attempts", .int e.maxAttempts),
  ("error", Json.ofText? e.error),
  ("finished_at", Json.ofInt? e.finishedAt)]

def decoder : Decoder DeadLetterEntry :=
  ((Record.pure DeadLetterEntry.mk)
    |>.field "job_id" Decoder.string
    |>.field "tenant_id" Decoder.string
    |>.field "document_id" Decoder.string
    |>.field "document_version_id" Decoder.string
    |>.field "action" Decoder.string
    |>.field "attempt_count" Decoder.int32
    |>.field "max_attempts" Decoder.int32
    |>.optionalField "error" Decoder.string
    |>.optionalField "finished_at" Decoder.int64).decoder "DeadLetterEntry"

end DeadLetterEntry

structure DeadLettersResponse where
  jobs : List DeadLetterEntry
  deriving DecidableEq, Repr

namespace DeadLettersResponse

def toJson (r : DeadLettersResponse) : Json := .object [
  ("jobs", .array (r.jobs.map DeadLetterEntry.toJson))]

def decoder : Decoder DeadLettersResponse :=
  ((Record.pure DeadLettersResponse.mk)
    |>.field "jobs" (Decoder.list DeadLetterEntry.decoder)).decoder "DeadLettersResponse"

end DeadLettersResponse

end IngestionQueue.Rpc
