import IngestionQueue.Job
import IngestionQueue.Json.Decoding

/-!
# Written form of jobs

A job and the view of a job are written as objects with a field for each of their parts; a part that is
missing is `null`. A member of an enumeration is written as its name.
-/

namespace IngestionQueue

open Json (Record Decoder)

/-- An optional text or time. -/
def Json.ofText? : Option String → Json := Json.ofOption .string

def Json.ofInt? : Option Int → Json := Json.ofOption .int

def JobStatus.toJson (a : JobStatus) : Json := .string a.name

def JobStatus.decoder : Decoder JobStatus := Decoder.variant (all.map fun a => (a.name, a))

def JobStage.toJson (a : JobStage) : Json := .string a.name

def JobStage.decoder : Decoder JobStage := Decoder.variant (all.map fun a => (a.name, a))

def IngestAction.toJson (a : IngestAction) : Json := .string a.name

def IngestAction.decoder : Decoder IngestAction := Decoder.variant (all.map fun a => (a.name, a))

namespace Job

def toJson (j : Job) : Json := .object [
  ("id", .string j.id),
  ("tenant_id", .string j.tenantId),
  ("idempotency_key", .string j.idempotencyKey),
  ("workspace_id", .string j.workspaceId),
  ("kb_id", .string j.kbId),
  ("document_id", .string j.documentId),
  ("document_version_id", .string j.documentVersionId),
  ("action", j.action.toJson),
  ("status", j.status.toJson),
  ("stage", j.stage.toJson),
  ("progress", .int j.progress),
  ("locked_at", Json.ofInt? j.lockedAt),
  ("locked_by", Json.ofText? j.lockedBy),
  ("heartbeat_at", Json.ofInt? j.heartbeatAt),
  ("attempt_count", .int j.attemptCount),
  ("max_attempts", .int j.maxAttempts),
  ("next_run_at", .int j.nextRunAt),
  ("started_at", Json.ofInt? j.startedAt),
  ("finished_at", Json.ofInt? j.finishedAt),
  ("error", Json.ofText? j.error),
  ("created_at", .int j.createdAt),
  ("updated_at", .int j.updatedAt)]

def record : Record Job :=
  (Record.pure Job.mk)
    |>.field "id" Decoder.string
    |>.field "tenant_id" Decoder.string
    |>.field "idempotency_key" Decoder.string
    |>.field "workspace_id" Decoder.string
    |>.field "kb_id" Decoder.string
    |>.field "document_id" Decoder.string
    |>.field "document_version_id" Decoder.string
    |>.field "action" IngestAction.decoder
    |>.field "status" JobStatus.decoder
    |>.field "stage" JobStage.decoder
    |>.field "progress" Decoder.int32
    |>.optionalField "locked_at" Decoder.int64
    |>.optionalField "locked_by" Decoder.string
    |>.optionalField "heartbeat_at" Decoder.int64
    |>.field "attempt_count" Decoder.int32
    |>.field "max_attempts" Decoder.int32
    |>.field "next_run_at" Decoder.int64
    |>.optionalField "started_at" Decoder.int64
    |>.optionalField "finished_at" Decoder.int64
    |>.optionalField "error" Decoder.string
    |>.field "created_at" Decoder.int64
    |>.field "updated_at" Decoder.int64

def decoder : Decoder Job := record.decoder "IngestionJob"

end Job

namespace JobView

def toJson (v : JobView) : Json := .object [
  ("job_id", .string v.jobId),
  ("workspace_id", .string v.workspaceId),
  ("document_id", .string v.documentId),
  ("document_version_id", .string v.documentVersionId),
  ("status", v.status.toJson),
  ("stage", v.stage.toJson),
  ("progress", .int v.progress),
  ("attempt_count", .int v.attemptCount),
  ("max_attempts", .int v.maxAttempts),
  ("next_run_at", .int v.nextRunAt),
  ("locked_at", Json.ofInt? v.lockedAt),
  ("locked_by", Json.ofText? v.lockedBy),
  ("heartbeat_at", Json.ofInt? v.heartbeatAt),
  ("started_at", Json.ofInt? v.startedAt),
  ("finished_at", Json.ofInt? v.finishedAt),
  ("error", Json.ofText? v.error),
  ("terminal", .bool v.terminal)]

def record : Record JobView :=
  (Record.pure JobView.mk)
    |>.field "job_id" Decoder.string
    |>.field "workspace_id" Decoder.string
    |>.field "document_id" Decoder.string
    |>.field "document_version_id" Decoder.string
    |>.field "status" JobStatus.decoder
    |>.field "stage" JobStage.decoder
    |>.field "progress" Decoder.int32
    |>.field "attempt_count" Decoder.int32
    |>.field "max_attempts" Decoder.int32
    |>.field "next_run_at" Decoder.int64
    |>.optionalField "locked_at" Decoder.int64
    |>.optionalField "locked_by" Decoder.string
    |>.optionalField "heartbeat_at" Decoder.int64
    |>.optionalField "started_at" Decoder.int64
    |>.optionalField "finished_at" Decoder.int64
    |>.optionalField "error" Decoder.string
    |>.field "terminal" Decoder.bool

def decoder : Decoder JobView := record.decoder "JobStatusView"

end JobView

/-- The parts of a claimed job. -/
def ClaimedJob.toJson (c : ClaimedJob) : Json := .object [
  ("id", .string c.id),
  ("tenant_id", .string c.tenantId),
  ("workspace_id", .string c.workspaceId),
  ("kb_id", .string c.kbId),
  ("document_id", .string c.documentId),
  ("document_version_id", .string c.documentVersionId),
  ("attempt_count", .int c.attemptCount),
  ("max_attempts", .int c.maxAttempts)]

end IngestionQueue
