import IngestionQueue.Chunk
import IngestionQueue.Ingestion
import IngestionQueue.Wire.Job

/-!
# Written form of requests and their results

The token of the client is the one field of a request that may be left out at the end of an array.
-/

namespace IngestionQueue

open Json (Record Decoder)

namespace ChunkConfig

def toJson (c : ChunkConfig) : Json := .object [
  ("chunk_size", .int c.chunkSize),
  ("overlap", .int c.overlap)]

/-- The sizes as they are written, whether they make sense or not. -/
def decoder : Decoder ChunkConfig :=
  ((Record.pure ChunkConfig.mk)
    |>.field "chunk_size" Decoder.nat64
    |>.field "overlap" Decoder.nat64).decoder "ChunkConfig"

end ChunkConfig

namespace EnqueueRequest

def toJson (r : EnqueueRequest) : Json := .object [
  ("tenant_id", .string r.tenantId),
  ("workspace_id", .string r.workspaceId),
  ("kb_id", .string r.kbId),
  ("document_id", .string r.documentId),
  ("document_version_id", .string r.documentVersionId),
  ("action", .string r.action),
  ("idempotency_key", Json.ofText? r.idempotencyKey)]

def decoder : Decoder EnqueueRequest :=
  ((Record.pure EnqueueRequest.mk)
    |>.field "tenant_id" Decoder.string
    |>.field "workspace_id" Decoder.string
    |>.field "kb_id" Decoder.string
    |>.field "document_id" Decoder.string
    |>.field "document_version_id" Decoder.string
    |>.field "action" Decoder.string
    |>.trailingField "idempotency_key" Decoder.string).decoder "EnqueueRequest"

end EnqueueRequest

namespace EnqueueOutcome

def toJson (o : EnqueueOutcome) : Json := .object [
  ("job", o.job.toJson),
  ("created", .bool o.created)]

def decoder : Decoder EnqueueOutcome :=
  ((Record.pure EnqueueOutcome.mk)
    |>.field "job" Job.decoder
    |>.field "created" Decoder.bool).decoder "EnqueueOutcome"

end EnqueueOutcome

namespace UploadRequest

/-- The content is written as an array of bytes. -/
def toJson (r : UploadRequest) : Json := .object [
  ("tenant_id", .string r.tenantId),
  ("workspace_id", .string r.workspaceId),
  ("kb_id", .string r.kbId),
  ("filename", .string r.fileName),
  ("content", .array (r.content.map fun b => .int b.toNat)),
  ("idempotency_key", Json.ofText? r.idempotencyKey)]

def decoder : Decoder UploadRequest :=
  ((Record.pure UploadRequest.mk)
    |>.field "tenant_id" Decoder.string
    |>.field "workspace_id" Decoder.string
    |>.field "kb_id" Decoder.string
    |>.field "filename" Decoder.string
    |>.field "content" (Decoder.list Decoder.byte)
    |>.trailingField "idempotency_key" Decoder.string).decoder "UploadRequest"

end UploadRequest

namespace UploadReceipt

def toJson (r : UploadReceipt) : Json := .object [
  ("document_id", .string r.documentId),
  ("document_version_id", .string r.documentVersionId),
  ("version", .int r.version),
  ("object_key", .string r.objectKey),
  ("job", r.job.toJson)]

def decoder : Decoder UploadReceipt :=
  ((Record.pure UploadReceipt.mk)
    |>.field "document_id" Decoder.string
    |>.field "document_version_id" Decoder.string
    |>.field "version" Decoder.int32
    |>.field "object_key" Decoder.string
    |>.field "job" Job.decoder).decoder "UploadReceipt"

end UploadReceipt

namespace QueueStats

def toJson (s : QueueStats) : Json := .object [
  ("queued", .int s.queued),
  ("processing", .int s.processing),
  ("retrying", .int s.retrying),
  ("completed", .int s.completed),
  ("dead_letter", .int s.deadLetter)]

def decoder : Decoder QueueStats :=
  ((Record.pure QueueStats.mk)
    |>.field "queued" Decoder.int64
    |>.field "processing" Decoder.int64
    |>.field "retrying" Decoder.int64
    |>.field "completed" Decoder.int64
    |>.field "dead_letter" Decoder.int64).decoder "QueueStats"

end QueueStats

end IngestionQueue
