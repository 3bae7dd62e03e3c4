import IngestionQueue.Bytes.Base64
import IngestionQueue.Wire.Job

/-!
# Commands of the client

A command names the remote method that it calls and the parameters that it sends, which are written in the
order of their names. Parameters that are missing are sent as `null`.
-/

namespace IngestionQueue.Cli

/-- Where a document belongs. -/
structure Scope where
  tenant : String
  workspace : String
  kb : String
  deriving DecidableEq, Repr

inductive Command
  | enqueue (scope : Scope) (document version action : String) (idempotencyKey : Option String)
  | upload (file : String) (scope : Scope) (name idempotencyKey : Option String)
  | reindex (tenant document : String) (idempotencyKey : Option String)
  | job (id : String) (tenant : Option String)
  | stats
  | deadLetters (limit : Int)
  deriving DecidableEq, Repr

/-- A remote call. -/
structure Request where
  method : String
  params : Json

namespace Request

def enqueue (scope : Scope) (document version action : String) (idempotencyKey : Option String) : Request :=
  ⟨"ingest.enqueue.v1", .ofFields [
    ("tenant_id", .string scope.tenant),
    ("workspace_id", .string scope.workspace),
    ("kb_id", .string scope.kb),
    ("document_id", .string document),
    ("document_version_id", .string version),
    ("action", .string action),
    ("idempotency_key", Json.ofText? idempotencyKey)]⟩

def upload (scope : Scope) (fileName : String) (content : Bytes) (idempotencyKey : Option String) : Request :=
  ⟨"ingest.upload.v1", .ofFields [
    ("tenant_id", .string scope.tenant),
    ("workspace_id", .string scope.workspace),
    ("kb_id", .string scope.kb),
    ("filename", .string fileName),
    ("content_base64", .string (Base64.encodeText content)),
    ("idempotency_key", Json.ofText? idempotencyKey)]⟩

def reindex (tenant document : String) (idempotencyKey : Option String) : Request :=
  ⟨"ingest.reindex.v1", .ofFields [
    ("tenant_id", .string tenant),
    ("document_id", .string document),
    ("idempotency_key", Json.ofText? idempotencyKey)]⟩

def job (id : String) (tenant : Option String) : Request :=
  ⟨"ingest.job.v1", .ofFields [("job_id", .string id), ("tenant_id", Json.ofText? tenant)]⟩

def stats : Request := ⟨"admin.stats.v1", .ofFields []⟩

def deadLetters (limit : Int) : Request := ⟨"admin.dead_letters.v1", .ofFields [("limit", .int limit)]⟩

/-- The message that carries a call. -/
def toJson (r : Request) : Json := .object [
  ("jsonrpc", .string "2.0"),
  ("method", .string r.method),
  ("params", r.params),
  ("id", .int 1)]

end Request

end IngestionQueue.Cli
