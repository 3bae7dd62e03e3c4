import IngestionQueue.Bytes.Base64
import IngestionQueue.Rpc.Message

/-!
# The remote methods

A call names a method and may carry parameters. Parameters that do not fit the method and a name that is no
method are refused before anything is done. An error of the queue is answered with its code, and with its bare
text where it carries one.
-/

namespace IngestionQueue.Rpc

structure RpcError where
  code : Int
  message : String
  deriving DecidableEq, Repr

namespace RpcError

def methodNotFound : RpcError := ⟨-32601, "Method not found"⟩

def invalidParams : RpcError := ⟨-32602, "Invalid params"⟩

/-- The code of an error of the queue. -/
def codeOf : AppError → Int
  | .validation _ | .domain _ | .serialization _ | .unsupportedParser _ | .emptyContent => 4000
  | .notFound _ => 4001
  | .conflict _ | .leaseLost _ => 4002
  | .config _ | .internal _ => 5000
  | .database _ => 5001
  | .storage _ | .io _ => 5002

/-- The text of an error of the queue. -/
def textOf : AppError → String
  | .validation text | .notFound text | .conflict text | .database text | .internal text => text
  | e => e.message

def ofAppError (e : AppError) : RpcError := ⟨codeOf e, textOf e⟩

def ofBase64 (e : Base64.DecodeError) : RpcError :=
  let why := e.message
  ⟨4000, s!"content_base64 is not valid base64: {why}"⟩

def toJson (e : RpcError) : Json := .object [
  ("code", .int e.code),
  ("message", .string e.message)]

end RpcError

/-- The methods that a server has. -/
inductive Method
  | enqueue
  | upload
  | reindex
  | job
  | stats
  | deadLetters
  deriving DecidableEq, Repr

namespace Method

def name : Method → String
  | enqueue => "ingest.enqueue.v1"
  | upload => "ingest.upload.v1"
  | reindex => "ingest.reindex.v1"
  | job => "ingest.job.v1"
  | stats => "admin.stats.v1"
  | deadLetters => "admin.dead_letters.v1"

def all : List Method := [enqueue, upload, reindex, job, stats, deadLetters]

def ofName? (s : String) : Option Method :=
  all.find? fun m => m.name == s

end Method

/-- The greatest number of dead letters that one call returns. -/
def maxDeadLetters : Int := 500

/-- A call with its parameters. -/
inductive Call
  | enqueue (r : EnqueueRequest)
  | upload (p : UploadParams)
  | reindex (p : ReindexParams)
  | job (p : JobParams)
  | stats
  | deadLetters (p : DeadLettersParams)
  deriving DecidableEq, Repr

namespace Call

/-- Reads the parameters of a method; parameters that are missing count as `null`. -/
def read (m : Method) (params : Option Json.Syntax) : Except RpcError Call :=
  let decode {α : Type} (d : Json.Decoder α) : Except RpcError α :=
    (d Json.maxDepth (params.getD .null)).mapError fun _ => .invalidParams
  match m with
  | .enqueue => (decode enqueueParams).map .enqueue
  | .upload => (decode UploadParams.decoder).map .upload
  | .reindex => (decode ReindexParams.decoder).map .reindex
  | .job => (decode JobParams.decoder).map .job
  | .stats => .ok .stats
  | .deadLetters => (decode DeadLettersParams.decoder).map .deadLetters

/-- The upload that a call asks for. -/
def uploadRequest (p : UploadParams) : Except RpcError UploadRequest :=
  match Base64.decode (Utf8.ofString p.contentBase64) with
  | .ok content => .ok ⟨p.tenantId, p.workspaceId, p.kbId, p.fileName, content, p.idempotencyKey⟩
  | .error e => .error (.ofBase64 e)

end Call

/-- What a server answers on a world, and the world after it. -/
abbrev Answer := Except RpcError Json × World

/-- Answers with the result of a service. -/
def answer {α : Type} (f : Service α) (toJson : α → Json) (w : World) : Answer :=
  match f.on w with
  | (.ok a, w) => (.ok (toJson a), w)
  | (.error e, w) => (.error (.ofAppError e), w)

/-- Answers a call, `uptime` being for how many seconds the server has been running. -/
def Call.serve (maxAttempts uptime : Int) (c : Call) (w : World) : Answer :=
  match c with
  | .enqueue r =>
    answer (Ingestion.enqueue maxAttempts r) (fun o => (EnqueueResponse.ofJob o.job o.created).toJson) w
  | .upload p =>
    match uploadRequest p with
    | .ok r => answer (Ingestion.upload maxAttempts r) (fun r => (UploadResponse.ofReceipt r).toJson) w
    | .error e => (.error e, w)
  | .reindex p =>
    answer (Ingestion.reindex maxAttempts p.tenantId p.documentId p.idempotencyKey)
      (fun o => (EnqueueResponse.ofJob o.job o.created).toJson) w
  | .job p => answer (Ingestion.job p.jobId p.tenantId) JobView.toJson w
  | .stats => answer Ingestion.stats (fun s => (StatsResponse.ofStats s uptime).toJson) w
  | .deadLetters p =>
    answer (Ingestion.deadLetters (max 1 (min p.limit maxDeadLetters)))
      (fun jobs => (DeadLettersResponse.mk (jobs.map DeadLetterEntry.ofJob)).toJson) w

/-- Answers the call of a method by its name. -/
def serve (maxAttempts uptime : Int) (method : String) (params : Option Json.Syntax) (w : World) : Answer :=
  match Method.ofName? method with
  | none => (.error .methodNotFound, w)
  | some m =>
    match Call.read m params with
    | .error e => (.error e, w)
    | .ok c => c.serve maxAttempts uptime w

end IngestionQueue.Rpc
