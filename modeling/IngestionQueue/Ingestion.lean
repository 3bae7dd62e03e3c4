import IngestionQueue.IdempotencyKey
import IngestionQueue.ObjectKey
import IngestionQueue.World

/-!
# Producing jobs

An enqueue asks for a job for a version that is already stored, an upload stores a new version and asks for
its first job, a reindex asks for another job for the current version of a document. A request that derives
the key of an earlier one is answered with the job of the earlier one.
-/

namespace IngestionQueue

structure EnqueueRequest where
  tenantId : String
  workspaceId : String
  kbId : String
  documentId : String
  documentVersionId : String
  action : String
  idempotencyKey : Option String
  deriving DecidableEq, Repr

/-- The job of a request, and whether the request has made it. -/
structure EnqueueOutcome where
  job : Job
  created : Bool
  deriving DecidableEq, Repr

structure UploadRequest where
  tenantId : String
  workspaceId : String
  kbId : String
  fileName : String
  content : Bytes
  idempotencyKey : Option String
  deriving DecidableEq, Repr

structure UploadReceipt where
  documentId : String
  documentVersionId : String
  version : Int
  objectKey : String
  job : Job
  deriving DecidableEq, Repr

/-- The number of jobs of each status. -/
structure QueueStats where
  queued : Int
  processing : Int
  retrying : Int
  completed : Int
  deadLetter : Int
  deriving DecidableEq, Repr

def QueueStats.total (s : QueueStats) : Int :=
  s.queued + s.processing + s.retrying + s.completed + s.deadLetter

def requireNonEmpty (field value : String) : Except AppError Unit :=
  if Text.isBlankText value then .error (.validation s!"{field} must not be empty") else .ok ()

def checkClientKey (key : Option String) : Except AppError Unit :=
  match key with
  | some k =>
    if IdempotencyKey.maxClientKeyLength < k.length then
      let limit := IdempotencyKey.maxClientKeyLength
      .error (.validation s!"idempotency_key longer than {limit} chars")
    else .ok ()
  | none => .ok ()

namespace EnqueueRequest

def target (r : EnqueueRequest) : JobTarget where
  tenantId := r.tenantId
  workspaceId := r.workspaceId
  kbId := r.kbId
  documentId := r.documentId
  documentVersionId := r.documentVersionId

/-- The action of a request without a fault; of several faults the first field's counts. -/
def check (r : EnqueueRequest) : Except AppError IngestAction := do
  requireNonEmpty "tenant_id" r.tenantId
  requireNonEmpty "workspace_id" r.workspaceId
  requireNonEmpty "kb_id" r.kbId
  requireNonEmpty "document_id" r.documentId
  requireNonEmpty "document_version_id" r.documentVersionId
  checkClientKey r.idempotencyKey
  match IngestAction.parse r.action with
  | .ok action => return action
  | .error e => .error (.validation e.message)

def key (r : EnqueueRequest) (action : IngestAction) : String :=
  IdempotencyKey.build r.target action r.idempotencyKey

/-- The job that a request asks for. -/
def job (r : EnqueueRequest) (action : IngestAction) (id : String) (now maxAttempts : Int) : Job :=
  Job.queued id now r.target action (r.key action) maxAttempts

end EnqueueRequest

/-- What the look-up of a request's key shows: the job that has the key, or the job that is to be inserted. -/
inductive KeyLookup
  | taken (job : Job)
  | free (job : Job)

namespace UploadRequest

def check (r : UploadRequest) : Except AppError Unit := do
  requireNonEmpty "tenant_id" r.tenantId
  requireNonEmpty "workspace_id" r.workspaceId
  requireNonEmpty "kb_id" r.kbId
  checkClientKey r.idempotencyKey
  if r.content.isEmpty then .error (.validation "file is empty") else .ok ()

/-- The name that a document is known by, which is the trimmed name of its file. -/
def sourceUri (r : UploadRequest) : String :=
  let name := Text.trim r.fileName
  if name.isEmpty then "upload.bin" else name

/-- The document after the upload, given the document that has the name already. -/
def document (r : UploadRequest) (now : Int) (existing : Option Document) (freshId : String) : Document :=
  match existing with
  | some d =>
    { d with
      currentVersion := d.currentVersion + 1
      title := r.sourceUri
      status := .pending
      updatedAt := now }
  | none =>
    { id := freshId
      tenantId := r.tenantId
      workspaceId := r.workspaceId
      kbId := r.kbId
      title := r.sourceUri
      sourceUri := some r.sourceUri
      currentVersion := 1
      status := .pending
      createdAt := now
      updatedAt := now }

end UploadRequest

/-- An upload whose document is chosen: the document as it will be written, with the number of the new
version, and the time of the upload. -/
structure UploadPlan where
  request : UploadRequest
  now : Int
  document : Document
  deriving DecidableEq, Repr

namespace UploadPlan

/-- The key of the uploaded object. -/
def objectKey (p : UploadPlan) : String :=
  IngestionQueue.objectKey p.request.tenantId p.request.kbId p.document.id p.document.currentVersion
    (FileName.sanitize p.request.sourceUri)

def version (p : UploadPlan) (id : String) : DocumentVersion where
  id := id
  tenantId := p.request.tenantId
  documentId := p.document.id
  version := p.document.currentVersion
  objectKey := p.objectKey
  parserType := ParserType.infer (FileName.sanitize p.request.sourceUri)
  parseStatus := .pending
  checksum := some (Sha256.hexDigest p.request.content)
  createdAt := p.now

def target (p : UploadPlan) (v : DocumentVersion) : JobTarget where
  tenantId := p.request.tenantId
  workspaceId := p.request.workspaceId
  kbId := p.request.kbId
  documentId := p.document.id
  documentVersionId := v.id

def job (p : UploadPlan) (maxAttempts : Int) (v : DocumentVersion) (id : String) : Job :=
  let target := p.target v
  Job.queued id p.now target .upload (IdempotencyKey.build target .upload p.request.idempotencyKey) maxAttempts

end UploadPlan

namespace Ingestion

/-- Checks a request and looks its key up. -/
def lookUp (maxAttempts : Int) (r : EnqueueRequest) : Service KeyLookup := do
  let action ← r.check
  match ← Service.read fun s => s.jobByKey? r.tenantId (r.key action) with
  | some job => return .taken job
  | none =>
    let id ← Service.freshId
    let now ← Service.now
    return .free (r.job action id now maxAttempts)

/-- Asks for a job, which is due at once if it is new. -/
def enqueue (maxAttempts : Int) (r : EnqueueRequest) : Service EnqueueOutcome := do
  match ← lookUp maxAttempts r with
  | .taken job => return ⟨job, false⟩
  | .free job =>
    let (stored, created) ← Service.query (Query.insertJobIfAbsent job)
    return ⟨stored, created⟩

/-- The document that an upload adds a version to, or a new one. -/
def uploadedDocument (r : UploadRequest) (now : Int) : Service Document := do
  match ← Service.read fun s => s.documentFrom? r.tenantId r.workspaceId r.kbId r.sourceUri with
  | some d => return r.document now (some d) ""
  | none => return r.document now none (← Service.freshId)

/-- Checks an upload and chooses its document and the number of the new version. -/
def plan (r : UploadRequest) : Service UploadPlan := do
  r.check
  let now ← Service.now
  return ⟨r, now, ← uploadedDocument r now⟩

/-- Stores the bytes of an upload. -/
def storeObject (p : UploadPlan) : Service Unit :=
  Service.putObject p.objectKey p.request.content

/-- Writes the version that names the bytes together with its job. -/
def record (maxAttempts : Int) (p : UploadPlan) : Service UploadReceipt := do
  let v := p.version (← Service.freshId)
  let job := p.job maxAttempts v (← Service.freshId)
  Service.query (Query.saveUpload p.document v (some job))
  return ⟨p.document.id, v.id, v.version, v.objectKey, job⟩

/-- Stores the bytes, then the version that names them together with its job. -/
def upload (maxAttempts : Int) (r : UploadRequest) : Service UploadReceipt := do
  let p ← plan r
  storeObject p
  record maxAttempts p

/-- The document that is to be indexed again, unless it is deleted. -/
def liveDocument (tenantId documentId : String) : Service Document := do
  let found ← Service.read fun s => s.document? tenantId documentId
  Service.orElseThrow (found.filter fun d => d.status != .deleted) (.notFound s!"document {documentId}")

/-- The request to index the current version of a document. -/
def reindexRequest (d : Document) (idempotencyKey : Option String) : Service EnqueueRequest := do
  match ← Service.read fun s => s.version? d.id d.currentVersion with
  | none =>
    let id := d.id
    let version := d.currentVersion
    throw (.conflict s!"document {id} has no version {version}")
  | some v =>
    return {
      tenantId := d.tenantId
      workspaceId := d.workspaceId
      kbId := d.kbId
      documentId := d.id
      documentVersionId := v.id
      action := IngestAction.reindex.name
      idempotencyKey := idempotencyKey }

/-- Asks for another job for the current version of a document. -/
def reindex (maxAttempts : Int) (tenantId documentId : String) (idempotencyKey : Option String) :
    Service EnqueueOutcome := do
  let d ← liveDocument tenantId documentId
  enqueue maxAttempts (← reindexRequest d idempotencyKey)

/-- A job as its clients see it; another tenant's job is not found. -/
def job (id : String) (tenantId : Option String) : Service JobView := do
  let found ← Service.read fun s => s.jobById? id
  let visible := found.filter fun j => tenantId.all fun t => j.tenantId == t
  let j ← Service.orElseThrow visible (.notFound s!"ingestion job {id}")
  return j.view

def stats : Service QueueStats := Service.read fun s =>
  { queued := s.countJobs .queued
    processing := s.countJobs .processing
    retrying := s.countJobs .retrying
    completed := s.countJobs .completed
    deadLetter := s.countJobs .deadLetter }

/-- The jobs that were given up, the latest first, at least one of them where there is one. -/
def deadLetters (limit : Int) : Service (List Job) :=
  Service.read fun s => s.listJobs .deadLetter (max limit 1)

end Ingestion

end IngestionQueue
