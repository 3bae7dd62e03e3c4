import IngestionQueue.Error

/-!
# Jobs

A job asks for one version of a document to be indexed. It is queued, then claimed by a worker; the attempt
ends with the job completed, due again later, or given up. A claim hands out a lease, the job together with
the worker and the number of the attempt, and every later write of the worker is made under it.
-/

namespace IngestionQueue

inductive JobStatus
  | queued
  | processing
  | retrying
  | completed
  | deadLetter
  deriving DecidableEq, Repr

namespace JobStatus

def name : JobStatus → String
  | queued => "queued"
  | processing => "processing"
  | retrying => "retrying"
  | completed => "completed"
  | deadLetter => "dead_letter"

def all : List JobStatus := [queued, processing, retrying, completed, deadLetter]

def parse (s : String) : Except DomainError JobStatus :=
  match all.find? fun a => a.name == s with
  | some a => .ok a
  | none => .error (.unknownStatus s)

/-- A terminal status is never left. -/
def isTerminal : JobStatus → Bool
  | completed | deadLetter => true
  | _ => false

end JobStatus

/-- How far an attempt has come. -/
inductive JobStage
  | queued
  | loading
  | chunking
  | completed
  | failed
  deriving DecidableEq, Repr

namespace JobStage

def name : JobStage → String
  | queued => "queued"
  | loading => "loading"
  | chunking => "chunking"
  | completed => "completed"
  | failed => "failed"

def all : List JobStage := [queued, loading, chunking, completed, failed]

def parse (s : String) : Except DomainError JobStage :=
  match all.find? fun a => a.name == s with
  | some a => .ok a
  | none => .error (.unknownStage s)

end JobStage

/-- What brought the job about. -/
inductive IngestAction
  | upload
  | reindex
  deriving DecidableEq, Repr

namespace IngestAction

def name : IngestAction → String
  | upload => "upload"
  | reindex => "reindex"

def all : List IngestAction := [upload, reindex]

def parse (s : String) : Except DomainError IngestAction :=
  match all.find? fun a => a.name == s with
  | some a => .ok a
  | none => .error (.unknownAction s)

end IngestAction

/-- Progress of an attempt when it starts, when it cuts the text, and when it is done. -/
def progressLoading : Int := 5

def progressChunking : Int := 45

def progressDone : Int := 100

/-- One job with its lease, its attempts and its times, which are milliseconds. -/
structure Job where
  id : String
  tenantId : String
  idempotencyKey : String
  workspaceId : String
  kbId : String
  documentId : String
  documentVersionId : String
  action : IngestAction
  status : JobStatus
  stage : JobStage
  progress : Int
  lockedAt : Option Int
  lockedBy : Option String
  heartbeatAt : Option Int
  attemptCount : Int
  maxAttempts : Int
  nextRunAt : Int
  startedAt : Option Int
  finishedAt : Option Int
  error : Option String
  createdAt : Int
  updatedAt : Int
  deriving DecidableEq, Repr

/-- What a job is about. -/
structure JobTarget where
  tenantId : String
  workspaceId : String
  kbId : String
  documentId : String
  documentVersionId : String
  deriving DecidableEq, Repr

/-- The right to write the outcome of one attempt of a job. -/
structure Lease where
  jobId : String
  workerId : String
  attempt : Int
  deriving DecidableEq, Repr

/-- What a claim returns. -/
structure ClaimedJob where
  id : String
  tenantId : String
  workspaceId : String
  kbId : String
  documentId : String
  documentVersionId : String
  attemptCount : Int
  maxAttempts : Int
  deriving DecidableEq, Repr

/-- How a failed attempt is recorded. -/
inductive FailureOutcome
  | retry (nextRunAt : Int)
  | deadLetter
  deriving DecidableEq, Repr

/-- A job as its clients see it. -/
structure JobView where
  jobId : String
  workspaceId : String
  documentId : String
  documentVersionId : String
  status : JobStatus
  stage : JobStage
  progress : Int
  attemptCount : Int
  maxAttempts : Int
  nextRunAt : Int
  lockedAt : Option Int
  lockedBy : Option String
  heartbeatAt : Option Int
  startedAt : Option Int
  finishedAt : Option Int
  error : Option String
  terminal : Bool
  deriving DecidableEq, Repr

namespace Job

/-- A new job, due at once. -/
def queued (id : String) (now : Int) (target : JobTarget) (action : IngestAction) (key : String)
    (maxAttempts : Int) : Job where
  id := id
  tenantId := target.tenantId
  idempotencyKey := key
  workspaceId := target.workspaceId
  kbId := target.kbId
  documentId := target.documentId
  documentVersionId := target.documentVersionId
  action := action
  status := .queued
  stage := .queued
  progress := 0
  lockedAt := none
  lockedBy := none
  heartbeatAt := none
  attemptCount := 0
  maxAttempts := maxAttempts
  nextRunAt := now
  startedAt := none
  finishedAt := none
  error := none
  createdAt := now
  updatedAt := now

def isTerminal (j : Job) : Bool :=
  j.status.isTerminal

def claimed (j : Job) : ClaimedJob where
  id := j.id
  tenantId := j.tenantId
  workspaceId := j.workspaceId
  kbId := j.kbId
  documentId := j.documentId
  documentVersionId := j.documentVersionId
  attemptCount := j.attemptCount
  maxAttempts := j.maxAttempts

def view (j : Job) : JobView where
  jobId := j.id
  workspaceId := j.workspaceId
  documentId := j.documentId
  documentVersionId := j.documentVersionId
  status := j.status
  stage := j.stage
  progress := j.progress
  attemptCount := j.attemptCount
  maxAttempts := j.maxAttempts
  nextRunAt := j.nextRunAt
  lockedAt := j.lockedAt
  lockedBy := j.lockedBy
  heartbeatAt := j.heartbeatAt
  startedAt := j.startedAt
  finishedAt := j.finishedAt
  error := j.error
  terminal := j.isTerminal

end Job

def ClaimedJob.lease (c : ClaimedJob) (workerId : String) : Lease :=
  ⟨c.id, workerId, c.attemptCount⟩

end IngestionQueue
