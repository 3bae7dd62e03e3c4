import IngestionQueue.Store.Basic

/-!
# The table of jobs

A job is inserted unless its tenant already has a job with its key. A claim takes the earliest job that is
due, or whose lease has expired, as long as it has attempts left. Every write of a worker is fenced: it
changes the job only while the job is being processed by that worker in that attempt, and fails with a lost
lease otherwise.

The time before which a lease has expired is the exact difference of clock and timeout. Where that is no 64-bit
integer, no claim and no sweep comes to ask for it (`Checked.claimNext`, `Checked.abandonedJobs`).
-/

namespace IngestionQueue

namespace Job

/-- When the lease was last known to be in use. -/
def refreshedAt (j : Job) : Option Int :=
  j.heartbeatAt <|> j.lockedAt

/-- Whether a time is known and lies before a bound. -/
def earlier (time : Option Int) (bound : Int) : Prop :=
  match time with
  | some t => t < bound
  | none => False

instance (time : Option Int) (bound : Int) : Decidable (earlier time bound) :=
  match time with
  | some t => inferInstanceAs (Decidable (t < bound))
  | none => inferInstanceAs (Decidable False)

/-- The job is being processed and its lease was not refreshed for longer than the timeout. -/
def LeaseExpired (now timeout : Int) (j : Job) : Prop :=
  j.status = .processing ∧ earlier j.refreshedAt (now - timeout)

instance (now timeout : Int) (j : Job) : Decidable (LeaseExpired now timeout j) :=
  inferInstanceAs (Decidable (_ ∧ _))

/-- The job waits for a worker, its time has come, and nobody holds it. -/
def Due (now timeout : Int) (j : Job) : Prop :=
  (j.status = .queued ∨ j.status = .retrying) ∧ j.nextRunAt ≤ now ∧
    (j.lockedAt = none ∨ earlier j.lockedAt (now - timeout))

instance (now timeout : Int) (j : Job) : Decidable (Due now timeout j) :=
  inferInstanceAs (Decidable (_ ∧ _ ∧ _))

/-- The job may be taken by a claim: it has attempts left, and it is due or its lease has expired. -/
def Claimable (now timeout : Int) (j : Job) : Prop :=
  j.attemptCount < j.maxAttempts ∧ (Due now timeout j ∨ LeaseExpired now timeout j)

instance (now timeout : Int) (j : Job) : Decidable (Claimable now timeout j) :=
  inferInstanceAs (Decidable (_ ∧ _))

/-- The last attempt was made and its worker has vanished. -/
def Abandoned (now timeout : Int) (j : Job) : Prop :=
  j.maxAttempts ≤ j.attemptCount ∧ LeaseExpired now timeout j

instance (now timeout : Int) (j : Job) : Decidable (Abandoned now timeout j) :=
  inferInstanceAs (Decidable (_ ∧ _))

/-- Jobs come in the order of their creation, and of their identifiers where that is the same. -/
def precedes (j k : Job) : Bool :=
  j.createdAt < k.createdAt || (j.createdAt == k.createdAt && j.id ≤ k.id)

/-- The job of a list that precedes all others. -/
def first? : List Job → Option Job
  | [] => none
  | j :: rest =>
    match first? rest with
    | none => some j
    | some k => some (if j.precedes k then j else k)

/-- The job after a worker has claimed it. -/
def claim (j : Job) (workerId : String) (now : Int) : Job :=
  { j with
    status := .processing
    stage := .loading
    progress := progressLoading
    lockedAt := some now
    lockedBy := some workerId
    heartbeatAt := some now
    startedAt := j.startedAt <|> some now
    attemptCount := j.attemptCount + 1
    error := none
    updatedAt := now }

/-- The job after a sign of life of its worker. -/
def refresh (j : Job) (now : Int) : Job :=
  { j with heartbeatAt := some now, updatedAt := now }

def advance (j : Job) (stage : JobStage) (progress now : Int) : Job :=
  { j.refresh now with stage := stage, progress := progress }

def complete (j : Job) (now : Int) : Job :=
  { j.refresh now with
    status := .completed
    stage := .completed
    progress := progressDone
    finishedAt := some now
    lockedAt := none
    lockedBy := none
    error := none }

/-- The job after a failed attempt. -/
def fail (j : Job) (outcome : FailureOutcome) (error : String) (now : Int) : Job :=
  let failed : Job :=
    { j.refresh now with
      stage := .failed
      progress := 0
      lockedAt := none
      lockedBy := none
      error := some error }
  match outcome with
  | .retry nextRunAt => { failed with status := .retrying, nextRunAt := nextRunAt }
  | .deadLetter => { failed with status := .deadLetter, finishedAt := some now }

end Job

namespace Lease

/-- The job is being processed under this lease. -/
def Holds (l : Lease) (j : Job) : Prop :=
  j.id = l.jobId ∧ j.status = .processing ∧ j.lockedBy = some l.workerId ∧ j.attemptCount = l.attempt

instance (l : Lease) (j : Job) : Decidable (l.Holds j) :=
  inferInstanceAs (Decidable (_ ∧ _ ∧ _ ∧ _))

def lost (l : Lease) : AppError :=
  let job := l.jobId
  let attempt := l.attempt
  let worker := l.workerId
  .leaseLost s!"job {job} attempt {attempt} is no longer held by {worker}"

end Lease

namespace Store

def jobByKey? (s : Store) (tenantId key : String) : Option Job :=
  s.jobs.find? fun j => j.tenantId == tenantId && j.idempotencyKey == key

def jobById? (s : Store) (id : String) : Option Job :=
  s.jobs.find? fun j => j.id == id

/-- The jobs that a claim may take. -/
def claimable (s : Store) (now timeout : Int) : List Job :=
  s.jobs.filter fun j => decide (j.Claimable now timeout)

/-- Replaces the job that has an identifier. -/
def updateJob (s : Store) (id : String) (f : Job → Job) : Store :=
  { s with jobs := s.jobs.map fun j => if j.id = id then f j else j }

def countJobs (s : Store) (status : JobStatus) : Nat :=
  s.jobs.countP fun j => j.status == status

/-- The jobs of a status, the latest change first; a negative limit is none. -/
def listJobs (s : Store) (status : JobStatus) (limit : Int) : List Job :=
  let found := (s.jobs.filter fun j => j.status == status).mergeSort fun a b =>
    b.updatedAt < a.updatedAt || (a.updatedAt == b.updatedAt && b.id ≤ a.id)
  if limit < 0 then found else found.take limit.toNat

/-- The jobs whose last attempt was abandoned, in the order of their creation. -/
def abandonedJobs (s : Store) (now timeout : Int) : List Job :=
  (s.jobs.filter fun j => decide (j.Abandoned now timeout)).mergeSort Job.precedes

end Store

namespace Query

/-- Inserts a job unless its tenant has one with its key, and tells whether it did. -/
def insertJob (j : Job) : Query Bool := do
  let s ← get
  if j.progress < 0 ∨ 100 < j.progress then refuse (.check "progress BETWEEN 0 AND 100")
  else if j.maxAttempts < 1 then refuse (.check "max_attempts >= 1")
  else if (s.jobByKey? j.tenantId j.idempotencyKey).isSome then return false
  else if (s.jobById? j.id).isSome then refuse (.primaryKey "ingestion_jobs.id")
  else if !(s.hasDocument j.documentId && s.hasVersion j.documentVersionId) then refuse .foreignKey
  else
    set { s with jobs := s.jobs ++ [j] }
    return true

/-- The job that is stored under the key of a job. -/
def readBack (j : Job) : Query Job := do
  match (← get).jobByKey? j.tenantId j.idempotencyKey with
  | some stored => return stored
  | none =>
    let key := j.idempotencyKey
    throw (.internal s!"job with key {key} vanished after insert")

/-- The job of the key, and whether it was inserted just now. -/
def insertJobIfAbsent (j : Job) : Query (Job × Bool) := do
  let created ← insertJob j
  return (← readBack j, created)

/-- Claims the first claimable job for a worker. -/
def claimNext (now : Int) (workerId : String) (timeout : Int) : Query (Option ClaimedJob) := do
  let s ← get
  match Job.first? (s.claimable now timeout) with
  | none => return none
  | some j =>
    set (s.updateJob j.id fun k => k.claim workerId now)
    return some (j.claim workerId now).claimed

/-- Changes the job that is held under a lease. -/
def underLease (l : Lease) (f : Job → Job) : Query Unit := do
  let s ← get
  if s.jobs.any fun j => decide (l.Holds j) then
    set { s with jobs := s.jobs.map fun j => if l.Holds j then f j else j }
  else throw l.lost

def heartbeat (now : Int) (l : Lease) : Query Unit :=
  underLease l fun j => j.refresh now

def advanceStage (now : Int) (l : Lease) (stage : JobStage) (progress : Int) : Query Unit :=
  if progress < 0 ∨ 100 < progress then throw (.domain (.invalidProgress progress))
  else underLease l fun j => j.advance stage progress now

def complete (now : Int) (l : Lease) : Query Unit :=
  underLease l fun j => j.complete now

def fail (now : Int) (l : Lease) (outcome : FailureOutcome) (error : String) : Query Unit :=
  underLease l fun j => j.fail outcome error now

end Query

end IngestionQueue
