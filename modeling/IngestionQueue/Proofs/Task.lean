import IngestionQueue.Proofs.Services

/-!
# Requests as tasks

Others act between the calls that a service makes.  A `Task` is a service that waits for its next call; it
holds what the calls before it have returned.  Resumed until its end without anybody acting in between, a task
does what the service does (`Task.alone_request`).  Whenever a task is resumed, it writes nothing to the
tables or makes one write, and `Task.Step` says which one and what the task knows after it
(`Task.resume_step`).  A call that overflows writes nothing and ends its task.
-/

namespace IngestionQueue

/-- What the queue is asked for. -/
inductive Request
  | enqueue (maxAttempts : Int) (r : EnqueueRequest)
  | upload (maxAttempts : Int) (r : UploadRequest)
  | reindex (maxAttempts : Int) (tenantId documentId : String) (key : Option String)
  | work (worker : Worker)
  | sweep (leaseTimeout : Int)

inductive Reply
  | job (outcome : EnqueueOutcome)
  | receipt (receipt : UploadReceipt)
  | report (outcome : Option JobOutcome)
  | swept (jobs : Nat)

/-- The service that answers a request. -/
def Request.service : Request → Checked Reply
  | enqueue maxAttempts r => do return .job (← Ingestion.enqueue maxAttempts r)
  | upload maxAttempts r => do return .receipt (← Ingestion.upload maxAttempts r)
  | reindex maxAttempts tenantId documentId key => do
    return .job (← Ingestion.reindex maxAttempts tenantId documentId key)
  | work worker => do return .report (← worker.processNext)
  | sweep leaseTimeout => do return .swept (← Recovery.sweep leaseTimeout)

/-- What an attempt does next, with what it has found out. -/
inductive Phase
  | resolve
  | mark (a : Attempt)
  | load (a : Attempt)
  | advance (a : Attempt) (text : String)
  | write (a : Attempt) (text : String)
  | settle (e : Execution)

/-- The next call of an attempt. -/
def Phase.next (chunking : ChunkConfig) (lease : Lease) (versionId : String) : Phase → Service Phase
  | resolve => do return mark (← Attempt.resolve lease versionId)
  | mark a => do
    a.mark
    return load a
  | load a => do return advance a (← a.load)
  | advance a text => do
    a.advance
    return write a text
  | write a text => do return settle (.finished (.ok (← a.write chunking text)))
  | settle e => return settle e

/-- What is left of an attempt, as a service. -/
def Phase.execution (chunking : ChunkConfig) (lease : Lease) (versionId : String) : Phase → Service Execution
  | resolve => do return .finished (← Service.attempt (Attempt.run chunking lease versionId))
  | mark a => do
    return .finished (← Service.attempt do
      a.mark
      a.finish chunking)
  | load a => do return .finished (← Service.attempt (a.finish chunking))
  | advance a text => do
    return .finished (← Service.attempt do
      a.advance
      a.write chunking text)
  | write a text => do return .finished (← Service.attempt (a.write chunking text))
  | settle e => return e

inductive Task
  | asked (r : Request)
  | insertJob (job : Job)
  | readJob (job : Job) (created : Bool)
  | reindexCurrent (maxAttempts : Int) (d : Document) (key : Option String)
  | putObject (maxAttempts : Int) (p : UploadPlan)
  | saveUpload (maxAttempts : Int) (p : UploadPlan)
  | attempt (worker : Worker) (job : ClaimedJob) (phase : Phase)
  | record (worker : Worker) (job : ClaimedJob) (f : Failure)
  | giveUp (jobs : List Job) (given : Nat)
  | ended (result : Except Abort Reply)

namespace Task

/-- The next call of a task. An attempt that fails goes on with its settlement. -/
def next : Task → Checked Task
  | asked (.enqueue maxAttempts r) => do
    match ← Ingestion.lookUp maxAttempts r with
    | .taken job => return ended (.ok (.job ⟨job, false⟩))
    | .free job => return insertJob job
  | insertJob job => do return readJob job (← Service.query (Query.insertJob job))
  | readJob job created => do return ended (.ok (.job ⟨← Service.query (Query.readBack job), created⟩))
  | asked (.reindex maxAttempts tenantId documentId key) => do
    return reindexCurrent maxAttempts (← Ingestion.liveDocument tenantId documentId) key
  | reindexCurrent maxAttempts d key => do
    return asked (.enqueue maxAttempts (← Ingestion.reindexRequest d key))
  | asked (.upload maxAttempts r) => do return putObject maxAttempts (← Ingestion.plan r)
  | putObject maxAttempts p => do
    Ingestion.storeObject p
    return saveUpload maxAttempts p
  | saveUpload maxAttempts p => do return ended (.ok (.receipt (← Ingestion.record maxAttempts p)))
  | asked (.work worker) => do
    match ← worker.claim with
    | none => return ended (.ok (.report none))
    | some job => return attempt worker job .resolve
  | attempt worker job (.settle e) =>
    match e.verdict with
    | .ok report => return ended (.ok (.report (some report)))
    | .error message => do return record worker job (← worker.judge job message)
  | attempt worker job phase => do
    match ← Service.attempt (phase.next worker.chunking (job.lease worker.id) job.documentVersionId) with
    | .ok next => return attempt worker job next
    | .error e => return attempt worker job (.settle (.finished (.error e)))
  | record worker job f => do return ended (.ok (.report (some (← worker.record job f))))
  | asked (.sweep leaseTimeout) => do return giveUp (← Checked.abandonedJobs leaseTimeout) 0
  | giveUp [] given => return ended (.ok (.swept given))
  | giveUp (j :: rest) given => do
    let done ← Recovery.giveUp j
    return giveUp rest (given + if done then 1 else 0)
  | ended result => return ended result

/-- A task after its next call, and the world after it. A call that fails ends the task. -/
def resume (t : Task) (w : World) : Task × World :=
  match t.next.on w with
  | (.ok t', w') => (t', w')
  | (.error e, w') => (ended (.error e), w')

/-- A task that is resumed a number of times while nobody else acts. -/
def alone : Nat → Task → World → Task × World
  | 0, t, w => (t, w)
  | n + 1, t, w => alone n (t.resume w).1 (t.resume w).2

/-! ### Tasks and services -/

/-- What is left of a request, as a service. -/
def service : Task → Checked Reply
  | asked r => r.service
  | insertJob job => do
    let (stored, created) ← Service.query (Query.insertJobIfAbsent job)
    return .job ⟨stored, created⟩
  | readJob job created => do return .job ⟨← Service.query (Query.readBack job), created⟩
  | reindexCurrent maxAttempts d key => do
    return .job (← Ingestion.enqueue maxAttempts (← Ingestion.reindexRequest d key))
  | putObject maxAttempts p => do
    Ingestion.storeObject p
    return .receipt (← Ingestion.record maxAttempts p)
  | saveUpload maxAttempts p => do return .receipt (← Ingestion.record maxAttempts p)
  | attempt worker job phase => do
    let e ← phase.execution worker.chunking (job.lease worker.id) job.documentVersionId
    return .report (some (← worker.settle job e))
  | record worker job f => do return .report (some (← worker.record job f))
  | giveUp jobs given => do return .swept (given + (← Recovery.giveUpAll jobs))
  | ended (.ok reply) => return reply
  | ended (.error e) => throw e

private theorem next_execution (chunking : ChunkConfig) (lease : Lease) (versionId : String) (phase : Phase) :
    (do
      match ← Service.attempt (phase.next chunking lease versionId) with
      | .ok next => next.execution chunking lease versionId
      | .error e => return .finished (.error e)) = phase.execution chunking lease versionId := by
  refine Service.ext fun w => ?_
  cases phase with
  | resolve =>
    simp only [Phase.next, Phase.execution, Attempt.run, Attempt.start, Service.on_bind, Service.on_attempt]
    rcases (Attempt.resolve lease versionId).on w with ⟨_ | a, w'⟩
    · rfl
    · simp only [Service.on_pure, Service.on_bind, Service.on_attempt]
      rcases a.mark.on w' with ⟨_ | _, _⟩ <;> rfl
  | mark a =>
    simp only [Phase.next, Phase.execution, Service.on_bind, Service.on_attempt]
    rcases a.mark.on w with ⟨_ | _, _⟩ <;> rfl
  | load a =>
    simp only [Phase.next, Phase.execution, Attempt.finish, Service.on_bind, Service.on_attempt]
    rcases a.load.on w with ⟨_ | text, w'⟩
    · rfl
    · simp only [Service.on_pure, Service.on_bind, Service.on_attempt]
  | advance a text =>
    simp only [Phase.next, Phase.execution, Service.on_bind, Service.on_attempt]
    rcases a.advance.on w with ⟨_ | _, _⟩ <;> rfl
  | write a text =>
    simp only [Phase.next, Phase.execution, Service.on_bind, Service.on_attempt]
    rcases (a.write chunking text).on w with ⟨_ | _, _⟩ <;> rfl
  | settle e => rfl

private theorem next_attempt (worker : Worker) (job : ClaimedJob) (phase : Phase) :
    (∃ e, phase = .settle e) ∨
      (attempt worker job phase).next = (do
        match ← Service.attempt (phase.next worker.chunking (job.lease worker.id) job.documentVersionId) with
        | .ok next => return attempt worker job next
        | .error e => return attempt worker job (.settle (.finished (.error e)))) := by
  cases phase with
  | settle e => exact .inl ⟨e, rfl⟩
  | _ => exact .inr rfl

/-- A call and what is left after it make up what was left before it. -/
theorem next_service (t : Task) : t.next >>= service = t.service := by
  cases t with
  | asked r =>
    cases r with
    | enqueue maxAttempts r =>
      simp only [next, service, Request.service, Ingestion.enqueue, Checked.lift_bind, bind_assoc]
      refine bind_congr fun found => ?_
      cases found <;> simp [service]
    | upload maxAttempts r => simp [next, service, Request.service, Ingestion.upload]
    | reindex maxAttempts tenantId documentId key =>
      simp [next, service, Request.service, Ingestion.reindex]
    | work worker =>
      simp only [next, service, Request.service, Worker.processNext, bind_assoc]
      refine bind_congr fun claimed => ?_
      cases claimed <;> simp [service, Phase.execution]
    | sweep leaseTimeout => simp [next, service, Request.service, Recovery.sweep]
  | insertJob job =>
    -- The service makes one query of the two statements between which others may act here.
    refine Checked.ext fun w => ?_
    simp only [next, service, Query.insertJobIfAbsent, Checked.on_bind, Checked.on_lift, Service.on_query,
      Query.on_bind]
    rcases (Query.insertJob job).on w.store with ⟨_ | created, s⟩
    · rfl
    · simp only [Checked.on_pure, Checked.on_bind, Checked.on_lift, Service.on_query]
      rcases (Query.readBack job).on s with ⟨_ | _, _⟩ <;> rfl
  | readJob job created => simp [next, service]
  | reindexCurrent maxAttempts d key => simp [next, service, Request.service]
  | putObject maxAttempts p => simp [next, service]
  | saveUpload maxAttempts p => simp [next, service]
  | attempt worker job phase =>
    rcases next_attempt worker job phase with ⟨e, rfl⟩ | hnext
    · -- Only the settlement leaves the attempt, all other phases stay in it.
      simp only [next, service, Phase.execution, Worker.settle, Checked.lift_pure, pure_bind]
      cases e.verdict <;> simp [service]
    · rw [hnext, service, ← next_execution]
      simp only [Checked.lift_bind, bind_assoc]
      refine bind_congr fun result => ?_
      cases result <;> simp [service, Phase.execution]
  | record worker job f => simp [next, service]
  | giveUp jobs given =>
    cases jobs with
    | nil => simp [next, service, Recovery.giveUpAll]
    | cons j rest => simp [next, service, Recovery.giveUpAll, Nat.add_assoc]
  | ended result => cases result <;> rfl

/-! ### The write of a call -/

end Task

/-- The tables after no write, or after one that was allowed. -/
inductive Write.Commits (s : Store) : Option Write → Store → Prop
  | nothing : Commits s none s
  | made {wr : Write} (h : wr.Allowed s) : Commits s (some wr) (wr.apply s)

namespace Task

/-- What a task may do when it is resumed on a world: the write that it makes, if any, and the task that it is
then. -/
inductive Step (w : World) : Task → Option Write → Task → Prop
  | stop (t : Task) (result : Except Abort Reply) : Step w t none (ended result)
  | lookUp (maxAttempts : Int) (r : EnqueueRequest) (action : IngestAction) :
    Step w (asked (.enqueue maxAttempts r)) none (insertJob (r.job action w.ids.head w.now maxAttempts))
  | insert (job : Job) : Step w (insertJob job) (some (.insert job)) (readJob job true)
  | duplicate (job : Job) : Step w (insertJob job) none (readJob job false)
  | liveDocument (maxAttempts : Int) (tenantId documentId : String) (key : Option String) (d : Document)
    (hd : w.store.document? tenantId documentId = some d) :
    Step w (asked (.reindex maxAttempts tenantId documentId key)) none (reindexCurrent maxAttempts d key)
  | reindexRequest (maxAttempts : Int) (d : Document) (key : Option String) (v : VersionRow) (r : EnqueueRequest)
    (hv : v ∈ w.store.versions) (hdocument : v.documentId = d.id) (htarget : r.target = d.target v.id) :
    Step w (reindexCurrent maxAttempts d key) none (asked (.enqueue maxAttempts r))
  | plan (maxAttempts : Int) (r : UploadRequest) :
    Step w (asked (.upload maxAttempts r)) none (putObject maxAttempts (Ingestion.planOn r w))
  | put (maxAttempts : Int) (p : UploadPlan) (h : (w.objects.put p.objectKey p.request.content).2 = .ok ()) :
    Step w (putObject maxAttempts p) none (saveUpload maxAttempts p)
  | save (maxAttempts : Int) (p : UploadPlan) :
    Step w (saveUpload maxAttempts p) (some (Ingestion.saveOn maxAttempts p w))
      (ended (.ok (.receipt (Ingestion.receiptOn maxAttempts p w))))
  | claim (worker : Worker) (j : Job) (hfits : Word.Fits64 (w.now - worker.leaseTimeout))
    (h : Job.first? (w.store.claimable w.now worker.leaseTimeout) = some j) :
    Step w (asked (.work worker)) (some (.claim j worker.id w.now worker.leaseTimeout))
      (attempt worker (j.claim worker.id w.now).claimed .resolve)
  | resolve (worker : Worker) (job : ClaimedJob) (source : DocumentSource) (key : String)
    (hsource : w.store.source? job.documentVersionId = some source) (hkey : Attempt.keyOf source = some key) :
    Step w (attempt worker job .resolve) none (attempt worker job (.mark ⟨job.lease worker.id, source, key⟩))
  | mark (worker : Worker) (job : ClaimedJob) (a : Attempt) :
    Step w (attempt worker job (.mark a)) (some (.mark a.lease a.source.documentId w.now))
      (attempt worker job (.load a))
  | load (worker : Worker) (job : ClaimedJob) (a : Attempt) (bytes : Bytes) (text : String)
    (hget : w.objects.get a.objectKey = .ok bytes) (hdecode : a.source.parser.decode bytes = some text) :
    Step w (attempt worker job (.load a)) none (attempt worker job (.advance a text))
  | advance (worker : Worker) (job : ClaimedJob) (a : Attempt) (text : String) :
    Step w (attempt worker job (.advance a text)) (some (.advance a.lease .chunking progressChunking w.now))
      (attempt worker job (.write a text))
  | write (worker : Worker) (job : ClaimedJob) (a : Attempt) (text : String) (chunks : List NewChunk)
    (hpieces : worker.chunking.chunk text ≠ [])
    (hchunks : chunks.map (fun c => (c.chunkNo, c.content, c.tokenCount)) =
      Attempt.numbered (worker.chunking.chunk text) 1) :
    Step w (attempt worker job (.write a text)) (some (.finalize a.lease a.source chunks w.now))
      (attempt worker job (.settle (.finished (.ok chunks.length))))
  | fault (worker : Worker) (job : ClaimedJob) (phase : Phase) (e : AppError)
    (hphase : ∀ e', phase ≠ .settle e') :
    Step w (attempt worker job phase) none (attempt worker job (.settle (.finished (.error e))))
  | judge (worker : Worker) (job : ClaimedJob) (e : Execution) (message : String) (f : Failure)
    (h : worker.decide job message w.now = .ok f) :
    Step w (attempt worker job (.settle e)) none (record worker job f)
  | record (worker : Worker) (job : ClaimedJob) (f : Failure) :
    Step w (record worker job f) (some (worker.failOn job f w)) (ended (.ok (.report (some f.report))))
  | sweep (leaseTimeout : Int) :
    Step w (asked (.sweep leaseTimeout)) none (giveUp (w.store.abandonedJobs w.now leaseTimeout) 0)
  | skip (j : Job) (rest : List Job) (given : Nat) : Step w (giveUp (j :: rest) given) none (giveUp rest given)
  | giveUp (j : Job) (rest : List Job) (given : Nat) (workerId : String) (h : j.lockedBy = some workerId) :
    Step w (giveUp (j :: rest) given) (some (Recovery.giveUpWrite j workerId w)) (giveUp rest (given + 1))

/-- The object store after the next call of a task. -/
def objects (t : Task) (w : World) : ObjectStore :=
  match t with
  | putObject _ p => (w.objects.put p.objectKey p.request.content).1
  | _ => w.objects

/-- A task and a world that a call of the task `t` may lead to. -/
def Leads (t : Task) (w : World) (result : Task × World) : Prop :=
  ∃ wr store count, Step w t wr result.1 ∧ Write.Commits w.store wr store ∧
    result.2 = { w.handOut count with store := store, objects := t.objects w }

variable {t t' : Task} {w : World} {e : Abort}

private theorem leads_ok (count : Nat) (hstep : Step w t none t')
    (h : t.next.on w = (.ok t', w.handOut count)) (hobjects : t.objects w = w.objects) :
    t.Leads w (t.resume w) := by
  refine ⟨none, w.store, count, ?_, .nothing, ?_⟩
  · simpa only [resume, h] using hstep
  · simp only [resume, h, hobjects]
    rfl

private theorem leads_error (count : Nat) (h : t.next.on w = (.error e, w.handOut count))
    (hobjects : t.objects w = w.objects) : t.Leads w (t.resume w) := by
  refine ⟨none, w.store, count, ?_, .nothing, ?_⟩
  · simpa only [resume, h] using Step.stop t (.error e)
  · simp only [resume, h, hobjects]
    rfl

private theorem leads_write (count : Nat) {wr : Write} (hstep : Step w t (some wr) t')
    (hallowed : wr.Allowed w.store) (h : t.next.on w = (.ok t', (w.handOut count).write wr))
    (hobjects : t.objects w = w.objects) : t.Leads w (t.resume w) := by
  refine ⟨some wr, wr.apply w.store, count, ?_, .made hallowed, ?_⟩
  · simpa only [resume, h] using hstep
  · simp only [resume, h, hobjects]
    rfl

private theorem leads_request (r : Request) (w : World) : (asked r).Leads w ((asked r).resume w) := by
  cases r with
  | enqueue maxAttempts r =>
    rcases Ingestion.lookUp_on maxAttempts r w with ⟨e, h⟩ | ⟨_, job, _, _, h⟩ | ⟨action, _, _, h⟩
    · exact leads_error (e := .failed e) 0 (by simp [next, h]) rfl
    · exact leads_ok 0 (.stop _ (.ok (.job ⟨job, false⟩))) (by simp [next, h]) rfl
    · exact leads_ok 1 (.lookUp maxAttempts r action) (by simp [next, h]) rfl
  | upload maxAttempts r =>
    rcases Ingestion.plan_on r w with ⟨e, _, h⟩ | ⟨count, _, h⟩
    · exact leads_error (e := .failed e) 0 (by simp [next, h]) rfl
    · exact leads_ok count (.plan maxAttempts r) (by simp [next, h]) rfl
  | reindex maxAttempts tenantId documentId key =>
    rcases Ingestion.liveDocument_on tenantId documentId w with ⟨e, h⟩ | ⟨d, hd, _, h⟩
    · exact leads_error (e := .failed e) 0 (by simp [next, h]) rfl
    · exact leads_ok 0 (.liveDocument maxAttempts tenantId documentId key d hd) (by simp [next, h]) rfl
  | work worker =>
    by_cases hfits : Word.Fits64 (w.now - worker.leaseTimeout)
    · have h := Checked.claimNext_on hfits worker.id
      cases hfirst : Job.first? (w.store.claimable w.now worker.leaseTimeout) with
      | none =>
        rw [hfirst] at h
        exact leads_ok 0 (.stop _ (.ok (.report none))) (by simp [next, Worker.claim, h]) rfl
      | some j =>
        rw [hfirst] at h
        exact leads_write 0 (.claim worker j hfits hfirst) hfirst (by simp [next, Worker.claim, h]) rfl
    · have h := Checked.claimNext_of_overflow hfits worker.id
      exact leads_error (e := .overflow .sub) 0 (by simp [next, Worker.claim, h]) rfl
  | sweep leaseTimeout =>
    by_cases hfits : Word.Fits64 (w.now - leaseTimeout)
    · exact leads_ok 0 (.sweep leaseTimeout) (by simp [next, Checked.abandonedJobs_on hfits]) rfl
    · exact leads_error (e := .overflow .sub) 0 (by simp [next, Checked.abandonedJobs_of_overflow hfits]) rfl

private theorem leads_insertJob (job : Job) (w : World) :
    (insertJob job).Leads w ((insertJob job).resume w) := by
  have hnext : (insertJob job).next.on w = match ((Query.insertJob job).on w.store) with
      | (.ok created, s) => (.ok (readJob job created), { w with store := s })
      | (.error e, s) => (.error (.failed e), { w with store := s }) := by
    simp only [next, Checked.on_bind, Checked.on_lift, Service.on_query]
    rcases (Query.insertJob job).on w.store with ⟨_ | _, _⟩ <;> rfl
  rcases Query.insertJob_on job w.store with ⟨e, h⟩ | ⟨_, h⟩ | ⟨haccepts, h⟩ <;> rw [h] at hnext
  · exact leads_error 0 hnext rfl
  · exact leads_ok 0 (.duplicate job) hnext rfl
  · exact leads_write 0 (.insert job) haccepts hnext rfl

private theorem leads_readJob (job : Job) (created : Bool) (w : World) :
    (readJob job created).Leads w ((readJob job created).resume w) := by
  have hread := Query.readBack_on job w.store
  have hnext : (readJob job created).next.on w = match ((Query.readBack job).on w.store) with
      | (.ok stored, s) => (.ok (ended (.ok (.job ⟨stored, created⟩))), { w with store := s })
      | (.error e, s) => (.error (.failed e), { w with store := s }) := by
    simp only [next, Checked.on_bind, Checked.on_lift, Service.on_query]
    rcases (Query.readBack job).on w.store with ⟨_ | _, _⟩ <;> rfl
  rcases hquery : (Query.readBack job).on w.store with ⟨e | stored, s⟩ <;> rw [hquery] at hread hnext <;>
    obtain rfl : s = w.store := hread
  · exact leads_error 0 hnext rfl
  · exact leads_ok 0 (.stop _ _) hnext rfl

private theorem leads_reindexCurrent (maxAttempts : Int) (d : Document) (key : Option String) (w : World) :
    (reindexCurrent maxAttempts d key).Leads w ((reindexCurrent maxAttempts d key).resume w) := by
  rcases Ingestion.reindexRequest_on d key w with ⟨e, h⟩ | ⟨v, hv, r, hdocument, _, htarget, h⟩
  · exact leads_error (e := .failed e) 0 (by simp [next, h]) rfl
  · exact leads_ok 0 (.reindexRequest maxAttempts d key v r hv hdocument htarget) (by simp [next, h]) rfl

private theorem leads_putObject (maxAttempts : Int) (p : UploadPlan) (w : World) :
    (putObject maxAttempts p).Leads w ((putObject maxAttempts p).resume w) := by
  have hnext : (putObject maxAttempts p).next.on w =
      match (w.objects.put p.objectKey p.request.content).2 with
      | .ok () => (.ok (saveUpload maxAttempts p),
          { w with objects := (w.objects.put p.objectKey p.request.content).1 })
      | .error e => (.error (.failed (.storage e)),
          { w with objects := (w.objects.put p.objectKey p.request.content).1 }) := by
    simp only [next, Checked.on_bind, Checked.on_lift, Ingestion.storeObject_on]
    cases (w.objects.put p.objectKey p.request.content).2 <;> rfl
  cases hput : (w.objects.put p.objectKey p.request.content).2 with
  | error e =>
    -- The task stops, but a put that fails may have changed the object store.
    rw [hput] at hnext
    refine ⟨none, w.store, 0, ?_, .nothing, ?_⟩
    · simpa only [resume, hnext] using Step.stop _ _
    · simp only [resume, hnext]
      rfl
  | ok =>
    rw [hput] at hnext
    refine ⟨none, w.store, 0, ?_, .nothing, ?_⟩
    · simpa only [resume, hnext] using Step.put maxAttempts p hput
    · simp only [resume, hnext]
      rfl

private theorem leads_saveUpload (maxAttempts : Int) (p : UploadPlan) (w : World) :
    (saveUpload maxAttempts p).Leads w ((saveUpload maxAttempts p).resume w) := by
  rcases Ingestion.record_on maxAttempts p w with ⟨e, h⟩ | ⟨hallowed, h⟩
  · exact leads_error (e := .failed e) 2 (by simp [next, h]) rfl
  · exact leads_write 2 (.save maxAttempts p) hallowed (by simp [next, h]) rfl

private theorem leads_attempt (worker : Worker) (job : ClaimedJob) (phase : Phase) (w : World) :
    (attempt worker job phase).Leads w ((attempt worker job phase).resume w) := by
  cases phase with
  | resolve =>
    rcases Attempt.resolve_on (job.lease worker.id) job.documentVersionId w with
      ⟨e, h⟩ | ⟨source, key, hsource, hkey, h⟩
    · exact leads_ok 0 (.fault worker job _ e (by simp)) (by simp [next, Phase.next, h]) rfl
    · exact leads_ok 0 (.resolve worker job source key hsource hkey) (by simp [next, Phase.next, h]) rfl
  | mark a =>
    have h := a.mark_on w
    by_cases hl : a.lease.Current w.store
    · rw [if_pos hl] at h
      exact leads_write 0 (.mark worker job a) hl (by simp [next, Phase.next, h]) rfl
    · rw [if_neg hl] at h
      exact leads_ok 0 (.fault worker job _ a.lease.lost (by simp)) (by simp [next, Phase.next, h]) rfl
  | load a =>
    rcases a.load_on w with ⟨e, h⟩ | ⟨bytes, text, hget, hdecode, h⟩
    · exact leads_ok 0 (.fault worker job _ e (by simp)) (by simp [next, Phase.next, h]) rfl
    · exact leads_ok 0 (.load worker job a bytes text hget hdecode) (by simp [next, Phase.next, h]) rfl
  | advance a text =>
    have h := a.advance_on w
    by_cases hl : a.lease.Current w.store
    · rw [if_pos hl] at h
      exact leads_write 0 (.advance worker job a text) hl (by simp [next, Phase.next, h]) rfl
    · rw [if_neg hl] at h
      exact leads_ok 0 (.fault worker job _ a.lease.lost (by simp)) (by simp [next, Phase.next, h]) rfl
  | write a text =>
    rcases a.write_on worker.chunking text w with
      ⟨e, count, h⟩ | ⟨chunks, count, hpieces, hchunks, hallowed, h⟩
    · exact leads_ok count (.fault worker job _ e (by simp)) (by simp [next, Phase.next, h]) rfl
    · exact leads_write count (.write worker job a text chunks hpieces hchunks) hallowed
        (by simp [next, Phase.next, h]) rfl
  | settle e =>
    cases hverdict : e.verdict with
    | ok report =>
      exact leads_ok 0 (.stop _ (.ok (.report (some report)))) (by simp [next, hverdict]) rfl
    | error message =>
      cases h : worker.decide job message w.now with
      | ok f =>
        exact leads_ok 0 (.judge worker job e message f h) (by simp [next, hverdict, Worker.judge_of_ok h]) rfl
      | error o =>
        exact leads_error (e := .overflow o) 0 (by simp [next, hverdict, Worker.judge_of_overflow h]) rfl

private theorem leads_record (worker : Worker) (job : ClaimedJob) (f : Failure) (w : World) :
    (record worker job f).Leads w ((record worker job f).resume w) := by
  have h := worker.record_on job f w
  by_cases hl : (job.lease worker.id).Current w.store
  · rw [if_pos hl] at h
    exact leads_write 0 (.record worker job f) hl (by simp [next, h]) rfl
  · rw [if_neg hl] at h
    exact leads_ok 0 (.stop _ (.ok (.report (some .leaseLost)))) (by simp [next, h]) rfl

private theorem leads_giveUp (jobs : List Job) (given : Nat) (w : World) :
    (giveUp jobs given).Leads w ((giveUp jobs given).resume w) := by
  cases jobs with
  | nil => exact leads_ok 0 (.stop _ (.ok (.swept given))) rfl rfl
  | cons j rest =>
    have h := Recovery.giveUp_on j w
    cases hlocked : j.lockedBy with
    | none =>
      rw [hlocked] at h
      exact leads_ok 0 (.skip j rest given) (by simp [next, h]) rfl
    | some workerId =>
      rw [hlocked] at h
      by_cases hl : (Recovery.leaseOf j workerId).Current w.store
      · simp only [if_pos hl] at h
        exact leads_write 0 (.giveUp j rest given workerId hlocked) hl (by simp [next, h]) rfl
      · simp only [if_neg hl] at h
        exact leads_ok 0 (.skip j rest given) (by simp [next, h]) rfl

/-- A call makes at most one write, and `Step` says which. -/
theorem resume_step (t : Task) (w : World) : t.Leads w (t.resume w) := by
  cases t with
  | asked r => exact leads_request r w
  | insertJob job => exact leads_insertJob job w
  | readJob job created => exact leads_readJob job created w
  | reindexCurrent maxAttempts d key => exact leads_reindexCurrent maxAttempts d key w
  | putObject maxAttempts p => exact leads_putObject maxAttempts p w
  | saveUpload maxAttempts p => exact leads_saveUpload maxAttempts p w
  | attempt worker job phase => exact leads_attempt worker job phase w
  | record worker job f => exact leads_record worker job f w
  | giveUp jobs given => exact leads_giveUp jobs given w
  | ended result => exact leads_ok 0 (.stop _ _) rfl rfl

/-! ### Tasks that are left alone -/

/-- A bound on the calls that are left. -/
def callsLeft (w : World) : Task → Nat
  | asked (.enqueue _ _) => 3
  | asked (.upload _ _) => 3
  | asked (.reindex _ _ _ _) => 5
  | asked (.work _) => 8
  | asked (.sweep leaseTimeout) => (w.store.abandonedJobs w.now leaseTimeout).length + 2
  | insertJob _ => 2
  | readJob _ _ => 1
  | reindexCurrent _ _ _ => 4
  | putObject _ _ => 2
  | saveUpload _ _ => 1
  | attempt _ _ .resolve => 7
  | attempt _ _ (.mark _) => 6
  | attempt _ _ (.load _) => 5
  | attempt _ _ (.advance _ _) => 4
  | attempt _ _ (.write _ _) => 3
  | attempt _ _ (.settle _) => 2
  | record _ _ _ => 1
  | giveUp jobs _ => jobs.length + 1
  | ended _ => 0

theorem resume_service (t : Task) (w : World) :
    (t.resume w).1.service.on (t.resume w).2 = t.service.on w := by
  rw [← next_service t, Checked.on_bind]
  rcases h : t.next.on w with ⟨e | t', w'⟩ <;> simp only [resume, h]
  rfl

theorem alone_service (n : Nat) (t : Task) (w : World) :
    (alone n t w).1.service.on (alone n t w).2 = t.service.on w := by
  induction n generalizing t w with
  | zero => rfl
  | succ n ih => exact (ih _ _).trans (resume_service t w)

/-- A task does not set the clock. -/
theorem alone_now (n : Nat) (t : Task) (w : World) : (alone n t w).2.now = w.now := by
  induction n generalizing t w with
  | zero => rfl
  | succ n ih =>
    obtain ⟨_, _, _, _, _, hworld⟩ := t.resume_step w
    have hnow : (t.resume w).2.now = w.now := by
      rw [hworld]
      rfl
    exact (ih _ _).trans hnow

private theorem step_callsLeft {wr : Option Write} (w' : World) (h : Step w t wr t') :
    t'.callsLeft w' < t.callsLeft w ∨ ∃ result, t = ended result := by
  cases h with
  | stop t result =>
    cases t with
    | ended result => exact .inr ⟨result, rfl⟩
    | asked r => cases r <;> exact .inl (by simp [callsLeft])
    | attempt worker job phase => cases phase <;> exact .inl (by simp [callsLeft])
    | _ => exact .inl (by simp [callsLeft])
  | fault worker job phase e hphase =>
    cases phase with
    | settle e' => exact absurd rfl (hphase e')
    | _ => exact .inl (by simp [callsLeft])
  | _ => exact .inl (by simp [callsLeft])

private theorem alone_ends (n : Nat) (t : Task) (w : World) (hn : t.callsLeft w ≤ n) :
    ∃ result, (alone n t w).1 = ended result := by
  induction n generalizing t w with
  | zero =>
    cases t with
    | ended result => exact ⟨result, rfl⟩
    | asked r => cases r <;> simp [callsLeft] at hn
    | attempt worker job phase => cases phase <;> simp [callsLeft] at hn
    | _ => simp [callsLeft] at hn
  | succ n ih =>
    obtain ⟨wr, _, _, hstep, _, _⟩ := resume_step t w
    rcases step_callsLeft (t.resume w).2 hstep with hless | ⟨result, rfl⟩
    · exact ih _ _ (by omega)
    · exact ih (ended result) w (Nat.zero_le n)

/-- A task that is left alone comes to its end, with the reply and the world of the service that it stands
for. -/
theorem alone_request (r : Request) (w : World) :
    ∃ n, alone n (asked r) w = (ended (r.service.on w).1, (r.service.on w).2) := by
  refine ⟨(asked r).callsLeft w, ?_⟩
  obtain ⟨result, hended⟩ := alone_ends _ (asked r) w (Nat.le_refl _)
  have hservice := alone_service ((asked r).callsLeft w) (asked r) w
  rw [hended] at hservice
  have hreply : (r.service.on w) = (result, (alone ((asked r).callsLeft w) (asked r) w).2) := by
    rw [← show (asked r).service = r.service from rfl, ← hservice]
    cases result <;> rfl
  rw [hreply, ← hended]

end Task

end IngestionQueue
