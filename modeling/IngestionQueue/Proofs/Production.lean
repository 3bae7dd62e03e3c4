import IngestionQueue.Proofs.System

/-!
# How jobs come into being

A job is inserted by an enqueue, which has looked up its key before and reads the job back afterwards, or it
is saved together with the version of an upload.  `Task.Produces` says what the next call of a task does for
this (`Task.resume_produces`): it looks a key up, inserts a job or finds its key taken, reports the job that
has the key, saves an upload, or has nothing to do with new jobs.
-/

namespace IngestionQueue

namespace Task

/-- The task has told its client that it made a job. -/
def reported : Task → Bool
  | ended (.ok (.job outcome)) => outcome.created
  | ended (.ok (.receipt _)) => true
  | _ => false

/-- The task has inserted a job and will tell its client so. -/
def inserted : Task → Bool
  | readJob _ created => created
  | _ => false

/-- The job that a task has found no other one for, or has just inserted or found there. -/
def pending : Task → Option Job
  | insertJob job | readJob job _ => some job
  | _ => none

/-- What the next call of a task does for the making of jobs. -/
inductive Produces (w : World) : Task → Task → World → Prop
  | lookUp (maxAttempts : Int) (r : EnqueueRequest) (action : IngestAction)
    (hkey : ¬w.store.HasKey r.tenantId (r.key action)) :
    Produces w (asked (.enqueue maxAttempts r)) (insertJob (r.job action w.ids.head w.now maxAttempts))
      (w.handOut 1)
  | insert (job : Job) (haccepts : w.store.AcceptsJob job) :
    Produces w (insertJob job) (readJob job true) (w.write (.insert job))
  | duplicate (job : Job) (hkey : w.store.HasKey job.tenantId job.idempotencyKey) :
    Produces w (insertJob job) (readJob job false) w
  | read (job k : Job) (created : Bool) (hk : k ∈ w.store.jobs) (htenant : k.tenantId = job.tenantId)
    (hkey : k.idempotencyKey = job.idempotencyKey) :
    Produces w (readJob job created) (ended (.ok (.job ⟨k, created⟩))) w
  | save (maxAttempts : Int) (p : UploadPlan) (hallowed : (Ingestion.saveOn maxAttempts p w).Allowed w.store) :
    Produces w (saveUpload maxAttempts p) (ended (.ok (.receipt (Ingestion.receiptOn maxAttempts p w))))
      ((w.handOut 2).write (Ingestion.saveOn maxAttempts p w))
  | other (t t' : Task) (w' : World) (wr : Option Write) (count : Nat)
    (hwr : Write.Commits w.store wr w'.store) (hnew : ∀ x ∈ wr, x.newJobs = [])
    (hids : w'.ids = (w.handOut count).ids) (hpending : t'.pending = none) (hinserted : t.inserted = false)
    (hreported : t' = t ∨ t.reported = false ∧ t'.reported = false) : Produces w t t' w'

variable {t : Task} {w : World}

/-! ### Enqueues -/

theorem resume_enqueue_of_error {r : EnqueueRequest} {e : AppError} (hcheck : r.check = .error e)
    (maxAttempts : Int) (w : World) :
    (asked (.enqueue maxAttempts r)).resume w = (ended (.error (.failed e)), w) := by
  simp [resume, next, Ingestion.lookUp, hcheck]

/-- A request whose key is taken is answered with the job that has it. -/
theorem resume_enqueue_of_hasKey {r : EnqueueRequest} {action : IngestAction} (hcheck : r.check = .ok action)
    (maxAttempts : Int) (hkey : w.store.HasKey r.tenantId (r.key action)) :
    ∃ k ∈ w.store.jobs, k.tenantId = r.tenantId ∧ k.idempotencyKey = r.key action ∧
      (asked (.enqueue maxAttempts r)).resume w = (ended (.ok (.job ⟨k, false⟩)), w) := by
  obtain ⟨k, hk⟩ := Option.isSome_iff_exists.1 (Store.isSome_jobByKey?.2 hkey)
  obtain ⟨htenant, hsame⟩ : k.tenantId = r.tenantId ∧ k.idempotencyKey = r.key action := by
    simpa using List.find?_some hk
  refine ⟨k, List.mem_of_find?_eq_some hk, htenant, hsame, ?_⟩
  simp [resume, next, Ingestion.lookUp, hcheck, hk]

theorem resume_enqueue_of_not_hasKey {r : EnqueueRequest} {action : IngestAction}
    (hcheck : r.check = .ok action) (maxAttempts : Int) (hkey : ¬w.store.HasKey r.tenantId (r.key action)) :
    (asked (.enqueue maxAttempts r)).resume w =
      (insertJob (r.job action w.ids.head w.now maxAttempts), w.handOut 1) := by
  have hnone : w.store.jobByKey? r.tenantId (r.key action) = none := by
    rw [← Option.not_isSome_iff_eq_none]
    exact fun hsome => hkey (Store.isSome_jobByKey?.1 hsome)
  simp only [resume, next, Ingestion.lookUp, Checked.on_bind, Checked.on_lift, Service.on_bind, Service.on_lift,
    hcheck, Service.on_read, hnone, Service.on_freshId, Service.on_now, Service.on_pure]
  rfl

theorem resume_insertJob {job : Job} {result : Except AppError Bool} {s : Store}
    (h : (Query.insertJob job).on w.store = (result, s)) :
    (insertJob job).resume w =
      ((match result with
        | .ok created => readJob job created
        | .error e => ended (.error (.failed e))), { w with store := s }) := by
  simp only [resume, next, Checked.on_bind, Checked.on_lift, Service.on_query, h]
  cases result <;> rfl

theorem resume_readJob {job : Job} (created : Bool) (hkey : w.store.HasKey job.tenantId job.idempotencyKey) :
    ∃ k ∈ w.store.jobs, k.tenantId = job.tenantId ∧ k.idempotencyKey = job.idempotencyKey ∧
      (readJob job created).resume w = (ended (.ok (.job ⟨k, created⟩)), w) := by
  obtain ⟨k, hk, htenant, hsame, hread⟩ := Query.readBack_of_hasKey hkey
  refine ⟨k, hk, htenant, hsame, ?_⟩
  simp only [resume, next, Checked.on_bind, Checked.on_lift, Service.on_query, hread, Checked.on_pure]

/-! ### All tasks -/

private theorem produces_error (count : Nat) {e : Abort} (hinserted : t.inserted = false)
    (hreported : t.reported = false) (h : t.resume w = (ended (.error e), w.handOut count)) :
    t.Produces w (t.resume w).1 (t.resume w).2 := by
  rw [h]
  exact .other t _ _ none count .nothing (by simp) rfl rfl hinserted (.inr ⟨hreported, rfl⟩)

private theorem produces_enqueue (maxAttempts : Int) (r : EnqueueRequest) (w : World) :
    (asked (.enqueue maxAttempts r)).Produces w ((asked (.enqueue maxAttempts r)).resume w).1
      ((asked (.enqueue maxAttempts r)).resume w).2 := by
  cases hcheck : r.check with
  | error e => exact produces_error 0 rfl rfl (resume_enqueue_of_error hcheck maxAttempts w)
  | ok action =>
    by_cases hkey : w.store.HasKey r.tenantId (r.key action)
    · obtain ⟨k, _, _, _, h⟩ := resume_enqueue_of_hasKey hcheck maxAttempts hkey
      rw [h]
      exact .other _ _ _ none 0 .nothing (by simp) rfl rfl rfl (.inr ⟨rfl, rfl⟩)
    · rw [resume_enqueue_of_not_hasKey hcheck maxAttempts hkey]
      exact .lookUp maxAttempts r action hkey

private theorem produces_insertJob (job : Job) (w : World) :
    (insertJob job).Produces w ((insertJob job).resume w).1 ((insertJob job).resume w).2 := by
  rcases Query.insertJob_on job w.store with ⟨e, h⟩ | ⟨hkey, h⟩ | ⟨haccepts, h⟩
  · exact produces_error 0 rfl rfl (resume_insertJob h)
  · rw [resume_insertJob h]
    exact .duplicate job hkey
  · rw [resume_insertJob h]
    exact .insert job haccepts

private theorem produces_saveUpload (maxAttempts : Int) (p : UploadPlan) (w : World) :
    (saveUpload maxAttempts p).Produces w ((saveUpload maxAttempts p).resume w).1
      ((saveUpload maxAttempts p).resume w).2 := by
  rcases Ingestion.record_on maxAttempts p w with ⟨e, h⟩ | ⟨hallowed, h⟩
  · have hresume : (saveUpload maxAttempts p).resume w = (ended (.error (.failed e)), w.handOut 2) := by
      simp [resume, next, h]
    exact produces_error 2 rfl rfl hresume
  · have hresume : (saveUpload maxAttempts p).resume w =
        (ended (.ok (.receipt (Ingestion.receiptOn maxAttempts p w))),
          (w.handOut 2).write (Ingestion.saveOn maxAttempts p w)) := by
      simp [resume, next, h]
    rw [hresume]
    exact .save maxAttempts p hallowed

/-- The task neither asks for a job nor is about to answer for one. -/
private def Bystands : Task → Prop
  | asked (.enqueue _ _) | insertJob _ | readJob _ _ | saveUpload _ _ => False
  | _ => True

private theorem reported_resume (h : t.Bystands) (w : World) : (t.resume w).1.reported = t.reported := by
  cases t with
  | asked r =>
    cases r with
    | enqueue maxAttempts r => exact h.elim
    | upload maxAttempts r =>
      simp only [resume, next, Checked.on_bind, Checked.on_lift]
      rcases (Ingestion.plan r).on w with ⟨_ | _, _⟩ <;> rfl
    | reindex maxAttempts tenantId documentId key =>
      simp only [resume, next, Checked.on_bind, Checked.on_lift]
      rcases (Ingestion.liveDocument tenantId documentId).on w with ⟨_ | _, _⟩ <;> rfl
    | work worker =>
      simp only [resume, next, Checked.on_bind]
      rcases worker.claim.on w with ⟨_ | _ | _, _⟩ <;> rfl
    | sweep leaseTimeout =>
      simp only [resume, next, Checked.on_bind]
      rcases (Checked.abandonedJobs leaseTimeout).on w with ⟨_ | _, _⟩ <;> rfl
  | insertJob job => exact h.elim
  | readJob job created => exact h.elim
  | reindexCurrent maxAttempts d key =>
    simp only [resume, next, Checked.on_bind, Checked.on_lift]
    rcases (Ingestion.reindexRequest d key).on w with ⟨_ | _, _⟩ <;> rfl
  | putObject maxAttempts p =>
    simp only [resume, next, Checked.on_bind, Checked.on_lift]
    rcases (Ingestion.storeObject p).on w with ⟨_ | _, _⟩ <;> rfl
  | saveUpload maxAttempts p => exact h.elim
  | attempt worker job phase =>
    cases phase with
    | settle e =>
      simp only [resume, next]
      cases e.verdict with
      | ok report => rfl
      | error message =>
        simp only [Checked.on_bind]
        rcases (worker.judge job message).on w with ⟨_ | _, _⟩ <;> rfl
    | _ =>
      simp only [resume, next, Checked.on_bind, Checked.on_lift, Service.on_attempt]
      generalize (Phase.next worker.chunking (job.lease worker.id) job.documentVersionId _).on w = r
      rcases r with ⟨_ | _, _⟩ <;> rfl
  | record worker job f =>
    simp only [resume, next, Checked.on_bind, Checked.on_lift]
    rcases (worker.record job f).on w with ⟨_ | _, _⟩ <;> rfl
  | giveUp jobs given =>
    cases jobs with
    | nil => rfl
    | cons j rest =>
      simp only [resume, next, Checked.on_bind, Checked.on_lift]
      rcases (Recovery.giveUp j).on w with ⟨_ | _, _⟩ <;> rfl
  | ended result => rfl

private theorem produces_bystander (h : t.Bystands) (w : World) :
    t.Produces w (t.resume w).1 (t.resume w).2 := by
  have hreported := reported_resume h w
  obtain ⟨wr, store, count, hstep, hwr, hworld⟩ := t.resume_step w
  have hinserted : t.inserted = false := by
    cases t <;> first | rfl | exact h.elim
  have hnew : ∀ x ∈ wr, x.newJobs = [] := by
    rintro x rfl
    generalize (t.resume w).1 = t' at hstep
    cases hstep <;> first | rfl | exact h.elim
  have hpending : (t.resume w).1.pending = none := by
    generalize (t.resume w).1 = t' at hstep
    cases hstep <;> first | rfl | exact h.elim
  refine .other t _ _ wr count ?_ hnew ?_ hpending hinserted ?_
  · rwa [hworld]
  · rw [hworld]
  · cases t with
    | ended result => exact .inl rfl
    | _ => exact .inr ⟨rfl, hreported⟩

/-- The next call of a task, where the job that an enqueue reads back is there. -/
theorem resume_produces (t : Task) (w : World)
    (hread : ∀ job created, t = readJob job created → w.store.HasKey job.tenantId job.idempotencyKey) :
    t.Produces w (t.resume w).1 (t.resume w).2 := by
  cases t with
  | asked r =>
    cases r with
    | enqueue maxAttempts r => exact produces_enqueue maxAttempts r w
    | _ => exact produces_bystander (by trivial) w
  | insertJob job => exact produces_insertJob job w
  | readJob job created =>
    obtain ⟨k, hk, htenant, hkey, h⟩ := resume_readJob created (hread job created rfl)
    rw [h]
    exact .read job k created hk htenant hkey
  | saveUpload maxAttempts p => exact produces_saveUpload maxAttempts p w
  | _ => exact produces_bystander (by trivial) w

/-! ### Runs -/

/-- The job that a task is about to read back is there. -/
def Readable (s : Store) : Task → Prop
  | readJob job _ => s.HasKey job.tenantId job.idempotencyKey
  | _ => True

theorem readable_of_pending {s : Store} (h : t.pending = none) : t.Readable s := by
  cases t with
  | readJob job created => simp [pending] at h
  | _ => trivial

end Task

theorem Store.HasKey.commits {s s' : Store} {tenantId key : String} {wr : Option Write}
    (h : s.HasKey tenantId key) (hwr : Write.Commits s wr s') : s'.HasKey tenantId key := by
  cases hwr with
  | nothing => exact h
  | made _ => exact Write.job_persists (P := fun j => j.tenantId = tenantId ∧ j.idempotencyKey = key) h

/-- Without new jobs, every row is that of a job that was there. -/
theorem Write.Commits.exists_origin {s s' : Store} {wr : Option Write} (hwr : Write.Commits s wr s')
    (hnew : ∀ x ∈ wr, x.newJobs = []) {k : Job} (hk : k ∈ s'.jobs) : ∃ j ∈ s.jobs, j.origin = k.origin := by
  cases hwr with
  | nothing => exact ⟨k, hk, rfl⟩
  | @made x _ =>
    rcases Write.mem_jobs.1 hk with ⟨j, hj, rfl⟩ | hnone
    · exact ⟨j, hj, (x.job_origin j).symm⟩
    · rw [hnew x rfl] at hnone
      cases hnone

theorem Store.HasKey.of_commits {s s' : Store} {tenantId key : String} {wr : Option Write}
    (h : s'.HasKey tenantId key) (hwr : Write.Commits s wr s') (hnew : ∀ x ∈ wr, x.newJobs = []) :
    s.HasKey tenantId key := by
  obtain ⟨k, hk, htenant, hkey⟩ := h
  obtain ⟨j, hj, horigin⟩ := hwr.exists_origin hnew hk
  obtain ⟨htenant', hkey'⟩ := Job.key_of_origin horigin
  exact ⟨j, hj, htenant'.trans htenant, hkey'.trans hkey⟩

theorem Task.Readable.commits {s s' : Store} {t : Task} {wr : Option Write} (h : t.Readable s)
    (hwr : Write.Commits s wr s') : t.Readable s' := by
  cases t with
  | readJob job created => exact Store.HasKey.commits h hwr
  | _ => trivial

namespace Task.Produces

variable {t t' : Task} {w w' : World}

theorem readable (h : t.Produces w t' w') : t'.Readable w'.store := by
  cases h with
  | insert job haccepts =>
    have hmem : job ∈ ((Write.insert job).apply w.store).jobs := Write.mem_jobs.2 (.inr (by simp))
    exact ⟨job, hmem, rfl, rfl⟩
  | duplicate job hkey => exact hkey
  | other t t' w' wr count hwr hnew hids hpending => exact readable_of_pending hpending
  | lookUp | read | save => trivial

end Task.Produces

namespace System

/-- The job that an enqueue is about to read back is always there. -/
def Readable (σ : System) : Prop :=
  ∀ t ∈ σ.tasks, t.Readable σ.world.store

variable {σ : System}

theorem Readable.produces (h : σ.Readable) {i : Nat} {t : Task} (ht : σ.tasks[i]? = some t) :
    t.Produces σ.world (t.resume σ.world).1 (t.resume σ.world).2 := by
  refine t.resume_produces σ.world ?_
  rintro job created rfl
  exact h _ (List.mem_of_getElem? ht)

theorem step_resume {i : Nat} {t : Task} (ht : σ.tasks[i]? = some t) :
    (σ.step (.resume i)).world = (t.resume σ.world).2 ∧
      (σ.step (.resume i)).tasks = σ.tasks.set i (t.resume σ.world).1 := by
  simp [step, ht]

theorem step_readable (h : σ.Readable) (e : Event) : (σ.step e).Readable := by
  intro t' ht'
  obtain ⟨i, hi⟩ := List.getElem?_of_mem ht'
  rcases step_task hi with hold | ⟨r, _, _, rfl⟩ | ⟨t, rfl, ht, rfl⟩ | ⟨worker, job, phase, message, _, _, rfl⟩
  · obtain ⟨wr, hwr, _⟩ := σ.step_write e
    exact (h t' (List.mem_of_getElem? hold)).commits hwr
  · trivial
  · rw [(step_resume ht).1]
    exact (h.produces ht).readable
  · trivial

theorem initial_readable (objects : ObjectStore) (now : Int) (ids : IdSequence) :
    (initial objects now ids).Readable := by
  intro t ht
  cases ht

theorem run_readable (h : σ.Readable) (events : List Event) : (σ.run events).Readable := by
  refine run_induction (P := fun _ σ => σ.Readable) h ?_
  intro before e _ hbefore
  exact step_readable hbefore e

/-- Putting another task into a place changes a count by what it says of the two tasks. -/
theorem countP_set (p : Task → Bool) {tasks : List Task} {i : Nat} {t : Task} (ht : tasks[i]? = some t)
    (t' : Task) : (tasks.set i t').countP p + (p t).toNat = tasks.countP p + (p t').toNat := by
  induction tasks generalizing i with
  | nil => simp at ht
  | cons a rest ih =>
    cases i with
    | zero =>
      obtain rfl : a = t := by simpa using ht
      simp only [List.set_cons_zero, List.countP_cons]
      cases p a <;> cases p t' <;> simp
    | succ i =>
      have hrest := ih (i := i) (by simpa using ht)
      simp only [List.set_cons_succ, List.countP_cons]
      omega

/-- An event makes a job with the call of a task, or no job at all; no other event changes how many jobs the
tasks have reported or are about to report. -/
theorem step_produces (h : σ.Readable) (e : Event) :
    (∃ i t, e = .resume i ∧ σ.tasks[i]? = some t ∧
        t.Produces σ.world (t.resume σ.world).1 (t.resume σ.world).2) ∨
      (∃ wr, Write.Commits σ.world.store wr (σ.step e).world.store ∧ ∀ x ∈ wr, x.newJobs = []) ∧
        (σ.step e).world.ids = σ.world.ids ∧
        (σ.step e).tasks.countP Task.reported = σ.tasks.countP Task.reported ∧
        (σ.step e).tasks.countP Task.inserted = σ.tasks.countP Task.inserted := by
  by_cases hresumed : ∃ i t, e = .resume i ∧ σ.tasks[i]? = some t
  · obtain ⟨i, t, he, ht⟩ := hresumed
    exact .inl ⟨i, t, he, ht, h.produces ht⟩
  · right
    have hmove := σ.step_move e
    generalize σ.step e = σ' at hmove ⊢
    cases hmove with
    | idle e => exact ⟨⟨none, .nothing, by simp⟩, rfl, rfl, rfl⟩
    | start r =>
      refine ⟨⟨none, .nothing, by simp⟩, rfl, ?_, ?_⟩
      · simp [List.countP_append, Task.reported]
      · simp [List.countP_append, Task.inserted]
    | resume i count t t' wr store ht hstep hwr => exact absurd ⟨i, t, rfl, ht⟩ hresumed
    | crash i message worker job phase ht =>
      refine ⟨⟨none, .nothing, by simp⟩, rfl, ?_, ?_⟩
      · simpa [Task.reported] using countP_set Task.reported ht (.attempt worker job (.settle (.crashed message)))
      · simpa [Task.inserted] using countP_set Task.inserted ht (.attempt worker job (.settle (.crashed message)))
    | call c wr hallowed hcall =>
      refine ⟨⟨some wr, .made hallowed, ?_⟩, rfl, rfl, rfl⟩
      rintro x ⟨⟩
      cases wr <;> first | rfl | cases hcall
    | setClock now => exact ⟨⟨none, .nothing, by simp⟩, rfl, rfl, rfl⟩
    | replaceObjects objects => exact ⟨⟨none, .nothing, by simp⟩, rfl, rfl, rfl⟩
    | markDeleted documentId =>
      refine ⟨⟨some (.markDeleted documentId), .made trivial, ?_⟩, rfl, rfl, rfl⟩
      rintro x ⟨⟩
      rfl

end System

end IngestionQueue
