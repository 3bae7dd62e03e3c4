import IngestionQueue.Proofs.Fencing

/-!
# The lifecycle of a job

The status of a job says what stands in its other columns (`Job.Columns`), and its attempts never exceed the
allowed ones (`Job.Lifecycle`).  Each of the functions that change a row keeps this under the condition that
the queue guarantees for it: a claim takes a claimable row, the others act on a row that is being processed,
and a failure is recorded as a retry only while attempts are left.  What the tasks know about their jobs
(`Task.Informed`) gives these conditions at the moment of the write, whatever has happened since they learnt
it.  The main result is `System.lifecycle`.
-/

namespace IngestionQueue

/-- The attempt may end so: a retry needs an attempt that is left, giving up needs that none is. -/
def FailureOutcome.Suits (attempt maxAttempts : Int) : FailureOutcome → Prop
  | retry _ => attempt < maxAttempts
  | deadLetter => maxAttempts ≤ attempt

namespace Job

/-- What stands in the columns of a job in each status. -/
def Columns (j : Job) : Prop :=
  match j.status with
  | .queued =>
    j.stage = .queued ∧ j.progress = 0 ∧ j.lockedAt = none ∧ j.lockedBy = none ∧ j.heartbeatAt = none ∧
      j.startedAt = none ∧ j.finishedAt = none ∧ j.error = none
  | .processing =>
    (j.stage = .loading ∧ j.progress = progressLoading ∨ j.stage = .chunking ∧ j.progress = progressChunking) ∧
      j.lockedAt.isSome ∧ j.lockedBy.isSome ∧ j.heartbeatAt.isSome ∧ j.startedAt.isSome ∧
      j.finishedAt = none ∧ j.error = none
  | .retrying =>
    j.attemptCount < j.maxAttempts ∧ j.stage = .failed ∧ j.progress = 0 ∧ j.lockedAt = none ∧
      j.lockedBy = none ∧ j.startedAt.isSome ∧ j.finishedAt = none ∧ j.error.isSome
  | .completed =>
    j.stage = .completed ∧ j.progress = progressDone ∧ j.lockedAt = none ∧ j.lockedBy = none ∧
      j.startedAt.isSome ∧ j.finishedAt.isSome ∧ j.error = none
  | .deadLetter =>
    j.attemptCount = j.maxAttempts ∧ j.stage = .failed ∧ j.progress = 0 ∧ j.lockedAt = none ∧
      j.lockedBy = none ∧ j.startedAt.isSome ∧ j.finishedAt.isSome ∧ j.error.isSome

structure Lifecycle (j : Job) : Prop where
  attempts : 0 ≤ j.attemptCount ∧ j.attemptCount ≤ j.maxAttempts
  queued : j.status = .queued ↔ j.attemptCount = 0
  columns : j.Columns

namespace Lifecycle

variable {j : Job}

theorem of_origin (horigin : j.origin = j) (hmax : 1 ≤ j.maxAttempts) : j.Lifecycle := by
  rw [← horigin]
  refine ⟨⟨Int.le_refl 0, ?_⟩, ?_, ?_⟩
  · simp only [origin, Job.queued]
    omega
  · simp [origin, Job.queued]
  · simp [origin, Job.queued, Columns]

theorem claim (h : j.Lifecycle) {now timeout : Int} (hclaimable : j.Claimable now timeout) (workerId : String) :
    (j.claim workerId now).Lifecycle := by
  obtain ⟨hattempts, hready⟩ := hclaimable
  -- The claim leaves this column alone, so it has to be empty in each of the three claimable states.
  have hfinished : j.finishedAt = none := by
    have hcolumns := h.columns
    rcases hready with ⟨hqueued | hretrying, _⟩ | ⟨hprocessing, _⟩
    · simp only [Columns, hqueued] at hcolumns
      simp [hcolumns]
    · simp only [Columns, hretrying] at hcolumns
      simp [hcolumns]
    · simp only [Columns, hprocessing] at hcolumns
      simp [hcolumns]
  have hcount := h.attempts
  refine ⟨?_, ?_, ?_⟩
  · simp only [Job.claim]
    omega
  · simp only [Job.claim, reduceCtorEq, false_iff]
    omega
  · cases hstarted : j.startedAt <;> simp [Columns, Job.claim, hfinished, hstarted]

private theorem pos_of_processing (h : j.Lifecycle) (hprocessing : j.status = .processing) :
    0 < j.attemptCount := by
  have hcount := h.attempts
  have hne : j.attemptCount ≠ 0 := fun hzero => by
    rw [h.queued.2 hzero] at hprocessing
    cases hprocessing
  omega

theorem refresh (h : j.Lifecycle) (hprocessing : j.status = .processing) (now : Int) :
    (j.refresh now).Lifecycle := by
  have hcolumns := h.columns
  refine ⟨h.attempts, h.queued, ?_⟩
  simp only [Columns, hprocessing] at hcolumns
  simp [Columns, Job.refresh, hprocessing, hcolumns]

theorem advance (h : j.Lifecycle) (hprocessing : j.status = .processing) (now : Int) :
    (j.advance .chunking progressChunking now).Lifecycle := by
  have hcolumns := h.columns
  refine ⟨h.attempts, h.queued, ?_⟩
  simp only [Columns, hprocessing] at hcolumns
  simp [Columns, Job.advance, Job.refresh, hprocessing, hcolumns]

theorem complete (h : j.Lifecycle) (hprocessing : j.status = .processing) (now : Int) :
    (j.complete now).Lifecycle := by
  have hpos := h.pos_of_processing hprocessing
  have hcolumns := h.columns
  refine ⟨h.attempts, ?_, ?_⟩
  · simp only [Job.complete, Job.refresh, reduceCtorEq, false_iff]
    omega
  · simp only [Columns, hprocessing] at hcolumns
    simp [Columns, Job.complete, Job.refresh, hcolumns]

theorem fail (h : j.Lifecycle) (hprocessing : j.status = .processing) {outcome : FailureOutcome}
    (houtcome : outcome.Suits j.attemptCount j.maxAttempts) (error : String) (now : Int) :
    (j.fail outcome error now).Lifecycle := by
  have hpos := h.pos_of_processing hprocessing
  have hcount := h.attempts
  have hcolumns := h.columns
  simp only [Columns, hprocessing] at hcolumns
  cases outcome with
  | retry nextRunAt =>
    simp only [FailureOutcome.Suits] at houtcome
    refine ⟨h.attempts, ?_, ?_⟩
    · simp only [Job.fail, Job.refresh, reduceCtorEq, false_iff]
      omega
    · simp [Columns, Job.fail, Job.refresh, hcolumns, houtcome]
  | deadLetter =>
    simp only [FailureOutcome.Suits] at houtcome
    have hlast : j.attemptCount = j.maxAttempts := by omega
    refine ⟨h.attempts, ?_, ?_⟩
    · simp only [Job.fail, Job.refresh, reduceCtorEq, false_iff]
      omega
    · simp [Columns, Job.fail, Job.refresh, hcolumns, hlast]

end Lifecycle

end Job

/-! ### What regular writes keep -/

namespace Write

/-- What the queue guarantees of the writes that its tasks make. -/
def Regular (s : Store) : Write → Prop
  | insert j => j.origin = j
  | save _ _ job => ∀ j ∈ job, j.origin = j
  | advance _ stage progress _ => stage = .chunking ∧ progress = progressChunking
  | fail l _ _ outcome _ _ => ∀ j ∈ s.jobs, l.Holds j → outcome.Suits j.attemptCount j.maxAttempts
  | claim _ _ _ _ | refresh _ _ | mark _ _ _ | finalize _ _ _ _ | markDeleted _ => True

variable {s : Store} {wr : Write}

theorem Regular.newJob (h : wr.Regular s) {j : Job} (hj : j ∈ wr.newJobs) : j.origin = j := by
  cases wr with
  | insert k =>
    obtain rfl : j = k := by simpa using hj
    exact h
  | save d v job => exact h j (by simpa using hj)
  | _ => simp at hj

/-- A write that is made under a lease acts on the row that is held. -/
private theorem lifecycle_held {l : Lease} {j k : Job} (h : j.Lifecycle) (hk : l.Holds j → k.Lifecycle) :
    (if l.Holds j then k else j).Lifecycle := by
  split
  · exact hk ‹_›
  · exact h

theorem Regular.lifecycle_apply (h : wr.Regular s) (hallowed : wr.Allowed s) (hs : s.Consistent)
    (hrows : ∀ j ∈ s.jobs, j.Lifecycle) : ∀ j ∈ (wr.apply s).jobs, j.Lifecycle := by
  intro k hk
  rcases mem_jobs.1 hk with ⟨j, hj, rfl⟩ | hnew
  · have hrow := hrows j hj
    cases wr with
    | insert _ => exact hrow
    | save _ _ _ => exact hrow
    | markDeleted _ => exact hrow
    | claim k workerId now timeout =>
      obtain ⟨hk, hclaimable⟩ := hallowed.claimable
      simp only [job]
      split
      · obtain rfl : j = k := hs.job_eq hj hk ‹_›
        exact hrow.claim hclaimable workerId
      · exact hrow
    | refresh l now => exact lifecycle_held hrow fun hl => hrow.refresh hl.2.1 now
    | mark l _ now => exact lifecycle_held hrow fun hl => hrow.refresh hl.2.1 now
    | finalize l _ _ now => exact lifecycle_held hrow fun hl => hrow.complete hl.2.1 now
    | advance l stage progress now =>
      obtain ⟨rfl, rfl⟩ := h
      exact lifecycle_held hrow fun hl => hrow.advance hl.2.1 now
    | fail l _ _ outcome error now =>
      exact lifecycle_held hrow fun hl => hrow.fail hl.2.1 (h j hj hl) error now
  · exact .of_origin (h.newJob hnew) (hallowed.acceptsJob hnew).maxAttempts

end Write

/-! ### What the tasks know -/

/-- There is a job with this identifier and this number of allowed attempts. -/
def Store.Knows (s : Store) (id : String) (maxAttempts : Int) : Prop :=
  ∃ j ∈ s.jobs, j.id = id ∧ j.maxAttempts = maxAttempts

theorem Store.Knows.apply {s : Store} {id : String} {maxAttempts : Int} (h : s.Knows id maxAttempts)
    (wr : Write) : (wr.apply s).Knows id maxAttempts :=
  Write.job_persists (P := fun j => j.id = id ∧ j.maxAttempts = maxAttempts) h

theorem Worker.suits_of_decide {worker : Worker} {job : ClaimedJob} {message : String} {now : Int} {f : Failure}
    (h : worker.decide job message now = .ok f) : f.outcome.Suits job.attemptCount job.maxAttempts := by
  rcases of_decide h with ⟨hleft, _, houtcome⟩ | ⟨hlast, houtcome⟩
  · rw [houtcome]
    exact hleft
  · rw [houtcome]
    exact hlast

namespace Task

/-- What a task knows that waits for its next call: a job that it inserts is new, the job that it works on is
there, and how it will record a failure suits the attempt. -/
def Informed (s : Store) : Task → Prop
  | insertJob job => job.origin = job
  | attempt _ job _ => s.Knows job.id job.maxAttempts
  | record _ job f => s.Knows job.id job.maxAttempts ∧ f.outcome.Suits job.attemptCount job.maxAttempts
  | giveUp jobs _ => ∀ j ∈ jobs, s.Knows j.id j.maxAttempts ∧ j.maxAttempts ≤ j.attemptCount
  | asked _ | readJob _ _ | reindexCurrent _ _ _ | putObject _ _ | saveUpload _ _ | ended _ => True

variable {s s' : Store} {w : World} {t t' : Task} {wr : Option Write}

theorem Informed.commits (h : t.Informed s) (hwr : Write.Commits s wr s') : t.Informed s' := by
  cases hwr with
  | nothing => exact h
  | made _ =>
    cases t with
    | attempt worker job phase => exact Store.Knows.apply h _
    | record worker job f => exact ⟨Store.Knows.apply h.1 _, h.2⟩
    | giveUp jobs given => exact fun j hj => ⟨Store.Knows.apply (h j hj).1 _, (h j hj).2⟩
    | _ => exact h

theorem Step.informed (hstep : Step w t wr t') (h : t.Informed w.store) : t'.Informed w.store := by
  cases hstep with
  | claim worker j _ hfirst =>
    have hallowed : (Write.claim j worker.id w.now worker.leaseTimeout).Allowed w.store := hfirst
    exact ⟨j, hallowed.claimable.1, rfl, rfl⟩
  | judge worker job e message f hdecided => exact ⟨h, Worker.suits_of_decide hdecided⟩
  | sweep leaseTimeout =>
    -- What the sweep lists has no attempt left, and it keeps the rows as they were listed.
    intro j hj
    obtain ⟨hmem, habandoned⟩ : j ∈ w.store.jobs ∧ j.Abandoned w.now leaseTimeout := by
      simpa [Store.abandonedJobs] using hj
    exact ⟨⟨j, hmem, rfl, rfl⟩, habandoned.1⟩
  | skip j rest given => exact fun k hk => h k (List.mem_cons_of_mem _ hk)
  | giveUp j rest given workerId hlocked => exact fun k hk => h k (List.mem_cons_of_mem _ hk)
  | lookUp maxAttempts r action => exact Job.origin_queued ..
  | resolve | mark | load | advance | write | fault => exact h
  | _ => trivial

/-- The job that a lease holds is the one that the task knows. -/
private theorem suits_held {l : Lease} {id : String} {maxAttempts : Int} {outcome : FailureOutcome}
    (hs : s.Consistent) (hknown : s.Knows id maxAttempts) (hid : l.jobId = id)
    (hsuits : outcome.Suits l.attempt maxAttempts) :
    ∀ j ∈ s.jobs, l.Holds j → outcome.Suits j.attemptCount j.maxAttempts := by
  -- The task judged by the counters of its claim; the lease is held, so the row still has the same.
  intro j hj hl
  obtain ⟨k, hk, hkid, hmax⟩ := hknown
  obtain rfl : j = k := hs.job_eq hj hk (by rw [hl.1, hid, hkid])
  rw [hl.2.2.2, hmax]
  exact hsuits

theorem Step.regular {wr : Write} (hstep : Step w t (some wr) t') (h : t.Informed w.store)
    (hs : w.store.Consistent) : wr.Regular w.store := by
  cases hstep with
  | insert job => exact h
  | save maxAttempts p =>
    intro j hj
    obtain rfl : Ingestion.jobOn maxAttempts p w = j := by simpa using hj
    exact Job.origin_queued ..
  | advance worker job a text => exact ⟨rfl, rfl⟩
  | record worker job f => exact suits_held hs h.1 rfl h.2
  | giveUp j rest given workerId hlocked =>
    obtain ⟨hknown, hlast⟩ := h j List.mem_cons_self
    exact suits_held hs hknown rfl hlast
  | claim | mark | write => trivial

end Task

/-! ### Runs -/

namespace System

/-- What holds of the queue after every regular event. -/
structure Sound (σ : System) : Prop where
  consistent : σ.world.store.Consistent
  fenced : Fenced σ.leases σ.world.store
  rows : ∀ j ∈ σ.world.store.jobs, j.Lifecycle
  claims : ∀ j ∈ σ.world.store.jobs, ((σ.leases.countP fun l => l.jobId = j.id : Nat) : Int) = j.attemptCount
  tasks : ∀ t ∈ σ.tasks, t.Informed σ.world.store

/-- A row counts the attempts for which a write hands out a lease. -/
theorem attemptCount_granted (wr : Write) (j : Job) : (wr.job j).attemptCount =
    j.attemptCount + ((wr.granted.toList.countP fun l => l.jobId = j.id : Nat) : Int) := by
  have hattempt := wr.job_attempt j
  cases wr with
  | claim k workerId now timeout =>
    by_cases hid : j.id = k.id
    · simp [Write.granted, hid, Job.claim]
    · have hne : k.id ≠ j.id := fun heq => hid heq.symm
      simp [Write.granted, hid, hne]
  | _ =>
    rcases hattempt with ⟨_, _, _, _, hclaim, _, _⟩ | ⟨hcount, _⟩
    · cases hclaim
    · rw [hcount]
      simp [Write.granted]

private theorem claims_apply {leases : List Lease} {s : Store} {wr : Write} (hfenced : Fenced leases s)
    (hallowed : wr.Allowed s) (hregular : wr.Regular s)
    (h : ∀ j ∈ s.jobs, ((leases.countP fun l => l.jobId = j.id : Nat) : Int) = j.attemptCount) :
    ∀ j ∈ (wr.apply s).jobs,
      (((leases ++ wr.granted.toList).countP fun l => l.jobId = j.id : Nat) : Int) = j.attemptCount := by
  intro k hk
  rcases Write.mem_jobs.1 hk with ⟨j, hj, rfl⟩ | hnew
  · rw [wr.job_id, List.countP_append, Int.natCast_add, h j hj]
    exact (attemptCount_granted wr j).symm
  · -- No lease was handed out for a job that is not there yet.
    have hnone : (leases ++ wr.granted.toList).countP (fun l => l.jobId = k.id) = 0 := by
      refine List.countP_eq_zero.2 fun l hl hid => ?_
      have hid' : l.jobId = k.id := by simpa using hid
      rcases List.mem_append.1 hl with hold | hgranted
      · obtain ⟨j, hj, hjid, _⟩ := hfenced.counted l hold
        exact (hallowed.acceptsJob hnew).id j hj (hjid.trans hid')
      · cases wr <;> simp [Write.granted] at hgranted hnew
    have hzero : k.attemptCount = 0 := by
      rw [← hregular.newJob hnew]
      rfl
    rw [hnone, hzero]
    rfl

theorem Sound.commits {σ σ' : System} (h : σ.Sound) {wr : Option Write}
    (hwr : Write.Commits σ.world.store wr σ'.world.store) (hregular : ∀ x ∈ wr, x.Regular σ.world.store)
    (hleases : σ'.leases = σ.leases ++ (wr.bind Write.granted).toList)
    (htasks : ∀ t ∈ σ'.tasks, t.Informed σ.world.store) : σ'.Sound where
  consistent := hwr.consistent h.consistent
  fenced := hleases ▸ h.fenced.commits h.consistent hwr
  rows := by
    generalize σ'.world.store = s' at hwr
    cases hwr with
    | nothing => exact h.rows
    | made hallowed => exact (hregular _ rfl).lifecycle_apply hallowed h.consistent h.rows
  claims := by
    rw [hleases]
    generalize σ'.world.store = s' at hwr
    cases hwr with
    | nothing => simpa using h.claims
    | made hallowed => exact claims_apply h.fenced hallowed (hregular _ rfl) h.claims
  tasks t ht := (htasks t ht).commits hwr

/-- The write of a regular event is one that the queue guarantees, at the time of the clock. -/
theorem Sound.write {σ : System} {e : Event} (h : σ.Sound) (he : e.Regular) :
    ∃ wr, Write.Commits σ.world.store wr (σ.step e).world.store ∧
      (σ.step e).leases = σ.leases ++ (wr.bind Write.granted).toList ∧
      (∀ x ∈ wr, x.Regular σ.world.store) ∧ ∀ x ∈ wr, ∀ time ∈ x.time?, time = σ.world.now := by
  obtain ⟨wr, hwr, hleases, hsource, htime⟩ := σ.step_regular he
  refine ⟨wr, hwr, hleases, fun x hx => ?_, htime⟩
  rcases hsource x hx with ⟨i, t, t', _, ht, hstep⟩ | ⟨l, now, rfl⟩ | ⟨documentId, rfl⟩
  · exact hstep.regular (h.tasks t (List.mem_of_getElem? ht)) h.consistent
  · trivial
  · trivial

theorem step_sound {σ : System} {e : Event} (he : e.Regular) (h : σ.Sound) : (σ.step e).Sound := by
  obtain ⟨wr, hwr, hleases, hregular, _⟩ := h.write he
  refine h.commits hwr hregular hleases ?_
  exact σ.step_tasks e h.tasks (fun _ _ => trivial) (fun _ _ _ _ _ _ ht hstep => hstep.informed ht)
    fun worker job phase e ht => ht

theorem run_sound {σ : System} (h : σ.Sound) {events : List Event} (hevents : ∀ e ∈ events, e.Regular) :
    (σ.run events).Sound := by
  refine run_induction (P := fun _ σ => σ.Sound) h ?_
  intro before e he hbefore
  exact step_sound (hevents e he) hbefore

theorem initial_sound (objects : ObjectStore) (now : Int) (ids : IdSequence) :
    (initial objects now ids).Sound := by
  refine ⟨Store.consistent_empty, ⟨?_, ?_, ?_⟩, ?_, ?_, ?_⟩ <;> simp [initial, Store.empty]

/-- After every regular run, the columns of a job agree with its status, its attempts do not exceed the
allowed ones, and they are as many as the leases of it that were handed out. -/
theorem lifecycle (objects : ObjectStore) (now : Int) (ids : IdSequence) (events : List Event)
    (hevents : ∀ e ∈ events, e.Regular) :
    let σ := (initial objects now ids).run events
    ∀ j ∈ σ.world.store.jobs,
      j.Lifecycle ∧ j.attemptCount = (σ.leases.countP fun l => l.jobId = j.id : Nat) := by
  intro σ j hj
  have hsound : σ.Sound := run_sound (initial_sound objects now ids) hevents
  exact ⟨hsound.rows j hj, (hsound.claims j hj).symm⟩

/-- The object of a version is lost before its only attempt reads it. -/
theorem lifecycle_given_up :
    let events : List Event :=
      [.start (.upload 1 ⟨"t1", "w1", "kb1", "a.md", [104, 105], none⟩), .resume 0, .resume 0, .resume 0,
        .replaceObjects (.memory []), .start (.work ⟨"a", 1000, .default, .default⟩), .resume 1, .resume 1,
        .call (.heartbeat ⟨"id-3", "a", 1⟩), .resume 1, .resume 1, .resume 1, .resume 1]
    ∃ j ∈ ((initial (.memory []) 0 (.numbered "id")).run events).world.store.jobs,
      j.status = .deadLetter ∧ j.Lifecycle := by
  intro events
  have hregular : ∀ e ∈ events, e.Regular := by simp [events, Event.Regular]
  have hgivenUp : ∃ j ∈ ((initial (.memory []) 0 (.numbered "id")).run events).world.store.jobs,
      j.status = .deadLetter := by decide +kernel
  obtain ⟨j, hj, hstatus⟩ := hgivenUp
  exact ⟨j, hj, hstatus, (lifecycle _ _ _ events hregular j hj).1⟩

end System

end IngestionQueue
