import IngestionQueue.Proofs.Sweep

/-!
# No job is stranded

A worker may vanish after any of its calls, and its job then waits for somebody else.  Whether a claim may take
it or a sweep gives it up depends on the columns of its row, which go with its status: a job that waits has
attempts left and no lock (`Job.Lifecycle.claimable_of_waiting`), and one that is processing has a lock and a
time at which its lease was last refreshed.  So the two conditions share out all jobs that have not come to
their end (`Job.Lifecycle.claimable_or_abandoned`, `System.no_job_stranded`).
-/

namespace IngestionQueue

namespace Job.Lifecycle

variable {j : Job} {time timeout : Int}

/-- A job that waits is claimable as soon as it is due. -/
theorem claimable_of_waiting (h : j.Lifecycle) (hmax : 1 ≤ j.maxAttempts)
    (hstatus : j.status = .queued ∨ j.status = .retrying) (hdue : j.nextRunAt ≤ time) :
    j.Claimable time timeout := by
  have hcolumns := h.columns
  obtain ⟨hleft, hunlocked⟩ : j.attemptCount < j.maxAttempts ∧ j.lockedAt = none := by
    rcases hstatus with hqueued | hretrying
    · have hzero := h.queued.1 hqueued
      simp only [Columns, hqueued] at hcolumns
      exact ⟨by omega, hcolumns.2.2.1⟩
    · simp only [Columns, hretrying] at hcolumns
      exact ⟨hcolumns.1, hcolumns.2.2.2.1⟩
  exact ⟨hleft, .inl ⟨hstatus, hdue, .inl hunlocked⟩⟩

/-- A lease that was not refreshed for longer than the timeout has expired. -/
theorem leaseExpired (h : j.Lifecycle) (hprocessing : j.status = .processing)
    (hstale : ∀ t ∈ j.heartbeatAt, t + timeout < time) : LeaseExpired time timeout j := by
  have hcolumns := h.columns
  simp only [Columns, hprocessing] at hcolumns
  obtain ⟨t, ht⟩ := Option.isSome_iff_exists.1 hcolumns.2.2.2.1
  have hlate := hstale t ht
  refine ⟨hprocessing, ?_⟩
  have hrefreshed : j.refreshedAt = some t := by simp [refreshedAt, ht]
  rw [hrefreshed]
  show t < time - timeout
  omega

/-- The time before which leases have expired lies between the last refresh of the lease and now. -/
theorem fits_sub (h : j.Lifecycle) (hprocessing : j.status = .processing)
    (hstale : ∀ t ∈ j.heartbeatAt, t + timeout < time) (htimeout : 0 ≤ timeout) (htime : Word.Fits64 time)
    (hheartbeat : ∀ t ∈ j.heartbeatAt, Word.Fits64 t) : Word.Fits64 (time - timeout) := by
  have hcolumns := h.columns
  simp only [Columns, hprocessing] at hcolumns
  obtain ⟨t, ht⟩ := Option.isSome_iff_exists.1 hcolumns.2.2.2.1
  have hlate := hstale t ht
  have hleast := (hheartbeat t ht).1
  have hgreatest := htime.2
  exact ⟨by omega, by omega⟩

theorem isSome_lockedBy (h : j.Lifecycle) (hprocessing : j.status = .processing) : j.lockedBy.isSome := by
  have hcolumns := h.columns
  simp only [Columns, hprocessing] at hcolumns
  exact hcolumns.2.2.1

end Job.Lifecycle

namespace Job

variable {j : Job} {time timeout : Int}

theorem not_claimable_of_abandoned (h : j.Abandoned time timeout) : ¬j.Claimable time timeout := by
  intro hclaimable
  have hlast := h.1
  have hleft := hclaimable.1
  omega

theorem not_claimable_of_terminal (h : j.isTerminal = true) : ¬j.Claimable time timeout := by
  intro hclaimable
  rcases hclaimable.waiting with hstatus | hstatus | hstatus <;>
    simp [isTerminal, hstatus, JobStatus.isTerminal] at h

theorem not_abandoned_of_terminal (h : j.isTerminal = true) : ¬j.Abandoned time timeout := by
  rintro ⟨_, hstatus, _⟩
  simp [isTerminal, hstatus, JobStatus.isTerminal] at h

/-- A job that has not come to its end is claimable or abandoned, once its time has come and its lease, if it is
held at all, was not refreshed for too long. -/
theorem Lifecycle.claimable_or_abandoned (h : j.Lifecycle) (hmax : 1 ≤ j.maxAttempts)
    (hterminal : j.isTerminal = false) (hdue : j.nextRunAt ≤ time)
    (hstale : ∀ t ∈ j.heartbeatAt, t + timeout < time) :
    j.Claimable time timeout ∨ j.Abandoned time timeout := by
  cases hstatus : j.status with
  | queued => exact .inl (h.claimable_of_waiting hmax (.inl hstatus) hdue)
  | retrying => exact .inl (h.claimable_of_waiting hmax (.inr hstatus) hdue)
  | processing =>
    have hexpired := h.leaseExpired hstatus hstale
    by_cases hleft : j.attemptCount < j.maxAttempts
    · exact .inl ⟨hleft, .inr hexpired⟩
    · exact .inr ⟨by omega, hexpired⟩
  | completed => simp [isTerminal, hstatus, JobStatus.isTerminal] at hterminal
  | deadLetter => simp [isTerminal, hstatus, JobStatus.isTerminal] at hterminal

end Job

namespace System

theorem run_maxAttempts {σ : System} (h : ∀ j ∈ σ.world.store.jobs, 1 ≤ j.maxAttempts) (events : List Event) :
    ∀ j ∈ (σ.run events).world.store.jobs, 1 ≤ j.maxAttempts := by
  refine run_commits (P := fun s => ∀ j ∈ s.jobs, 1 ≤ j.maxAttempts) ?_ h events
  intro s wr s' hs hwr
  cases hwr with
  | nothing => exact hs
  | @made x hallowed =>
    intro j hj
    rcases Write.mem_jobs.1 hj with ⟨k, hk, rfl⟩ | hnew
    · rw [Job.maxAttempts_of_origin (x.job_origin k)]
      exact hs k hk
    · exact (hallowed.acceptsJob hnew).maxAttempts

/-- After every regular run, a job that has not come to its end is claimable or given up by a sweep, and never
both, at any time when it is due and its lease, if it is held at all, was not refreshed for longer than the
timeout. The sweep needs the time before which leases have expired to be one of 64 bits, which it is unless the
timeout is negative. A job that has come to its end is never claimable nor listed by a sweep. -/
theorem no_job_stranded (objects : ObjectStore) (now : Int) (ids : IdSequence) (events : List Event)
    (hevents : ∀ e ∈ events, e.Regular) :
    let σ := (initial objects now ids).run events
    ∀ j ∈ σ.world.store.jobs, ∀ timeout time : Int,
      (j.isTerminal = false → j.nextRunAt ≤ time → (∀ t ∈ j.heartbeatAt, t + timeout < time) →
        Xor (j.Claimable time timeout)
            (j ∈ σ.world.store.abandonedJobs time timeout ∧ j.lockedBy.isSome) ∧
          (j ∈ σ.world.store.abandonedJobs time timeout →
            (Word.Fits64 (time - timeout) → ∃ count w',
              (Recovery.sweep timeout).on { σ.world with now := time } = (.ok count, w') ∧
                j.givenUp time ∈ w'.store.jobs) ∧
            (0 ≤ timeout → Word.Fits64 time → (∀ t ∈ j.heartbeatAt, Word.Fits64 t) →
              Word.Fits64 (time - timeout)))) ∧
      (j.isTerminal = true →
        ¬j.Claimable time timeout ∧ j ∉ σ.world.store.abandonedJobs time timeout) := by
  intro σ j hj timeout time
  have hsound : σ.Sound := run_sound (initial_sound objects now ids) hevents
  have hlifecycle := hsound.rows j hj
  have hmax : 1 ≤ j.maxAttempts := run_maxAttempts (by simp [initial, Store.empty]) events j hj
  have hlisted : j ∈ σ.world.store.abandonedJobs time timeout ↔ j.Abandoned time timeout := by
    simp [Store.abandonedJobs, hj]
  constructor
  · intro hterminal hdue hstale
    rw [hlisted]
    constructor
    · rcases hlifecycle.claimable_or_abandoned hmax hterminal hdue hstale with hclaimable | habandoned
      · exact .inl ⟨hclaimable, fun h => Job.not_claimable_of_abandoned h.1 hclaimable⟩
      · have hlocked := hlifecycle.isSome_lockedBy habandoned.2.1
        exact .inr ⟨⟨habandoned, hlocked⟩, Job.not_claimable_of_abandoned habandoned⟩
    · intro habandoned
      refine ⟨fun hfits => ?_, hlifecycle.fits_sub habandoned.2.1 hstale⟩
      have hlocked : ∀ k ∈ σ.world.store.jobs, k.status = .processing → k.lockedBy.isSome :=
        fun k hk => (hsound.rows k hk).isSome_lockedBy
      obtain ⟨w', hsweep, hjobs⟩ :=
        Recovery.sweep_on (w := { σ.world with now := time }) hfits hsound.consistent hlocked
      refine ⟨_, w', hsweep, ?_⟩
      rw [hjobs, List.mem_map]
      exact ⟨j, hj, if_pos habandoned⟩
  · intro hterminal
    rw [hlisted]
    exact ⟨Job.not_claimable_of_terminal hterminal, Job.not_abandoned_of_terminal hterminal⟩

/-- The worker of a job vanishes in the only attempt; the job is not claimable, and a sweep gives it up. -/
theorem no_job_stranded_vanished :
    let events : List Event :=
      [.start (.upload 1 ⟨"t1", "w1", "kb1", "a.md", [104, 105], none⟩), .resume 0, .resume 0, .resume 0,
        .start (.work ⟨"a", 1000, .default, .default⟩), .resume 1, .resume 1]
    let σ := (initial (.memory []) 0 (.numbered "id")).run events
    ∃ j ∈ σ.world.store.jobs, j.status = .processing ∧ ¬j.Claimable 5000 1000 ∧ ∃ count w',
      (Recovery.sweep 1000).on { σ.world with now := 5000 } = (.ok count, w') ∧
        j.givenUp 5000 ∈ w'.store.jobs := by
  intro events σ
  have hregular : ∀ e ∈ events, e.Regular := by simp [events, Event.Regular]
  obtain ⟨j, hj, hstatus, hopen, hdue, hstale, hlisted⟩ : ∃ j ∈ σ.world.store.jobs,
      j.status = .processing ∧ j.isTerminal = false ∧ j.nextRunAt ≤ 5000 ∧
        (∀ t ∈ j.heartbeatAt, t + 1000 < 5000) ∧
        (j ∈ σ.world.store.abandonedJobs 5000 1000 ∧ j.lockedBy.isSome) := by
    decide +kernel
  obtain ⟨hone, hsweep⟩ := (no_job_stranded _ _ _ events hregular j hj 1000 5000).1 hopen hdue hstale
  refine ⟨j, hj, hstatus, ?_, (hsweep hlisted.1).1 (by decide)⟩
  rcases hone with ⟨_, hnot⟩ | ⟨_, hnot⟩
  · exact absurd hlisted hnot
  · exact hnot

end System

end IngestionQueue
