import IngestionQueue.Proofs.Production

/-!
# What becomes of a job

Whatever happens, the row of a job stays, and an event changes it in one of few ways (`Job.Evolves`,
`System.step_evolves`).  So what was asked for stays as it is, attempts are only ever added, the status changes
along few lines (`Job.Transition`), and a row that is completed or given up does not change any more
(`System.run_terminal`).  Jobs are made by producers alone, one for each that they report.  The main result is
`System.conservation`.
-/

namespace IngestionQueue

namespace Job

/-- What an event may make of the row of a job, given the time of the clock. -/
inductive Evolves (now : Int) (j : Job) : Job → Prop
  | keep : Evolves now j j
  | claim (workerId : String) (timeout : Int) (h : j.Claimable now timeout) : Evolves now j (j.claim workerId now)
  | refresh (h : j.status = .processing) : Evolves now j (j.refresh now)
  | advance (stage : JobStage) (progress : Int) (h : j.status = .processing) :
    Evolves now j (j.advance stage progress now)
  | complete (h : j.status = .processing) : Evolves now j (j.complete now)
  | fail (outcome : FailureOutcome) (error : String) (h : j.status = .processing) :
    Evolves now j (j.fail outcome error now)

/-- The status of a job changes by a claim, which counts another attempt, or at the end of an attempt. -/
inductive Transition (j k : Job) : Prop
  | stay (hstatus : k.status = j.status) (hattempt : k.attemptCount = j.attemptCount)
  | claim (h : j.status = .queued ∨ j.status = .retrying ∨ j.status = .processing)
    (hstatus : k.status = .processing) (hattempt : k.attemptCount = j.attemptCount + 1)
  | settle (h : j.status = .processing)
    (hstatus : k.status = .completed ∨ k.status = .retrying ∨ k.status = .deadLetter)
    (hattempt : k.attemptCount = j.attemptCount)

theorem Transition.attemptCount_le {j k : Job} (h : j.Transition k) : j.attemptCount ≤ k.attemptCount := by
  cases h <;> omega

theorem Claimable.waiting {j : Job} {now timeout : Int} (h : j.Claimable now timeout) :
    j.status = .queued ∨ j.status = .retrying ∨ j.status = .processing := by
  obtain ⟨_, ⟨hqueued | hretrying, _⟩ | ⟨hprocessing, _⟩⟩ := h
  · exact .inl hqueued
  · exact .inr (.inl hretrying)
  · exact .inr (.inr hprocessing)

namespace Evolves

variable {now : Int} {j k : Job}

theorem transition (h : j.Evolves now k) : j.Transition k := by
  cases h with
  | keep => exact .stay rfl rfl
  | claim workerId timeout hclaimable => exact .claim hclaimable.waiting rfl rfl
  | refresh hprocessing => exact .stay rfl rfl
  | advance stage progress hprocessing => exact .stay rfl rfl
  | complete hprocessing => exact .settle hprocessing (.inl rfl) rfl
  | fail outcome error hprocessing =>
    cases outcome with
    | retry nextRunAt => exact .settle hprocessing (.inr (.inl rfl)) rfl
    | deadLetter => exact .settle hprocessing (.inr (.inr rfl)) rfl

/-- A terminal status is never left, and nothing else of its row changes either. -/
theorem eq_of_terminal (h : j.Evolves now k) (hterminal : j.isTerminal = true) : k = j := by
  have hnot : j.status ≠ .processing := by
    intro hprocessing
    simp [isTerminal, hprocessing, JobStatus.isTerminal] at hterminal
  cases h with
  | keep => rfl
  | claim workerId timeout hclaimable =>
    rcases hclaimable.waiting with hstatus | hstatus | hstatus <;>
      simp [isTerminal, hstatus, JobStatus.isTerminal] at hterminal
  | refresh hprocessing => exact absurd hprocessing hnot
  | advance stage progress hprocessing => exact absurd hprocessing hnot
  | complete hprocessing => exact absurd hprocessing hnot
  | fail outcome error hprocessing => exact absurd hprocessing hnot

end Evolves

end Job

namespace Write

variable {s : Store} {wr : Write}

private theorem evolves_held {now : Int} {l : Lease} {j k : Job}
    (hk : j.status = .processing → j.Evolves now k) : j.Evolves now (if l.Holds j then k else j) := by
  split
  · rename_i hl
    exact hk hl.2.1
  · exact .keep

theorem Allowed.evolves (hallowed : wr.Allowed s) (hs : s.Consistent) {now : Int}
    (htime : ∀ time ∈ wr.time?, time = now) {j : Job} (hj : j ∈ s.jobs) : j.Evolves now (wr.job j) := by
  cases wr with
  | insert _ => exact .keep
  | save _ _ _ => exact .keep
  | markDeleted _ => exact .keep
  | claim k workerId time timeout =>
    obtain rfl := htime time rfl
    obtain ⟨hk, hclaimable⟩ := hallowed.claimable
    simp only [job]
    split
    · rename_i hid
      obtain rfl : j = k := hs.job_eq hj hk hid
      exact .claim workerId timeout hclaimable
    · exact .keep
  | refresh l time =>
    obtain rfl := htime time rfl
    exact evolves_held .refresh
  | advance l stage progress time =>
    obtain rfl := htime time rfl
    exact evolves_held (.advance stage progress)
  | mark l documentId time =>
    obtain rfl := htime time rfl
    exact evolves_held .refresh
  | finalize l source chunks time =>
    obtain rfl := htime time rfl
    exact evolves_held .complete
  | fail l documentId versionId outcome error time =>
    obtain rfl := htime time rfl
    exact evolves_held (.fail outcome error)

/-- A row of a failed attempt was so before, or its attempt has just failed. -/
theorem failed_of_job {j : Job} (h : (wr.job j).status = .retrying ∨ (wr.job j).status = .deadLetter) :
    wr.job j = j ∨ ∃ l documentId versionId outcome error now,
      wr = fail l documentId versionId outcome error now ∧ l.Holds j ∧ wr.job j = j.fail outcome error now := by
  cases wr with
  | claim k workerId now timeout =>
    by_cases hid : j.id = k.id
    · simp [hid, Job.claim] at h
    · exact .inl (by simp [hid])
  | fail l documentId versionId outcome error now =>
    by_cases hl : l.Holds j
    · exact .inr ⟨l, documentId, versionId, outcome, error, now, rfl, hl, if_pos hl⟩
    · exact .inl (by simp [hl])
  | finalize l source chunks now =>
    by_cases hl : l.Holds j
    · simp [hl, Job.complete] at h
    · exact .inl (by simp [hl])
  | refresh l now | mark l _ now =>
    by_cases hl : l.Holds j
    · simp [hl, Job.refresh, hl.2.1] at h
    · exact .inl (by simp [hl])
  | advance l stage progress now =>
    by_cases hl : l.Holds j
    · simp [hl, Job.advance, Job.refresh, hl.2.1] at h
    · exact .inl (by simp [hl])
  | _ => exact .inl rfl

end Write

/-! ### Rows -/

namespace System

variable {σ : System} {j k : Job}

/-- The row of a job is still there after an event, and it is still that of the same job. -/
theorem step_row (hs : σ.world.store.Consistent) (e : Event) (hj : j ∈ σ.world.store.jobs) :
    ∃ k ∈ (σ.step e).world.store.jobs, k.origin = j.origin ∧ j.Evolves σ.world.now k := by
  obtain ⟨wr, hwr, _, _, htime⟩ := σ.step_write e
  generalize (σ.step e).world.store = s' at hwr
  cases hwr with
  | nothing => exact ⟨j, hj, rfl, .keep⟩
  | @made x hallowed =>
    exact ⟨x.job j, Write.mem_jobs.2 (.inl ⟨j, hj, rfl⟩), x.job_origin j, hallowed.evolves hs (htime x rfl) hj⟩

theorem step_evolves (hs : σ.world.store.Consistent) (e : Event) (hj : j ∈ σ.world.store.jobs)
    (hk : k ∈ (σ.step e).world.store.jobs) (hid : k.id = j.id) : j.Evolves σ.world.now k := by
  obtain ⟨i, hi, horigin, hevolves⟩ := step_row hs e hj
  have hiid : i.id = j.id := Job.id_of_origin horigin
  obtain rfl : k = i := (step_consistent hs e).job_eq hk hi (hid.trans hiid.symm)
  exact hevolves

/-- What is completed or given up stays as it is. -/
theorem run_terminal (hs : σ.world.store.Consistent) (hj : j ∈ σ.world.store.jobs)
    (hterminal : j.isTerminal = true) (events : List Event) : j ∈ (σ.run events).world.store.jobs := by
  refine run_induction (P := fun _ σ => j ∈ σ.world.store.jobs) hj ?_
  intro before e _ hbefore
  obtain ⟨k, hk, _, hevolves⟩ := step_row (run_consistent hs before) e hbefore
  rwa [hevolves.eq_of_terminal hterminal] at hk

end System

/-! ### Ends of jobs -/

/-- The job is completed or given up. -/
def Store.Settled (s : Store) (id : String) : Prop :=
  ∃ j ∈ s.jobs, j.id = id ∧ j.isTerminal = true

instance (s : Store) (id : String) : Decidable (s.Settled id) :=
  inferInstanceAs (Decidable (∃ j ∈ s.jobs, j.id = id ∧ j.isTerminal = true))

namespace System

/-- How often a job is completed or given up during a series of events. -/
def settlements (σ : System) (id : String) : List Event → Nat
  | [] => 0
  | e :: events =>
    (if ¬σ.world.store.Settled id ∧ (σ.step e).world.store.Settled id then 1 else 0) +
      (σ.step e).settlements id events

variable {σ : System} {id : String}

theorem step_settled (hs : σ.world.store.Consistent) (e : Event) (h : σ.world.store.Settled id) :
    (σ.step e).world.store.Settled id := by
  obtain ⟨j, hj, hid, hterminal⟩ := h
  exact ⟨j, run_terminal hs hj hterminal [e], hid, hterminal⟩

private theorem settlements_of_settled (hs : σ.world.store.Consistent) (h : σ.world.store.Settled id)
    (events : List Event) : σ.settlements id events = 0 := by
  induction events generalizing σ with
  | nil => rfl
  | cons e events ih =>
    have hrest := ih (step_consistent hs e) (step_settled hs e h)
    simp [settlements, h, hrest]

theorem settlements_le_one (hs : σ.world.store.Consistent) (events : List Event) :
    σ.settlements id events ≤ 1 := by
  induction events generalizing σ with
  | nil => exact Nat.zero_le 1
  | cons e events ih =>
    unfold settlements
    split
    · rename_i h
      have hrest := settlements_of_settled (step_consistent hs e) h.2 events
      omega
    · have hrest := ih (step_consistent hs e)
      omega

end System

/-! ### How many jobs there are -/

private theorem countJobs_total (jobs : List Job) :
    jobs.countP (·.status == .queued) + jobs.countP (·.status == .processing) +
      jobs.countP (·.status == .retrying) + jobs.countP (·.status == .completed) +
      jobs.countP (·.status == .deadLetter) = jobs.length := by
  induction jobs with
  | nil => rfl
  | cons j rest ih =>
    simp only [List.countP_cons, List.length_cons, ← ih]
    cases j.status <;> simp <;> omega

/-- Every job has one of the five statuses that are counted. -/
theorem Ingestion.stats_total (w : World) :
    ∃ stats, Ingestion.stats.on w = (.ok stats, w) ∧ stats.total = w.store.jobs.length := by
  refine ⟨_, rfl, ?_⟩
  have htotal := countJobs_total w.store.jobs
  simp only [QueueStats.total, Store.countJobs]
  omega

theorem Write.Commits.length_jobs {s s' : Store} {wr : Option Write} (hwr : Write.Commits s wr s')
    (hnew : ∀ x ∈ wr, x.newJobs = []) : s'.jobs.length = s.jobs.length := by
  cases hwr with
  | nothing => rfl
  | @made x _ =>
    have hnone := hnew x rfl
    simp only [Write.apply, List.length_append, List.length_map, hnone, List.length_nil, Nat.add_zero]

namespace Task.Produces

variable {t t' : Task} {w w' : World}

/-- A job is made exactly where it will be reported. -/
theorem length_jobs (h : t.Produces w t' w') :
    w'.store.jobs.length + t.reported.toNat + t.inserted.toNat =
      w.store.jobs.length + t'.reported.toNat + t'.inserted.toNat := by
  cases h with
  | lookUp maxAttempts r action hkey => rfl
  | insert job haccepts => simp [World.write, Write.apply, reported, inserted]
  | duplicate job hkey => rfl
  | read job k created hk htenant hkey => cases created <;> rfl
  | save maxAttempts p hallowed =>
    simp [World.write, World.handOut, Write.apply, Ingestion.saveOn, reported, inserted]
  | other t t' w' wr count hwr hnew hids hpending hinserted hreported =>
    have hinserted' : t'.inserted = false := by
      cases t' <;> first | rfl | simp [pending] at hpending
    have hreported' : t'.reported = t.reported := by
      rcases hreported with rfl | ⟨hbefore, hafter⟩
      · rfl
      · rw [hbefore, hafter]
    rw [hwr.length_jobs hnew, hinserted, hinserted', hreported']

end Task.Produces

namespace System

/-- There are as many jobs as producers have reported or are about to report. -/
structure Accounted (σ : System) : Prop where
  readable : σ.Readable
  jobs : σ.world.store.jobs.length = σ.tasks.countP Task.reported + σ.tasks.countP Task.inserted

variable {σ : System}

theorem step_accounted (h : σ.Accounted) (e : Event) : (σ.step e).Accounted := by
  refine ⟨step_readable h.readable e, ?_⟩
  have hjobs := h.jobs
  rcases step_produces h.readable e with
    ⟨i, t, rfl, ht, hproduces⟩ | ⟨⟨wr, hwr, hnew⟩, _, hreported, hinserted⟩
  · obtain ⟨hworld, htasks⟩ := step_resume ht
    have hlength := hproduces.length_jobs
    have hreported := countP_set Task.reported ht (t.resume σ.world).1
    have hinserted := countP_set Task.inserted ht (t.resume σ.world).1
    rw [hworld, htasks]
    omega
  · rw [hwr.length_jobs hnew, hreported, hinserted, hjobs]

theorem run_accounted (h : σ.Accounted) (events : List Event) : (σ.run events).Accounted := by
  refine run_induction (P := fun _ σ => σ.Accounted) h ?_
  intro before e _ hbefore
  exact step_accounted hbefore e

theorem initial_accounted (objects : ObjectStore) (now : Int) (ids : IdSequence) :
    (initial objects now ids).Accounted :=
  ⟨initial_readable objects now ids, rfl⟩

/-- After every run, whatever happens next: the row of a job stays the one row of this job, it keeps what was
asked for, attempts are only added, and its status changes along the few lines there are; a row that is
completed or given up never changes again, so a job comes to its end at most once. The jobs that the
statistics count are as many as producers have been told they made, but for those enqueues that have just
inserted a job and report it with their next call; where the calls of producers are not interrupted there are
none of these. -/
theorem conservation (objects : ObjectStore) (now : Int) (ids : IdSequence) (events : List Event) :
    let start := initial objects now ids
    let σ := start.run events
    (∀ e : Event, ∀ j ∈ σ.world.store.jobs, ∃ k,
      (∀ i, i ∈ (σ.step e).world.store.jobs ∧ i.id = j.id ↔ i = k) ∧
      k.origin = j.origin ∧ j.attemptCount ≤ k.attemptCount ∧ j.Transition k) ∧
    (∀ j ∈ σ.world.store.jobs, j.isTerminal = true → ∀ more : List Event, ∀ k,
      k ∈ (σ.run more).world.store.jobs ∧ k.id = j.id ↔ k = j) ∧
    (∀ id, start.settlements id events ≤ 1) ∧
    ∃ stats, Ingestion.stats.on σ.world = (.ok stats, σ.world) ∧ stats.total = σ.world.store.jobs.length ∧
      σ.world.store.jobs.length = σ.tasks.countP Task.reported + σ.tasks.countP Task.inserted ∧
      ((∀ t ∈ σ.tasks, t.inserted = false) → stats.total = σ.tasks.countP Task.reported) := by
  intro start σ
  have hs : σ.world.store.Consistent := run_consistent Store.consistent_empty events
  refine ⟨?_, ?_, ?_, ?_⟩
  · intro e j hj
    obtain ⟨k, hk, horigin, hevolves⟩ := step_row hs e hj
    have hid : k.id = j.id := Job.id_of_origin horigin
    refine ⟨k, ?_, horigin, hevolves.transition.attemptCount_le, hevolves.transition⟩
    intro i
    constructor
    · rintro ⟨hi, hiid⟩
      exact (step_consistent hs e).job_eq hi hk (hiid.trans hid.symm)
    · rintro rfl
      exact ⟨hk, hid⟩
  · intro j hj hterminal more k
    have hmore := run_terminal hs hj hterminal more
    constructor
    · rintro ⟨hk, hid⟩
      exact (run_consistent hs more).job_eq hk hmore hid
    · rintro rfl
      exact ⟨hmore, rfl⟩
  · intro id
    exact settlements_le_one Store.consistent_empty events
  · obtain ⟨stats, hstats, htotal⟩ := Ingestion.stats_total σ.world
    have hjobs : σ.world.store.jobs.length = σ.tasks.countP Task.reported + σ.tasks.countP Task.inserted :=
      (run_accounted (initial_accounted objects now ids) events).jobs
    refine ⟨stats, hstats, htotal, hjobs, ?_⟩
    intro hwhole
    have hinserted : σ.tasks.countP Task.inserted = 0 := by
      rw [List.countP_eq_zero]
      intro t ht
      simp [hwhole t ht]
    omega

end System

end IngestionQueue
