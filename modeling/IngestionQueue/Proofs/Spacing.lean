import IngestionQueue.Proofs.Lifecycle
import IngestionQueue.Proofs.Recovery

/-!
# When a job is claimed again

The claims of a job are numbered one after the other (`Store.Counts`), and each claim after the first one has a
cause in the past.  A row that is retrying tells when its attempt was judged (`Store.Delayed`), and the time at
which a row that is processing was refreshed is not before any refresh of its lease (`Store.Renewed`).  Each
event keeps this, so whatever a claim reads from its row can be said in terms of the run before it.  The main
result is `System.spacing`.
-/

namespace IngestionQueue

/-! ### Numbers of attempts -/

/-- The attempts of the leases of a job, in the order in which they were handed out. -/
def Lease.attempts (id : String) (leases : List Lease) : List Int :=
  (leases.filter fun l => l.jobId = id).map Lease.attempt

/-- The first attempts, from one on. -/
def Lease.firstAttempts (count : Int) : List Int :=
  (List.range count.toNat).map fun n : Nat => (n : Int) + 1

theorem Lease.firstAttempts_succ {count : Int} (h : 0 ≤ count) :
    firstAttempts (count + 1) = firstAttempts count ++ [count + 1] := by
  have hsucc : (count + 1).toNat = count.toNat + 1 := by omega
  have hcast : ((count.toNat : Nat) : Int) = count := Int.toNat_of_nonneg h
  rw [firstAttempts, hsucc, List.range_succ, List.map_append, List.map_singleton, hcast, firstAttempts]

theorem Lease.mem_firstAttempts {count k : Int} (hpos : 1 ≤ k) (hle : k ≤ count) : k ∈ firstAttempts count :=
  List.mem_map.2 ⟨(k - 1).toNat, List.mem_range.2 (by omega), by omega⟩

/-- A job was claimed as often as its row says, and each claim has counted on from the one before. -/
def Store.Counts (s : Store) (leases : List Lease) : Prop :=
  ∀ j ∈ s.jobs, Lease.attempts j.id leases = Lease.firstAttempts j.attemptCount

private theorem attempts_append (id : String) (leases more : List Lease) :
    Lease.attempts id (leases ++ more) = Lease.attempts id leases ++ Lease.attempts id more := by
  simp [Lease.attempts]

theorem Write.attempts_granted {s : Store} {wr : Write} (hallowed : wr.Allowed s) (hs : s.Consistent) {j : Job}
    (hj : j ∈ s.jobs) (hcount : 0 ≤ j.attemptCount) {leases : List Lease}
    (h : Lease.attempts j.id leases = Lease.firstAttempts j.attemptCount) :
    Lease.attempts j.id (leases ++ wr.granted.toList) = Lease.firstAttempts (wr.job j).attemptCount := by
  rw [attempts_append, h]
  rcases wr.job_attempt j with ⟨k, workerId, now, timeout, rfl, hid, hclaim⟩ | ⟨hsame, _⟩
  · obtain rfl : j = k := hs.job_eq hj hallowed.claimable.1 hid
    rw [hclaim]
    simp only [Job.claim, Lease.firstAttempts_succ hcount]
    simp [Lease.attempts, granted]
  · rw [hsame]
    cases wr with
    | claim k workerId now timeout =>
      -- A claim that does not count an attempt of the job is that of another one.
      have hne : k.id ≠ j.id := by
        intro hid
        simp only [job, hid, if_true, Job.claim] at hsame
        omega
      simp [Lease.attempts, granted, hne]
    | _ => simp [Lease.attempts, granted]

namespace System

variable {start σ : System} {events : List Event} {e : Event}

theorem step_counts (he : e.Regular) (hsound : σ.Sound) (h : σ.world.store.Counts σ.leases) :
    (σ.step e).world.store.Counts (σ.step e).leases := by
  obtain ⟨wr, hwr, hleases, hregular, _⟩ := hsound.write he
  rw [hleases]
  generalize (σ.step e).world.store = s' at hwr
  cases hwr with
  | nothing => simpa using h
  | @made x hallowed =>
    intro k hk
    rcases Write.mem_jobs.1 hk with ⟨j, hj, rfl⟩ | hnew
    · rw [x.job_id]
      exact x.attempts_granted hallowed hsound.consistent hj (hsound.rows j hj).attempts.1 (h j hj)
    · -- No lease was handed out for a job that is not there yet.
      have hnone : Lease.attempts k.id (σ.leases ++ x.granted.toList) = [] := by
        refine List.map_eq_nil_iff.2 (List.filter_eq_nil_iff.2 fun l hl hid => ?_)
        rcases List.mem_append.1 hl with hold | hgranted
        · obtain ⟨j, hj, hjid, _⟩ := hsound.fenced.counted l hold
          exact (hallowed.acceptsJob hnew).id j hj (hjid.trans (by simpa using hid))
        · cases x <;> simp [Write.granted] at hgranted hnew
      have hzero : k.attemptCount = 0 := by
        rw [← (hregular x rfl).newJob hnew]
        rfl
      simp only [Option.bind_some, hnone, hzero]
      rfl

theorem run_counts (hsound : σ.Sound) (h : σ.world.store.Counts σ.leases)
    (hevents : ∀ e ∈ events, e.Regular) : (σ.run events).world.store.Counts (σ.run events).leases := by
  have hrun : (σ.run events).Sound ∧ (σ.run events).world.store.Counts (σ.run events).leases := by
    refine run_induction (P := fun _ σ => σ.Sound ∧ σ.world.store.Counts σ.leases) ⟨hsound, h⟩ ?_
    intro before e he hbefore
    exact ⟨step_sound (hevents e he) hbefore.1, step_counts (hevents e he) hbefore.1 hbefore.2⟩
  exact hrun.2

end System

/-! ### Timing -/

/-- The workers that are started share one lease timeout and one policy of retrying. -/
def Event.Timed (timeout : Int) (policy : RetryPolicy) : Event → Prop
  | start (.work worker) => worker.leaseTimeout = timeout ∧ worker.retry = policy
  | _ => True

namespace Task

/-- The worker whose call it is. -/
def worker? : Task → Option Worker
  | asked (.work worker) | attempt worker _ _ | record worker _ _ => some worker
  | _ => none

def Timed (timeout : Int) (policy : RetryPolicy) (t : Task) : Prop :=
  ∀ worker ∈ t.worker?, worker.leaseTimeout = timeout ∧ worker.retry = policy

theorem Step.worker {w : World} {t t' : Task} {wr : Option Write} (h : Step w t wr t') :
    ∀ worker ∈ t'.worker?, worker ∈ t.worker? := by
  cases h <;> simp [worker?]

end Task

theorem System.run_timed {σ : System} {timeout : Int} {policy : RetryPolicy}
    (h : ∀ t ∈ σ.tasks, t.Timed timeout policy) {events : List Event}
    (hevents : ∀ e ∈ events, e.Timed timeout policy) :
    ∀ t ∈ (σ.run events).tasks, t.Timed timeout policy := by
  refine run_induction (P := fun _ σ => ∀ t ∈ σ.tasks, t.Timed timeout policy) h ?_
  intro before e he hbefore
  refine step_tasks (P := Task.Timed timeout policy) _ e hbefore ?_ ?_ fun _ _ _ _ ht => ht
  · rintro r rfl
    cases r with
    | work worker =>
      rintro worker' ⟨⟩
      exact hevents _ he
    | _ => simp [Task.Timed, Task.worker?]
  · intro i t wr t' _ _ ht hstep worker hworker
    exact ht worker (hstep.worker worker hworker)

/-! ### Retries -/

/-- A retry is due after the delay that follows the attempt, which is never past the greatest time. -/
theorem Worker.nextRunAt_of_retry {worker : Worker} {job : ClaimedJob} {message : String} {now next : Int}
    {f : Failure} (h : worker.decide job message now = .ok f) (houtcome : f.outcome = .retry next) :
    next = now + worker.retry.delay job.attemptCount ∧ Word.Fits64 (now + worker.retry.delay job.attemptCount) := by
  rcases of_decide h with ⟨_, hfits, hretry⟩ | ⟨_, hdead⟩
  · rw [houtcome] at hretry
    exact ⟨FailureOutcome.retry.inj hretry, hfits⟩
  · rw [houtcome] at hdead
    cases hdead

/-- A row that is retrying was so before, or its attempt has just failed. -/
theorem Write.retrying_of_job {wr : Write} {j : Job} (h : (wr.job j).status = .retrying) :
    wr.job j = j ∨ ∃ l documentId versionId next error now,
      wr = fail l documentId versionId (.retry next) error now ∧ l.Holds j := by
  rcases failed_of_job (.inl h) with hsame | ⟨l, documentId, versionId, outcome, error, now, hwr, hl, hjob⟩
  · exact .inl hsame
  · cases outcome with
    | retry next => exact .inr ⟨l, documentId, versionId, next, error, now, hwr, hl⟩
    | deadLetter =>
      rw [hjob] at h
      cases h

namespace System

variable {start σ : System} {events : List Event} {e : Event} {policy : RetryPolicy}

/-- The task at a place has judged its attempt at a time, and this is the failure that it will record. -/
def Judged (start : System) (events : List Event) (i : Nat) (worker : Worker) (job : ClaimedJob) (f : Failure)
    (time : Int) : Prop :=
  ∃ before execution message, before ++ [.resume i] <+: events ∧
    (start.run before).tasks[i]? = some (.attempt worker job (.settle execution)) ∧
    (start.run before).world.now = time ∧ worker.decide job message time = .ok f

/-- An attempt of a job was ended by a failure that was judged at a time and recorded under the lease of the
attempt, with another attempt to follow. -/
def Retried (start : System) (events : List Event) (id : String) (attempt time : Int) : Prop :=
  ∃ before i worker job f, before ++ [.resume i] <+: events ∧
    (start.run before).tasks[i]? = some (.record worker job f) ∧
    (job.lease worker.id).Current (start.run before).world.store ∧ job.id = id ∧ job.attemptCount = attempt ∧
    (∃ next, f.outcome = .retry next) ∧ start.Judged before i worker job f time

theorem Judged.snoc {i : Nat} {worker : Worker} {job : ClaimedJob} {f : Failure} {time : Int}
    (h : start.Judged events i worker job f time) (e : Event) :
    start.Judged (events ++ [e]) i worker job f time := by
  obtain ⟨before, execution, message, hwithin, hrest⟩ := h
  exact ⟨before, execution, message, hwithin.trans (List.prefix_append _ _), hrest⟩

theorem Retried.snoc {id : String} {attempt time : Int} (h : start.Retried events id attempt time) (e : Event) :
    start.Retried (events ++ [e]) id attempt time := by
  obtain ⟨before, i, worker, job, f, hwithin, hrest⟩ := h
  exact ⟨before, i, worker, job, f, hwithin.trans (List.prefix_append _ _), hrest⟩

theorem run_judged (hstart : start.tasks = []) (events : List Event) :
    ∀ i worker job f, (start.run events).tasks[i]? = some (.record worker job f) →
      ∃ time, start.Judged events i worker job f time := by
  refine run_induction (P := fun events σ => ∀ i worker job f, σ.tasks[i]? = some (.record worker job f) →
    ∃ time, start.Judged events i worker job f time) ?_ ?_
  · intro i worker job f h
    simp [hstart] at h
  · intro before e _ ih i worker job f h
    rcases step_task h with hold | ⟨r, _, _, hr⟩ | ⟨t, rfl, ht, hresumed⟩ | ⟨_, _, _, _, _, _, hcrashed⟩
    · obtain ⟨time, hjudged⟩ := ih i worker job f hold
      exact ⟨time, hjudged.snoc e⟩
    · cases hr
    · obtain ⟨wr, _, _, hstep, _, _⟩ := t.resume_step (start.run before).world
      rw [← hresumed] at hstep
      cases hstep with
      | judge worker job execution message f hdecided =>
        exact ⟨_, before, execution, message, List.prefix_rfl, ht, rfl, hdecided⟩
    · cases hcrashed

/-- The row was retrying before the event, or the event has recorded the failure of its attempt. -/
theorem step_retrying (he : e.Regular) (hsound : σ.Sound) {k : Job} (hk : k ∈ (σ.step e).world.store.jobs)
    (hretrying : k.status = .retrying) :
    k ∈ σ.world.store.jobs ∨ ∃ i worker job f, e = .resume i ∧
      σ.tasks[i]? = some (.record worker job f) ∧ (job.lease worker.id).Current σ.world.store ∧ k.id = job.id ∧
      k.attemptCount = job.attemptCount ∧ f.outcome = .retry k.nextRunAt := by
  obtain ⟨wr, hwr, _, hsource, _⟩ := σ.step_regular he
  generalize (σ.step e).world.store = s' at hwr hk
  cases hwr with
  | nothing => exact .inl hk
  | @made x hallowed =>
    rcases Write.mem_jobs.1 hk with ⟨j, hj, rfl⟩ | hinserted
    · rcases Write.retrying_of_job hretrying with hsame | ⟨l, _, _, next, error, now, hx, hl⟩
      · rw [hsame]
        exact .inl hj
      · right
        rcases hsource x rfl with ⟨i, t, t', rfl, ht, hstep⟩ | ⟨_, _, rfl⟩ | ⟨_, rfl⟩
        · cases hstep with
          | record worker job f =>
            simp only [Worker.failOn, Write.fail.injEq] at hx
            obtain ⟨rfl, _, _, houtcome, _, _⟩ := hx
            refine ⟨i, worker, job, f, rfl, ht, ⟨j, hj, hl⟩, (Write.job_id _ j).trans hl.1, ?_⟩
            have hrow : (worker.failOn job f σ.world).job j = j.fail f.outcome f.error σ.world.now := if_pos hl
            rw [hrow, houtcome]
            exact ⟨hl.2.2.2, rfl⟩
          | giveUp j rest given workerId hlocked => simp [Recovery.giveUpWrite] at hx
          | _ => cases hx
        · cases hx
        · cases hx
    · rcases hsource x rfl with ⟨i, t, t', _, ht, hstep⟩ | ⟨_, _, rfl⟩ | ⟨_, rfl⟩
      · -- A row that is inserted is queued.
        have hinformed := hsound.tasks t (List.mem_of_getElem? ht)
        rw [← (hstep.regular hinformed hsound.consistent).newJob hinserted] at hretrying
        cases hretrying
      · cases hinserted
      · cases hinserted

/-- A row that is retrying is due after the delay that follows the attempt, counted from when it was judged. -/
def Delayed (start : System) (policy : RetryPolicy) (events : List Event) (σ : System) : Prop :=
  ∀ j ∈ σ.world.store.jobs, j.status = .retrying →
    ∃ time, start.Retried events j.id j.attemptCount time ∧ Word.Fits64 (time + policy.delay j.attemptCount) ∧
      j.nextRunAt = time + policy.delay j.attemptCount

theorem run_delayed {timeout : Int} (hstart : start.tasks = []) (hsound : start.Sound)
    (h : start.Delayed policy [] start) (hevents : ∀ e ∈ events, e.Regular ∧ e.Timed timeout policy) :
    start.Delayed policy events (start.run events) := by
  have hrun : (start.run events).Sound ∧ (∀ t ∈ (start.run events).tasks, t.Timed timeout policy) ∧
      start.Delayed policy events (start.run events) := by
    refine run_induction (P := fun events σ => σ.Sound ∧ (∀ t ∈ σ.tasks, t.Timed timeout policy) ∧
      start.Delayed policy events σ) ⟨hsound, by simp [hstart], h⟩ ?_
    rintro before e he ⟨hsound, htimed, hdelayed⟩
    obtain ⟨hregular, htiming⟩ := hevents e he
    refine ⟨step_sound hregular hsound, ?_, ?_⟩
    · have hevent : ∀ d ∈ [e], d.Timed timeout policy := by simpa using htiming
      exact run_timed htimed hevent
    · intro k hk hretrying
      rcases step_retrying hregular hsound hk hretrying with
        hold | ⟨i, worker, job, f, rfl, ht, hcurrent, hid, hcount, houtcome⟩
      · obtain ⟨time, hretried, hfits, hnext⟩ := hdelayed k hold hretrying
        exact ⟨time, hretried.snoc e, hfits, hnext⟩
      · obtain ⟨time, hjudged⟩ := run_judged hstart before i worker job f ht
        obtain ⟨_, hpolicy⟩ := htimed _ (List.mem_of_getElem? ht) worker rfl
        refine ⟨time, ⟨before, i, worker, job, f, List.prefix_rfl, ht, hcurrent, hid.symm, hcount.symm,
          ⟨_, houtcome⟩, hjudged⟩, ?_⟩
        obtain ⟨earlier, execution, message, _, _, _, hdecided⟩ := hjudged
        obtain ⟨hnext, hfits⟩ := Worker.nextRunAt_of_retry hdecided houtcome
        rw [hcount, ← hpolicy]
        exact ⟨hfits, hnext⟩
  exact hrun.2.2

end System

/-! ### Refreshes -/

namespace System

/-- The event refreshes a lease: it hands the lease out, or it is a heartbeat or a step of the attempt that is
made under the lease while this is current. -/
inductive Refreshes (σ : System) : Event → Lease → Prop
  | claim (e : Event) (l : Lease) (h : (σ.step e).leases = σ.leases ++ [l]) : Refreshes σ e l
  | heartbeat (l : Lease) (h : l.Current σ.world.store) : Refreshes σ (.call (.heartbeat l)) l
  | mark (i : Nat) (worker : Worker) (job : ClaimedJob) (a : Attempt)
    (ht : σ.tasks[i]? = some (.attempt worker job (.mark a))) (h : a.lease.Current σ.world.store) :
    Refreshes σ (.resume i) a.lease
  | advance (i : Nat) (worker : Worker) (job : ClaimedJob) (a : Attempt) (text : String)
    (ht : σ.tasks[i]? = some (.attempt worker job (.advance a text))) (h : a.lease.Current σ.world.store) :
    Refreshes σ (.resume i) a.lease

end System

namespace Write

/-- The write refreshes the lease, at a time. -/
def Refreshes (now : Int) (l : Lease) : Write → Prop
  | claim j workerId time _ => l = ⟨j.id, workerId, j.attemptCount + 1⟩ ∧ time = now
  | refresh l' time | advance l' _ _ time | mark l' _ time => l' = l ∧ time = now
  | _ => False

theorem Refreshes.refreshedAt {now : Int} {l : Lease} {wr : Write} (h : wr.Refreshes now l) {j : Job}
    (hl : l.Holds (wr.job j)) : (wr.job j).refreshedAt = some now := by
  cases wr with
  | claim k workerId time timeout =>
    obtain ⟨rfl, rfl⟩ := h
    have hid : j.id = k.id := (Write.job_id _ j).symm.trans hl.1
    simp [hid, Job.claim, Job.refreshedAt]
  | refresh l' time | mark l' _ time | advance l' _ _ time =>
    obtain ⟨rfl, rfl⟩ := h
    by_cases hheld : l'.Holds j
    · simp [hheld, Job.refresh, Job.advance, Job.refreshedAt]
    · simp only [job, hheld, if_false] at hl
  | _ => exact h.elim

end Write

namespace System

variable {start σ : System} {events : List Event} {e : Event} {l : Lease}

theorem Refreshes.write (h : σ.Refreshes e l) :
    ∃ wr : Write, wr.Refreshes σ.world.now l ∧ (σ.step e).world.store = wr.apply σ.world.store ∧
      wr.newJobs = [] := by
  cases h with
  | claim e l h =>
    obtain ⟨wr, hwr, hleases, _, htime⟩ := σ.step_write e
    rw [h] at hleases
    have hgranted := List.append_cancel_left hleases
    generalize (σ.step e).world.store = s' at hwr
    cases hwr with
    | nothing => simp at hgranted
    | @made x hallowed =>
      refine ⟨x, ?_, rfl, ?_⟩
      · cases x with
        | claim j workerId time timeout =>
          exact ⟨by simpa [Write.granted] using hgranted, htime _ rfl time rfl⟩
        | _ => simp [Write.granted] at hgranted
      · cases x <;> simp [Write.granted] at hgranted ⊢
  | heartbeat l h =>
    refine ⟨.refresh l σ.world.now, ⟨rfl, rfl⟩, ?_, rfl⟩
    simp [step, Call.perform, Query.heartbeat_on, h]
  | mark i worker job a ht h =>
    refine ⟨.mark a.lease a.source.documentId σ.world.now, ⟨rfl, rfl⟩, ?_, rfl⟩
    have hmark := a.mark_on σ.world
    rw [if_pos h] at hmark
    simp only [step, ht, Task.resume, Task.next, Checked.on_bind, Checked.on_lift, Service.on_bind,
      Service.on_attempt, Phase.next, hmark, Service.on_pure]
    rfl
  | advance i worker job a text ht h =>
    refine ⟨.advance a.lease .chunking progressChunking σ.world.now, ⟨rfl, rfl⟩, ?_, rfl⟩
    have hadvance := a.advance_on σ.world
    rw [if_pos h] at hadvance
    simp only [step, ht, Task.resume, Task.next, Checked.on_bind, Checked.on_lift, Service.on_bind,
      Service.on_attempt, Phase.next, hadvance, Service.on_pure]
    rfl

theorem Refreshes.refreshedAt (h : σ.Refreshes e l) {k : Job} (hk : k ∈ (σ.step e).world.store.jobs)
    (hl : l.Holds k) : k.refreshedAt = some σ.world.now := by
  obtain ⟨wr, hrefreshes, hstore, hnew⟩ := h.write
  rw [hstore] at hk
  rcases Write.mem_jobs.1 hk with ⟨j, hj, rfl⟩ | hinserted
  · exact hrefreshes.refreshedAt hl
  · rw [hnew] at hinserted
    cases hinserted

/-- A row that is processing was refreshed at some time that is not before any refresh of its lease. -/
def Renewed (start : System) (events : List Event) (σ : System) : Prop :=
  ∀ j ∈ σ.world.store.jobs, j.status = .processing → ∃ time ∈ j.refreshedAt, time ≤ σ.world.now ∧
    ∀ l : Lease, l.Holds j → ∀ before e, before ++ [e] <+: events → (start.run before).Refreshes e l →
      (start.run before).world.now ≤ time

/-- Rows are there before an event already, but for the new ones, which wait to be claimed. -/
theorem Sound.exists_before (h : σ.Sound) (he : e.Regular) {k : Job} (hk : k ∈ (σ.step e).world.store.jobs) :
    (∃ j ∈ σ.world.store.jobs, j.Evolves σ.world.now k) ∨ k.origin = k := by
  obtain ⟨wr, hwr, _, hregular, htime⟩ := h.write he
  generalize (σ.step e).world.store = s' at hwr hk
  cases hwr with
  | nothing => exact .inl ⟨k, hk, .keep⟩
  | @made x hallowed =>
    rcases Write.mem_jobs.1 hk with ⟨j, hj, rfl⟩ | hnew
    · exact .inl ⟨j, hj, hallowed.evolves h.consistent (htime x rfl) hj⟩
    · exact .inr ((hregular x rfl).newJob hnew)

private theorem prefix_of_snoc {earlier before : List Event} {d e : Event}
    (h : earlier ++ [d] <+: before ++ [e]) : earlier <+: before := by
  rcases List.prefix_concat_iff.1 h with hwhole | hbefore
  · obtain ⟨rfl, _⟩ := List.append_inj' hwhole rfl
    exact List.prefix_rfl
  · exact (List.prefix_append _ _).trans hbefore

theorem now_le_of_prefix (hclock : start.Forward events) {before : List Event} (h : before <+: events) :
    (start.run before).world.now ≤ (start.run events).world.now := by
  obtain ⟨rest, rfl⟩ := h
  rw [run_append]
  exact run_now (forward_append.1 hclock).2

theorem Renewed.snoc (h : start.Renewed events σ) (hσ : start.run events = σ) (hsound : σ.Sound) (he : e.Regular)
    (hclock : start.Forward (events ++ [e])) : start.Renewed (events ++ [e]) (σ.step e) := by
  subst hσ
  obtain ⟨hpart, hlast⟩ := forward_append.1 hclock
  have hnow := step_now hlast.1
  intro k hk hprocessing
  rcases hsound.exists_before he hk with ⟨j, hj, hevolves⟩ | hnew
  · rcases hevolves.eq_or_refreshed with rfl | hrefreshed
    · obtain ⟨time, htime, hbound, hlatest⟩ := h k hj hprocessing
      refine ⟨time, htime, by omega, ?_⟩
      intro l hl before d hwithin hrefreshes
      rcases List.prefix_concat_iff.1 hwithin with hwhole | hbefore
      · obtain ⟨rfl, hd⟩ := List.append_inj' hwhole rfl
        obtain rfl : d = e := List.singleton_inj.1 hd
        obtain rfl : time = _ := Option.some.inj (htime.symm.trans (hrefreshes.refreshedAt hk hl))
        exact Int.le_refl _
      · exact hlatest l hl before d hbefore hrefreshes
    · -- The row was refreshed just now, and nothing that has happened was later.
      refine ⟨_, hrefreshed, hnow, ?_⟩
      intro l _ before d hwithin _
      exact now_le_of_prefix hpart (prefix_of_snoc hwithin)
  · rw [← hnew] at hprocessing
    cases hprocessing

theorem run_renewed (hsound : start.Sound) (h : start.Renewed [] start) (hevents : ∀ e ∈ events, e.Regular)
    (hclock : start.Forward events) : start.Renewed events (start.run events) := by
  have hrun : start.Forward events →
      (start.run events).Sound ∧ start.Renewed events (start.run events) := by
    refine run_induction
      (P := fun events σ => start.Forward events → σ.Sound ∧ start.Renewed events σ) (fun _ => ⟨hsound, h⟩) ?_
    intro before e he ih hforward
    obtain ⟨hsound, hrenewed⟩ := ih (forward_append.1 hforward).1
    exact ⟨step_sound (hevents e he) hsound, hrenewed.snoc rfl hsound (hevents e he) hforward⟩
  exact (hrun hclock).2

/-! ### Claims -/

/-- A lease is handed out with the claim of a job that a worker may take. -/
theorem step_claim (he : e.Regular) (h : (σ.step e).leases = σ.leases ++ [l]) :
    ∃ worker, .asked (.work worker) ∈ σ.tasks ∧ Word.Fits64 (σ.world.now - worker.leaseTimeout) ∧
      ∃ j ∈ σ.world.store.jobs, j.Claimable σ.world.now worker.leaseTimeout ∧
        l = ⟨j.id, worker.id, j.attemptCount + 1⟩ := by
  obtain ⟨wr, hwr, hleases, hsource, _⟩ := σ.step_regular he
  rw [h] at hleases
  have hgranted := List.append_cancel_left hleases
  generalize (σ.step e).world.store = s' at hwr
  cases hwr with
  | nothing => simp at hgranted
  | @made x hallowed =>
    rcases hsource x rfl with ⟨i, t, t', _, ht, hstep⟩ | ⟨_, _, rfl⟩ | ⟨_, rfl⟩
    · cases hstep with
      | claim worker j hfits hfirst =>
        obtain ⟨hj, hclaimable⟩ := hallowed.claimable
        exact ⟨worker, List.mem_of_getElem? ht, hfits, j, hj, hclaimable, by simpa [Write.granted] using hgranted⟩
      | _ => simp [Write.granted, Ingestion.saveOn, Worker.failOn, Recovery.giveUpWrite] at hgranted
    · simp [Write.granted] at hgranted
    · simp [Write.granted] at hgranted

/-- Why a row that was claimed before may be claimed again: its retry is due, or its lease was not refreshed for
longer than the timeout. -/
theorem claimable_again {timeout : Int} (hsound : σ.Sound) (hcounts : σ.world.store.Counts σ.leases)
    (hdelayed : start.Delayed policy events σ) (hrenewed : start.Renewed events σ) {j : Job}
    (hj : j ∈ σ.world.store.jobs) (hclaimable : j.Claimable σ.world.now timeout) (hagain : 1 ≤ j.attemptCount) :
    (∃ time, start.Retried events j.id j.attemptCount time ∧ Word.Fits64 (time + policy.delay j.attemptCount) ∧
        time + policy.delay j.attemptCount ≤ σ.world.now) ∨
      ∃ l ∈ σ.leases, l.jobId = j.id ∧ l.attempt = j.attemptCount ∧ l.Current σ.world.store ∧
        ∀ before e, before ++ [e] <+: events → (start.run before).Refreshes e l →
          (start.run before).world.now < σ.world.now - timeout := by
  have hlifecycle := hsound.rows j hj
  rcases hclaimable.2 with ⟨hqueued | hretrying, hdue, _⟩ | ⟨hprocessing, hexpired⟩
  · have hzero := hlifecycle.queued.1 hqueued
    omega
  · obtain ⟨time, hretried, hfits, hnext⟩ := hdelayed j hj hretrying
    exact .inl ⟨time, hretried, hfits, by omega⟩
  · right
    have hmem : j.attemptCount ∈ Lease.attempts j.id σ.leases := by
      rw [hcounts j hj]
      exact Lease.mem_firstAttempts hagain (Int.le_refl _)
    obtain ⟨l, hl, hattempt⟩ := List.mem_map.1 hmem
    obtain ⟨hl, hjob⟩ : l ∈ σ.leases ∧ l.jobId = j.id := by simpa using hl
    have hholds : l.Holds j :=
      ⟨hjob.symm, hprocessing, hsound.fenced.locked l hl j hj hjob.symm hattempt.symm hprocessing, hattempt.symm⟩
    obtain ⟨time, htime, _, hlatest⟩ := hrenewed j hj hprocessing
    have hlate : time < σ.world.now - timeout := by
      rw [show j.refreshedAt = some time from htime] at hexpired
      exact hexpired
    refine ⟨l, hl, hjob, hattempt, ⟨j, hj, hholds⟩, ?_⟩
    intro before e hwithin hrefreshes
    have hbound := hlatest l hholds before e hwithin hrefreshes
    omega

/-- In a regular run whose clock is never set back, the claims of a job carry the attempts from one on in their
order, and no more than are allowed. Where attempt `k + 1` is claimed, attempt `k` was ended by a failure that
was recorded as a retry, and the delay that follows attempt `k` has elapsed since this was decided; or the lease
of attempt `k` is still current, and everything that has refreshed it is longer ago than the lease timeout. The sum
and the difference in this are exact: a worker that comes to one that overflows neither records nor claims. -/
theorem spacing (objects : ObjectStore) (now : Int) (ids : IdSequence) (timeout : Int) (policy : RetryPolicy)
    (events : List Event) (hevents : ∀ e ∈ events, e.Regular ∧ e.Timed timeout policy)
    (hclock : (initial objects now ids).Forward events) :
    let start := initial objects now ids
    let σ := start.run events
    (∀ j ∈ σ.world.store.jobs,
      Lease.attempts j.id σ.leases = Lease.firstAttempts j.attemptCount ∧ j.attemptCount ≤ j.maxAttempts) ∧
    (∀ l ∈ σ.leases, ∃ j ∈ σ.world.store.jobs, j.id = l.jobId) ∧
    ∀ before e, before ++ [e] <+: events → ∀ l : Lease, ∀ k : Int, 1 ≤ k →
      ((start.run before).step e).leases = (start.run before).leases ++ [l] → l.attempt = k + 1 →
      Word.Fits64 ((start.run before).world.now - timeout) ∧
      ((∃ time, start.Retried before l.jobId k time ∧ Word.Fits64 (time + policy.delay k) ∧
          time + policy.delay k ≤ (start.run before).world.now) ∨
        ∃ l' ∈ (start.run before).leases, l'.jobId = l.jobId ∧ l'.attempt = k ∧
          l'.Current (start.run before).world.store ∧
          ∀ earlier d, earlier ++ [d] <+: before → (start.run earlier).Refreshes d l' →
            (start.run earlier).world.now < (start.run before).world.now - timeout) := by
  intro start σ
  have hsound : start.Sound := initial_sound objects now ids
  have hregular : ∀ e ∈ events, e.Regular := fun e he => (hevents e he).1
  have hcounts : start.world.store.Counts start.leases := by
    intro j hj
    cases hj
  refine ⟨?_, ?_, ?_⟩
  · intro j hj
    exact ⟨run_counts hsound hcounts hregular j hj, ((run_sound hsound hregular).rows j hj).attempts.2⟩
  · intro l hl
    obtain ⟨j, hj, hid, _⟩ := (run_sound hsound hregular).fenced.counted l hl
    exact ⟨j, hj, hid⟩
  · intro before e hwithin l k hagain hleases hattempt
    have hbefore : before <+: events := (List.prefix_append _ _).trans hwithin
    have hpast : ∀ d ∈ before, d.Regular ∧ d.Timed timeout policy := fun d hd => hevents d (hbefore.mem hd)
    have he : e.Regular := hregular e (hwithin.mem (by simp))
    have hforward : start.Forward before := by
      obtain ⟨rest, rfl⟩ := hbefore
      exact (forward_append.1 hclock).1
    obtain ⟨worker, hworker, hfits, j, hj, hclaimable, rfl⟩ := step_claim he hleases
    obtain ⟨htimeout, _⟩ := run_timed (by simp [start, initial]) (fun d hd => (hpast d hd).2) _ hworker worker rfl
    obtain rfl : j.attemptCount = k := by
      simp only at hattempt
      omega
    rw [htimeout] at hclaimable hfits
    refine ⟨hfits, ?_⟩
    refine claimable_again (run_sound hsound fun d hd => (hpast d hd).1) ?_ ?_ ?_ hj hclaimable hagain
    · exact run_counts hsound hcounts fun d hd => (hpast d hd).1
    · exact run_delayed rfl hsound (fun j hj => by cases hj) hpast
    · exact run_renewed hsound (fun j hj => by cases hj) (fun d hd => (hpast d hd).1) hforward

/-- The object of a version is lost before the first attempt reads it, and another worker claims the job when the
delay after the first attempt has elapsed. -/
theorem spacing_retried :
    let before : List Event :=
      [.start (.upload 3 ⟨"t1", "w1", "kb1", "a.md", [104, 105], none⟩), .resume 0, .resume 0, .resume 0,
        .replaceObjects (.memory []), .start (.work ⟨"a", 1000, .default, .default⟩), .resume 1, .resume 1, .resume 1,
        .resume 1, .setClock 500, .resume 1, .resume 1, .setClock 15500,
        .start (.work ⟨"b", 1000, .default, .default⟩)]
    let σ := (initial (.memory []) 0 (.numbered "id")).run before
    (σ.step (.resume 2)).leases = [⟨"id-3", "a", 1⟩, ⟨"id-3", "b", 2⟩] ∧
      ∃ time, (initial (.memory []) 0 (.numbered "id")).Retried before "id-3" 1 time ∧
        time + RetryPolicy.default.delay 1 ≤ σ.world.now := by
  intro before σ
  have hevents : ∀ e ∈ before ++ [.resume 2], e.Regular ∧ e.Timed 1000 .default := by
    simp [before, Event.Regular, Event.Timed]
  obtain ⟨hclock, hleases, hbefore, hfree⟩ :
      (initial (.memory []) 0 (.numbered "id")).Forward (before ++ [.resume 2]) ∧
      (σ.step (.resume 2)).leases = [⟨"id-3", "a", 1⟩, ⟨"id-3", "b", 2⟩] ∧ σ.leases = [⟨"id-3", "a", 1⟩] ∧
      ∀ l ∈ σ.leases, ¬l.Current σ.world.store := by
    decide +kernel
  have hgranted : (σ.step (.resume 2)).leases = σ.leases ++ [⟨"id-3", "b", 2⟩] := by
    rw [hleases, hbefore, List.singleton_append]
  obtain ⟨_, _, hagain⟩ := spacing (.memory []) 0 (.numbered "id") 1000 .default _ hevents hclock
  refine ⟨hleases, ?_⟩
  obtain ⟨_, hcause⟩ := hagain before (.resume 2) List.prefix_rfl ⟨"id-3", "b", 2⟩ 1 (Int.le_refl 1) hgranted rfl
  rcases hcause with ⟨time, hretried, _, hdue⟩ | ⟨l, hl, _, _, hcurrent, _⟩
  · exact ⟨time, hretried, hdue⟩
  · exact absurd hcurrent (hfree l hl)

end System

end IngestionQueue
