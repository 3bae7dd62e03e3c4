import IngestionQueue.Proofs.Sweep
import Mathlib.Algebra.Order.BigOperators.Group.List
import Mathlib.Algebra.Order.Ring.Int

/-!
# The drain loop ends

A worker that has made an attempt polls again without a pause, and a job whose attempt has failed may be claimable
again at the very same time, so nothing in the times of a row keeps the loop from going on.  What does is a measure over
all jobs: the attempts that are open to those that have not come to their end (`Store.openAttempts`).  A claim uses up
one of them, and nothing that becomes of a row gives one back (`Job.Evolves.openAttempts_le`).  So over any run that
adds no job there are at most as many claims as attempts were open at its beginning (`System.run_spends`), and a worker
that is left alone comes to a poll that finds nothing, or to one that overflows (`Worker.exists_drains`).  The main
result is `System.draining`.
-/

namespace IngestionQueue

/-! ### Open attempts -/

/-- How often a job may still be claimed. -/
def Job.openAttempts (j : Job) : Int :=
  if j.isTerminal then 0 else j.maxAttempts - j.attemptCount

/-- The attempts that are open to the jobs that have not come to their end, taken together. -/
def Store.openAttempts (s : Store) : Int :=
  ((s.jobs.filter fun j => !j.isTerminal).map fun j => j.maxAttempts - j.attemptCount).sum

/-- No job has had more attempts than it may have. -/
def Store.Bounded (s : Store) : Prop :=
  ∀ j ∈ s.jobs, j.attemptCount ≤ j.maxAttempts

namespace Job

variable {j k : Job} {now : Int}

theorem openAttempts_nonneg (h : j.attemptCount ≤ j.maxAttempts) : 0 ≤ j.openAttempts := by
  unfold openAttempts
  split <;> omega

theorem openAttempts_le (h : j.attemptCount ≤ j.maxAttempts) : j.openAttempts ≤ j.maxAttempts - j.attemptCount := by
  unfold openAttempts
  split <;> omega

/-- Whatever becomes of a row, the attempts that are open to it and those that it has counted since then are no more
than what was open to it before. -/
theorem Evolves.openAttempts_le (h : j.Evolves now k) (hle : j.attemptCount ≤ j.maxAttempts) :
    k.openAttempts + (k.attemptCount - j.attemptCount) ≤ j.openAttempts ∧ k.attemptCount ≤ k.maxAttempts := by
  have hnonneg := openAttempts_nonneg hle
  cases h with
  | keep => exact ⟨by omega, hle⟩
  | claim workerId timeout hclaimable =>
    have hopen : j.isTerminal = false := by
      rcases hclaimable.waiting with hstatus | hstatus | hstatus <;>
        simp [isTerminal, hstatus, JobStatus.isTerminal]
    have hleft := hclaimable.1
    have hclaimed : (j.claim workerId now).isTerminal = false := rfl
    simp only [openAttempts, hopen, hclaimed, Bool.false_eq_true, if_false]
    simp only [Job.claim]
    omega
  | refresh _ =>
    have hsame : (j.refresh now).openAttempts = j.openAttempts := rfl
    have hcount : (j.refresh now).attemptCount = j.attemptCount := rfl
    exact ⟨by omega, hle⟩
  | advance stage progress _ =>
    have hsame : (j.advance stage progress now).openAttempts = j.openAttempts := rfl
    have hcount : (j.advance stage progress now).attemptCount = j.attemptCount := rfl
    exact ⟨by omega, hle⟩
  | complete _ =>
    have hover : (j.complete now).openAttempts = 0 := rfl
    have hcount : (j.complete now).attemptCount = j.attemptCount := rfl
    exact ⟨by omega, hle⟩
  | fail outcome error hprocessing =>
    have hopen : j.isTerminal = false := by simp [isTerminal, hprocessing, JobStatus.isTerminal]
    cases outcome with
    | retry nextRunAt =>
      have hretried : (j.fail (.retry nextRunAt) error now).openAttempts = j.openAttempts := by
        simp [openAttempts, isTerminal, Job.fail, Job.refresh, hprocessing, JobStatus.isTerminal]
      have hcount : (j.fail (.retry nextRunAt) error now).attemptCount = j.attemptCount := rfl
      exact ⟨by omega, hle⟩
    | deadLetter =>
      have hover : (j.fail .deadLetter error now).openAttempts = 0 := rfl
      have hcount : (j.fail .deadLetter error now).attemptCount = j.attemptCount := rfl
      exact ⟨by omega, hle⟩

end Job

namespace Store

variable {s : Store}

theorem openAttempts_eq_sum (s : Store) : s.openAttempts = (s.jobs.map Job.openAttempts).sum := by
  unfold openAttempts
  induction s.jobs with
  | nil => rfl
  | cons j rest ih =>
    by_cases hterminal : j.isTerminal = true
    · simpa [hterminal, Job.openAttempts] using ih
    · simpa [hterminal, Job.openAttempts] using ih

theorem Bounded.openAttempts_nonneg (h : s.Bounded) : 0 ≤ s.openAttempts := by
  rw [openAttempts_eq_sum]
  refine List.sum_nonneg fun left hleft => ?_
  obtain ⟨j, hj, rfl⟩ := List.mem_map.1 hleft
  exact Job.openAttempts_nonneg (h j hj)

/-- The polls that a worker is given are more than the attempts that are open. -/
theorem Bounded.openAttempts_le_attemptsLeft (h : s.Bounded) : s.openAttempts ≤ s.attemptsLeft := by
  rw [openAttempts_eq_sum]
  unfold Bounded at h
  unfold attemptsLeft
  generalize s.jobs = jobs at h ⊢
  induction jobs with
  | nil => simp
  | cons j rest ih =>
    obtain ⟨hj, hrest⟩ := List.forall_mem_cons.1 h
    have hfirst := Job.openAttempts_le hj
    have hothers := ih hrest
    simp only [List.map_cons, List.sum_cons, List.foldr_cons]
    omega

end Store

/-! ### Writes -/

namespace Write

variable {s s' : Store} {wr : Write} {now : Int}

/-- A lease that is handed out takes one of the attempts that are open to its job. -/
theorem Allowed.openAttempts_job (hallowed : wr.Allowed s) (hs : s.Consistent) (hbounded : s.Bounded)
    (htime : ∀ time ∈ wr.time?, time = now) {j : Job} (hj : j ∈ s.jobs) :
    (wr.job j).openAttempts + ((wr.granted.toList.countP fun l => l.jobId = j.id : Nat) : Int) ≤ j.openAttempts ∧
      (wr.job j).attemptCount ≤ (wr.job j).maxAttempts := by
  obtain ⟨hopen, hle⟩ := (hallowed.evolves hs htime hj).openAttempts_le (hbounded j hj)
  have hcount := System.attemptCount_granted wr j
  exact ⟨by omega, hle⟩

/-- A lease that is handed out is one of some job. -/
private theorem length_granted_le (hallowed : wr.Allowed s) : (wr.granted.toList.length : Int) ≤
    (s.jobs.map fun j => ((wr.granted.toList.countP fun l => l.jobId = j.id : Nat) : Int)).sum := by
  have hnonneg : ∀ count ∈ s.jobs.map fun j => ((wr.granted.toList.countP fun l => l.jobId = j.id : Nat) : Int),
      0 ≤ count := by
    intro count hcount
    obtain ⟨j, _, rfl⟩ := List.mem_map.1 hcount
    exact Int.natCast_nonneg _
  cases wr with
  | claim k workerId time timeout =>
    have hone : (1 : Int) ∈ s.jobs.map fun j =>
        (((claim k workerId time timeout).granted.toList.countP fun l => l.jobId = j.id : Nat) : Int) :=
      List.mem_map.2 ⟨k, hallowed.claimable.1, by simp [granted]⟩
    exact List.single_le_sum hnonneg 1 hone
  | _ => exact List.sum_nonneg hnonneg

theorem Allowed.openAttempts_apply (hallowed : wr.Allowed s) (hs : s.Consistent) (hbounded : s.Bounded)
    (htime : ∀ time ∈ wr.time?, time = now) (hnone : wr.newJobs = []) :
    (wr.apply s).openAttempts + wr.granted.toList.length ≤ s.openAttempts := by
  have hrows := List.sum_le_sum fun j hj => (hallowed.openAttempts_job hs hbounded htime (j := j) hj).1
  rw [List.sum_map_add] at hrows
  have hgranted := length_granted_le hallowed
  have hsum : (wr.apply s).openAttempts = (s.jobs.map fun j => (wr.job j).openAttempts).sum := by
    rw [Store.openAttempts_eq_sum]
    simp only [apply, hnone, List.append_nil, List.map_map]
    rfl
  rw [hsum, Store.openAttempts_eq_sum s]
  omega

theorem Allowed.bounded_apply (hallowed : wr.Allowed s) (hs : s.Consistent) (hbounded : s.Bounded)
    (htime : ∀ time ∈ wr.time?, time = now) (hnew : ∀ j ∈ wr.newJobs, j.origin = j) : (wr.apply s).Bounded := by
  intro k hk
  rcases mem_jobs.1 hk with ⟨j, hj, rfl⟩ | hadded
  · exact (hallowed.openAttempts_job hs hbounded htime hj).2
  · have hzero : k.attemptCount = 0 := by
      rw [← hnew k hadded]
      rfl
    have hmax := (hallowed.acceptsJob hadded).maxAttempts
    omega

theorem Commits.length_jobs_le {x : Option Write} (hwr : Commits s x s') : s.jobs.length ≤ s'.jobs.length := by
  cases hwr with
  | nothing => exact Nat.le_refl _
  | made _ => simp [apply]

theorem Commits.newJobs_eq_nil {x : Option Write} (hwr : Commits s x s')
    (hlength : s'.jobs.length = s.jobs.length) : ∀ y ∈ x, y.newJobs = [] := by
  cases hwr with
  | nothing => simp
  | made _ =>
    rintro y ⟨⟩
    simpa [apply] using hlength

end Write

/-! ### Calls of the workers -/

namespace Task

/-- A worker has claimed a job and has not come to the end of its attempt. -/
def busy : Task → Bool
  | attempt _ _ _ | record _ _ _ => true
  | _ => false

/-- The call of a worker has ended with a job, so that the worker polls again without a pause. -/
def continues : Task → Bool
  | ended (.ok (.report (some _))) => true
  | _ => false

/-- A worker gets to a job by a claim only. -/
theorem busy_resume (t : Task) (w : World) :
    (t.resume w).1.busy.toNat + (t.resume w).1.continues.toNat ≤
      t.busy.toNat + t.continues.toNat + (t.granted (t.resume w).1).toList.length := by
  cases t with
  | asked r =>
    cases r with
    | enqueue maxAttempts r =>
      simp only [resume, next, Checked.on_bind, Checked.on_lift]
      rcases (Ingestion.lookUp maxAttempts r).on w with ⟨_ | _ | _, _⟩ <;> simp [busy, continues]
    | upload maxAttempts r =>
      simp only [resume, next, Checked.on_bind, Checked.on_lift]
      rcases (Ingestion.plan r).on w with ⟨_ | _, _⟩ <;> simp [busy, continues]
    | reindex maxAttempts tenantId documentId key =>
      simp only [resume, next, Checked.on_bind, Checked.on_lift]
      rcases (Ingestion.liveDocument tenantId documentId).on w with ⟨_ | _, _⟩ <;> simp [busy, continues]
    | work worker =>
      simp only [resume, next, Checked.on_bind]
      rcases worker.claim.on w with ⟨_ | _ | _, _⟩ <;> simp [busy, continues, granted]
    | sweep leaseTimeout =>
      simp only [resume, next, Checked.on_bind]
      rcases (Checked.abandonedJobs leaseTimeout).on w with ⟨_ | _, _⟩ <;> simp [busy, continues]
  | insertJob job =>
    simp only [resume, next, Checked.on_bind, Checked.on_lift]
    rcases (Service.query (Query.insertJob job)).on w with ⟨_ | _, _⟩ <;> simp [busy, continues]
  | readJob job created =>
    simp only [resume, next, Checked.on_bind, Checked.on_lift]
    rcases (Service.query (Query.readBack job)).on w with ⟨_ | _, _⟩ <;> simp [busy, continues]
  | reindexCurrent maxAttempts d key =>
    simp only [resume, next, Checked.on_bind, Checked.on_lift]
    rcases (Ingestion.reindexRequest d key).on w with ⟨_ | _, _⟩ <;> simp [busy, continues]
  | putObject maxAttempts p =>
    simp only [resume, next, Checked.on_bind, Checked.on_lift]
    rcases (Ingestion.storeObject p).on w with ⟨_ | _, _⟩ <;> simp [busy, continues]
  | saveUpload maxAttempts p =>
    simp only [resume, next, Checked.on_bind, Checked.on_lift]
    rcases (Ingestion.record maxAttempts p).on w with ⟨_ | _, _⟩ <;> simp [busy, continues]
  | attempt worker job phase =>
    have hone : ∀ t' : Task, t'.busy.toNat + t'.continues.toNat ≤ 1 := by
      intro t'
      cases t' with
      | ended result => simp [busy, Bool.toNat_le]
      | _ => simp [busy, continues]
    exact Nat.le_trans (hone _) (by simp only [busy, Bool.toNat_true]; omega)
  | record worker job f =>
    simp only [resume, next, Checked.on_bind, Checked.on_lift]
    rcases (worker.record job f).on w with ⟨_ | _, _⟩ <;> simp [busy, continues]
  | giveUp jobs given =>
    cases jobs with
    | nil => simp [resume, next, busy, continues]
    | cons j rest =>
      simp only [resume, next, Checked.on_bind, Checked.on_lift]
      rcases (Recovery.giveUp j).on w with ⟨_ | _, _⟩ <;> simp [busy, continues]
  | ended result => simp [resume, next]

end Task

/-! ### Runs -/

namespace System

variable {σ τ υ : System} {claims more : List Lease}

/-- What the measure needs of the queue, and every event keeps. -/
structure Metered (σ : System) : Prop where
  consistent : σ.world.store.Consistent
  informed : ∀ t ∈ σ.tasks, t.Informed σ.world.store
  bounded : σ.world.store.Bounded

theorem step_metered (h : σ.Metered) (e : Event) : (σ.step e).Metered := by
  refine ⟨step_consistent h.consistent e, run_informed h.informed [e], ?_⟩
  obtain ⟨wr, hwr, _, _, htime, hnew⟩ := step_makes h.informed e
  generalize (σ.step e).world.store = s' at hwr ⊢
  cases hwr with
  | nothing => exact h.bounded
  | @made x hallowed => exact hallowed.bounded_apply h.consistent h.bounded (htime x rfl) (hnew x rfl)

theorem run_metered (h : σ.Metered) (events : List Event) : (σ.run events).Metered := by
  refine run_induction (P := fun _ τ => τ.Metered) h ?_
  intro before e _ hbefore
  exact step_metered hbefore e

theorem initial_metered (objects : ObjectStore) (now : Int) (ids : IdSequence) :
    (initial objects now ids).Metered :=
  ⟨Store.consistent_empty, by simp [initial], by simp [initial, Store.empty, Store.Bounded]⟩

/-- The leases that were handed out between two states of the queue take their attempts from those that were open, of
all jobs and of each. -/
structure Spends (σ τ : System) (claims : List Lease) : Prop where
  leases : τ.leases = σ.leases ++ claims
  total : τ.world.store.openAttempts + claims.length ≤ σ.world.store.openAttempts
  rows : ∀ j ∈ σ.world.store.jobs, ∃ k ∈ τ.world.store.jobs, k.id = j.id ∧
    k.openAttempts + ((claims.countP fun l => l.jobId = j.id : Nat) : Int) ≤ j.openAttempts

theorem Spends.refl (σ : System) : σ.Spends σ [] :=
  ⟨by simp, by simp, fun j hj => ⟨j, hj, rfl, by simp⟩⟩

theorem Spends.trans (h : σ.Spends τ claims) (h' : τ.Spends υ more) : σ.Spends υ (claims ++ more) := by
  have htotal := h.total
  have htotal' := h'.total
  refine ⟨by rw [h'.leases, h.leases, List.append_assoc], ?_, fun j hj => ?_⟩
  · rw [List.length_append]
    omega
  · obtain ⟨k, hk, hid, hopen⟩ := h.rows j hj
    obtain ⟨i, hi, hiid, hopen'⟩ := h'.rows k hk
    rw [hid] at hopen'
    refine ⟨i, hi, hiid.trans hid, ?_⟩
    rw [List.countP_append]
    omega

theorem step_spends (h : σ.Metered) (e : Event)
    (hlength : (σ.step e).world.store.jobs.length = σ.world.store.jobs.length) :
    ∃ claims, σ.Spends (σ.step e) claims := by
  obtain ⟨wr, hwr, hleases, _, htime, _⟩ := step_makes h.informed e
  have hnone := hwr.newJobs_eq_nil hlength
  refine ⟨(wr.bind Write.granted).toList, hleases, ?_, fun j hj => ?_⟩
  · generalize (σ.step e).world.store = s' at hwr ⊢
    cases hwr with
    | nothing => simp
    | @made x hallowed =>
      exact hallowed.openAttempts_apply h.consistent h.bounded (htime x rfl) (hnone x rfl)
  · generalize (σ.step e).world.store = s' at hwr ⊢
    cases hwr with
    | nothing => exact ⟨j, hj, rfl, by simp⟩
    | @made x hallowed =>
      exact ⟨x.job j, Write.mem_jobs.2 (.inl ⟨j, hj, rfl⟩), x.job_id j,
        (hallowed.openAttempts_job h.consistent h.bounded (htime x rfl) hj).1⟩

/-- A run that adds no job spends what was open at its beginning. -/
theorem run_spends (h : σ.Metered) (events : List Event)
    (hlength : (σ.run events).world.store.jobs.length = σ.world.store.jobs.length) :
    ∃ claims, σ.Spends (σ.run events) claims := by
  -- No row is ever taken away, so that a run that ends with as many jobs has had as many all along.
  refine (run_induction (P := fun _ τ => σ.world.store.jobs.length ≤ τ.world.store.jobs.length ∧
    (τ.world.store.jobs.length = σ.world.store.jobs.length → ∃ claims, σ.Spends τ claims))
    ⟨Nat.le_refl _, fun _ => ⟨[], .refl σ⟩⟩ ?_).2 hlength
  rintro before e _ ⟨hle, hbefore⟩
  obtain ⟨wr, hwr, _⟩ := (σ.run before).step_write e
  have hgrows := hwr.length_jobs_le
  refine ⟨by omega, fun hsame => ?_⟩
  obtain ⟨claims, hclaims⟩ := hbefore (by omega)
  obtain ⟨more, hmore⟩ := step_spends (run_metered h before) e (by omega)
  exact ⟨claims ++ more, hclaims.trans hmore⟩

/-- The calls of workers that have got to a job are no more than the claims. -/
theorem step_busy (σ : System) (e : Event) :
    (σ.step e).tasks.countP Task.busy + (σ.step e).tasks.countP Task.continues + σ.leases.length ≤
      σ.tasks.countP Task.busy + σ.tasks.countP Task.continues + (σ.step e).leases.length := by
  cases e with
  | start r =>
    have hbusy : (Task.asked r).busy = false := rfl
    have hcontinues : (Task.asked r).continues = false := rfl
    simp [step, List.countP_append, hbusy, hcontinues]
  | resume i =>
    simp only [step]
    cases ht : σ.tasks[i]? with
    | none => exact Nat.le_refl _
    | some t =>
      have hone := t.busy_resume σ.world
      have hbusy := countP_set Task.busy ht (t.resume σ.world).1
      have hcontinues := countP_set Task.continues ht (t.resume σ.world).1
      simp only [List.length_append]
      omega
  | crash i message =>
    simp only [step]
    split
    · rename_i worker job phase ht
      have hbusy := countP_set Task.busy ht (.attempt worker job (.settle (.crashed message)))
      have hcontinues := countP_set Task.continues ht (.attempt worker job (.settle (.crashed message)))
      simp only [Task.busy, Task.continues] at hbusy hcontinues ⊢
      omega
    · exact Nat.le_refl _
  | call c => simp [step]
  | setClock now => exact Nat.le_refl _
  | replaceObjects objects => exact Nat.le_refl _
  | markDeleted documentId => exact Nat.le_refl _

theorem run_busy (σ : System) (events : List Event) :
    (σ.run events).tasks.countP Task.busy + (σ.run events).tasks.countP Task.continues + σ.leases.length ≤
      σ.tasks.countP Task.busy + σ.tasks.countP Task.continues + (σ.run events).leases.length := by
  refine run_induction (P := fun _ τ =>
    τ.tasks.countP Task.busy + τ.tasks.countP Task.continues + σ.leases.length ≤
      σ.tasks.countP Task.busy + σ.tasks.countP Task.continues + τ.leases.length) (Nat.le_refl _) ?_
  intro before e _ hbefore
  have hstep := (σ.run before).step_busy e
  omega

end System

/-! ### Requests that add no job -/

/-- The task adds no job, nor does any that it becomes. -/
def Task.Quiet : Task → Prop
  | asked (.work _) | asked (.sweep _) | readJob _ _ | attempt _ _ _ | record _ _ _ | giveUp _ _ | ended _ => True
  | _ => False

theorem Task.Step.quiet {w : World} {t t' : Task} {wr : Option Write} (hstep : Task.Step w t wr t')
    (h : t.Quiet) : t'.Quiet ∧ ∀ x ∈ wr, x.newJobs = [] := by
  cases hstep with
  | lookUp | insert | duplicate | liveDocument | reindexRequest | plan | put | save => exact h.elim
  | claim | mark | advance | write | record | giveUp =>
    refine ⟨trivial, ?_⟩
    rintro x ⟨⟩
    rfl
  | _ => exact ⟨trivial, by simp⟩

namespace System

variable {σ : System}

theorem step_adds_none (h : ∀ t ∈ σ.tasks, t.Quiet) (e : Event) :
    (σ.step e).world.store.jobs.length = σ.world.store.jobs.length := by
  obtain ⟨wr, hwr, _, hsource, _⟩ := σ.step_write e
  refine hwr.length_jobs fun x hx => ?_
  rcases hsource x hx with ⟨i, t, t', _, ht, hstep⟩ | ⟨c, _, hcall⟩ | ⟨documentId, rfl⟩
  · exact (hstep.quiet (h t (List.mem_of_getElem? ht))).2 x rfl
  · cases x <;> first | rfl | cases hcall
  · rfl

/-- Where nobody enqueues or uploads, no job is added. -/
theorem run_adds_none (h : ∀ t ∈ σ.tasks, t.Quiet) {events : List Event}
    (hevents : ∀ r, .start r ∈ events → (Task.asked r).Quiet) :
    (∀ t ∈ (σ.run events).tasks, t.Quiet) ∧
      (σ.run events).world.store.jobs.length = σ.world.store.jobs.length := by
  refine run_induction (P := fun _ τ =>
    (∀ t ∈ τ.tasks, t.Quiet) ∧ τ.world.store.jobs.length = σ.world.store.jobs.length) ⟨h, rfl⟩ ?_
  rintro before e he ⟨hquiet, hlength⟩
  refine ⟨?_, (step_adds_none hquiet e).trans hlength⟩
  refine (σ.run before).step_tasks e hquiet ?_ (fun _ _ _ _ _ _ ht hstep => (hstep.quiet ht).1) fun _ _ _ _ ht => ht
  rintro r rfl
  exact hevents r he

/-- A task that is left alone is a run of its own. -/
private theorem run_alone (n : Nat) (t : Task) (w : World) (leases : List Lease) : ∃ leases',
    (⟨w, [t], leases⟩ : System).run (List.replicate n (.resume 0)) =
      ⟨(Task.alone n t w).2, [(Task.alone n t w).1], leases'⟩ := by
  induction n generalizing t w leases with
  | zero => exact ⟨leases, rfl⟩
  | succ n ih => exact ih _ _ _

end System

/-! ### The loop of a worker -/

namespace Worker

variable {worker : Worker} {w w' : World} {outcomes : List JobOutcome} {ending : Except Word.Overflow Unit}

/-- A worker that nobody disturbs polls without a pause as long as its calls end with a job.  It comes to its end at a
poll that finds nothing, or at one that overflows. -/
inductive Drains (worker : Worker) : World → List JobOutcome → Except Word.Overflow Unit → World → Prop
  | idle {w : World} (h : worker.processNext.on w = (.ok none, w)) : Drains worker w [] (.ok ()) w
  | overflow {w w' : World} {o : Word.Overflow} (h : worker.processNext.on w = (.error (.overflow o), w')) :
    Drains worker w [] (.error o) w'
  | next {w w' w'' : World} {outcome : JobOutcome} {outcomes : List JobOutcome} {ending : Except Word.Overflow Unit}
    (h : worker.processNext.on w = (.ok (some outcome), w')) (hrest : Drains worker w' outcomes ending w'') :
    Drains worker w (outcome :: outcomes) ending w''

/-- Nothing that a worker computes at a time overflows. -/
def InTime (worker : Worker) (now : Int) : Prop :=
  Word.Fits64 (now - worker.leaseTimeout) ∧ ∀ attempt, Word.Fits64 (now + worker.retry.delay attempt)

/-- An attempt that has come to its end is settled, unless the time of the next one overflows. -/
theorem settle_cases (worker : Worker) (job : ClaimedJob) (e : Execution) (w : World) :
    (∃ outcome w', (worker.settle job e).on w = (.ok outcome, w')) ∨
      ∃ o, (worker.settle job e).on w = (.error (.overflow o), w) ∧ ¬worker.InTime w.now := by
  unfold settle
  cases e.verdict with
  | ok outcome => exact .inl ⟨outcome, w, rfl⟩
  | error message =>
    cases hdecided : worker.decide job message w.now with
    | ok f =>
      left
      simp only [Checked.on_bind, judge_of_ok hdecided, Checked.on_lift, record_on]
      by_cases hcurrent : (job.lease worker.id).Current w.store
      · exact ⟨f.report, w.write (worker.failOn job f w), by rw [if_pos hcurrent]⟩
      · exact ⟨.leaseLost, w, by rw [if_neg hcurrent]⟩
    | error o =>
      right
      refine ⟨o, by simp only [Checked.on_bind, judge_of_overflow hdecided], fun hintime => ?_⟩
      by_cases hleft : job.attemptCount < job.maxAttempts
      · rw [decide_of_left hleft (hintime.2 job.attemptCount)] at hdecided
        cases hdecided
      · rw [decide_of_last (Int.not_lt.1 hleft)] at hdecided
        cases hdecided

/-- A call of a worker does not set the clock. -/
theorem processNext_now (worker : Worker) (w : World) : (worker.processNext.on w).2.now = w.now := by
  obtain ⟨n, halone⟩ := Task.alone_request (.work worker) w
  have hnow := Task.alone_now n (.asked (.work worker)) w
  rw [halone] at hnow
  rw [← hnow]
  simp only [Request.service, Checked.on_bind]
  rcases worker.processNext.on w with ⟨_ | _, _⟩ <;> rfl

/-- A call of a worker finds nothing and changes nothing, or it ends with a job, or it overflows. -/
theorem processNext_cases (worker : Worker) (w : World) :
    (w.store.claimable w.now worker.leaseTimeout = [] ∧ worker.processNext.on w = (.ok none, w)) ∨
      (∃ outcome w', worker.processNext.on w = (.ok (some outcome), w')) ∨
      ∃ o w', worker.processNext.on w = (.error (.overflow o), w') ∧ ¬worker.InTime w.now := by
  by_cases hfits : Word.Fits64 (w.now - worker.leaseTimeout)
  · cases hfirst : Job.first? (w.store.claimable w.now worker.leaseTimeout) with
    | none => exact .inl ⟨Job.first?_eq_none_iff.1 hfirst, processNext_of_none hfits hfirst⟩
    | some j =>
      right
      have hnow := worker.processNext_now w
      simp only [processNext, claim, Checked.on_bind, Checked.claimNext_on hfits, hfirst, Checked.on_lift,
        Service.on_attempt] at hnow ⊢
      generalize (w.write (.claim j worker.id w.now worker.leaseTimeout)) = w₁ at hnow ⊢
      generalize (Attempt.run worker.chunking _ _).on w₁ = r at hnow ⊢
      rcases worker.settle_cases (j.claim worker.id w.now).claimed (.finished r.1) r.2 with
        ⟨outcome, w', h⟩ | ⟨o, h, hlate⟩
      · exact .inl ⟨outcome, w', by rw [h]; rfl⟩
      · -- The call overflows at the time at which it has begun.
        rw [h] at hnow ⊢
        have hsame : r.2.now = w.now := hnow
        rw [hsame] at hlate
        exact .inr ⟨o, r.2, rfl, hlate⟩
  · exact .inr (.inr ⟨.sub, w, processNext_of_overflow hfits, fun hintime => hfits hintime.1⟩)

/-- A call that ends with a job has used up one of the open attempts. -/
theorem processNext_spends {outcome : JobOutcome} (hs : w.store.Consistent) (hbounded : w.store.Bounded)
    (h : worker.processNext.on w = (.ok (some outcome), w')) :
    w'.store.Consistent ∧ w'.store.Bounded ∧ w'.store.openAttempts + 1 ≤ w.store.openAttempts := by
  let σ : System := ⟨w, [.asked (.work worker)], []⟩
  have hmetered : σ.Metered := ⟨hs, by simp [σ, Task.Informed], hbounded⟩
  obtain ⟨n, halone⟩ := Task.alone_request (.work worker) w
  have hservice : (Request.work worker).service.on w = (.ok (.report (some outcome)), w') := by
    simp only [Request.service, Checked.on_bind, h, Checked.on_pure]
  obtain ⟨leases, hrun⟩ := System.run_alone n (.asked (.work worker)) w []
  rw [halone, hservice] at hrun
  have hrun : σ.run (List.replicate n (.resume 0)) = ⟨w', [.ended (.ok (.report (some outcome)))], leases⟩ := hrun
  have hafter := System.run_metered hmetered (List.replicate n (.resume 0))
  have hquiet : ∀ t ∈ σ.tasks, t.Quiet := by simp [σ, Task.Quiet]
  have hevents : ∀ r, .start r ∈ List.replicate n (Event.resume 0) → (Task.asked r).Quiet := by
    simp [List.mem_replicate]
  have hnone := (System.run_adds_none hquiet hevents).2
  obtain ⟨claims, hspends⟩ := System.run_spends hmetered _ hnone
  have hbusy := σ.run_busy (List.replicate n (.resume 0))
  rw [hrun] at hafter hspends hbusy
  have htotal : w'.store.openAttempts + claims.length ≤ w.store.openAttempts := hspends.total
  have hleases : leases = claims := hspends.leases
  have hone : 1 ≤ leases.length := by simpa [σ, Task.busy, Task.continues] using hbusy
  rw [hleases] at hone
  exact ⟨hafter.consistent, hafter.bounded, by omega⟩

/-- A worker that nobody disturbs comes to a poll that finds nothing, after no more jobs than attempts are open, or to
one that overflows. -/
theorem exists_drains (worker : Worker) (hs : w.store.Consistent) (hbounded : w.store.Bounded) :
    ∃ outcomes ending w', worker.Drains w outcomes ending w' ∧ (outcomes.length : Int) ≤ w.store.openAttempts ∧
      (ending = .ok () → w'.store.claimable w'.now worker.leaseTimeout = []) ∧
      (worker.InTime w.now → ending = .ok ()) := by
  induction hn : w.store.openAttempts.toNat using Nat.strong_induction_on generalizing w with
  | _ n ih =>
    have hnonneg := hbounded.openAttempts_nonneg
    rcases worker.processNext_cases w with ⟨hempty, hidle⟩ | ⟨outcome, w₁, hnext⟩ | ⟨o, w', hover, hlate⟩
    · exact ⟨[], .ok (), w, .idle hidle, hnonneg, fun _ => hempty, fun _ => rfl⟩
    · obtain ⟨hs₁, hbounded₁, hless⟩ := processNext_spends hs hbounded hnext
      have hnonneg₁ := hbounded₁.openAttempts_nonneg
      have hnow : w₁.now = w.now := by
        rw [← worker.processNext_now w, hnext]
      obtain ⟨outcomes, ending, w', hdrains, htotal, hempty, hintime⟩ := ih _ (by omega) hs₁ hbounded₁ rfl
      rw [hnow] at hintime
      refine ⟨outcome :: outcomes, ending, w', .next hnext hdrains, ?_, hempty, hintime⟩
      rw [List.length_cons]
      omega
    · exact ⟨[], .error o, w', .overflow hover, hnonneg, nofun, fun h => absurd h hlate⟩

/-- Polls of which there are enough end where the loop ends. -/
theorem Drains.poll (h : worker.Drains w outcomes ending w') {fuel : Nat} (hfuel : outcomes.length < fuel) :
    (worker.poll fuel 0 none).on w = (ending.mapError .overflow, w') := by
  induction h generalizing fuel with
  | idle hidle =>
    obtain ⟨fuel, rfl⟩ := Nat.exists_eq_succ_of_ne_zero (Nat.ne_of_gt hfuel)
    simp only [Worker.poll, Checked.on_bind, Checked.on_attempt, hidle, Checked.on_pure]
    rfl
  | overflow hover =>
    obtain ⟨fuel, rfl⟩ := Nat.exists_eq_succ_of_ne_zero (Nat.ne_of_gt hfuel)
    simp only [Worker.poll, Checked.on_bind, Checked.on_attempt, hover]
    rfl
  | next hnext _ ih =>
    obtain ⟨fuel, rfl⟩ := Nat.exists_eq_succ_of_ne_zero (Nat.ne_zero_of_lt hfuel)
    simp only [Worker.poll, Checked.on_bind, Checked.on_attempt, hnext]
    exact ih (by simpa using hfuel)

theorem poll_faults (worker : Worker) (faults fuel : Nat) :
    worker.poll (faults + fuel) faults none = worker.poll fuel 0 none := by
  induction faults with
  | zero => rw [Nat.zero_add]
  | succ faults ih =>
    rw [Nat.add_right_comm]
    exact ih

/-- The worker that runs until it is told to stop ends where the loop ends, however many of its polls fail. -/
theorem Drains.run (h : worker.Drains w outcomes ending w') (hleft : outcomes.length ≤ w.store.attemptsLeft)
    (faults : Nat) : (worker.run faults none).on w = (ending.mapError .overflow, w') := by
  simp only [Worker.run, Checked.on_bind, Checked.on_lift, Service.on_read, Nat.add_assoc, poll_faults]
  exact h.poll (by omega)

end Worker

/-! ### Every reachable state -/

namespace System

/-- After every run and over any continuation that adds no job, there are no more claims than attempts were open to the
jobs that had not come to their end, and none of a job that had or beyond the attempts that it had left; every call of a
worker that ends with a job, so that the worker polls again without a pause, has made one of these claims or had made
its claim before.  A worker that nobody disturbs makes no more such calls than attempts are open, and comes to a poll
that finds nothing, however its polls and its attempts fail, or to one that overflows, which ends the worker itself. -/
theorem draining (objects : ObjectStore) (now : Int) (ids : IdSequence) (events more : List Event)
    (hmore : (((initial objects now ids).run events).run more).world.store.jobs.length =
      ((initial objects now ids).run events).world.store.jobs.length) :
    let σ := (initial objects now ids).run events
    let τ := σ.run more
    (∃ claims, τ.leases = σ.leases ++ claims ∧
      (claims.length : Int) ≤ σ.world.store.openAttempts ∧
      (∀ j ∈ σ.world.store.jobs, ((claims.countP fun l => l.jobId = j.id : Nat) : Int) ≤
        if j.isTerminal then 0 else j.maxAttempts - j.attemptCount) ∧
      τ.tasks.countP Task.busy + τ.tasks.countP Task.continues ≤
        σ.tasks.countP Task.busy + σ.tasks.countP Task.continues + claims.length) ∧
    ∀ worker : Worker, ∃ outcomes ending w', worker.Drains σ.world outcomes ending w' ∧
      (outcomes.length : Int) ≤ σ.world.store.openAttempts ∧
      (ending = .ok () → w'.store.claimable w'.now worker.leaseTimeout = []) ∧
      (worker.InTime σ.world.now → ending = .ok ()) ∧
      ∀ faults, (worker.run faults none).on σ.world = (ending.mapError .overflow, w') := by
  intro σ τ
  have hmetered : σ.Metered := run_metered (initial_metered objects now ids) events
  refine ⟨?_, fun worker => ?_⟩
  · obtain ⟨claims, hspends⟩ := run_spends hmetered more hmore
    have hafter := run_metered hmetered more
    have htotal := hspends.total
    have hnonneg := hafter.bounded.openAttempts_nonneg
    have hbusy : τ.tasks.countP Task.busy + τ.tasks.countP Task.continues + σ.leases.length ≤
        σ.tasks.countP Task.busy + σ.tasks.countP Task.continues + (σ.leases ++ claims).length :=
      hspends.leases ▸ σ.run_busy more
    rw [List.length_append] at hbusy
    refine ⟨claims, hspends.leases, by omega, fun j hj => ?_, by omega⟩
    obtain ⟨k, hk, _, hopen⟩ := hspends.rows j hj
    have hleft := Job.openAttempts_nonneg (hafter.bounded k hk)
    show _ ≤ j.openAttempts
    omega
  · obtain ⟨outcomes, ending, w', hdrains, htotal, hempty, hintime⟩ :=
      worker.exists_drains hmetered.consistent hmetered.bounded
    have hleft := hmetered.bounded.openAttempts_le_attemptsLeft
    exact ⟨outcomes, ending, w', hdrains, htotal, hempty, hintime, hdrains.run (by omega)⟩

/-- The object of a version is lost.  Its first attempt is overtaken as soon as it has begun, since the lease is stale
at once; the second and the third fail, and in between the job is due again without delay. -/
theorem draining_failing :
    let worker : Worker := ⟨"a", -1, ⟨0, 0⟩, .default⟩
    let events : List Event :=
      [.start (.upload 3 ⟨"t1", "w1", "kb1", "a.md", [104, 105], none⟩), .resume 0, .resume 0, .resume 0,
        .replaceObjects (.memory [])]
    let more : List Event :=
      [.start (.work worker), .resume 1, .start (.work worker), .resume 2, .resume 2, .resume 2, .resume 2,
        .resume 2, .resume 2, .resume 1, .resume 1, .resume 1, .start (.sweep 0), .resume 3, .resume 3,
        .setClock (-5), .start (.work worker), .resume 4, .setClock 0, .start (.work worker), .resume 5, .resume 5,
        .resume 5, .resume 5, .resume 5, .resume 5]
    let σ := (initial (.memory []) 0 (.numbered "id")).run events
    (σ.run more).tasks.countP Task.continues = 3 ∧
      (∃ claims, (σ.run more).leases = σ.leases ++ claims ∧ (claims.length : Int) ≤ 3) ∧
      ∃ outcomes w', worker.Drains σ.world outcomes (.ok ()) w' ∧ (outcomes.length : Int) ≤ 3 := by
  intro worker events more σ
  have hlength : (((initial (.memory []) 0 (.numbered "id")).run events).run more).world.store.jobs.length =
      ((initial (.memory []) 0 (.numbered "id")).run events).world.store.jobs.length := by decide +kernel
  have hopen : σ.world.store.openAttempts = 3 := by decide +kernel
  have hnow : σ.world.now = 0 := by decide +kernel
  obtain ⟨⟨claims, hleases, hclaims, _, _⟩, hworkers⟩ :=
    draining (.memory []) 0 (.numbered "id") events more hlength
  obtain ⟨outcomes, ending, w', hdrains, houtcomes, _, hintime, _⟩ := hworkers worker
  have hdelay : ∀ attempt, worker.retry.delay attempt = 0 := by
    intro attempt
    simp [worker, RetryPolicy.delay, Word.mulSaturating]
    decide
  obtain rfl : ending = .ok () := by
    refine hintime ⟨by decide, fun attempt => ?_⟩
    rw [hdelay]
    decide
  rw [hopen] at hclaims houtcomes
  exact ⟨by decide +kernel, ⟨claims, hleases, hclaims⟩, outcomes, w', hdrains, houtcomes⟩

end System

end IngestionQueue
