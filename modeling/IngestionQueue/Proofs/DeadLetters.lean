import IngestionQueue.Proofs.Sweep
import IngestionQueue.Rpc.Server

/-!
# Dead letters

The list of the jobs that were given up is sorted by the time of their last change, and it is to be read as sorted by
the time of their end.  The two times are the same, because whoever gives a job up writes both of them and nothing is
written to its row after that: every such row is traced to the event that has written it (`System.run_givenUp`).  The
list has no two jobs in one place, since their identifiers break ties (`Store.listJobs_order`), so what a limit
leaves of it is determined.  The main result is `System.inspection`.
-/

namespace IngestionQueue

/-! ### The order of the list -/

namespace Job

variable {i j k : Job}

/-- The job was changed later than another one, or at the same time and has no smaller identifier. -/
def ChangedAfter (j k : Job) : Prop :=
  k.updatedAt < j.updatedAt ∨ j.updatedAt = k.updatedAt ∧ k.id ≤ j.id

/-- The job came to its end later than another one, or at the same time and has the greater identifier. -/
def FinishedAfter (j k : Job) : Prop :=
  ∃ t ∈ j.finishedAt, ∃ u ∈ k.finishedAt, u < t ∨ u = t ∧ k.id < j.id

theorem ChangedAfter.trans (h : i.ChangedAfter j) (h' : j.ChangedAfter k) : i.ChangedAfter k := by
  rcases h with hlt | ⟨heq, hid⟩ <;> rcases h' with hlt' | ⟨heq', hid'⟩
  · exact .inl (by omega)
  · exact .inl (by omega)
  · exact .inl (by omega)
  · exact .inr ⟨by omega, String.le_trans hid' hid⟩

theorem ChangedAfter.total (j k : Job) : j.ChangedAfter k ∨ k.ChangedAfter j := by
  rcases Int.lt_trichotomy j.updatedAt k.updatedAt with hlt | heq | hgt
  · exact .inr (.inl hlt)
  · rcases String.le_total j.id k.id with hle | hge
    · exact .inr (.inr ⟨heq.symm, hle⟩)
    · exact .inl (.inr ⟨heq, hge⟩)
  · exact .inl (.inl hgt)

/-- Where the last change of two jobs was their end, the order of the changes is that of the ends. -/
theorem ChangedAfter.finishedAfter (h : j.ChangedAfter k) (hid : j.id ≠ k.id) (hj : j.finishedAt = some j.updatedAt)
    (hk : k.finishedAt = some k.updatedAt) : j.FinishedAfter k := by
  refine ⟨_, hj, _, hk, ?_⟩
  rcases h with hlt | ⟨heq, hle⟩
  · exact .inl hlt
  · exact .inr ⟨heq.symm, Std.lt_of_le_of_ne hle hid.symm⟩

end Job

namespace Store

variable {s : Store} {status : JobStatus}

/-- A list without a limit has all jobs of the status, the latest change first. -/
theorem listJobs_order (hids : (s.jobs.map Job.id).Nodup) (status : JobStatus) :
    (s.listJobs status (-1)).Perm (s.jobs.filter fun j => j.status == status) ∧
      (s.listJobs status (-1)).Pairwise fun j k => j.ChangedAfter k ∧ j.id ≠ k.id := by
  have hlater : ∀ j k : Job, (decide (k.updatedAt < j.updatedAt) ||
      (j.updatedAt == k.updatedAt && decide (k.id ≤ j.id))) = true ↔ j.ChangedAfter k := by
    intro j k
    simp [Job.ChangedAfter]
  have hperm : (s.listJobs status (-1)).Perm (s.jobs.filter fun j => j.status == status) := List.mergeSort_perm _ _
  have hsorted : (s.listJobs status (-1)).Pairwise Job.ChangedAfter := by
    refine (List.pairwise_mergeSort ?_ ?_ _).imp fun {j k} h => (hlater j k).1 h
    · intro i j k hij hjk
      exact (hlater i k).2 (((hlater i j).1 hij).trans ((hlater j k).1 hjk))
    · intro j k
      rw [Bool.or_eq_true, hlater, hlater]
      exact Job.ChangedAfter.total j k
  have hfound : ((s.jobs.filter fun j => j.status == status).map Job.id).Nodup :=
    (List.filter_sublist.map Job.id).nodup hids
  have hdistinct : (s.listJobs status (-1)).Pairwise fun j k => j.id ≠ k.id :=
    List.pairwise_map.1 ((hperm.map Job.id).nodup_iff.2 hfound)
  exact ⟨hperm, hsorted.and hdistinct⟩

/-- A limit keeps as many jobs as it says, from the latest change on. -/
theorem listJobs_of_nonneg (s : Store) (status : JobStatus) {limit : Int} (h : 0 ≤ limit) :
    s.listJobs status limit = (s.listJobs status (-1)).take limit.toNat := by
  simp [listJobs, Int.not_lt.2 h]

end Store

/-! ### The event that gives a job up -/

/-- An event by which a job is given up: its worker records the failure of its last attempt, the recovery finds it
abandoned, or somebody else makes such a call. -/
inductive Event.GivesUp (σ : System) (id : String) : Event → Prop
  | worker (i : Nat) (worker : Worker) (job : ClaimedJob) (f : Failure)
    (ht : σ.tasks[i]? = some (.record worker job f)) (houtcome : f.outcome = .deadLetter) (hid : job.id = id) :
    GivesUp σ id (.resume i)
  | recovery (i : Nat) (j : Job) (rest : List Job) (given : Nat)
    (ht : σ.tasks[i]? = some (.giveUp (j :: rest) given)) (hid : j.id = id) : GivesUp σ id (.resume i)
  | call (l : Lease) (documentId versionId error : String) (hid : l.jobId = id) :
    GivesUp σ id (.call (.recordFailure l documentId versionId .deadLetter error))

/-- A row of a job that was given up was so before, or the job has just been given up. -/
theorem Write.deadLetter_of_job {wr : Write} {j : Job} (h : (wr.job j).status = .deadLetter) :
    wr.job j = j ∨ ∃ l documentId versionId error now,
      wr = fail l documentId versionId .deadLetter error now ∧ l.Holds j ∧
        wr.job j = j.fail .deadLetter error now := by
  rcases failed_of_job (.inr h) with hsame | ⟨l, documentId, versionId, outcome, error, now, hwr, hl, hjob⟩
  · exact .inl hsame
  · cases outcome with
    | retry next =>
      rw [hjob] at h
      cases h
    | deadLetter => exact .inr ⟨l, documentId, versionId, error, now, hwr, hl, hjob⟩

namespace System

variable {start σ : System} {events : List Event} {j : Job}

/-- An event of the run has given the job up, and its row is as that event has left it. -/
def GivenUp (start : System) (events : List Event) (j : Job) : Prop :=
  ∃ before e k error, before ++ [e] <+: events ∧ e.GivesUp (start.run before) j.id ∧
    k ∈ (start.run before).world.store.jobs ∧ k.status = .processing ∧
    j = k.fail .deadLetter error (start.run before).world.now ∧
    j.finishedAt = some (start.run before).world.now

theorem GivenUp.snoc (h : start.GivenUp events j) (e : Event) : start.GivenUp (events ++ [e]) j := by
  obtain ⟨before, d, k, error, hwithin, hrest⟩ := h
  exact ⟨before, d, k, error, hwithin.trans (List.prefix_append _ _), hrest⟩

theorem GivenUp.finishedAt (h : start.GivenUp events j) : j.finishedAt = some j.updatedAt := by
  obtain ⟨_, _, _, _, _, _, _, _, rfl, _⟩ := h
  rfl

/-- A write of an event that gives a job up. -/
private theorem givesUp_of_source {l : Lease} {documentId versionId error : String} {now : Int} {e : Event}
    (hsource : (∃ i t t', e = .resume i ∧ σ.tasks[i]? = some t ∧
        Task.Step σ.world t (some (.fail l documentId versionId .deadLetter error now)) t') ∨
      (∃ c, e = .call c ∧ (Write.fail l documentId versionId .deadLetter error now).call? = some c) ∨
      ∃ id, Write.fail l documentId versionId .deadLetter error now = .markDeleted id) :
    e.GivesUp σ l.jobId := by
  rcases hsource with ⟨i, t, t', rfl, ht, hstep⟩ | ⟨c, rfl, hcall⟩ | ⟨id, hmark⟩
  · generalize hwr : Write.fail l documentId versionId .deadLetter error now = wr at hstep
    cases hstep with
    | record worker job f =>
      obtain ⟨rfl, _, _, houtcome, _⟩ := Write.fail.inj hwr
      exact .worker i worker job f ht houtcome.symm rfl
    | giveUp k rest given workerId hlocked =>
      obtain ⟨rfl, _⟩ := Write.fail.inj hwr
      exact .recovery i k rest given ht rfl
    | _ => cases hwr
  · obtain rfl := Option.some.inj hcall
    exact .call l documentId versionId error rfl
  · cases hmark

theorem run_givenUp (hinformed : ∀ t ∈ start.tasks, t.Informed start.world.store)
    (h : ∀ j ∈ start.world.store.jobs, j.status ≠ .deadLetter) (events : List Event) :
    ∀ j ∈ (start.run events).world.store.jobs, j.status = .deadLetter → start.GivenUp events j := by
  refine run_induction (P := fun events τ => ∀ j ∈ τ.world.store.jobs, j.status = .deadLetter →
    start.GivenUp events j) (fun j hj hstatus => absurd hstatus (h j hj)) ?_
  intro before e _ ih k hk hstatus
  obtain ⟨wr, hwr, _, hsource, htime, hnew⟩ := step_makes (run_informed hinformed before) e
  generalize ((start.run before).step e).world.store = s' at hwr hk
  cases hwr with
  | nothing => exact (ih k hk hstatus).snoc e
  | @made x hallowed =>
    rcases Write.mem_jobs.1 hk with ⟨j, hj, rfl⟩ | hadded
    · rcases Write.deadLetter_of_job hstatus with hsame | ⟨l, documentId, versionId, error, now, rfl, hl, hjob⟩
      · rw [hsame] at hstatus ⊢
        exact (ih j hj hstatus).snoc e
      · obtain rfl := htime _ rfl now rfl
        have hgives := givesUp_of_source (hsource _ rfl)
        rw [hjob]
        exact ⟨before, e, j, error, List.prefix_rfl, hl.1 ▸ hgives, hj, hl.2.1, rfl, rfl⟩
    · rw [Job.queued_of_origin (hnew x rfl k hadded)] at hstatus
      cases hstatus

/-- After every run, the jobs that were given up have one order, from the one that was given up last to the first, and
by identifiers from the greatest on where the times are the same.  Each of them has been given up by an event of the
run, and the time of its end is that of the clock at this event.  Whatever limit a client names, it gets as many jobs
from the head of the order as there are, but at least one and at most 500, with what is stored of each; a limit of the
service that is not too small gives all of them.  Nothing is changed. -/
theorem inspection (objects : ObjectStore) (now : Int) (ids : IdSequence) (events : List Event) :
    let start := initial objects now ids
    let w := (start.run events).world
    ∃ order : List Job, order.Perm (w.store.jobs.filter fun j => j.status == .deadLetter) ∧
      order.Pairwise Job.FinishedAfter ∧ (∀ j ∈ order, start.GivenUp events j) ∧
      (∀ limit maxAttempts uptime : Int,
        let shown := order.take (min (order.length : Int) (min (max limit 1) 500)).toNat
        (Rpc.Call.deadLetters ⟨limit⟩).serve maxAttempts uptime w =
          (.ok (Rpc.DeadLettersResponse.mk (shown.map Rpc.DeadLetterEntry.ofJob)).toJson, w)) ∧
      ∀ limit : Int, order.length ≤ limit → (Ingestion.deadLetters limit).on w = (.ok order, w) := by
  intro start w
  have hs : w.store.Consistent := run_consistent Store.consistent_empty events
  have hgiven : ∀ j ∈ w.store.jobs, j.status = .deadLetter → start.GivenUp events j :=
    run_givenUp (by simp [start, initial]) (by simp [start, initial, Store.empty]) events
  obtain ⟨hperm, hsorted⟩ := Store.listJobs_order hs.jobIds .deadLetter
  generalize horder : w.store.listJobs .deadLetter (-1) = order at hperm hsorted
  have hlisted : ∀ j ∈ order, start.GivenUp events j := by
    intro j hj
    obtain ⟨hrow, hstatus⟩ := List.mem_filter.1 (hperm.subset hj)
    exact hgiven j hrow (by simpa using hstatus)
  have hservice : ∀ limit : Int, (Ingestion.deadLetters limit).on w = (.ok (order.take (max limit 1).toNat), w) := by
    intro limit
    rw [← horder, ← Store.listJobs_of_nonneg w.store .deadLetter (by omega)]
    rfl
  refine ⟨order, hperm, ?_, hlisted, fun limit maxAttempts uptime => ?_, fun limit hlimit => ?_⟩
  · refine hsorted.imp_of_mem fun {j k} hj hk h => ?_
    exact h.1.finishedAfter h.2 (hlisted j hj).finishedAt (hlisted k hk).finishedAt
  · -- The handler keeps the limit in its bounds, and the service keeps it positive once more.
    have hshown : order.take (max (max 1 (min limit Rpc.maxDeadLetters)) 1).toNat =
        order.take (min (order.length : Int) (min (max limit 1) 500)).toNat := by
      rw [List.take_eq_take_iff]
      simp only [Rpc.maxDeadLetters]
      omega
    simp only [Rpc.Call.serve, Rpc.answer, hservice, hshown]
  · rw [hservice, List.take_of_length_le (by omega)]

/-- Two jobs are given up at one time, one by its worker and the other by the recovery.  A limit of two gives both of
them, and a negative one shows the first alone. -/
theorem inspection_tied :
    let worker : Worker := ⟨"b", 1000, .default, .default⟩
    let events : List Event :=
      [.start (.upload 1 ⟨"t1", "w1", "kb1", "a.md", [104], none⟩), .resume 0, .resume 0, .resume 0,
        .start (.upload 1 ⟨"t1", "w1", "kb1", "b.md", [105], none⟩), .resume 1, .resume 1, .resume 1,
        .call (.claim "a" 1000), .setClock 5000, .replaceObjects (.memory []), .start (.work worker),
        .resume 2, .resume 2, .resume 2, .resume 2, .resume 2, .resume 2, .start (.sweep 1000), .resume 3, .resume 3]
    let start := initial (.memory []) 0 (.numbered "id")
    let w := (start.run events).world
    ∃ j k : Job, j.FinishedAfter k ∧ start.GivenUp events j ∧ start.GivenUp events k ∧
      (Ingestion.deadLetters 2).on w = (.ok [j, k], w) ∧
      (Rpc.Call.deadLetters ⟨-7⟩).serve 3 0 w =
        (.ok (Rpc.DeadLettersResponse.mk [Rpc.DeadLetterEntry.ofJob j]).toJson, w) := by
  intro worker events start w
  obtain ⟨order, hperm, hsorted, hgiven, hserve, hall⟩ := inspection (.memory []) 0 (.numbered "id") events
  have hlength : order.length = 2 := by
    rw [hperm.length_eq]
    decide +kernel
  obtain ⟨j, k, rfl⟩ := List.length_eq_two.1 hlength
  exact ⟨j, k, List.rel_of_pairwise_cons hsorted List.mem_cons_self, hgiven j (by simp), hgiven k (by simp),
    hall 2 (by simp), hserve (-7) 3 0⟩

end System

end IngestionQueue
