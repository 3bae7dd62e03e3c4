import IngestionQueue.Proofs.Lifecycle
import IngestionQueue.Proofs.Recovery

/-!
# A whole sweep

A sweep that nobody interrupts finds every job of its list in the attempt in which it has listed it, because giving up
one job changes the row of no other (`Recovery.giveUp_listed`).  Several jobs may name one document or one version; what
is written twice is the same both times (`Store.givenUp_cons`).  So the sweep gives up the abandoned jobs and no others
(`Recovery.sweep_eq`), and a second one finds none.  It skips no job, because a job that is being processed is
always locked by somebody (`System.run_locked`).  All of this needs the time before which a lease has expired to be one
of 64 bits; the sweep lists nothing else (`Recovery.sweep_of_overflow`).  The main result is `System.sweeping`.
-/

namespace IngestionQueue

/-! ### The tables after a sweep -/

namespace Store

/-- The tables after the jobs of a list were given up. -/
def givenUp (s : Store) (given : List Job) (now : Int) : Store where
  documents := s.documents.map fun d =>
    if d.status ≠ .deleted ∧ ∃ j ∈ given, j.documentId = d.id then { d with status := .failed, updatedAt := now }
    else d
  versions := s.versions.map fun v =>
    if ∃ j ∈ given, j.documentVersionId = v.id then { v with parseStatus := .failed } else v
  chunks := s.chunks
  jobs := s.jobs.map fun j => if j ∈ given then j.givenUp now else j

variable {s : Store} {j : Job} {given : List Job}

theorem givenUp_nil (s : Store) (now : Int) : s.givenUp [] now = s := by
  simp [givenUp]

theorem map_id_givenUp (s : Store) (given : List Job) (now : Int) :
    (s.givenUp given now).jobs.map Job.id = s.jobs.map Job.id := by
  simp only [givenUp, List.map_map]
  refine List.map_congr_left fun k _ => ?_
  simp only [Function.comp_apply]
  split <;> rfl

/-- Giving up one job and then some others is giving up all of them. -/
theorem givenUp_cons (hids : ∀ k ∈ given, k.id ≠ j.id) (now : Int) :
    (s.givenUp [j] now).givenUp given now = s.givenUp (j :: given) now := by
  simp only [givenUp, List.map_map, Store.mk.injEq, true_and]
  refine ⟨?_, ?_, ?_⟩
  · -- A document that two of the jobs name has failed after the first one, and is written again as it is.
    refine List.map_congr_left fun d _ => ?_
    by_cases hdeleted : d.status = .deleted
    · simp [hdeleted]
    · by_cases hj : j.documentId = d.id
      · simp [hdeleted, hj]
      · simp [hdeleted, hj]
  · refine List.map_congr_left fun v _ => ?_
    by_cases hj : j.documentVersionId = v.id
    · simp [hj]
    · simp [hj]
  · refine List.map_congr_left fun k _ => ?_
    by_cases hkj : k = j
    · -- The row has its identifier still, so the rest of the list does not name it.
      subst hkj
      have hnot : k.givenUp now ∉ given := fun hmem => hids _ hmem rfl
      simp [hnot]
    · simp [hkj]

/-- The version of a job that was given up has failed. -/
theorem version_givenUp (hs : s.Consistent) (hj : j ∈ s.jobs) (hgiven : j ∈ given) (now : Int) :
    ∃ v ∈ (s.givenUp given now).versions, v.id = j.documentVersionId ∧ v.parseStatus = .failed := by
  obtain ⟨v, hv, hid⟩ := hs.jobVersion j hj
  have hnamed : ∃ i ∈ given, i.documentVersionId = v.id := ⟨j, hgiven, hid.symm⟩
  exact ⟨{ v with parseStatus := .failed }, List.mem_map.2 ⟨v, hv, if_pos hnamed⟩, hid, rfl⟩

/-- The document of a job that was given up has failed, or is deleted and as it was. -/
theorem document_givenUp (hs : s.Consistent) (hj : j ∈ s.jobs) (hgiven : j ∈ given) (now : Int) :
    ∃ d ∈ (s.givenUp given now).documents, d.id = j.documentId ∧
      (d.status = .failed ∨ d.status = .deleted ∧ d ∈ s.documents) := by
  obtain ⟨d, hd, hid⟩ := hs.jobDocument j hj
  have hnamed : ∃ i ∈ given, i.documentId = d.id := ⟨j, hgiven, hid.symm⟩
  by_cases hdeleted : d.status = .deleted
  · have hkept : ¬(d.status ≠ .deleted ∧ ∃ i ∈ given, i.documentId = d.id) := fun h => h.1 hdeleted
    exact ⟨d, List.mem_map.2 ⟨d, hd, if_neg hkept⟩, hid, .inr ⟨hdeleted, hd⟩⟩
  · exact ⟨{ d with status := .failed, updatedAt := now },
      List.mem_map.2 ⟨d, hd, if_pos ⟨hdeleted, hnamed⟩⟩, hid, .inl rfl⟩

theorem mem_abandonedJobs {now timeout : Int} :
    j ∈ s.abandonedJobs now timeout ↔ j ∈ s.jobs ∧ j.Abandoned now timeout := by
  simp [abandonedJobs]

/-- Once the abandoned jobs were given up, there are none. -/
theorem abandonedJobs_givenUp {now timeout : Int} (hgiven : ∀ j ∈ s.jobs, j.Abandoned now timeout → j ∈ given) :
    (s.givenUp given now).abandonedJobs now timeout = [] := by
  refine List.eq_nil_iff_forall_not_mem.2 fun k hk => ?_
  obtain ⟨hk, habandoned⟩ := mem_abandonedJobs.1 hk
  obtain ⟨j, hj, rfl⟩ := List.mem_map.1 hk
  by_cases hmem : j ∈ given
  · rw [if_pos hmem] at habandoned
    cases habandoned.2.1
  · rw [if_neg hmem] at habandoned
    exact hmem (hgiven j hj habandoned)

end Store

/-! ### The jobs of the list -/

namespace Recovery

variable {w : World} {j : Job}

/-- Under a lease that is held by one row, what is written gives up the job of that row. -/
private theorem apply_giveUpWrite {workerId : String}
    (hrow : ∀ k ∈ w.store.jobs, (leaseOf j workerId).Holds k ↔ k = j) :
    (giveUpWrite j workerId w).apply w.store = w.store.givenUp [j] w.now := by
  have hjobs : (w.store.jobs.map fun k =>
      if (leaseOf j workerId).Holds k then k.fail .deadLetter leaseExpired w.now else k) =
        w.store.jobs.map fun k => if k ∈ [j] then k.givenUp w.now else k := by
    refine List.map_congr_left fun k hk => ?_
    simp [hrow k hk, Job.fail_leaseExpired]
  have hdocuments : Document.setStatus j.documentId .failed w.now = fun d =>
      if d.status ≠ .deleted ∧ ∃ i ∈ [j], i.documentId = d.id then
        { d with status := .failed, updatedAt := w.now }
      else d := by
    funext d
    by_cases hid : d.id = j.documentId
    · by_cases hdeleted : d.status = .deleted <;> simp [Document.setStatus, hid, hdeleted]
    · simp [Document.setStatus, hid, Ne.symm hid]
  have hversions : VersionRow.setParseStatus j.documentVersionId .failed = fun v =>
      if ∃ i ∈ [j], i.documentVersionId = v.id then { v with parseStatus := .failed } else v := by
    funext v
    simp [VersionRow.setParseStatus, eq_comm]
  simp only [giveUpWrite, Write.apply, Write.document, Write.newDocuments, Write.version, Write.newVersions,
    Write.chunks, Write.job, Write.newJobs, FailureOutcome.documentStatus, FailureOutcome.parseStatus,
    List.append_nil, id_eq, hjobs, hdocuments, hversions]
  rfl

/-- A job whose row is the one that was listed is given up. -/
theorem giveUp_listed (hids : (w.store.jobs.map Job.id).Nodup) (hj : j ∈ w.store.jobs)
    (hprocessing : j.status = .processing) (hlocked : j.lockedBy.isSome) :
    (giveUp j).on w = (.ok true, { w with store := w.store.givenUp [j] w.now }) := by
  obtain ⟨workerId, hworker⟩ := Option.isSome_iff_exists.1 hlocked
  have hholds : (leaseOf j workerId).Holds j := ⟨rfl, hprocessing, hworker, rfl⟩
  have hrow : ∀ k ∈ w.store.jobs, (leaseOf j workerId).Holds k ↔ k = j := by
    intro k hk
    constructor
    · rintro ⟨hid, _⟩
      exact List.inj_on_of_nodup_map hids hk hj hid
    · rintro rfl
      exact hholds
  have hcurrent : (leaseOf j workerId).Current w.store := ⟨j, hj, hholds⟩
  simp only [giveUp_on, hworker, hcurrent, if_true, World.write, apply_giveUpWrite hrow]

theorem giveUpAll_listed {jobs : List Job} {w : World} (hids : (w.store.jobs.map Job.id).Nodup)
    (hdistinct : (jobs.map Job.id).Nodup) (hjobs : ∀ j ∈ jobs, j ∈ w.store.jobs)
    (hlocked : ∀ j ∈ jobs, j.status = .processing ∧ j.lockedBy.isSome) :
    (giveUpAll jobs).on w = (.ok jobs.length, { w with store := w.store.givenUp jobs w.now }) := by
  induction jobs generalizing w with
  | nil => simp [giveUpAll, Store.givenUp_nil]
  | cons j rest ih =>
    rw [List.map_cons, List.nodup_cons] at hdistinct
    have hothers : ∀ k ∈ rest, k.id ≠ j.id := by
      intro k hk hid
      exact hdistinct.1 (List.mem_map.2 ⟨k, hk, hid⟩)
    have hfirst := giveUp_listed hids (hjobs j List.mem_cons_self) (hlocked j List.mem_cons_self).1
      (hlocked j List.mem_cons_self).2
    -- The other jobs of the list are still as they were listed.
    have hrest : ∀ k ∈ rest, k ∈ (w.store.givenUp [j] w.now).jobs := by
      intro k hk
      have hne : k ∉ [j] := fun hmem => hothers k hk (congrArg Job.id (List.mem_singleton.1 hmem))
      exact List.mem_map.2 ⟨k, hjobs k (List.mem_cons_of_mem _ hk), if_neg hne⟩
    have hids' : ((w.store.givenUp [j] w.now).jobs.map Job.id).Nodup := by
      rw [Store.map_id_givenUp]
      exact hids
    have hlater := ih (w := { w with store := w.store.givenUp [j] w.now }) hids' hdistinct.2 hrest
      fun k hk => hlocked k (List.mem_cons_of_mem _ hk)
    simp only [giveUpAll, Service.on_bind, hfirst, hlater, Service.on_pure, Store.givenUp_cons hothers]
    simp [Nat.add_comm]

/-- A sweep that nobody interrupts gives up the abandoned jobs. -/
theorem sweep_eq {timeout : Int} {w : World} (hfits : Word.Fits64 (w.now - timeout))
    (hids : (w.store.jobs.map Job.id).Nodup)
    (hlocked : ∀ j ∈ w.store.jobs, j.status = .processing → j.lockedBy.isSome) :
    (sweep timeout).on w = (.ok (w.store.abandonedJobs w.now timeout).length,
      { w with store := w.store.givenUp (w.store.abandonedJobs w.now timeout) w.now }) := by
  have hdistinct : ((w.store.abandonedJobs w.now timeout).map Job.id).Nodup := by
    have hperm := (List.mergeSort_perm (w.store.jobs.filter fun j => decide (j.Abandoned w.now timeout))
      Job.precedes).map Job.id
    rw [Store.abandonedJobs, hperm.nodup_iff]
    exact (List.filter_sublist.map Job.id).nodup hids
  have hheld : ∀ j ∈ w.store.abandonedJobs w.now timeout, j.status = .processing ∧ j.lockedBy.isSome := by
    intro j hj
    obtain ⟨hj, _, hprocessing, _⟩ := Store.mem_abandonedJobs.1 hj
    exact ⟨hprocessing, hlocked j hj hprocessing⟩
  have hall := giveUpAll_listed hids hdistinct (fun j hj => (Store.mem_abandonedJobs.1 hj).1) hheld
  simp only [sweep, Checked.on_bind, Checked.abandonedJobs_on hfits, Checked.on_lift, hall]

theorem sweep_of_overflow {timeout : Int} {w : World} (h : ¬Word.Fits64 (w.now - timeout)) :
    (sweep timeout).on w = (.error (.overflow .sub), w) := by
  simp only [sweep, Checked.on_bind, Checked.abandonedJobs_of_overflow h]

/-- A sweep that finds no abandoned job changes nothing. -/
theorem sweep_of_none {timeout : Int} {w : World} (hfits : Word.Fits64 (w.now - timeout))
    (h : w.store.abandonedJobs w.now timeout = []) : (sweep timeout).on w = (.ok 0, w) := by
  simp only [sweep, Checked.on_bind, Checked.abandonedJobs_on hfits, h, giveUpAll, Checked.lift_pure, Checked.on_pure]

/-- A sweep that nobody interrupts leaves all other jobs as they are. -/
theorem sweep_on {timeout : Int} {w : World} (hfits : Word.Fits64 (w.now - timeout)) (hs : w.store.Consistent)
    (hlocked : ∀ j ∈ w.store.jobs, j.status = .processing → j.lockedBy.isSome) :
    ∃ w', (sweep timeout).on w = (.ok (w.store.abandonedJobs w.now timeout).length, w') ∧
      w'.store.jobs = w.store.jobs.map fun k =>
        if k.Abandoned w.now timeout then k.givenUp w.now else k := by
  refine ⟨_, sweep_eq hfits hs.jobIds hlocked, List.map_congr_left fun k hk => ?_⟩
  simp [Store.mem_abandonedJobs, hk]

end Recovery

/-! ### Locked rows -/

/-- The row of a job that is new waits for a worker. -/
theorem Job.queued_of_origin {j : Job} (h : j.origin = j) : j.status = .queued := by
  rw [← h]
  rfl

/-- A job that a task adds is as it was asked for. -/
theorem Task.Step.newJob {w : World} {t t' : Task} {wr : Write} (hstep : Task.Step w t (some wr) t')
    (h : t.Informed w.store) {j : Job} (hj : j ∈ wr.newJobs) : j.origin = j := by
  cases hstep with
  | insert job =>
    obtain rfl : j = job := by simpa using hj
    exact h
  | save maxAttempts p =>
    obtain rfl : j = Ingestion.jobOn maxAttempts p w := by simpa [Ingestion.saveOn] using hj
    exact Job.origin_queued ..
  | _ => cases hj

namespace System

variable {σ : System}

theorem run_informed (h : ∀ t ∈ σ.tasks, t.Informed σ.world.store) (events : List Event) :
    ∀ t ∈ (σ.run events).tasks, t.Informed (σ.run events).world.store := by
  refine run_induction (P := fun _ τ => ∀ t ∈ τ.tasks, t.Informed τ.world.store) h ?_
  intro before e _ hbefore
  obtain ⟨wr, hwr, _⟩ := (σ.run before).step_write e
  have htasks := (σ.run before).step_tasks e hbefore (fun _ _ => trivial)
    (fun _ _ _ _ _ _ ht hstep => hstep.informed ht) fun worker job phase e ht => ht
  exact fun t ht => (htasks t ht).commits hwr

/-- The write of an event adds no row of a job but those of new jobs. -/
theorem step_makes (hinformed : ∀ t ∈ σ.tasks, t.Informed σ.world.store) (e : Event) :
    ∃ wr, Write.Commits σ.world.store wr (σ.step e).world.store ∧
      (σ.step e).leases = σ.leases ++ (wr.bind Write.granted).toList ∧
      (∀ x ∈ wr, (∃ i t t', e = .resume i ∧ σ.tasks[i]? = some t ∧ Task.Step σ.world t (some x) t') ∨
        (∃ c, e = .call c ∧ x.call? = some c) ∨ ∃ documentId, x = .markDeleted documentId) ∧
      (∀ x ∈ wr, ∀ time ∈ x.time?, time = σ.world.now) ∧ ∀ x ∈ wr, ∀ j ∈ x.newJobs, j.origin = j := by
  obtain ⟨wr, hwr, hleases, hsource, htime⟩ := σ.step_write e
  refine ⟨wr, hwr, hleases, hsource, htime, fun x hx j hj => ?_⟩
  rcases hsource x hx with ⟨i, t, t', _, ht, hstep⟩ | ⟨c, _, hcall⟩ | ⟨documentId, rfl⟩
  · exact hstep.newJob (hinformed t (List.mem_of_getElem? ht)) hj
  · have hnone : x.newJobs = [] := by
      cases x <;> first | rfl | cases hcall
    rw [hnone] at hj
    cases hj
  · cases hj

theorem step_locked (hinformed : ∀ t ∈ σ.tasks, t.Informed σ.world.store)
    (h : ∀ j ∈ σ.world.store.jobs, j.status = .processing → j.lockedBy.isSome) (e : Event) :
    ∀ j ∈ (σ.step e).world.store.jobs, j.status = .processing → j.lockedBy.isSome := by
  obtain ⟨wr, hwr, _, _, _, hnew⟩ := step_makes hinformed e
  generalize (σ.step e).world.store = s' at hwr ⊢
  cases hwr with
  | nothing => exact h
  | @made x hallowed =>
    intro j hj hprocessing
    rcases Write.mem_jobs.1 hj with ⟨k, hk, rfl⟩ | hadded
    · rcases x.job_attempt k with ⟨_, workerId, now, _, _, _, hclaim⟩ | ⟨_, hkept⟩
      · rw [hclaim]
        rfl
      · obtain ⟨hbefore, hlocked⟩ := hkept hprocessing
        rw [hlocked]
        exact h k hk hbefore
    · rw [Job.queued_of_origin (hnew x rfl j hadded)] at hprocessing
      cases hprocessing

/-- Whatever happens, a job that is being processed is locked by a worker. -/
theorem run_locked (htasks : ∀ t ∈ σ.tasks, t.Informed σ.world.store)
    (h : ∀ j ∈ σ.world.store.jobs, j.status = .processing → j.lockedBy.isSome) (events : List Event) :
    ∀ j ∈ (σ.run events).world.store.jobs, j.status = .processing → j.lockedBy.isSome := by
  refine run_induction
    (P := fun _ τ => ∀ j ∈ τ.world.store.jobs, j.status = .processing → j.lockedBy.isSome) h ?_
  intro before e _ hbefore
  exact step_locked (run_informed htasks before) hbefore e

/-- After every run, at every time, a sweep that nobody interrupts gives up the jobs that are being processed in their
last attempt under a lease that has expired, and tells how many these are.  Their versions have failed then, and their
documents too unless they are deleted; no other row is changed.  No job is left to be given up, so that a second sweep
at the same time changes nothing.  Where the time that lies the timeout before is not one of 64 bits, the sweep
overflows and changes nothing at all. -/
theorem sweeping (objects : ObjectStore) (now : Int) (ids : IdSequence) (events : List Event) (timeout time : Int) :
    let w : World := { ((initial objects now ids).run events).world with now := time }
    let given := w.store.jobs.filter fun j => decide (j.Abandoned time timeout)
    let w' : World := { w with store := w.store.givenUp given time }
    (Word.Fits64 (time - timeout) →
      (Recovery.sweep timeout).on w = (.ok given.length, w') ∧
        (∀ j ∈ given, (∃ v ∈ w'.store.versions, v.id = j.documentVersionId ∧ v.parseStatus = .failed) ∧
          ∃ d ∈ w'.store.documents, d.id = j.documentId ∧
            (d.status = .failed ∨ d.status = .deleted ∧ d ∈ w.store.documents)) ∧
        w'.store.abandonedJobs time timeout = [] ∧ (Recovery.sweep timeout).on w' = (.ok 0, w')) ∧
      (¬Word.Fits64 (time - timeout) → (Recovery.sweep timeout).on w = (.error (.overflow .sub), w)) := by
  intro w given w'
  refine ⟨fun hfits => ?_, fun hfits => Recovery.sweep_of_overflow hfits⟩
  have hs : w.store.Consistent := run_consistent Store.consistent_empty events
  have hlocked : ∀ j ∈ w.store.jobs, j.status = .processing → j.lockedBy.isSome :=
    run_locked (by simp [initial]) (by simp [initial, Store.empty]) events
  have hgiven : ∀ j, j ∈ given ↔ j ∈ w.store.abandonedJobs time timeout := by
    intro j
    simp [given, Store.mem_abandonedJobs]
  have hcount : given.length = (w.store.abandonedJobs time timeout).length :=
    (List.mergeSort_perm given Job.precedes).length_eq.symm
  have hstore : w.store.givenUp given time = w.store.givenUp (w.store.abandonedJobs time timeout) time := by
    simp only [Store.givenUp, hgiven]
  have hempty : w'.store.abandonedJobs time timeout = [] :=
    Store.abandonedJobs_givenUp fun j hj habandoned => (hgiven j).2 (Store.mem_abandonedJobs.2 ⟨hj, habandoned⟩)
  refine ⟨?_, fun j hj => ?_, hempty, ?_⟩
  · have hsweep : (Recovery.sweep timeout).on w = _ := Recovery.sweep_eq hfits hs.jobIds hlocked
    rw [hcount, hsweep]
    simp only [w', hstore]
    rfl
  · have hrow : j ∈ w.store.jobs := (List.mem_filter.1 hj).1
    exact ⟨Store.version_givenUp hs hrow hj time, Store.document_givenUp hs hrow hj time⟩
  · exact Recovery.sweep_of_none (w := w') hfits hempty

/-- The upload of a file and its reindexing make two jobs for one version, and the workers of both vanish.  The sweep
gives up both, although the second one names what has failed with the first one. -/
theorem sweeping_shared :
    let events : List Event :=
      [.start (.upload 1 ⟨"t1", "w1", "kb1", "a.md", [104, 105], none⟩), .resume 0, .resume 0, .resume 0,
        .start (.reindex 1 "t1" "id-1" none), .resume 1, .resume 1, .resume 1, .resume 1, .resume 1,
        .call (.claim "a" 1000), .call (.claim "b" 1000)]
    let w : World := { ((initial (.memory []) 0 (.numbered "id")).run events).world with now := 5000 }
    ∃ w', (Recovery.sweep 1000).on w = (.ok 2, w') ∧ (∀ j ∈ w'.store.jobs, j.status = .deadLetter) ∧
      w'.store.documents.map Document.status = [.failed] ∧ (Recovery.sweep 1000).on w' = (.ok 0, w') := by
  intro events w
  obtain ⟨hfirst, _, _, hsecond⟩ := (sweeping (.memory []) 0 (.numbered "id") events 1000 5000).1 (by decide)
  have hcount : (w.store.jobs.filter fun j => decide (j.Abandoned 5000 1000)).length = 2 := by decide +kernel
  rw [hcount] at hfirst
  exact ⟨_, hfirst, by decide +kernel, by decide +kernel, hsecond⟩

/-- A worker vanishes in its only attempt.  With the least timeout its lease has expired at once, and the sweep
overflows and leaves the job as it is. -/
theorem sweeping_overflowing :
    let events : List Event :=
      [.start (.upload 1 ⟨"t1", "w1", "kb1", "a.md", [104, 105], none⟩), .resume 0, .resume 0, .resume 0,
        .call (.claim "a" 1000)]
    let w := ((initial (.memory []) 1 (.numbered "id")).run events).world
    (w.store.jobs.filter fun j => decide (j.Abandoned w.now Word.least)).length = 1 ∧
      (Recovery.sweep Word.least).on w = (.error (.overflow .sub), w) := by
  intro events w
  exact ⟨by decide +kernel, Recovery.sweep_of_overflow (by decide +kernel)⟩

end System

end IngestionQueue
