import IngestionQueue.Proofs.Claiming
import IngestionQueue.Proofs.Processing

/-!
# What a worker makes of a job

A worker claims the first of the claimable jobs (`Job.before_of_first?`), makes an attempt and settles it.  If nobody
disturbs it, what it reports and what it leaves in the tables depend on the version of the job and its object alone
(`Worker.processNext_of_indexable`, `Worker.processNext_of_unindexable`), unless the time of the next attempt overflows
(`Worker.processNext_of_overflowing`).  The chunks of the attempt need identifiers that no chunk has; in a regular run
these are all that are yet to be handed out (`System.run_chunksUsed`).  The main result is `System.work`.
-/

namespace IngestionQueue

/-! ### Workers -/

theorem World.Unindexable.not_leaseLost {w : World} {v : VersionRow} {e : AppError} (h : w.Unindexable v e) :
    e.isLeaseLost = false := by
  cases h <;> rfl

namespace Worker

variable {worker : Worker} {w : World} {j : Job} {v : VersionRow} {d : Document}

private theorem claim_of_first (hs : w.store.Consistent) (hfits : Word.Fits64 (w.now - worker.leaseTimeout))
    (h : Job.first? (w.store.claimable w.now worker.leaseTimeout) = some j) :
    j ∈ w.store.jobs ∧ worker.claim.on w =
      (.ok (some (j.claim worker.id w.now).claimed),
        { w with store := w.store.withJob (j.claim worker.id w.now) }) := by
  have hallowed : (Write.claim j worker.id w.now worker.leaseTimeout).Allowed w.store := h
  have hj := hallowed.claimable.1
  refine ⟨hj, ?_⟩
  rw [claim, Checked.claimNext_on hfits, h]
  simp only [World.write, Write.apply_claim hs.jobIds hj]

private theorem holds_claimed (worker : Worker) (hj : j ∈ w.store.jobs) (hjoin : w.store.Joins v d) :
    w.store.Holds ((j.claim worker.id w.now).claimed.lease worker.id) (j.claim worker.id w.now) v d where
  row := ⟨j, hj, rfl⟩
  held := ⟨rfl, rfl, rfl, rfl⟩
  version := ⟨v, hjoin.version, rfl⟩
  document := ⟨d, hjoin.document, rfl⟩

/-- A worker indexes a version that can be indexed. -/
theorem processNext_of_indexable (hsize : 0 < worker.chunking.chunkSize) (hjoin : w.store.Joins v d)
    (hids : Function.Injective w.ids.nth) (hfresh : w.ChunksUsed)
    (hfits : Word.Fits64 (w.now - worker.leaseTimeout))
    (h : Job.first? (w.store.claimable w.now worker.leaseTimeout) = some j) (hv : v.id = j.documentVersionId)
    {text : String} (htext : w.Indexable v text) :
    let pieces := worker.chunking.chunk text
    pieces ≠ [] ∧ worker.processNext.on w = (.ok (some (.completed pieces.length)),
      { w.handOut pieces.length with
        store := (w.store.indexed v d (w.chunkRows d v pieces) w.now).withJob (j.succeeded w.now) }) := by
  intro pieces
  obtain ⟨hj, hclaim⟩ := claim_of_first hjoin.consistent hfits h
  obtain ⟨hne, hrun⟩ :=
    Attempt.run_of_indexable hsize hjoin (holds_claimed worker hj hjoin) hids hfresh rfl htext
  rw [hv, Job.complete_claim] at hrun
  have hversion : (j.claim worker.id w.now).claimed.documentVersionId = j.documentVersionId := rfl
  refine ⟨hne, ?_⟩
  simp only [processNext, Checked.on_bind, hclaim, hversion, Checked.on_lift, Service.on_attempt, hrun, settle,
    Execution.verdict, Checked.on_pure]
  rfl

/-- A worker whose attempt has failed judges the failure and records it.  What the attempt has written before it failed
is of no account, because the record writes over it. -/
private theorem processNext_of_fault (hsize : 0 < worker.chunking.chunkSize) (hjoin : w.store.Joins v d)
    (hfits : Word.Fits64 (w.now - worker.leaseTimeout))
    (h : Job.first? (w.store.claimable w.now worker.leaseTimeout) = some j) (hv : v.id = j.documentVersionId)
    {e : AppError} (hfault : w.Unindexable v e) :
    ∃ (s : Store) (k : Job), s.Holds ⟨j.id, worker.id, j.attemptCount + 1⟩ k v d ∧
      (∀ outcome error, k.fail outcome error w.now = j.failed outcome error w.now) ∧
      (∀ outcome, s.failed v d outcome w.now = w.store.failed v d outcome w.now) ∧
      worker.processNext.on w = (some <$> do
        let job := (j.claim worker.id w.now).claimed
        worker.record job (← worker.judge job e.message) : Checked (Option JobOutcome)).on
          { w with store := s.withJob k } := by
  obtain ⟨hj, hclaim⟩ := claim_of_first hjoin.consistent hfits h
  obtain ⟨s, k, hrun, hholds, hends, hfailed⟩ :=
    Attempt.run_of_unindexable hsize hjoin (holds_claimed worker hj hjoin) hfault
  rw [hv] at hrun
  have hversion : (j.claim worker.id w.now).claimed.documentVersionId = j.documentVersionId := rfl
  refine ⟨s, k, hholds, ?_, hfailed, ?_⟩
  · intro outcome error
    rw [hends, Job.fail_claim]
  · simp only [processNext, Checked.on_bind, hclaim, hversion, Checked.on_lift, Service.on_attempt, hrun, settle,
      Execution.verdict, hfault.not_leaseLost, Bool.false_eq_true, if_false, Checked.on_map]
    rfl

/-- A worker records what it has failed with, and either tries again later or gives the job up. -/
theorem processNext_of_unindexable (hsize : 0 < worker.chunking.chunkSize) (hjoin : w.store.Joins v d)
    (hfits : Word.Fits64 (w.now - worker.leaseTimeout))
    (h : Job.first? (w.store.claimable w.now worker.leaseTimeout) = some j) (hv : v.id = j.documentVersionId)
    (hd : d.id = j.documentId) {e : AppError} (hfault : w.Unindexable v e) {f : Failure}
    (hdecided : worker.decide (j.claim worker.id w.now).claimed e.message w.now = .ok f) :
    worker.processNext.on w = (.ok (some f.report),
      { w with store := (w.store.failed v d f.outcome w.now).withJob (j.failed f.outcome f.error w.now) }) := by
  obtain ⟨s, k, hholds, hrow, hfailed, hon⟩ := processNext_of_fault hsize hjoin hfits h hv hfault
  have hcurrent : ((j.claim worker.id w.now).claimed.lease worker.id).Current (s.withJob k) := hholds.current
  have hversion : (j.claim worker.id w.now).claimed.documentVersionId = v.id := hv.symm
  have hdocument : (j.claim worker.id w.now).claimed.documentId = d.id := hd.symm
  have hjudge := judge_of_ok (w := { w with store := s.withJob k }) hdecided
  have hheld : ((j.claim worker.id w.now).claimed.lease worker.id).Holds k := hholds.held
  simp only [hon, Checked.on_map, Checked.on_bind, hjudge, Checked.on_lift, record_on, if_pos hcurrent, World.write,
    failOn, hversion, hdocument, Write.apply_fail hheld, hrow]
  rw [← hfailed f.outcome]
  rfl

/-- Where the time of the next attempt overflows, the failure is not recorded, and the job stays with the worker. -/
theorem processNext_of_overflowing (hsize : 0 < worker.chunking.chunkSize) (hjoin : w.store.Joins v d)
    (hfits : Word.Fits64 (w.now - worker.leaseTimeout))
    (h : Job.first? (w.store.claimable w.now worker.leaseTimeout) = some j) (hv : v.id = j.documentVersionId)
    {e : AppError} (hfault : w.Unindexable v e) {o : Word.Overflow}
    (hdecided : worker.decide (j.claim worker.id w.now).claimed e.message w.now = .error o) :
    ∃ w', worker.processNext.on w = (.error (.overflow o), w') ∧
      Lease.Current ⟨j.id, worker.id, j.attemptCount + 1⟩ w'.store := by
  obtain ⟨s, k, hholds, _, _, hon⟩ := processNext_of_fault hsize hjoin hfits h hv hfault
  have hjudge := judge_of_overflow (w := { w with store := s.withJob k }) hdecided
  refine ⟨{ w with store := s.withJob k }, ?_, hholds.current⟩
  simp only [hon, Checked.on_map, Checked.on_bind, hjudge]

/-- The attempt at a version fails, and the time at which the next attempt of the job would be due is not one of 64
bits. -/
def Overflows (worker : Worker) (w : World) (j : Job) (v : VersionRow) : Prop :=
  (∃ e, w.Unindexable v e) ∧ j.attemptCount + 1 < j.maxAttempts ∧
    ¬Word.Fits64 (w.now + worker.retry.delay (j.attemptCount + 1))

/-- A job that has attempts left after the one that has failed is tried again. -/
theorem decide_claimed {e : AppError} (hfault : w.Unindexable v e) (h : ¬worker.Overflows w j v) :
    let nextRunAt := w.now + worker.retry.delay (j.attemptCount + 1)
    worker.decide (j.claim worker.id w.now).claimed e.message w.now = .ok
      { outcome := if j.attemptCount + 1 < j.maxAttempts then .retry nextRunAt else .deadLetter
        report := if j.attemptCount + 1 < j.maxAttempts then .retrying nextRunAt else .deadLettered
        error := truncateError e.message } := by
  intro nextRunAt
  let job := (j.claim worker.id w.now).claimed
  by_cases hleft : j.attemptCount + 1 < j.maxAttempts
  · have hfits : Word.Fits64 nextRunAt := by
      by_contra hnot
      exact h ⟨⟨e, hfault⟩, hleft, hnot⟩
    have hjob : job.attemptCount < job.maxAttempts := hleft
    simp only [if_pos hleft]
    exact decide_of_left hjob hfits e.message
  · have hjob : job.maxAttempts ≤ job.attemptCount := Int.not_lt.1 hleft
    simp only [if_neg hleft]
    exact decide_of_last hjob worker e.message w.now

end Worker

/-! ### Runs -/

/-- The chunks that an attempt writes have identifiers that are handed out for them. -/
theorem Attempt.used_of_write (chunking : ChunkConfig) (a : Attempt) (text : String) (w : World) :
    ∀ r ∈ ((a.write chunking text).on w).2.store.chunks,
      r ∈ w.store.chunks ∨ w.ids.Between ((a.write chunking text).on w).2.ids r.id := by
  cases hpieces : chunking.chunk text with
  | nil =>
    rw [write_of_nil hpieces]
    exact fun r hr => .inl hr
  | cons piece rest =>
    simp only [write, hpieces, Service.on_bind, number_on_eq, Service.on_now, Service.on_query]
    intro r hr
    rcases Query.finalize_on (w.handOut (piece :: rest).length).now a.lease a.source (newChunks w (piece :: rest))
      (w.handOut (piece :: rest).length).store with ⟨e, h⟩ | ⟨_, h⟩ <;> rw [h] at hr
    · exact .inl hr
    · rcases List.mem_append.1 hr with hold | hnew
      · exact .inl (List.mem_filter.1 hold).1
      · obtain ⟨chunk, hchunk, rfl⟩ := List.mem_map.1 hnew
        obtain ⟨i, hi, rfl⟩ := List.mem_mapIdx.1 hchunk
        exact .inr ⟨w.ids.next + i, Nat.le_add_right _ _, Nat.add_lt_add_left hi _, rfl⟩

/-- The chunks that a task writes have identifiers that are handed out for them. -/
theorem Task.used_of_resume (t : Task) (w : World) :
    ∀ r ∈ (t.resume w).2.store.chunks, r ∈ w.store.chunks ∨ w.ids.Between (t.resume w).2.ids r.id := by
  obtain ⟨wr, store, count, hstep, hcommits, hworld⟩ := t.resume_step w
  cases hcommits with
  | nothing =>
    intro r hr
    rw [hworld] at hr
    exact .inl hr
  | @made x _ =>
    generalize (t.resume w).1 = t' at hstep
    cases hstep with
    | write worker job a text chunks _ _ =>
      have hwrite : ((attempt worker job (.write a text)).resume w).2 =
          ((a.write worker.chunking text).on w).2 := by
        simp only [resume, next, Phase.next, Checked.on_bind, Checked.on_lift, Service.on_bind, Service.on_attempt]
        rcases (a.write worker.chunking text).on w with ⟨_ | _, _⟩ <;> rfl
      rw [hwrite]
      exact a.used_of_write worker.chunking text w
    | _ =>
      intro r hr
      rw [hworld] at hr
      exact .inl hr

namespace System

private theorem step_chunks {σ : System} {e : Event} (he : e.Regular) :
    ∀ r ∈ (σ.step e).world.store.chunks,
      r ∈ σ.world.store.chunks ∨ σ.world.ids.Between (σ.step e).world.ids r.id := by
  by_cases hresume : ∃ i, e = .resume i
  · obtain ⟨i, rfl⟩ := hresume
    cases ht : σ.tasks[i]? with
    | none =>
      have hidle : σ.step (.resume i) = σ := by simp only [step, ht]
      rw [hidle]
      exact fun r hr => .inl hr
    | some t =>
      rw [(step_resume ht).1]
      exact t.used_of_resume σ.world
  · -- An event that resumes no task writes no chunks.
    have hmove := σ.step_move e
    generalize σ.step e = σ' at hmove ⊢
    cases hmove with
    | resume i => exact absurd ⟨i, rfl⟩ hresume
    | call c wr hallowed hcall htime =>
      intro r hr
      cases c with
      | heartbeat l =>
        cases wr <;> simp only [Write.call?, Option.some.injEq, reduceCtorEq] at hcall
        exact .inl hr
      | _ => exact he.elim
    | _ => exact fun r hr => .inl hr

/-- As long as nobody else writes chunks, no chunk has an identifier that is yet to be handed out. -/
theorem run_chunksUsed {σ : System} (hids : Function.Injective σ.world.ids.nth) (hσ : σ.world.store.chunks = [])
    {events : List Event} (hevents : ∀ e ∈ events, e.Regular) : (σ.run events).world.ChunksUsed := by
  have hused : ∀ r ∈ (σ.run events).world.store.chunks, (σ.run events).world.ids.Used r.id := by
    refine run_induction (P := fun _ τ => ∀ r ∈ τ.world.store.chunks, τ.world.ids.Used r.id) (by simp [hσ]) ?_
    intro before e he hbefore r hr
    have hfollows := (σ.run before).step_follows e
    rcases step_chunks (hevents e he) r hr with hold | hnew
    · exact (hbefore r hold).follows hfollows
    · exact hnew.used hfollows
  intro r hr n hn hsame
  obtain ⟨m, hm, hid⟩ := hused r hr
  rw [run_ids] at hid hsame
  have hplace := hids (hid.symm.trans hsame)
  omega

private theorem live_setStatus {d : Document} {status : DocumentStatus} (h : d.status ≠ .deleted)
    (hstatus : status ≠ .deleted) (id : String) (now : Int) : (d.setStatus id status now).status ≠ .deleted := by
  simp only [Document.setStatus]
  split_ifs
  · exact hstatus
  · exact h

/-- A write that neither marks a document as deleted nor saves one as such leaves none. -/
private theorem live_apply {s : Store} {wr : Write} (h : ∀ d ∈ s.documents, d.status ≠ .deleted)
    (hsave : ∀ d v job, wr = .save d v job → d.status ≠ .deleted) (hmark : ∀ id, wr ≠ .markDeleted id) :
    ∀ d ∈ (wr.apply s).documents, d.status ≠ .deleted := by
  intro d hd
  rcases Write.mem_documents.1 hd with ⟨e, he, rfl⟩ | hnew
  · cases wr with
    | save f v job =>
      simp only [Write.document, Document.overwrite]
      split_ifs
      · exact hsave f v job rfl
      · exact h e he
    | mark l id now => exact live_setStatus (h e he) (by decide) id now
    | finalize l source chunks now => exact live_setStatus (h e he) (by decide) source.documentId now
    | fail l id versionId outcome error now =>
      have houtcome : outcome.documentStatus ≠ .deleted := by cases outcome <;> simp [FailureOutcome.documentStatus]
      exact live_setStatus (h e he) houtcome id now
    | markDeleted id => exact absurd rfl (hmark id)
    | _ => exact h e he
  · obtain ⟨⟨v, job, rfl⟩, _⟩ := Write.of_newDocuments hnew
    exact hsave d v job rfl

/-- As long as nobody marks a document as deleted, none is. -/
theorem run_live {σ : System} (hσ : σ.world.store.documents = []) (htasks : σ.tasks = []) {events : List Event}
    (hevents : ∀ id, .markDeleted id ∉ events) :
    ∀ d ∈ (σ.run events).world.store.documents, d.status ≠ .deleted := by
  refine run_induction (P := fun _ τ => ∀ d ∈ τ.world.store.documents, d.status ≠ .deleted) (by simp [hσ]) ?_
  intro before e he hbefore d hd
  have hpending := run_planned htasks before
  have hmove := (σ.run before).step_move e
  generalize (σ.run before).step e = σ' at hmove hd
  cases hmove with
  | markDeleted documentId => exact absurd he (hevents documentId)
  | resume i count t t' wr store ht hstep hwr =>
    cases hwr with
    | nothing => exact hbefore d hd
    | made _ =>
      refine live_apply hbefore ?_ ?_ d hd
      · rintro f v job rfl
        cases hstep with
        | save maxAttempts p =>
          rw [hpending _ (List.mem_of_getElem? ht) _ rfl]
          decide
      · rintro id rfl
        cases hstep
  | call c wr hallowed hcall htime =>
    refine live_apply hbefore ?_ ?_ d hd
    · rintro f v job rfl
      cases hcall
    · rintro id rfl
      cases hcall
  | _ => exact hbefore d hd

/-- After every run, a worker that nobody disturbs reports what the tables hold then.  If there is no claimable job,
it reports none and changes nothing.  Else it works on the claimable job that comes before all others, and it never
loses its lease.  It reports chunks exactly if the object of the version holds a text that is not white space alone:
the job is then completed, the version is a success with the pieces of the text as its chunks, and the document is
ready, unless it is deleted.  If there is no such text, the job is tried again later, or given up after its last
attempt, with the error; the version and the document then wait or have failed, and no chunk is touched.  The worker
reports nothing in two cases.  Where the time before which leases have expired is not one of 64 bits, it overflows and
changes nothing; where the time of the next attempt is not, it overflows and leaves the job under its lease. -/
theorem work (objects : ObjectStore) (now : Int) (ids : IdSequence) (hids : Function.Injective ids.nth)
    (events : List Event) (worker : Worker)
    (hchunking : ChunkConfig.check worker.chunking.chunkSize worker.chunking.overlap = .ok worker.chunking)
    (hpaired : ((initial objects now ids).run events).world.store.Paired)
    (hfresh : ((initial objects now ids).run events).world.ChunksUsed) :
    let w := ((initial objects now ids).run events).world
    let claimable := w.store.claimable w.now worker.leaseTimeout
    (¬Word.Fits64 (w.now - worker.leaseTimeout) ∧ worker.processNext.on w = (.error (.overflow .sub), w)) ∨
    Word.Fits64 (w.now - worker.leaseTimeout) ∧
      ((claimable = [] ∧ worker.processNext.on w = (.ok none, w)) ∨
      ∃ j ∈ claimable, ∃ v ∈ w.store.versions, ∃ d ∈ w.store.documents,
        (∀ k ∈ claimable, j.Before k) ∧ v.id = j.documentVersionId ∧ d.id = v.documentId ∧ d.id = j.documentId ∧
        ((∀ id, .markDeleted id ∉ events) → d.status ≠ .deleted) ∧
        (worker.Overflows w j v → ∃ w', worker.processNext.on w = (.error (.overflow .add), w') ∧
          Lease.Current ⟨j.id, worker.id, j.attemptCount + 1⟩ w'.store) ∧
        (¬worker.Overflows w j v → ∃ report w',
          worker.processNext.on w = (.ok (some report), w') ∧ report ≠ .leaseLost ∧
          ((∃ n, report = .completed n) ↔ ∃ text, w.Indexable v text) ∧
          ((∃ text, w.Indexable v text ∧
              let pieces := worker.chunking.chunk text
              1 ≤ pieces.length ∧ report = .completed pieces.length ∧
              w' = { w.handOut pieces.length with
                store := (w.store.indexed v d (w.chunkRows d v pieces) w.now).withJob (j.succeeded w.now) } ∧
              w'.store.chunkRows v.id = w.chunkRows d v pieces ∧
              (d.status ≠ .deleted → ∀ f ∈ w'.store.documents, f.id = d.id → f.status = .ready)) ∨
            ∃ e, w.Unindexable v e ∧
              let nextRunAt := w.now + worker.retry.delay (j.attemptCount + 1)
              let outcome := if j.attemptCount + 1 < j.maxAttempts then .retry nextRunAt else .deadLetter
              report = (if j.attemptCount + 1 < j.maxAttempts then .retrying nextRunAt else .deadLettered) ∧
              w' = { w with
                store := (w.store.failed v d outcome w.now).withJob
                  (j.failed outcome (truncateError e.message) w.now) }))) := by
  intro w claimable
  by_cases hfits : Word.Fits64 (w.now - worker.leaseTimeout)
  swap
  · exact .inl ⟨hfits, Worker.processNext_of_overflow hfits⟩
  refine .inr ⟨hfits, ?_⟩
  have hs : w.store.Consistent := run_consistent Store.consistent_empty events
  have hnth : Function.Injective w.ids.nth := by
    rw [run_ids]
    exact hids
  have hsize : 0 < worker.chunking.chunkSize := by
    have hcheck := (ChunkConfig.check_eq_ok hchunking).2
    omega
  cases hfirst : Job.first? claimable with
  | none => exact .inl ⟨Job.first?_eq_none_iff.1 hfirst, Worker.processNext_of_none hfits hfirst⟩
  | some j =>
    right
    have hallowed : (Write.claim j worker.id w.now worker.leaseTimeout).Allowed w.store := hfirst
    obtain ⟨hj, hclaimable⟩ := hallowed.claimable
    have hmem : j ∈ claimable := List.mem_filter.2 ⟨hj, by simpa using hclaimable⟩
    obtain ⟨v, hv, hvid⟩ := hs.jobVersion j hj
    obtain ⟨d, hd, hdid⟩ := hs.versionDocument v hv
    have hjoin : w.store.Joins v d := ⟨hs, hv, hd, hdid⟩
    have hdocument : d.id = j.documentId := hdid.trans (hpaired j hj v hv hvid)
    have hlive : (∀ id, .markDeleted id ∉ events) → d.status ≠ .deleted := fun h => run_live rfl rfl h d hd
    refine ⟨j, hmem, v, hv, d, hd, Job.before_of_first? hfirst, hvid, hdid, hdocument, hlive, ?_, ?_⟩
    · rintro ⟨⟨e, hfault⟩, hleft, hover⟩
      let job := (j.claim worker.id w.now).claimed
      have hjob : job.attemptCount < job.maxAttempts := hleft
      exact Worker.processNext_of_overflowing hsize hjoin hfits hfirst hvid hfault
        (Worker.decide_of_overflow hjob hover e.message)
    · intro hnot
      rcases w.indexable_or_unindexable v with ⟨text, htext⟩ | ⟨e, hfault⟩
      · obtain ⟨hne, hon⟩ := Worker.processNext_of_indexable hsize hjoin hnth hfresh hfits hfirst hvid htext
        refine ⟨_, _, hon, by simp, ?_, .inl ?_⟩
        · exact ⟨fun _ => ⟨text, htext⟩, fun _ => ⟨_, rfl⟩⟩
        · have hrows : ∀ r ∈ w.chunkRows d v (worker.chunking.chunk text), r.documentVersionId = v.id :=
            fun r hr => World.version_of_chunkRows hr
          exact ⟨text, htext, List.length_pos_iff.2 hne, rfl, rfl, w.store.chunkRows_indexed hrows d w.now,
            fun hnot => Store.ready_indexed hs hd hnot v (w.chunkRows d v (worker.chunking.chunk text)) w.now⟩
      · have hdecided := Worker.decide_claimed hfault hnot
        have hon := Worker.processNext_of_unindexable hsize hjoin hfits hfirst hvid hdocument hfault hdecided
        refine ⟨_, _, hon, ?_, ?_, .inr ⟨e, hfault, rfl, rfl⟩⟩
        · split <;> simp
        · refine iff_of_false ?_ fun ⟨text, htext⟩ => htext.not_unindexable hfault
          split <;> simp

/-- One file is indexed and another one is uploaded: the next worker indexes that one as well. -/
theorem work_second :
    let worker : Worker := ⟨"a", 1000, .default, .default⟩
    let events : List Event :=
      [.start (.upload 3 ⟨"t1", "w1", "kb1", "a.md", [104, 105], none⟩), .resume 0, .resume 0, .resume 0,
        .start (.work worker), .resume 1, .resume 1, .resume 1, .resume 1, .resume 1, .resume 1, .resume 1,
        .start (.upload 3 ⟨"t1", "w1", "kb1", "b.md", [104, 111], none⟩), .resume 2, .resume 2, .resume 2]
    let w := ((initial (.memory []) 0 (.numbered "id")).run events).world
    w.store.chunks.length = 1 ∧ ∃ (j : Job) (v : VersionRow) (d : Document) (text : String), w.Indexable v text ∧
      worker.processNext.on w = (.ok (some (.completed 1)), { w.handOut 1 with
        store := (w.store.indexed v d (w.chunkRows d v (worker.chunking.chunk text)) w.now).withJob
          (j.succeeded w.now) }) := by
  intro worker events w
  have hids : Function.Injective (IdSequence.numbered "id").nth := IdSequence.numbered_injective "id"
  have hregular : ∀ e ∈ events, e.Regular := by simp [events, Event.Regular]
  have hderives : ∀ e ∈ events, e.Derives := by simp [events, Event.Derives]
  have hpaired : w.store.Paired :=
    (run_aimed hids (initial_aimed (.memory []) 0 (.numbered "id")) events).paired hderives
  have hfresh : w.ChunksUsed := run_chunksUsed hids rfl hregular
  have hresult : (worker.processNext.on w).1 = .ok (some (.completed 1)) := by decide +kernel
  have hchunks : w.store.chunks.length = 1 := by decide +kernel
  refine ⟨hchunks, ?_⟩
  rcases work (.memory []) 0 (.numbered "id") hids events worker (by decide) hpaired hfresh with
    ⟨_, hover⟩ | ⟨_, ⟨_, hnone⟩ | ⟨j, _, v, _, d, _, _, _, _, _, _, hover, hreports⟩⟩
  · rw [hover] at hresult
    cases hresult
  · rw [hnone] at hresult
    cases hresult
  · by_cases hoverflows : worker.Overflows w j v
    · obtain ⟨_, hon, _⟩ := hover hoverflows
      rw [hon] at hresult
      cases hresult
    · obtain ⟨report, _, hon, _, hindexable, hcases⟩ := hreports hoverflows
      have hreport : report = .completed 1 := by
        rw [hon] at hresult
        exact Option.some.inj (Except.ok.inj hresult)
      obtain ⟨_, hsome⟩ := hindexable.1 ⟨1, hreport⟩
      rcases hcases with ⟨text, htext, _, hcount, hworld, _⟩ | ⟨e, hfault, _⟩
      · have hone : (worker.chunking.chunk text).length = 1 :=
          (JobOutcome.completed.inj (hreport.symm.trans hcount)).symm
        refine ⟨j, v, d, text, htext, ?_⟩
        rw [hon, hreport, hworld, hone]
      · exact absurd hfault hsome.not_unindexable

/-- The object of a version is lost, and the worker is to wait for the greatest time that there is.  It reports nothing,
and its job is still being processed. -/
theorem work_overflowing :
    let worker : Worker := ⟨"a", 1000, ⟨Word.greatest, Word.greatest⟩, .default⟩
    let events : List Event :=
      [.start (.upload 3 ⟨"t1", "w1", "kb1", "a.md", [104, 105], none⟩), .resume 0, .resume 0, .resume 0,
        .replaceObjects (.memory [])]
    let w := ((initial (.memory []) 1 (.numbered "id")).run events).world
    (worker.processNext.on w).1 = .error (.overflow .add) ∧
      Lease.Current ⟨"id-3", "a", 1⟩ (worker.processNext.on w).2.store := by
  decide +kernel

end System

end IngestionQueue
