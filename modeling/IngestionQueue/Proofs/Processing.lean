import IngestionQueue.Proofs.Readiness

/-!
# Documents that are being processed

The jobs of a document move on independently, and each of them writes the one status that the document has.  A
document is set to processing under the lease of one of its jobs, and whoever takes a job out of processing
writes its document anew in the same write (`Write.settles`).  So a document that is processing always has a job
that is, as long as every job names the document of its version (`Store.Paired`).  The main result is
`System.processing`.
-/

namespace IngestionQueue

/-! ### One write -/

namespace Write

/-- The lease under which a job is taken out of processing, and the document that is written with it. -/
def settles : Write → Option (Lease × String)
  | finalize l source _ _ => some (l, source.documentId)
  | fail l documentId _ _ _ _ => some (l, documentId)
  | insert _ | save _ _ _ | claim _ _ _ _ | refresh _ _ | advance _ _ _ _ | mark _ _ _ | markDeleted _ => none

/-- What the queue guarantees of the writes that touch the status of a document: an upload does not set it to
processing, and an attempt writes the document of the job that it holds. -/
def Aims (s : Store) : Write → Prop
  | save d _ _ => d.status ≠ .processing
  | mark l documentId _ | fail l documentId _ _ _ _ => ∀ j ∈ s.jobs, l.Holds j → j.documentId = documentId
  | finalize l source _ _ => ∀ j ∈ s.jobs, l.Holds j → j.documentId = source.documentId
  | insert _ | claim _ _ _ _ | refresh _ _ | advance _ _ _ _ | markDeleted _ => True

variable {s : Store} {wr : Write} {d : Document} {j : Job}

theorem Aims.settles (haims : wr.Aims s) {l : Lease} {documentId : String}
    (h : wr.settles = some (l, documentId)) : ∀ j ∈ s.jobs, l.Holds j → j.documentId = documentId := by
  cases wr with
  | finalize l' source chunks now =>
    obtain ⟨rfl, rfl⟩ := Prod.mk.inj (Option.some.inj h)
    exact haims
  | fail l' id versionId outcome error now =>
    obtain ⟨rfl, rfl⟩ := Prod.mk.inj (Option.some.inj h)
    exact haims
  | _ => cases h

/-- A job stays in processing, unless it is settled. -/
theorem processing_of_job (wr : Write) (hj : j.status = .processing) :
    (wr.job j).status = .processing ∨ ∃ l documentId, wr.settles = some (l, documentId) ∧ l.Holds j := by
  cases wr with
  | finalize l source chunks now =>
    by_cases hl : l.Holds j
    · exact .inr ⟨l, source.documentId, rfl, hl⟩
    · exact .inl (by simp [hl, hj])
  | fail l documentId versionId outcome error now =>
    by_cases hl : l.Holds j
    · exact .inr ⟨l, documentId, rfl, hl⟩
    · exact .inl (by simp [hl, hj])
  | claim | refresh | advance | mark =>
    left
    simp only [job]
    split
    · first | rfl | exact hj
    · exact hj
  | _ => exact .inl hj

/-- A document that is processing is set so under a lease, or it was so before and no job of it is settled. -/
theorem Aims.processing_of_document (haims : wr.Aims s) (h : (wr.document d).status = .processing) :
    (∃ l now, wr = mark l d.id now) ∨
      d.status = .processing ∧ ∀ l documentId, wr.settles = some (l, documentId) → d.id ≠ documentId := by
  cases wr with
  | save e v job =>
    by_cases hid : d.id = e.id
    · have hsame : ((save e v job).document d).status = e.status := by simp [Document.overwrite, hid]
      rw [hsame] at h
      exact absurd h haims
    · have hsame : (save e v job).document d = d := by simp [Document.overwrite, hid]
      rw [hsame] at h
      exact .inr ⟨h, by simp [Write.settles]⟩
  | mark l id now =>
    rcases Document.of_setStatus h (by decide) with ⟨rfl, _⟩ | ⟨_, hsame⟩
    · exact .inl ⟨l, now, rfl⟩
    · simp only [document, hsame] at h
      exact .inr ⟨h, by simp [Write.settles]⟩
  | finalize l source chunks now =>
    rcases Document.of_setStatus h (by decide) with ⟨_, hready⟩ | ⟨hid, hsame⟩
    · cases hready
    · simp only [document, hsame] at h
      refine .inr ⟨h, ?_⟩
      rintro l' documentId ⟨⟩
      exact hid
  | fail l id versionId outcome error now =>
    rcases Document.of_setStatus h (by decide) with ⟨_, houtcome⟩ | ⟨hid, hsame⟩
    · cases outcome <;> cases houtcome
    · simp only [document, hsame] at h
      refine .inr ⟨h, ?_⟩
      rintro l' documentId ⟨⟩
      exact hid
  | markDeleted id =>
    by_cases hid : d.id = id
    · simp [hid] at h
    · have hsame : (markDeleted id).document d = d := by simp [hid]
      rw [hsame] at h
      exact .inr ⟨h, by simp [Write.settles]⟩
  | _ => exact .inr ⟨h, by simp [Write.settles]⟩

end Write

/-! ### Tables -/

namespace Store

/-- Every document that is processing has a job that is. -/
def Attended (s : Store) : Prop :=
  ∀ d ∈ s.documents, d.status = .processing → ∃ j ∈ s.jobs, j.status = .processing ∧ j.documentId = d.id

/-- Every job names the document of its version. -/
def Paired (s : Store) : Prop :=
  ∀ j ∈ s.jobs, ∀ v ∈ s.versions, v.id = j.documentVersionId → v.documentId = j.documentId

variable {s s' : Store} {wr : Write}

theorem Attended.apply (h : s.Attended) (hallowed : wr.Allowed s) (haims : wr.Aims s) :
    (wr.apply s).Attended := by
  intro d' hd' hprocessing
  rcases Write.mem_documents.1 hd' with ⟨d, hd, rfl⟩ | hnew
  · rw [wr.document_id]
    rcases haims.processing_of_document hprocessing with ⟨l, now, rfl⟩ | ⟨hbefore, hother⟩
    · -- The document is set to processing for a job that is held, and that stays in processing.
      obtain ⟨j, hj, hl⟩ := hallowed.current rfl
      refine ⟨_, Write.mem_jobs.2 (.inl ⟨j, hj, rfl⟩), ?_, ?_⟩
      · rcases Write.processing_of_job (.mark l d.id now) hl.2.1 with hstays | ⟨_, _, hnone, _⟩
        · exact hstays
        · cases hnone
      · rw [Write.job_documentId]
        exact haims j hj hl
    · -- The job that was there is settled only by a write that is about its document.
      obtain ⟨j, hj, hjprocessing, hdocument⟩ := h d hd hbefore
      refine ⟨wr.job j, Write.mem_jobs.2 (.inl ⟨j, hj, rfl⟩), ?_, ?_⟩
      · rcases wr.processing_of_job hjprocessing with hstays | ⟨l, documentId, hsettles, hl⟩
        · exact hstays
        · have hsame : j.documentId = documentId := haims.settles hsettles j hj hl
          exact absurd (hdocument.symm.trans hsame) (hother l documentId hsettles)
      · rw [wr.job_documentId, hdocument]
  · obtain ⟨⟨v, job, rfl⟩, _⟩ := Write.of_newDocuments hnew
    exact absurd hprocessing haims

/-- Jobs and versions stay and keep what they name, so what is paired later was paired before. -/
theorem Paired.of_commits {wr : Option Write} (h : s'.Paired) (hwr : Write.Commits s wr s') : s.Paired := by
  cases hwr with
  | nothing => exact h
  | @made x _ =>
    intro j hj v hv hid
    have hpaired := h (x.job j) (Write.mem_jobs.2 (.inl ⟨j, hj, rfl⟩)) (x.version v)
      (Write.mem_versions.2 (.inl ⟨v, hv, rfl⟩))
    rw [x.version_id, x.job_documentVersionId, x.job_documentId, (x.version_number v).1] at hpaired
    exact hpaired hid

end Store

/-! ### Tasks -/

/-- A job that is held under a lease of a job of the table is this job. -/
theorem Store.Has.held {s : Store} {job : ClaimedJob} (h : s.Has job) (hs : s.Consistent) {l : Lease}
    (hlease : l.jobId = job.id) {j : Job} (hj : j ∈ s.jobs) (hl : l.Holds j) :
    j.documentId = job.documentId ∧ j.documentVersionId = job.documentVersionId := by
  obtain ⟨k, hk, hid, hdocument, hversion⟩ := h
  have hsame : j.id = k.id := by rw [hl.1, hlease, hid]
  obtain rfl : j = k := hs.job_eq hj hk hsame
  exact ⟨hdocument, hversion⟩

/-- The source of an attempt is of the document of the job that is held. -/
theorem Attempt.Resolved.held {s : Store} {job : ClaimedJob} {a : Attempt} (h : a.Resolved s job)
    (hhas : s.Has job) (hs : s.Consistent) (hpaired : s.Paired) :
    ∀ j ∈ s.jobs, a.lease.Holds j → j.documentId = a.source.documentId := by
  intro j hj hl
  obtain ⟨⟨v, hv, d, _, hdocument, hsource⟩, hversion, _, hlease⟩ := h
  obtain ⟨_, hjversion⟩ := hhas.held hs hlease hj hl
  have hid : v.id = j.documentVersionId := by
    rw [hjversion, ← hversion, hsource]
    rfl
  rw [← hpaired j hj v hv hid, ← hdocument, hsource]
  rfl

theorem Task.Step.aims {w : World} {t t' : Task} {wr : Write} (hstep : Task.Step w t (some wr) t')
    (h : t.Traced w.store) (hs : w.store.Consistent) (hpaired : w.store.Paired)
    (hplanned : ∀ d ∈ t.planned, d.status = .pending) : wr.Aims w.store := by
  obtain ⟨hjobs, c, hgrounded⟩ := h
  cases hstep with
  | save maxAttempts p =>
    have hpending : p.document.status = .pending := hplanned _ rfl
    show p.document.status ≠ .processing
    rw [hpending]
    decide
  | mark worker job a =>
    have hresolved : a.Resolved w.store job := hgrounded.2.2
    exact hresolved.held (hjobs job (List.mem_singleton.2 rfl)) hs hpaired
  | write worker job a text chunks hpieces hchunks =>
    have hresolved : a.Resolved w.store job := hgrounded.2.2.1
    exact hresolved.held (hjobs job (List.mem_singleton.2 rfl)) hs hpaired
  | record worker job f =>
    intro j hj hl
    exact ((hjobs job (List.mem_singleton.2 rfl)).held hs rfl hj hl).1
  | giveUp j rest given workerId hlocked =>
    intro k hk hl
    exact ((hjobs j.claimed List.mem_cons_self).held hs rfl hk hl).1
  | _ => trivial

/-! ### Runs -/

namespace System

variable {start σ : System} {events : List Event} {e : Event}

theorem step_attended (he : e.Regular) (htraced : σ.Traced) (hs : σ.world.store.Consistent)
    (hpaired : σ.world.store.Paired) (hplanned : ∀ t ∈ σ.tasks, ∀ d ∈ t.planned, d.status = .pending)
    (h : σ.world.store.Attended) : (σ.step e).world.store.Attended := by
  obtain ⟨wr, hwr, _, hsource, _⟩ := σ.step_regular he
  generalize (σ.step e).world.store = s' at hwr
  cases hwr with
  | nothing => exact h
  | @made x hallowed =>
    refine h.apply hallowed ?_
    rcases hsource x rfl with ⟨i, t, t', _, ht, hstep⟩ | ⟨l, now, rfl⟩ | ⟨documentId, rfl⟩
    · have hmem : t ∈ σ.tasks := List.mem_of_getElem? ht
      exact hstep.aims (htraced.tasks t hmem) hs hpaired (hplanned t hmem)
    · trivial
    · trivial

theorem run_attended (htraced : start.Traced) (hs : start.world.store.Consistent) (hstart : start.tasks = [])
    (h : start.world.store.Attended) (hevents : ∀ e ∈ events, e.Regular)
    (hpaired : (start.run events).world.store.Paired) : (start.run events).world.store.Attended := by
  refine run_induction (P := fun before σ => (∀ e ∈ before, e.Regular) → σ.world.store.Paired →
    σ.world.store.Attended) (fun _ _ => h) ?_ hevents hpaired
  intro before e _ ih hpast hlater
  have hbefore : ∀ d ∈ before, d.Regular := fun d hd => hpast d (List.mem_append_left _ hd)
  have he : e.Regular := hpast e (by simp)
  -- The hypothesis is about the last state of the run; it held before as well.
  obtain ⟨wr, hwr, _⟩ := (start.run before).step_write e
  have hnow : (start.run before).world.store.Paired := hlater.of_commits hwr
  exact step_attended he (run_traced htraced hbefore) (run_consistent hs before) hnow
    (run_planned hstart before) (ih hbefore hnow)

/-- Uploads and reindexes make jobs that name the document of their version. -/
theorem Aimed.paired (h : σ.Aimed events) (hevents : ∀ e ∈ events, e.Derives) : σ.world.store.Paired := by
  intro j hj v hv hid
  exact ((h.proper hevents j hj).version h.consistent hv hid).2

/-- After every regular run in which every job names the document of its version, a document that is processing has
a job that is. So no document is left in processing once no job is. -/
theorem processing (objects : ObjectStore) (now : Int) (ids : IdSequence) (events : List Event)
    (hevents : ∀ e ∈ events, e.Regular)
    (hpaired : ((initial objects now ids).run events).world.store.Paired) :
    let s := ((initial objects now ids).run events).world.store
    (∀ d ∈ s.documents, d.status = .processing →
      ∃ j ∈ s.jobs, j.status = .processing ∧ j.documentId = d.id) ∧
    ((∀ j ∈ s.jobs, j.status ≠ .processing) → ∀ d ∈ s.documents, d.status ≠ .processing) := by
  intro s
  have hattended : s.Attended := by
    refine run_attended (initial_traced objects now ids) Store.consistent_empty rfl ?_ hevents hpaired
    intro d hd
    cases hd
  refine ⟨hattended, ?_⟩
  intro hnone d hd hprocessing
  obtain ⟨j, hj, hjprocessing, _⟩ := hattended d hd hprocessing
  exact hnone j hj hjprocessing

/-- A worker vanishes after it has set the document to processing: its job is still in processing. -/
theorem processing_vanished :
    let events : List Event :=
      [.start (.upload 1 ⟨"t1", "w1", "kb1", "a.md", [104, 105], none⟩), .resume 0, .resume 0, .resume 0,
        .start (.work ⟨"a", 1000, .default, .default⟩), .resume 1, .resume 1, .resume 1]
    let s := ((initial (.memory []) 0 (.numbered "id")).run events).world.store
    ∃ d ∈ s.documents, d.status = .processing ∧ ∃ j ∈ s.jobs, j.status = .processing ∧ j.documentId = d.id := by
  intro events s
  have hregular : ∀ e ∈ events, e.Regular := by simp [events, Event.Regular]
  have hderives : ∀ e ∈ events, e.Derives := by simp [events, Event.Derives]
  obtain ⟨d, hd, hprocessing⟩ : ∃ d ∈ s.documents, d.status = .processing := by
    decide +kernel
  have hids : Function.Injective (IdSequence.numbered "id").nth := IdSequence.numbered_injective "id"
  have hpaired : ((initial (.memory []) 0 (.numbered "id")).run events).world.store.Paired :=
    (run_aimed hids (initial_aimed (.memory []) 0 (.numbered "id")) events).paired hderives
  refine ⟨d, hd, hprocessing, ?_⟩
  exact (processing (.memory []) 0 (.numbered "id") events hregular hpaired).1 d hd hprocessing

end System

end IngestionQueue
