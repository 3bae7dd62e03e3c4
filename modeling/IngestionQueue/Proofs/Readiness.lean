import IngestionQueue.Proofs.Isolation

/-!
# When a document is ready

The status of a document is one cell that the uploads and the attempts of all its versions write.  An upload
that adds a version resets it, and so does a failure, so a document that is ready was made so by an attempt that
was finished at its current number, and the version of this attempt is still a success (`Store.Served`).  The
attempt does not ask whether its version is the current one: an older version that is finished late makes the
document ready too (`System.readiness_overtaken`).  The main result is `System.readiness`.
-/

namespace IngestionQueue

/-! ### Writes of the status -/

/-- A document that is not deleted has got its status just now, or another document was meant. -/
theorem Document.of_setStatus {id : String} {status status' : DocumentStatus} {now : Int} {d : Document}
    (h : (d.setStatus id status now).status = status') (hlive : status' ≠ .deleted) :
    d.id = id ∧ status = status' ∨ d.id ≠ id ∧ d.setStatus id status now = d := by
  by_cases hid : d.id = id
  · by_cases hdeleted : d.status = .deleted
    · simp only [setStatus, hid, hdeleted, if_true] at h
      exact absurd h.symm hlive
    · exact .inl ⟨hid, by simpa [setStatus, hid, hdeleted] using h⟩
  · exact .inr ⟨hid, by simp [setStatus, hid]⟩

theorem Document.setStatus_currentVersion (id : String) (status : DocumentStatus) (now : Int) (d : Document) :
    (d.setStatus id status now).currentVersion = d.currentVersion := by
  unfold setStatus
  split_ifs <;> rfl

theorem FailureOutcome.documentStatus_ne_ready (outcome : FailureOutcome) : outcome.documentStatus ≠ .ready := by
  cases outcome <;> simp [documentStatus]

namespace Write

/-- What the queue guarantees of the writes that touch the status of a document, if every job is about one version
and its document: an upload resets the status and inserts the version that it makes the current one, and a failure
is recorded for a version of the document that fails. -/
def Tidy (s : Store) : Write → Prop
  | save d v _ => d.status = .pending ∧ v.documentId = d.id ∧ v.version = d.currentVersion
  | fail _ documentId versionId _ _ _ => ∀ v ∈ s.versions, v.id = versionId → v.documentId = documentId
  | insert _ | claim _ _ _ _ | refresh _ _ | advance _ _ _ _ | mark _ _ _ | finalize _ _ _ _ | markDeleted _ =>
    True

variable {s : Store} {wr : Write} {d : Document} {v : VersionRow}

/-- A document that is ready was so before and no failure was recorded for it, or an attempt was finished. -/
theorem Tidy.ready_of_document (htidy : wr.Tidy s) (h : (wr.document d).status = .ready) :
    d.status = .ready ∧ wr.document d = d ∧
        (∀ l versionId outcome error now, wr ≠ fail l d.id versionId outcome error now) ∨
      ∃ l source chunks now, wr = finalize l source chunks now ∧ d.id = source.documentId := by
  cases wr with
  | save e u job =>
    by_cases hid : d.id = e.id
    · simp [Document.overwrite, hid, htidy.1] at h
    · have hsame : (save e u job).document d = d := by simp [Document.overwrite, hid]
      rw [hsame] at h
      exact .inl ⟨h, hsame, by simp⟩
  | mark l id now =>
    rcases Document.of_setStatus h (by decide) with ⟨_, hready⟩ | ⟨_, hsame⟩
    · cases hready
    · simp only [document, hsame] at h
      exact .inl ⟨h, hsame, by simp⟩
  | finalize l source chunks now =>
    rcases Document.of_setStatus h (by decide) with ⟨hid, _⟩ | ⟨_, hsame⟩
    · exact .inr ⟨l, source, chunks, now, rfl, hid⟩
    · simp only [document, hsame] at h
      exact .inl ⟨h, hsame, by simp⟩
  | fail l id versionId outcome error now =>
    rcases Document.of_setStatus h (by decide) with ⟨_, hready⟩ | ⟨hid, hsame⟩
    · exact absurd hready outcome.documentStatus_ne_ready
    · simp only [document, hsame] at h
      exact .inl ⟨h, hsame, by simp [Ne.symm hid]⟩
  | markDeleted id =>
    by_cases hid : d.id = id
    · simp [hid] at h
    · have hsame : (markDeleted id).document d = d := by simp [hid]
      rw [hsame] at h
      exact .inl ⟨h, hsame, by simp⟩
  | _ => exact .inl ⟨h, rfl, by simp⟩

/-- A version stays a success until a failure is recorded for it. -/
theorem success_persists (h : v.parseStatus = .success)
    (hfail : ∀ l documentId outcome error now, wr ≠ fail l documentId v.id outcome error now) :
    (wr.version v).parseStatus = .success := by
  cases wr with
  | finalize l source chunks now =>
    by_cases hid : v.id = source.documentVersionId <;> simp [VersionRow.setParseStatus, hid, h]
  | fail l documentId versionId outcome error now =>
    by_cases hid : v.id = versionId
    · exact absurd (hid ▸ rfl) (hfail l documentId outcome error now)
    · simp [VersionRow.setParseStatus, hid, h]
  | _ => exact h

theorem version_number (wr : Write) (v : VersionRow) :
    (wr.version v).documentId = v.documentId ∧ (wr.version v).version = v.version := by
  obtain ⟨status, hframe⟩ := wr.version_frame v
  rw [hframe]
  exact ⟨rfl, rfl⟩

/-- The number of a document is what it was, or an upload has written it. -/
theorem document_currentVersion (wr : Write) (d : Document) :
    (wr.document d).currentVersion = d.currentVersion ∨
      ∃ e v job, wr = save e v job ∧ d.id = e.id ∧ (wr.document d).currentVersion = e.currentVersion := by
  cases wr with
  | save e v job =>
    by_cases hid : d.id = e.id
    · exact .inr ⟨e, v, job, rfl, hid, by simp [Document.overwrite, hid]⟩
    · exact .inl (by simp [Document.overwrite, hid])
  | mark | finalize | fail => exact .inl (Document.setStatus_currentVersion ..)
  | markDeleted id =>
    left
    simp only [document]
    split <;> rfl
  | _ => exact .inl rfl

end Write

/-! ### Documents and their versions -/

/-- Every document has the version that it is at, and one that is ready has a version that is a success: `readied`
says that an attempt of this version has made it ready at its number. Every success has chunks. -/
structure Store.Served (readied : String → Int → Prop) (s : Store) : Prop where
  current : ∀ d ∈ s.documents, ∃ v ∈ s.versions, v.documentId = d.id ∧ v.version = d.currentVersion
  ready : ∀ d ∈ s.documents, d.status = .ready → ∃ v ∈ s.versions, v.documentId = d.id ∧
    v.parseStatus = .success ∧ readied v.id d.currentVersion
  success : ∀ v ∈ s.versions, v.parseStatus = .success → s.chunkRows v.id ≠ []

namespace Store.Served

variable {readied : String → Int → Prop} {s : Store} {wr : Write} {c : ChunkConfig}
  {held : String → Bytes → Prop}

theorem mono {readied' : String → Int → Prop} (hreadied : ∀ id number, readied id number → readied' id number)
    (h : s.Served readied) : s.Served readied' where
  current := h.current
  ready d hd hready := by
    obtain ⟨v, hv, hdocument, hsuccess, hnumber⟩ := h.ready d hd hready
    exact ⟨v, hv, hdocument, hsuccess, hreadied _ _ hnumber⟩
  success := h.success

private theorem current_apply (h : s.Served readied) (htidy : wr.Tidy s) :
    ∀ d ∈ (wr.apply s).documents, ∃ v ∈ (wr.apply s).versions, v.documentId = d.id ∧
      v.version = d.currentVersion := by
  have hnew : ∀ e v job, wr = .save e v job → ∃ v ∈ (wr.apply s).versions, v.documentId = e.id ∧
      v.version = e.currentVersion := by
    rintro e v job rfl
    exact ⟨v, Write.mem_versions.2 (.inr (List.mem_singleton.2 rfl)), htidy.2⟩
  intro d' hd'
  rcases Write.mem_documents.1 hd' with ⟨d, hd, rfl⟩ | hinserted
  · rw [wr.document_id]
    rcases wr.document_currentVersion d with hsame | ⟨e, v, job, hwr, hid, hnumber⟩
    · obtain ⟨v, hv, hdocument, hversion⟩ := h.current d hd
      obtain ⟨hvdocument, hvnumber⟩ := wr.version_number v
      refine ⟨wr.version v, Write.mem_versions.2 (.inl ⟨v, hv, rfl⟩), ?_, ?_⟩
      · rw [hvdocument, hdocument]
      · rw [hvnumber, hsame, hversion]
    · rw [hid, hnumber]
      exact hnew e v job hwr
  · obtain ⟨⟨v, job, hwr⟩, _⟩ := Write.of_newDocuments hinserted
    exact hnew d' v job hwr

private theorem ready_apply (h : s.Served readied) (htidy : wr.Tidy s) (hgrounded : wr.Grounded c held s)
    (hreadied : ∀ l source chunks now, wr = .finalize l source chunks now →
      ∀ d ∈ (wr.apply s).documents, d.id = source.documentId → d.status = .ready →
        readied source.documentVersionId d.currentVersion) :
    ∀ d ∈ (wr.apply s).documents, d.status = .ready → ∃ v ∈ (wr.apply s).versions, v.documentId = d.id ∧
      v.parseStatus = .success ∧ readied v.id d.currentVersion := by
  intro d' hd' hready
  rcases Write.mem_documents.1 hd' with ⟨d, hd, rfl⟩ | hinserted
  · rcases htidy.ready_of_document hready with ⟨hbefore, hsame, hfail⟩ | ⟨l, source, chunks, now, rfl, hid⟩
    · obtain ⟨v, hv, hdocument, hsuccess, hnumber⟩ := h.ready d hd hbefore
      rw [hsame]
      refine ⟨wr.version v, Write.mem_versions.2 (.inl ⟨v, hv, rfl⟩), ?_, ?_, ?_⟩
      · rw [(wr.version_number v).1, hdocument]
      · refine Write.success_persists hsuccess ?_
        -- A failure of the version would have been recorded for its document as well.
        rintro l documentId outcome error now rfl
        obtain rfl : v.documentId = documentId := htidy v hv rfl
        exact hfail l v.id outcome error now (by rw [hdocument])
      · rwa [wr.version_id]
    · obtain ⟨⟨v, hv, e, he, heid, rfl⟩, _, _⟩ := hgrounded
      refine ⟨_, Write.mem_versions.2 (.inl ⟨v, hv, rfl⟩), ?_, ?_, ?_⟩
      · rw [(Write.version_number _ v).1, Write.document_id, ← heid]
        exact hid.symm
      · simp [VersionRow.setParseStatus, DocumentSource.ofRows]
      · rw [Write.version_id]
        exact hreadied l _ chunks now rfl _ hd' (by rw [Write.document_id, hid]) hready
  · obtain ⟨⟨v, job, rfl⟩, _⟩ := Write.of_newDocuments hinserted
    rw [htidy.1] at hready
    cases hready

theorem apply (h : s.Served readied) (htidy : wr.Tidy s) (hgrounded : wr.Grounded c held s)
    (hreadied : ∀ l source chunks now, wr = .finalize l source chunks now →
      ∀ d ∈ (wr.apply s).documents, d.id = source.documentId → d.status = .ready →
        readied source.documentVersionId d.currentVersion) : (wr.apply s).Served readied where
  current := h.current_apply htidy
  ready := h.ready_apply htidy hgrounded hreadied
  success := hgrounded.success h.success

end Store.Served

/-! ### Tasks -/

/-- The version of a job whose target is proper is one of its document. -/
theorem Store.Has.documentId {s : Store} {job : ClaimedJob} (h : s.Has job) (hs : s.Consistent)
    (hproper : ∀ j ∈ s.jobs, j.target.Proper s) :
    ∀ v ∈ s.versions, v.id = job.documentVersionId → v.documentId = job.documentId := by
  intro v hv hid
  obtain ⟨j, hj, _, hdocument, hversion⟩ := h
  rw [← hdocument]
  exact ((hproper j hj).version hs hv (hid.trans hversion.symm)).2

namespace Task

variable {w : World} {t t' : Task}

theorem Step.tidy {wr : Write} (hstep : Step w t (some wr) t') (h : t.Traced w.store) (hs : w.store.Consistent)
    (hproper : ∀ j ∈ w.store.jobs, j.target.Proper w.store) (hplanned : ∀ d ∈ t.planned, d.status = .pending) :
    wr.Tidy w.store := by
  cases hstep with
  | save maxAttempts p => exact ⟨hplanned _ rfl, rfl, rfl⟩
  | record worker job f => exact (h.jobs job (List.mem_singleton.2 rfl)).documentId hs hproper
  | giveUp j rest given workerId hlocked => exact (h.jobs j.claimed List.mem_cons_self).documentId hs hproper
  | _ => trivial

/-- An upload resets the status of its document. -/
theorem Step.planned {wr : Option Write} (hstep : Step w t wr t') (h : ∀ d ∈ t.planned, d.status = .pending) :
    ∀ d ∈ t'.planned, d.status = .pending := by
  cases hstep with
  | plan maxAttempts r =>
    rintro d ⟨⟩
    simp only [Ingestion.planOn, UploadRequest.document]
    split <;> rfl
  | put maxAttempts p hput => exact h
  | _ =>
    intro d hd
    cases hd

end Task

/-! ### Runs -/

/-- The request derives the target of its job from a document; an enqueue names it. -/
def Event.Derives : Event → Prop
  | start (.enqueue _ _) => False
  | _ => True

namespace System

variable {start σ : System} {events : List Event} {e : Event}

/-- The call that writes the chunks of the version has made its document ready at the number. -/
def Readied (start : System) (events : List Event) (versionId : String) (number : Int) : Prop :=
  ∃ before i worker job a text, before ++ [.resume i] <+: events ∧
    (start.run before).tasks[i]? = some (.attempt worker job (.write a text)) ∧
    a.source.documentVersionId = versionId ∧
    ∃ d ∈ (start.run (before ++ [.resume i])).world.store.documents, d.id = a.source.documentId ∧
      d.currentVersion = number ∧ d.status = .ready

theorem Readied.snoc {versionId : String} {number : Int} (h : start.Readied events versionId number)
    (e : Event) : start.Readied (events ++ [e]) versionId number := by
  obtain ⟨before, i, worker, job, a, text, hwithin, hrest⟩ := h
  exact ⟨before, i, worker, job, a, text, hwithin.trans (List.prefix_append _ _), hrest⟩

theorem run_planned (hstart : start.tasks = []) (events : List Event) :
    ∀ t ∈ (start.run events).tasks, ∀ d ∈ t.planned, d.status = .pending := by
  refine run_induction (P := fun _ σ => ∀ t ∈ σ.tasks, ∀ d ∈ t.planned, d.status = .pending) ?_ ?_
  · simp [hstart]
  · intro before e _ hbefore
    refine step_tasks (P := fun t => ∀ d ∈ t.planned, d.status = .pending) _ e hbefore ?_ ?_ ?_
    · rintro r _ d ⟨⟩
    · exact fun i t wr t' _ _ ht hstep => hstep.planned ht
    · rintro worker job phase e _ d ⟨⟩

/-- The jobs of uploads and reindexes have proper targets. -/
theorem Aimed.proper (h : σ.Aimed events) (hevents : ∀ e ∈ events, e.Derives) :
    ∀ j ∈ σ.world.store.jobs, j.target.Proper σ.world.store := by
  intro j hj
  rcases h.rows j hj with hproper | ⟨maxAttempts, r, hmem, _⟩
  · exact hproper
  · exact (hevents _ hmem).elim

/-- The write of a regular event is tidy and grounded. If it finishes an attempt, the event resumes the attempt. -/
theorem step_tidy (he : e.Regular) (h : σ.Traced) (hs : σ.world.store.Consistent)
    (hproper : ∀ j ∈ σ.world.store.jobs, j.target.Proper σ.world.store)
    (hplanned : ∀ t ∈ σ.tasks, ∀ d ∈ t.planned, d.status = .pending) :
    ∃ wr, Write.Commits σ.world.store wr (σ.step e).world.store ∧
      ∀ x ∈ wr, x.Tidy σ.world.store ∧ (∃ c, x.Grounded c (fun _ _ => True) σ.world.store) ∧
        ∀ l source chunks now, x = .finalize l source chunks now → ∃ i worker job a text, e = .resume i ∧
          σ.tasks[i]? = some (.attempt worker job (.write a text)) ∧ a.source = source := by
  obtain ⟨wr, hwr, _, hsource, _⟩ := σ.step_regular he
  refine ⟨wr, hwr, fun x hx => ?_⟩
  rcases hsource x hx with ⟨i, t, t', rfl, ht, hstep⟩ | ⟨l, now, rfl⟩ | ⟨documentId, rfl⟩
  · have hmem : t ∈ σ.tasks := List.mem_of_getElem? ht
    obtain ⟨_, c, hgrounded⟩ := h.tasks t hmem
    refine ⟨hstep.tidy (h.tasks t hmem) hs hproper (hplanned t hmem), ⟨c, hstep.grounded_write hgrounded hs⟩, ?_⟩
    rintro l source chunks now rfl
    cases hstep with
    | write worker job a text chunks hpieces hchunks => exact ⟨i, worker, job, a, text, rfl, ht, rfl⟩
  · exact ⟨trivial, ⟨.default, trivial⟩, by simp⟩
  · exact ⟨trivial, ⟨.default, trivial⟩, by simp⟩

/-- What is known of the attempts of the past stays known, and the event tells of the attempt that it finishes. -/
theorem step_served (he : e.Regular) (haimed : (start.run events).Aimed events)
    (htraced : (start.run events).Traced) (hderives : ∀ e ∈ events, e.Derives)
    (hplanned : ∀ t ∈ (start.run events).tasks, ∀ d ∈ t.planned, d.status = .pending)
    (h : (start.run events).world.store.Served (start.Readied events)) :
    ((start.run events).step e).world.store.Served (start.Readied (events ++ [e])) := by
  obtain ⟨wr, hwr, hwrites⟩ := step_tidy he htraced haimed.consistent (haimed.proper hderives) hplanned
  have hsnoc := h.mono fun _ _ hreadied => hreadied.snoc e
  generalize hafter : ((start.run events).step e).world.store = s' at hwr
  cases hwr with
  | nothing => exact hsnoc
  | @made x hallowed =>
    obtain ⟨htidy, ⟨c, hgrounded⟩, hfinish⟩ := hwrites x rfl
    refine hsnoc.apply htidy hgrounded ?_
    intro l source chunks now hx d hd hid hready
    obtain ⟨i, worker, job, a, text, rfl, ht, rfl⟩ := hfinish l source chunks now hx
    refine ⟨events, i, worker, job, a, text, List.prefix_rfl, ht, rfl, d, ?_, hid, rfl, hready⟩
    rwa [run_snoc, hafter]

theorem run_served (hids : Function.Injective start.world.ids.nth) (haimed : start.Aimed [])
    (htraced : start.Traced) (hstart : start.tasks = []) (h : start.world.store.Served (start.Readied []))
    (hevents : ∀ e ∈ events, e.Regular ∧ e.Derives) :
    (start.run events).world.store.Served (start.Readied events) := by
  refine run_induction (P := fun before σ => (∀ e ∈ before, e.Regular ∧ e.Derives) →
    σ.world.store.Served (start.Readied before)) (fun _ => h) ?_ hevents
  intro before e _ ih hpast
  have hbefore : ∀ d ∈ before, d.Regular ∧ d.Derives := fun d hd => hpast d (List.mem_append_left _ hd)
  have he : e.Regular := (hpast e (by simp)).1
  exact step_served he (run_aimed hids haimed before) (run_traced htraced fun d hd => (hbefore d hd).1)
    (fun d hd => (hbefore d hd).2) (run_planned hstart before) (ih hbefore)

/-- After every regular run of uploads, reindexes, workers and the recovery, every document has the version that it
is at. A document that is ready has a version that is a success and has chunks, and the attempt that wrote them has
made the document ready at its current number. -/
theorem readiness (objects : ObjectStore) (now : Int) (ids : IdSequence) (hids : Function.Injective ids.nth)
    (events : List Event) (hevents : ∀ e ∈ events, e.Regular ∧ e.Derives) :
    let start := initial objects now ids
    let s := (start.run events).world.store
    ∀ d ∈ s.documents,
      (∃ v ∈ s.versions, v.documentId = d.id ∧ v.version = d.currentVersion) ∧
      (d.status = .ready → ∃ v ∈ s.versions, v.documentId = d.id ∧ v.parseStatus = .success ∧
        s.chunkRows v.id ≠ [] ∧ start.Readied events v.id d.currentVersion) := by
  intro start s d hd
  have hserved : s.Served (start.Readied events) := by
    refine run_served hids (initial_aimed objects now ids) (initial_traced objects now ids) rfl ?_ hevents
    constructor <;> simp [start, initial, Store.empty]
  refine ⟨hserved.current d hd, fun hready => ?_⟩
  obtain ⟨v, hv, hdocument, hsuccess, hreadied⟩ := hserved.ready d hd hready
  exact ⟨v, hv, hdocument, hsuccess, hserved.success v hv hsuccess, hreadied⟩

/-- A worker indexes the version of an upload: the document is ready, and this version is its current one. -/
theorem readiness_indexed :
    let events : List Event :=
      [.start (.upload 1 ⟨"t1", "w1", "kb1", "a.md", [104, 105], none⟩), .resume 0, .resume 0, .resume 0,
        .start (.work ⟨"a", 1000, .default, .default⟩), .resume 1, .resume 1, .resume 1, .resume 1, .resume 1,
        .resume 1, .resume 1]
    let s := ((initial (.memory []) 0 (.numbered "id")).run events).world.store
    ∃ d ∈ s.documents, d.status = .ready ∧ ∃ v ∈ s.versions, v.documentId = d.id ∧ v.version = d.currentVersion ∧
      v.parseStatus = .success ∧ s.chunkRows v.id ≠ [] := by
  intro events s
  have hevents : ∀ e ∈ events, e.Regular ∧ e.Derives := by simp [events, Event.Regular, Event.Derives]
  obtain ⟨⟨d, hd, hready, hnumber⟩, hversions⟩ :
      (∃ d ∈ s.documents, d.status = .ready ∧ d.currentVersion = 1) ∧ ∀ v ∈ s.versions, v.version = 1 := by
    decide +kernel
  have hids : Function.Injective (IdSequence.numbered "id").nth := IdSequence.numbered_injective "id"
  obtain ⟨v, hv, hdocument, hsuccess, hrows, _⟩ :=
    (readiness (.memory []) 0 (.numbered "id") hids events hevents d hd).2 hready
  exact ⟨d, hd, hready, v, hv, hdocument, (hversions v hv).trans hnumber.symm, hsuccess, hrows⟩

/-- The job of the older of two versions is finished first: the document is ready, and its current version is not
indexed. -/
theorem readiness_overtaken :
    let events : List Event :=
      [.start (.upload 1 ⟨"t1", "w1", "kb1", "a.md", [104, 105], none⟩), .resume 0, .resume 0, .resume 0,
        .start (.upload 1 ⟨"t1", "w1", "kb1", "a.md", [104, 111], none⟩), .resume 1, .resume 1, .resume 1,
        .start (.work ⟨"a", 1000, .default, .default⟩), .resume 2, .resume 2, .resume 2, .resume 2, .resume 2,
        .resume 2, .resume 2]
    let s := ((initial (.memory []) 0 (.numbered "id")).run events).world.store
    (∀ e ∈ events, e.Regular ∧ e.Derives) ∧
      ∃ d ∈ s.documents, d.status = .ready ∧ ∃ v ∈ s.versions, v.documentId = d.id ∧
        v.version = d.currentVersion ∧ v.parseStatus = .pending ∧ s.chunkRows v.id = [] := by
  intro events s
  refine ⟨by simp [events, Event.Regular, Event.Derives], ?_⟩
  decide +kernel

end System

end IngestionQueue
