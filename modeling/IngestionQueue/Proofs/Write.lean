import IngestionQueue.Store.Documents

/-!
# Writes

A query of the queue fails and leaves the tables as they were, or it makes one write, which is committed as a
whole.  A write acts on each table row by row: it changes the rows that are there (`Write.job`,
`Write.document`, `Write.version`), replaces the chunks of one version, and adds new rows.  The lemmas
`Query.…_on` say for each query which write it makes, and under which condition.
-/

namespace IngestionQueue

/-- Some job is being processed under the lease. -/
def Lease.Current (l : Lease) (s : Store) : Prop :=
  ∃ j ∈ s.jobs, l.Holds j

instance (l : Lease) (s : Store) : Decidable (l.Current s) :=
  inferInstanceAs (Decidable (∃ j ∈ s.jobs, l.Holds j))

namespace FailureOutcome

/-- The status of a version whose attempt has failed. -/
def parseStatus : FailureOutcome → ParseStatus
  | retry _ => .pending
  | deadLetter => .failed

/-- The status of a document whose attempt has failed. -/
def documentStatus : FailureOutcome → DocumentStatus
  | retry _ => .pending
  | deadLetter => .failed

end FailureOutcome

namespace Document

/-- A row after the document `d` was written. -/
def overwrite (d e : Document) : Document :=
  if e.id = d.id then
    { e with
      title := d.title
      currentVersion := d.currentVersion
      status := d.status
      updatedAt := d.updatedAt }
  else e

@[simp]
theorem overwrite_id (d e : Document) : (d.overwrite e).id = e.id := by
  simp only [overwrite]
  split <;> rfl

theorem overwrite_of_ne {d e : Document} (h : e.id ≠ d.id) : d.overwrite e = e :=
  if_neg h

theorem map_overwrite_of_ne {d : Document} {l : List Document} (h : ∀ e ∈ l, e.id ≠ d.id) :
    l.map d.overwrite = l :=
  (List.map_congr_left fun e he => overwrite_of_ne (h e he)).trans (List.map_id _)

/-- A row after the status of the document `id` was set, which a deleted document refuses. -/
def setStatus (id : String) (status : DocumentStatus) (now : Int) (d : Document) : Document :=
  if d.id = id then if d.status = .deleted then d else { d with status := status, updatedAt := now }
  else d

end Document

/-- A row after the status of the version `id` was set. -/
def VersionRow.setParseStatus (id : String) (status : ParseStatus) (v : VersionRow) : VersionRow :=
  if v.id = id then { v with parseStatus := status } else v

inductive Write
  | insert (j : Job)
  | save (d : Document) (v : VersionRow) (job : Option Job)
  | claim (j : Job) (workerId : String) (now timeout : Int)
  | refresh (l : Lease) (now : Int)
  | advance (l : Lease) (stage : JobStage) (progress now : Int)
  | mark (l : Lease) (documentId : String) (now : Int)
  | finalize (l : Lease) (source : DocumentSource) (chunks : List NewChunk) (now : Int)
  | fail (l : Lease) (documentId versionId : String) (outcome : FailureOutcome) (error : String) (now : Int)
  | markDeleted (id : String)

namespace Write

/-- What becomes of the row of a job. -/
@[simp]
def job : Write → Job → Job
  | claim k workerId now _ => fun j => if j.id = k.id then j.claim workerId now else j
  | refresh l now => fun j => if l.Holds j then j.refresh now else j
  | advance l stage progress now => fun j => if l.Holds j then j.advance stage progress now else j
  | mark l _ now => fun j => if l.Holds j then j.refresh now else j
  | finalize l _ _ now => fun j => if l.Holds j then j.complete now else j
  | fail l _ _ outcome error now => fun j => if l.Holds j then j.fail outcome error now else j
  | insert _ | save _ _ _ | markDeleted _ => id

@[simp]
def newJobs : Write → List Job
  | insert j => [j]
  | save _ _ job => job.toList
  | _ => []

/-- What becomes of the row of a document. -/
@[simp]
def document : Write → Document → Document
  | save d _ _ => d.overwrite
  | mark _ id now => Document.setStatus id .processing now
  | finalize _ source _ now => Document.setStatus source.documentId .ready now
  | fail _ id _ outcome _ now => Document.setStatus id outcome.documentStatus now
  | markDeleted id => fun d => if d.id = id then { d with status := .deleted } else d
  | insert _ | claim _ _ _ _ | refresh _ _ | advance _ _ _ _ => id

@[simp]
def newDocuments (s : Store) : Write → List Document
  | save d _ _ => if s.hasDocument d.id then [] else [d]
  | _ => []

/-- What becomes of the row of a version. -/
@[simp]
def version : Write → VersionRow → VersionRow
  | finalize _ source _ _ => VersionRow.setParseStatus source.documentVersionId .success
  | fail _ _ id outcome _ _ => VersionRow.setParseStatus id outcome.parseStatus
  | insert _ | save _ _ _ | claim _ _ _ _ | refresh _ _ | advance _ _ _ _ | mark _ _ _
  | markDeleted _ => id

@[simp]
def newVersions : Write → List VersionRow
  | save _ v _ => [v]
  | _ => []

/-- What becomes of the table of chunks. -/
@[simp]
def chunks : Write → List ChunkRow → List ChunkRow
  | finalize _ source new now => fun cs =>
    cs.filter (fun c => c.documentVersionId != source.documentVersionId) ++ new.map (ChunkRow.ofNew now source)
  | _ => id

/-- The tables after a write. -/
def apply (wr : Write) (s : Store) : Store where
  documents := s.documents.map wr.document ++ wr.newDocuments s
  versions := s.versions.map wr.version ++ wr.newVersions
  chunks := wr.chunks s.chunks
  jobs := s.jobs.map wr.job ++ wr.newJobs

/-- The lease under which a write is made. -/
def lease? : Write → Option Lease
  | refresh l _ | advance l _ _ _ | mark l _ _ | finalize l _ _ _ | fail l _ _ _ _ _ => some l
  | _ => none

end Write

namespace Store

/-- A job keeps the rules of the table of jobs. -/
structure AcceptsJob (s : Store) (j : Job) : Prop where
  progress : 0 ≤ j.progress ∧ j.progress ≤ 100
  maxAttempts : 1 ≤ j.maxAttempts
  key : ∀ k ∈ s.jobs, ¬(k.tenantId = j.tenantId ∧ k.idempotencyKey = j.idempotencyKey)
  id : ∀ k ∈ s.jobs, k.id ≠ j.id
  document : ∃ d ∈ s.documents, d.id = j.documentId
  version : ∃ v ∈ s.versions, v.id = j.documentVersionId

/-- A version keeps the rules of the table of versions. -/
structure AcceptsVersion (s : Store) (v : VersionRow) : Prop where
  number : ∀ u ∈ s.versions, ¬(u.documentId = v.documentId ∧ u.version = v.version)
  id : ∀ u ∈ s.versions, u.id ≠ v.id
  document : ∃ d ∈ s.documents, d.id = v.documentId

/-- A chunk keeps the rules of the table of chunks. -/
structure AcceptsChunk (s : Store) (r : ChunkRow) : Prop where
  number : ∀ c ∈ s.chunks, ¬(c.documentVersionId = r.documentVersionId ∧ c.chunkNo = r.chunkNo)
  id : ∀ c ∈ s.chunks, c.id ≠ r.id
  document : ∃ d ∈ s.documents, d.id = r.documentId
  version : ∃ v ∈ s.versions, v.id = r.documentVersionId

/-- Some job of the tenant has the key. -/
def HasKey (s : Store) (tenantId key : String) : Prop :=
  ∃ j ∈ s.jobs, j.tenantId = tenantId ∧ j.idempotencyKey = key

instance (s : Store) (tenantId key : String) : Decidable (s.HasKey tenantId key) :=
  inferInstanceAs (Decidable (∃ j ∈ s.jobs, j.tenantId = tenantId ∧ j.idempotencyKey = key))

theorem isSome_jobByKey? {s : Store} {tenantId key : String} :
    (s.jobByKey? tenantId key).isSome = true ↔ s.HasKey tenantId key := by
  simp [jobByKey?, HasKey]

/-- Rows that can be inserted one after the other. -/
def AcceptsChunks (s : Store) : List ChunkRow → Prop
  | [] => True
  | r :: rest => s.AcceptsChunk r ∧ AcceptsChunks { s with chunks := s.chunks ++ [r] } rest

end Store

/-- The tables after a document was written. -/
def Store.withDocument (s : Store) (d : Document) : Store :=
  { s with documents := s.documents.map d.overwrite ++ if s.hasDocument d.id then [] else [d] }

/-- The tables after a version was inserted. -/
def Store.withVersion (s : Store) (v : VersionRow) : Store :=
  { s with versions := s.versions ++ [v] }

/-- The condition under which a write is made. -/
def Write.Allowed (s : Store) : Write → Prop
  | .insert j => s.AcceptsJob j
  | .save d v job =>
    (s.withDocument d).AcceptsVersion v ∧ ∀ j ∈ job, ((s.withDocument d).withVersion v).AcceptsJob j
  | .claim j _ now timeout => Job.first? (s.claimable now timeout) = some j
  | .finalize l source chunks now =>
    l.Current s ∧
      (s.withoutChunks source.documentVersionId).AcceptsChunks (chunks.map (ChunkRow.ofNew now source))
  | .refresh l _ | .advance l _ _ _ | .mark l _ _ | .fail l _ _ _ _ _ => l.Current s
  | .markDeleted _ => True

/-! ### Jobs -/

namespace Query

private theorem rows_of_not_missing {s : Store} {documentId versionId : String}
    (h : ¬(!(s.hasDocument documentId && s.hasVersion versionId)) = true) :
    (∃ d ∈ s.documents, d.id = documentId) ∧ ∃ v ∈ s.versions, v.id = versionId := by
  simpa [Store.hasDocument, Store.hasVersion] using h

theorem insertJob_on (j : Job) (s : Store) :
    (∃ e, (insertJob j).on s = (.error e, s)) ∨
      (s.HasKey j.tenantId j.idempotencyKey ∧ (insertJob j).on s = (.ok false, s)) ∨
      (s.AcceptsJob j ∧ (insertJob j).on s = (.ok true, (Write.insert j).apply s)) := by
  simp only [insertJob, on_bind, on_get, on_ite, on_refuse, on_pure, on_set]
  split
  · exact .inl ⟨_, rfl⟩
  split
  · exact .inl ⟨_, rfl⟩
  split
  · rename_i hkey
    exact .inr (.inl ⟨Store.isSome_jobByKey?.1 hkey, rfl⟩)
  split
  · exact .inl ⟨_, rfl⟩
  split
  · exact .inl ⟨_, rfl⟩
  · rename_i hprogress hattempts hkey hid hrow
    refine .inr (.inr ⟨⟨by omega, by omega, ?_, ?_, ?_, ?_⟩, ?_⟩)
    · simpa [Store.jobByKey?] using hkey
    · simpa [Store.jobById?] using hid
    · exact (rows_of_not_missing hrow).1
    · exact (rows_of_not_missing hrow).2
    · simp [Write.apply]

theorem insertJob_of_accepts {j : Job} {s : Store} (h : s.AcceptsJob j) :
    (insertJob j).on s = (.ok true, (Write.insert j).apply s) := by
  have hprogress : ¬(j.progress < 0 ∨ 100 < j.progress) := by
    have := h.progress
    omega
  have hattempts : ¬j.maxAttempts < 1 := Int.not_lt.2 h.maxAttempts
  have hkey : ¬(s.jobByKey? j.tenantId j.idempotencyKey).isSome = true := by
    simpa [Store.jobByKey?] using h.key
  have hid : ¬(s.jobById? j.id).isSome = true := by
    simpa [Store.jobById?] using h.id
  have hrow : ¬(!(s.hasDocument j.documentId && s.hasVersion j.documentVersionId)) = true := by
    simpa [Store.hasDocument, Store.hasVersion] using And.intro h.document h.version
  simp only [insertJob, on_bind, on_get, on_ite, on_refuse, on_pure, on_set, hprogress, hattempts, hkey, hid,
    hrow, if_false]
  simp [Write.apply]

theorem insertJob_of_hasKey {j : Job} {s : Store} (hprogress : 0 ≤ j.progress ∧ j.progress ≤ 100)
    (hattempts : 1 ≤ j.maxAttempts) (hkey : s.HasKey j.tenantId j.idempotencyKey) :
    (insertJob j).on s = (.ok false, s) := by
  have hprogress' : ¬(j.progress < 0 ∨ 100 < j.progress) := by omega
  have hattempts' : ¬j.maxAttempts < 1 := Int.not_lt.2 hattempts
  simp only [insertJob, on_bind, on_get, on_pure, hprogress', hattempts',
    Store.isSome_jobByKey?.2 hkey, if_false, if_true]

theorem readBack_on (j : Job) (s : Store) : ((readBack j).on s).2 = s := by
  simp only [readBack, on_bind, on_get]
  split <;> rfl

theorem readBack_of_hasKey {j : Job} {s : Store} (h : s.HasKey j.tenantId j.idempotencyKey) :
    ∃ k ∈ s.jobs, k.tenantId = j.tenantId ∧ k.idempotencyKey = j.idempotencyKey ∧
      (readBack j).on s = (.ok k, s) := by
  obtain ⟨k, hk⟩ := Option.isSome_iff_exists.1 (Store.isSome_jobByKey?.2 h)
  obtain ⟨htenant, hkey⟩ : k.tenantId = j.tenantId ∧ k.idempotencyKey = j.idempotencyKey := by
    simpa using List.find?_some hk
  refine ⟨k, List.mem_of_find?_eq_some hk, htenant, hkey, ?_⟩
  simp only [readBack, on_bind, on_get, hk, on_pure]

theorem claimNext_on (now : Int) (workerId : String) (timeout : Int) (s : Store) :
    (claimNext now workerId timeout).on s =
      match Job.first? (s.claimable now timeout) with
      | none => (.ok none, s)
      | some j => (.ok (some (j.claim workerId now).claimed), (Write.claim j workerId now timeout).apply s) := by
  simp only [claimNext, on_bind, on_get]
  cases Job.first? (s.claimable now timeout) with
  | none => rfl
  | some j =>
    simp only [on_bind, on_set, on_pure, Store.updateJob]
    simp [Write.apply]

private theorem any_holds_iff (l : Lease) (s : Store) :
    (s.jobs.any fun j => decide (l.Holds j)) = true ↔ l.Current s := by
  simp [Lease.Current]

theorem underLease_on (l : Lease) (f : Job → Job) (s : Store) :
    (underLease l f).on s =
      if l.Current s then (.ok (), { s with jobs := s.jobs.map fun j => if l.Holds j then f j else j })
      else (.error l.lost, s) := by
  simp only [underLease, on_bind, on_get, on_ite, on_set, on_throw, any_holds_iff]

theorem heartbeat_on (now : Int) (l : Lease) (s : Store) :
    (heartbeat now l).on s =
      if l.Current s then (.ok (), (Write.refresh l now).apply s) else (.error l.lost, s) := by
  simp [heartbeat, underLease_on, Write.apply]

theorem advanceStage_on (now : Int) (l : Lease) (stage : JobStage) (progress : Int) (s : Store) :
    (advanceStage now l stage progress).on s =
      if progress < 0 ∨ 100 < progress then (.error (.domain (.invalidProgress progress)), s)
      else if l.Current s then (.ok (), (Write.advance l stage progress now).apply s)
      else (.error l.lost, s) := by
  simp [advanceStage, underLease_on, Write.apply]

theorem complete_on (now : Int) (l : Lease) (s : Store) :
    (complete now l).on s =
      if l.Current s then
        (.ok (), { s with jobs := s.jobs.map fun j => if l.Holds j then j.complete now else j })
      else (.error l.lost, s) :=
  underLease_on l _ s

theorem fail_on (now : Int) (l : Lease) (outcome : FailureOutcome) (error : String) (s : Store) :
    (fail now l outcome error).on s =
      if l.Current s then
        (.ok (), { s with jobs := s.jobs.map fun j => if l.Holds j then j.fail outcome error now else j })
      else (.error l.lost, s) :=
  underLease_on l _ s

/-! ### Documents, versions and chunks -/

theorem setParseStatus_on (versionId : String) (status : ParseStatus) (s : Store) :
    (setParseStatus versionId status).on s =
      (.ok (), { s with versions := s.versions.map (VersionRow.setParseStatus versionId status) }) := rfl

theorem setDocumentStatus_on (now : Int) (id : String) (status : DocumentStatus) (s : Store) :
    (setDocumentStatus now id status).on s =
      (.ok (), { s with documents := s.documents.map (Document.setStatus id status now) }) := rfl

theorem upsertDocument_on (d : Document) (s : Store) :
    (upsertDocument d).on s = (.ok (), s.withDocument d) := by
  simp only [upsertDocument, on_bind, on_get, on_ite, on_set]
  by_cases h : s.hasDocument d.id = true
  · simp [h, Store.withDocument, Store.updateDocument, Document.overwrite]
  · -- No row has the identifier, so overwriting changes none of them.
    have hne : ∀ e ∈ s.documents, e.id ≠ d.id := by
      simpa [Store.hasDocument] using h
    simp [h, Store.withDocument, Document.map_overwrite_of_ne hne]

theorem insertVersion_on (v : VersionRow) (s : Store) :
    (∃ e, (insertVersion v).on s = (.error e, s)) ∨
      (s.AcceptsVersion v ∧ (insertVersion v).on s = (.ok (), s.withVersion v)) := by
  simp only [insertVersion, on_bind, on_get, on_ite, on_refuse, on_set]
  split
  · exact .inl ⟨_, rfl⟩
  split
  · exact .inl ⟨_, rfl⟩
  split
  · exact .inl ⟨_, rfl⟩
  · rename_i hnumber hid hdocument
    refine .inr ⟨⟨?_, ?_, ?_⟩, rfl⟩
    · simpa using hnumber
    · simpa [Store.hasVersion] using hid
    · simpa [Store.hasDocument] using hdocument

theorem insertVersion_of_accepts {v : VersionRow} {s : Store} (h : s.AcceptsVersion v) :
    (insertVersion v).on s = (.ok (), s.withVersion v) := by
  have hnumber : ¬(s.versions.any fun u => u.documentId == v.documentId && u.version == v.version) = true := by
    simpa using h.number
  have hid : ¬s.hasVersion v.id = true := by
    simpa [Store.hasVersion] using h.id
  have hdocument : ¬(!s.hasDocument v.documentId) = true := by
    simpa [Store.hasDocument] using h.document
  simp only [insertVersion, on_bind, on_get, on_ite, on_refuse, on_set, hnumber, hid, hdocument]
  rfl

theorem insertChunk_on (r : ChunkRow) (s : Store) :
    (∃ e, (insertChunk r).on s = (.error e, s)) ∨
      (s.AcceptsChunk r ∧ (insertChunk r).on s = (.ok (), { s with chunks := s.chunks ++ [r] })) := by
  simp only [insertChunk, on_bind, on_get, on_ite, on_refuse, on_set]
  split
  · exact .inl ⟨_, rfl⟩
  split
  · exact .inl ⟨_, rfl⟩
  split
  · exact .inl ⟨_, rfl⟩
  · rename_i hnumber hid hrow
    obtain ⟨hdocument, hversion⟩ := rows_of_not_missing hrow
    refine .inr ⟨⟨?_, ?_, hdocument, hversion⟩, rfl⟩
    · simpa using hnumber
    · simpa using hid

theorem insertChunks_on (rows : List ChunkRow) (s : Store) :
    (∃ e s', (insertChunks rows).on s = (.error e, s')) ∨
      (s.AcceptsChunks rows ∧ (insertChunks rows).on s = (.ok (), { s with chunks := s.chunks ++ rows })) := by
  induction rows generalizing s with
  | nil => exact .inr ⟨trivial, by simp [insertChunks]⟩
  | cons r rest ih =>
    simp only [insertChunks, on_bind]
    rcases insertChunk_on r s with ⟨e, h⟩ | ⟨haccepts, h⟩ <;> rw [h]
    · exact .inl ⟨e, s, rfl⟩
    · rcases ih { s with chunks := s.chunks ++ [r] } with ⟨e, s', h'⟩ | ⟨hrest, h'⟩
      · exact .inl ⟨e, s', h'⟩
      · exact .inr ⟨⟨haccepts, hrest⟩, by simpa using h'⟩

theorem markDeleted_on (id : String) (s : Store) :
    (markDeleted id).on s =
      (.ok (s.documents.countP fun d => d.id == id), (Write.markDeleted id).apply s) := by
  simp only [markDeleted, on_bind, on_get, on_set, on_pure]
  simp [Store.updateDocument, Write.apply]

/-! ### Transactions -/

theorem saveUpload_on (d : Document) (v : DocumentVersion) (job : Option Job) (s : Store) :
    (∃ e, (saveUpload d v job).on s = (.error e, s)) ∨
      ((Write.save d (.ofVersion v) job).Allowed s ∧
        (saveUpload d v job).on s = (.ok (), (Write.save d (.ofVersion v) job).apply s)) := by
  have happly : ∀ job : Option Job, (Write.save d (.ofVersion v) job).apply s =
      { (s.withDocument d).withVersion (.ofVersion v) with jobs := s.jobs ++ job.toList } := by
    intro job
    simp [Write.apply, Store.withDocument, Store.withVersion]
  simp only [saveUpload, on_atomically, on_bind, upsertDocument_on]
  rcases insertVersion_on (.ofVersion v) (s.withDocument d) with ⟨e, h⟩ | ⟨hversion, h⟩ <;> rw [h]
  · exact .inl ⟨e, rfl⟩
  · cases job with
    | none =>
      refine .inr ⟨⟨hversion, by simp⟩, ?_⟩
      rw [happly]
      simp [Store.withVersion, Store.withDocument]
    | some j =>
      -- A job that is refused, or that is there already, takes the document and the version back.
      simp only [on_bind]
      rcases insertJob_on j ((s.withDocument d).withVersion (.ofVersion v)) with
        ⟨e, h'⟩ | ⟨_, h'⟩ | ⟨hjob, h'⟩ <;> rw [h']
      · exact .inl ⟨e, rfl⟩
      · exact .inl ⟨_, rfl⟩
      · refine .inr ⟨⟨hversion, by simpa using hjob⟩, ?_⟩
        rw [happly]
        simp [Write.apply, Store.withVersion, Store.withDocument]

theorem markProcessing_on (now : Int) (l : Lease) (documentId : String) (s : Store) :
    (markProcessing now l documentId).on s =
      if l.Current s then (.ok (), (Write.mark l documentId now).apply s) else (.error l.lost, s) := by
  simp only [markProcessing, on_atomically, on_bind, heartbeat_on]
  by_cases h : l.Current s
  · simp [h, setDocumentStatus_on, Write.apply]
  · simp [h]

theorem recordFailure_on (now : Int) (l : Lease) (documentId versionId : String) (outcome : FailureOutcome)
    (error : String) (s : Store) :
    (recordFailure now l documentId versionId outcome error).on s =
      if l.Current s then (.ok (), (Write.fail l documentId versionId outcome error now).apply s)
      else (.error l.lost, s) := by
  simp only [recordFailure, on_atomically, on_bind, fail_on]
  by_cases h : l.Current s
  · cases outcome <;>
      simp [h, setParseStatus_on, setDocumentStatus_on, FailureOutcome.parseStatus,
        FailureOutcome.documentStatus, Write.apply]
  · simp [h]

/-- The chunks, the version and the document are written before the lease is looked at; a lost lease takes all
of it back. -/
theorem finalize_on (now : Int) (l : Lease) (source : DocumentSource) (chunks : List NewChunk) (s : Store) :
    (∃ e, (finalize now l source chunks).on s = (.error e, s)) ∨
      ((Write.finalize l source chunks now).Allowed s ∧
        (finalize now l source chunks).on s =
          (.ok chunks.length, (Write.finalize l source chunks now).apply s)) := by
  simp only [finalize, replaceChunks, on_atomically, on_bind, on_modify]
  rcases insertChunks_on (chunks.map (ChunkRow.ofNew now source)) (s.withoutChunks source.documentVersionId) with
    ⟨e, s', h⟩ | ⟨haccepts, h⟩ <;> rw [h]
  · exact .inl ⟨e, rfl⟩
  · simp only [on_pure, setParseStatus_on, setDocumentStatus_on, complete_on, Lease.Current, Store.withoutChunks]
    by_cases hl : ∃ j ∈ s.jobs, l.Holds j
    · have hallowed : (Write.finalize l source chunks now).Allowed s := ⟨hl, haccepts⟩
      simp [hl, hallowed, Write.apply]
    · simp [hl]

end Query

end IngestionQueue
