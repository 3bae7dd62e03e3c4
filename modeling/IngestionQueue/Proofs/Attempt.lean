import IngestionQueue.Proofs.Index
import IngestionQueue.Proofs.Overlap
import IngestionQueue.Proofs.Targets

/-!
# Attempts that nobody disturbs

A worker that nobody disturbs holds its lease to the end: the job is one row, and every write of the attempt finds it
(`Write.apply_mark` and its like).  So an attempt fails for want of a text alone, and what it has written until then
is overwritten at its end (`Job.fail_claim`, `Store.failed_marked`).  Whether it ends with chunks or with a failure can
be read off the tables and the object store before it begins.  The main results are `Attempt.run_of_indexable` and
`Attempt.run_of_unindexable`.
-/

namespace IngestionQueue

/-! ### Versions that can be indexed -/

namespace World

/-- The object of the version is there and holds a text that is not white space alone. -/
def Indexable (w : World) (v : VersionRow) (text : String) : Prop :=
  ∃ key bytes, v.objectKey = some key ∧ Text.isBlankText key = false ∧ w.objects.get key = .ok bytes ∧
    (ParserType.ofStored v.parserType).decode bytes = some text ∧ ∃ c ∈ text.toList, Text.isBlank c = false

/-- What an attempt of the version fails with. -/
inductive Unindexable (w : World) (v : VersionRow) : AppError → Prop
  | noKey (h : ∀ key, v.objectKey = some key → Text.isBlankText key = true) :
    Unindexable w v (.validation s!"document version {v.id} has no object key")
  | unread (key : String) (e : ObjectError) (hkey : v.objectKey = some key)
    (hvisible : Text.isBlankText key = false) (hget : w.objects.get key = .error e) : Unindexable w v (.storage e)
  | unparsed (key : String) (bytes : Bytes) (hkey : v.objectKey = some key)
    (hvisible : Text.isBlankText key = false) (hget : w.objects.get key = .ok bytes)
    (hdecode : (ParserType.ofStored v.parserType).decode bytes = none) :
    Unindexable w v (.unsupportedParser (ParserType.ofStored v.parserType).name)
  | blank (key : String) (bytes : Bytes) (text : String) (hkey : v.objectKey = some key)
    (hvisible : Text.isBlankText key = false) (hget : w.objects.get key = .ok bytes)
    (hdecode : (ParserType.ofStored v.parserType).decode bytes = some text)
    (hblank : ∀ c ∈ text.toList, Text.isBlank c = true) : Unindexable w v .emptyContent

variable {w : World} {v : VersionRow} {text : String} {e : AppError}

theorem indexable_or_unindexable (w : World) (v : VersionRow) :
    (∃ text, w.Indexable v text) ∨ ∃ e, w.Unindexable v e := by
  cases hkey : v.objectKey with
  | none => exact .inr ⟨_, .noKey (by simp [hkey])⟩
  | some key =>
    by_cases hvisible : Text.isBlankText key = true
    · exact .inr ⟨_, .noKey (by simpa [hkey] using hvisible)⟩
    · have hvisible : Text.isBlankText key = false := by simpa using hvisible
      cases hget : w.objects.get key with
      | error e => exact .inr ⟨_, .unread key e hkey hvisible hget⟩
      | ok bytes =>
        cases hdecode : (ParserType.ofStored v.parserType).decode bytes with
        | none => exact .inr ⟨_, .unparsed key bytes hkey hvisible hget hdecode⟩
        | some text =>
          by_cases hblank : ∀ c ∈ text.toList, Text.isBlank c = true
          · exact .inr ⟨_, .blank key bytes text hkey hvisible hget hdecode hblank⟩
          · refine .inl ⟨text, key, bytes, hkey, hvisible, hget, hdecode, ?_⟩
            simpa using hblank

/-- A version that can be indexed has nothing to fail with. -/
theorem Indexable.not_unindexable (h : w.Indexable v text) : ¬w.Unindexable v e := by
  obtain ⟨key, bytes, hkey, hvisible, hget, hdecode, c, hc, hcvisible⟩ := h
  intro hfault
  cases hfault with
  | noKey h => simp [h key hkey] at hvisible
  | unread key' e hkey' _ hget' =>
    obtain rfl : key = key' := Option.some.inj (hkey.symm.trans hkey')
    rw [hget] at hget'
    cases hget'
  | unparsed key' bytes' hkey' _ hget' hdecode' =>
    obtain rfl : key = key' := Option.some.inj (hkey.symm.trans hkey')
    obtain rfl : bytes = bytes' := Except.ok.inj (hget.symm.trans hget')
    rw [hdecode] at hdecode'
    cases hdecode'
  | blank key' bytes' text' hkey' _ hget' hdecode' hblank =>
    obtain rfl : key = key' := Option.some.inj (hkey.symm.trans hkey')
    obtain rfl : bytes = bytes' := Except.ok.inj (hget.symm.trans hget')
    obtain rfl : text = text' := Option.some.inj (hdecode.symm.trans hdecode')
    simp [hblank c hc] at hcvisible

/-- No chunk has an identifier that is yet to be handed out. -/
def ChunksUsed (w : World) : Prop :=
  ∀ r ∈ w.store.chunks, ∀ n, w.ids.next ≤ n → r.id ≠ w.ids.nth n

end World

/-! ### The row of a job -/

namespace Job

/-- The row of a job after an attempt that was claimed and completed at one time. -/
def succeeded (j : Job) (now : Int) : Job :=
  { j with
    status := .completed
    stage := .completed
    progress := 100
    lockedAt := none
    lockedBy := none
    heartbeatAt := some now
    attemptCount := j.attemptCount + 1
    startedAt := j.startedAt <|> some now
    finishedAt := some now
    error := none
    updatedAt := now }

/-- The row of a job after an attempt that was claimed and failed at one time. -/
def failed (j : Job) (outcome : FailureOutcome) (error : String) (now : Int) : Job :=
  { j with
    status := match outcome with
      | .retry _ => .retrying
      | .deadLetter => .deadLetter
    stage := .failed
    progress := 0
    lockedAt := none
    lockedBy := none
    heartbeatAt := some now
    attemptCount := j.attemptCount + 1
    nextRunAt := match outcome with
      | .retry nextRunAt => nextRunAt
      | .deadLetter => j.nextRunAt
    startedAt := j.startedAt <|> some now
    finishedAt := match outcome with
      | .retry _ => j.finishedAt
      | .deadLetter => some now
    error := some error
    updatedAt := now }

theorem complete_claim (j : Job) (workerId : String) (now : Int) :
    (j.claim workerId now).complete now = j.succeeded now := rfl

theorem fail_claim (j : Job) (workerId : String) (now : Int) (outcome : FailureOutcome) (error : String) :
    (j.claim workerId now).fail outcome error now = j.failed outcome error now := by
  cases outcome <;> rfl

end Job

/-! ### A held row -/

namespace Store

/-- The store in which a job has a new row. -/
def withJob (s : Store) (j : Job) : Store :=
  { s with jobs := s.jobs.map fun k => if k.id = j.id then j else k }

variable {s : Store} {j : Job} {l : Lease}

theorem current_withJob (h : ∃ i ∈ s.jobs, i.id = j.id) (hl : l.Holds j) : l.Current (s.withJob j) := by
  obtain ⟨i, hi, hid⟩ := h
  exact ⟨j, List.mem_map.2 ⟨i, hi, if_pos hid⟩, hl⟩

/-- What is done to the job that is held changes its row, and no other one. -/
theorem jobs_withJob (hl : l.Holds j) {f : Job → Job} (hf : (f j).id = j.id) :
    ((s.withJob j).jobs.map fun k => if l.Holds k then f k else k) = (s.withJob (f j)).jobs := by
  simp only [withJob, List.map_map, hf]
  refine List.map_congr_left fun k _ => ?_
  by_cases hid : k.id = j.id
  · simp [hid, hl]
  · -- A lease names one job, so it holds no other row.
    have hnot : ¬l.Holds k := fun hk => hid (hk.1.trans hl.1.symm)
    simp [hid, hnot]

end Store

namespace Write

variable {s : Store} {j : Job} {l : Lease}

theorem apply_claim (hids : (s.jobs.map Job.id).Nodup) (hj : j ∈ s.jobs) (workerId : String) (now timeout : Int) :
    (claim j workerId now timeout).apply s = s.withJob (j.claim workerId now) := by
  have hjobs : (s.jobs.map fun k => if k.id = j.id then k.claim workerId now else k) =
      s.jobs.map fun k => if k.id = j.id then j.claim workerId now else k := by
    refine List.map_congr_left fun k hk => ?_
    by_cases hid : k.id = j.id
    · rw [List.inj_on_of_nodup_map hids hk hj hid]
    · simp [hid]
  simp only [apply, document, newDocuments, version, newVersions, chunks, newJobs, job, hjobs, List.map_id,
    List.append_nil, id_eq]
  rfl

theorem apply_mark (hl : l.Holds j) (documentId : String) (now : Int) :
    (mark l documentId now).apply (s.withJob j) =
      ({ s with documents := s.documents.map (Document.setStatus documentId .processing now) }).withJob
        (j.refresh now) := by
  simp only [apply, newDocuments, version, newVersions, chunks, newJobs, job, document,
    Store.jobs_withJob hl (f := fun k => k.refresh now) rfl, List.map_id, List.append_nil, id_eq]
  rfl

theorem apply_advance (hl : l.Holds j) (stage : JobStage) (progress now : Int) :
    (advance l stage progress now).apply (s.withJob j) = s.withJob (j.advance stage progress now) := by
  simp only [apply, newDocuments, version, newVersions, chunks, newJobs, job, document,
    Store.jobs_withJob hl (f := fun k => k.advance stage progress now) rfl, List.map_id, List.append_nil, id_eq]
  rfl

theorem apply_finalize (hl : l.Holds j) (source : DocumentSource) (new : List NewChunk) (now : Int) :
    (finalize l source new now).apply (s.withJob j) =
      ({ s with
        documents := s.documents.map (Document.setStatus source.documentId .ready now)
        versions := s.versions.map (VersionRow.setParseStatus source.documentVersionId .success)
        chunks := s.chunks.filter (fun r : ChunkRow => r.documentVersionId != source.documentVersionId) ++
          new.map (ChunkRow.ofNew now source) }).withJob (j.complete now) := by
  simp only [apply, newDocuments, version, newVersions, chunks, newJobs, job, document,
    Store.jobs_withJob hl (f := fun k => k.complete now) rfl, List.append_nil]
  rfl

theorem apply_fail (hl : l.Holds j) (documentId versionId : String) (outcome : FailureOutcome) (error : String)
    (now : Int) :
    (fail l documentId versionId outcome error now).apply (s.withJob j) =
      ({ s with
        documents := s.documents.map (Document.setStatus documentId outcome.documentStatus now)
        versions := s.versions.map (VersionRow.setParseStatus versionId outcome.parseStatus) }).withJob
          (j.fail outcome error now) := by
  have hid : (j.fail outcome error now).id = j.id := by cases outcome <;> rfl
  simp only [apply, newDocuments, version, newVersions, chunks, newJobs, job, document,
    Store.jobs_withJob hl (f := fun k => k.fail outcome error now) hid, List.append_nil]
  rfl

end Write

/-! ### Chunks that are new -/

namespace Store

/-- Rows that can each be inserted, and that do not stand in each other's way, can be inserted together. -/
theorem acceptsChunks {s : Store} {rows : List ChunkRow} (h : ∀ r ∈ rows, s.AcceptsChunk r)
    (hpairs : rows.Pairwise fun q r =>
      ¬(q.documentVersionId = r.documentVersionId ∧ q.chunkNo = r.chunkNo) ∧ q.id ≠ r.id) :
    s.AcceptsChunks rows := by
  induction rows generalizing s with
  | nil => trivial
  | cons r rest ih =>
    obtain ⟨hr, hrest⟩ := List.forall_mem_cons.1 h
    obtain ⟨hfirst, hlater⟩ := List.pairwise_cons.1 hpairs
    refine ⟨hr, ih (fun q hq => ?_) hlater⟩
    obtain ⟨hnumber, hid, hdocument, hversion⟩ := hrest q hq
    refine ⟨fun c hc => ?_, fun c hc => ?_, hdocument, hversion⟩
    · rcases List.mem_append.1 hc with hold | hnew
      · exact hnumber c hold
      · exact List.mem_singleton.1 hnew ▸ (hfirst q hq).1
    · rcases List.mem_append.1 hc with hold | hnew
      · exact hid c hold
      · exact List.mem_singleton.1 hnew ▸ (hfirst q hq).2

end Store

namespace Query

theorem insertChunk_of_accepts {r : ChunkRow} {s : Store} (h : s.AcceptsChunk r) :
    (insertChunk r).on s = (.ok (), { s with chunks := s.chunks ++ [r] }) := by
  have hnumber : ¬(s.chunks.any fun c => c.documentVersionId == r.documentVersionId && c.chunkNo == r.chunkNo) =
      true := by
    simpa using h.number
  have hid : ¬(s.chunks.any fun c => c.id == r.id) = true := by
    simpa using h.id
  have hrow : ¬(!(s.hasDocument r.documentId && s.hasVersion r.documentVersionId)) = true := by
    simpa [Store.hasDocument, Store.hasVersion] using And.intro h.document h.version
  simp only [insertChunk, on_bind, on_get, on_ite, on_refuse, on_set, hnumber, hid, hrow]
  rfl

theorem insertChunks_of_accepts {rows : List ChunkRow} {s : Store} (h : s.AcceptsChunks rows) :
    (insertChunks rows).on s = (.ok (), { s with chunks := s.chunks ++ rows }) := by
  induction rows generalizing s with
  | nil => simp [insertChunks]
  | cons r rest ih =>
    obtain ⟨hr, hrest⟩ := h
    simp only [insertChunks, on_bind, insertChunk_of_accepts hr, ih hrest]
    simp

/-- The result of an attempt is written if its lease is held and its chunks are accepted. -/
theorem finalize_of_allowed {l : Lease} {source : DocumentSource} {chunks : List NewChunk} {now : Int} {s : Store}
    (h : (Write.finalize l source chunks now).Allowed s) :
    (finalize now l source chunks).on s =
      (.ok chunks.length, (Write.finalize l source chunks now).apply s) := by
  obtain ⟨hl, haccepts⟩ := h
  have hheld : ∃ j ∈ s.jobs, l.Holds j := hl
  simp only [finalize, replaceChunks, on_atomically, on_bind, on_modify, insertChunks_of_accepts haccepts]
  simp only [on_pure, setParseStatus_on, setDocumentStatus_on, complete_on, Lease.Current, Store.withoutChunks]
  simp [hheld, Write.apply]

end Query

/-! ### The tables after an attempt -/

namespace World

/-- The rows of the chunks of a text, under identifiers that are handed out for them. -/
def chunkRows (w : World) (d : Document) (v : VersionRow) (pieces : List String) : List ChunkRow :=
  pieces.mapIdx fun i piece =>
    { id := w.ids.nth (w.ids.next + i)
      tenantId := d.tenantId
      workspaceId := d.workspaceId
      kbId := d.kbId
      documentId := d.id
      documentVersionId := v.id
      chunkNo := i + 1
      content := piece
      tokenCount := Text.wordCount piece
      metadata := "\x7b\x7d"
      createdAt := w.now }

theorem version_of_chunkRows {w : World} {d : Document} {v : VersionRow} {pieces : List String} {r : ChunkRow}
    (hr : r ∈ w.chunkRows d v pieces) : r.documentVersionId = v.id := by
  obtain ⟨i, hi, rfl⟩ := List.mem_mapIdx.1 hr
  rfl

end World

namespace Store

/-- The tables after a version was indexed, but for the row of the job. -/
def indexed (s : Store) (v : VersionRow) (d : Document) (rows : List ChunkRow) (now : Int) : Store :=
  { s with
    documents := s.documents.map (Document.setStatus d.id .ready now)
    versions := s.versions.map (VersionRow.setParseStatus v.id .success)
    chunks := s.chunks.filter (fun r : ChunkRow => r.documentVersionId != v.id) ++ rows }

/-- The tables after an attempt of a version has failed, but for the row of the job. -/
def failed (s : Store) (v : VersionRow) (d : Document) (outcome : FailureOutcome) (now : Int) : Store :=
  { s with
    documents := s.documents.map (Document.setStatus d.id outcome.documentStatus now)
    versions := s.versions.map (VersionRow.setParseStatus v.id outcome.parseStatus) }

/-- The tables in which a document is marked as being processed. -/
def marked (s : Store) (d : Document) (now : Int) : Store :=
  { s with documents := s.documents.map (Document.setStatus d.id .processing now) }

variable {s : Store} {l : Lease} {j : Job} {v : VersionRow} {d : Document}

/-- The status that is set last is the one that counts. -/
private theorem documents_marked (s : Store) (d : Document) (status : DocumentStatus) (now : Int) :
    (s.marked d now).documents.map (Document.setStatus d.id status now) =
      s.documents.map (Document.setStatus d.id status now) := by
  simp only [marked, List.map_map]
  refine List.map_congr_left fun e _ => ?_
  simp only [Function.comp_apply, Document.setStatus]
  split
  · split <;> simp_all
  · simp_all

theorem indexed_marked (s : Store) (v : VersionRow) (d : Document) (rows : List ChunkRow) (now : Int) :
    (s.marked d now).indexed v d rows now = s.indexed v d rows now := by
  simp only [indexed, documents_marked]
  rfl

/-- The chunks of a version that was indexed are those that were written for it. -/
theorem chunkRows_indexed (s : Store) {rows : List ChunkRow} (hrows : ∀ r ∈ rows, r.documentVersionId = v.id)
    (d : Document) (now : Int) : (s.indexed v d rows now).chunkRows v.id = rows := by
  have hold : (s.chunks.filter fun r => r.documentVersionId != v.id).filter
      (fun r => r.documentVersionId == v.id) = [] := by
    simp [List.filter_eq_nil_iff]
  have hnew : rows.filter (fun r => r.documentVersionId == v.id) = rows := by
    simpa [List.filter_eq_self] using hrows
  simp only [chunkRows, indexed, List.filter_append, hold, hnew, List.nil_append]

/-- A document whose version was indexed is ready, unless it is deleted. -/
theorem ready_indexed (hs : s.Consistent) (hd : d ∈ s.documents) (hlive : d.status ≠ .deleted) (v : VersionRow)
    (rows : List ChunkRow) (now : Int) :
    ∀ e ∈ (s.indexed v d rows now).documents, e.id = d.id → e.status = .ready := by
  intro e he hid
  obtain ⟨f, hf, rfl⟩ := List.mem_map.1 he
  have hfid : f.id = d.id := by
    simp only [Document.setStatus] at hid
    split_ifs at hid <;> exact hid
  obtain rfl : f = d := hs.document_eq hf hd hfid
  simp [Document.setStatus, hlive]

theorem failed_marked (s : Store) (v : VersionRow) (d : Document) (outcome : FailureOutcome) (now : Int) :
    (s.marked d now).failed v d outcome now = s.failed v d outcome now := by
  simp only [failed, documents_marked]
  rfl

/-- A job is held under a lease, and its version and document are there. -/
structure Holds (s : Store) (l : Lease) (j : Job) (v : VersionRow) (d : Document) : Prop where
  row : ∃ k ∈ s.jobs, k.id = j.id
  held : l.Holds j
  version : ∃ u ∈ s.versions, u.id = v.id
  document : ∃ e ∈ s.documents, e.id = d.id

theorem Holds.current (h : s.Holds l j v d) : l.Current (s.withJob j) :=
  current_withJob h.row h.held

theorem Holds.marked (h : s.Holds l j v d) (now : Int) : (s.marked d now).Holds l (j.refresh now) v d where
  row := h.row
  held := h.held
  version := h.version
  document := by
    obtain ⟨e, he, hid⟩ := h.document
    refine ⟨_, List.mem_map_of_mem he, ?_⟩
    simp only [Document.setStatus]
    split_ifs <;> exact hid

theorem Holds.advance (h : s.Holds l j v d) (stage : JobStage) (progress now : Int) :
    s.Holds l (j.advance stage progress now) v d :=
  ⟨h.row, h.held, h.version, h.document⟩

/-- A version of the tables and its document. -/
structure Joins (s : Store) (v : VersionRow) (d : Document) : Prop where
  consistent : s.Consistent
  version : v ∈ s.versions
  document : d ∈ s.documents
  belongs : d.id = v.documentId

theorem Joins.source? (h : s.Joins v d) : s.source? v.id = some (.ofRows d v) := by
  obtain ⟨hs, hv, hd, hid⟩ := h
  have hversion : s.versions.find? (fun u => u.id == v.id) = some v :=
    find?_eq_of_unique hv (by simp) fun u hu hsame => hs.version_eq hu hv (by simpa using hsame)
  have hdocument : s.documents.find? (fun e => e.id == v.documentId) = some d :=
    find?_eq_of_unique hd (by simp [hid]) fun e he hsame => hs.document_eq he hd (by simpa [hid] using hsame)
  simp [Store.source?, hversion, hdocument, DocumentSource.ofRows]

end Store

/-! ### An attempt that nobody disturbs -/

namespace Attempt

variable {w : World} {s : Store} {l : Lease} {j : Job} {v : VersionRow} {d : Document}

/-- The attempt of a version without a key ends before anything is written. -/
theorem start_of_noKey (hjoin : s.Joins v d)
    (hkey : ∀ key, v.objectKey = some key → Text.isBlankText key = true) :
    (start l v.id).on { w with store := s.withJob j } =
      (.error (.validation s!"document version {v.id} has no object key"), { w with store := s.withJob j }) := by
  have hsource : (s.withJob j).source? v.id = some (.ofRows d v) :=
    hjoin.source?
  have hnone : keyOf (.ofRows d v) = none := by
    simpa [keyOf, DocumentSource.ofRows, Option.filter_eq_none_iff] using hkey
  simp [start, resolve, hsource, hnone]

/-- An attempt of a version with a key marks its document. -/
theorem start_of_key (hjoin : s.Joins v d) (h : s.Holds l j v d) {key : String} (hkey : v.objectKey = some key)
    (hvisible : Text.isBlankText key = false) :
    (start l v.id).on { w with store := s.withJob j } =
      (.ok ⟨l, .ofRows d v, key⟩, { w with store := (s.marked d w.now).withJob (j.refresh w.now) }) := by
  have hsource : (s.withJob j).source? v.id = some (.ofRows d v) :=
    hjoin.source?
  have hsome : keyOf (.ofRows d v) = some key := by
    simp [keyOf, DocumentSource.ofRows, hkey, hvisible]
  have hmark : (mark ⟨l, .ofRows d v, key⟩).on { w with store := s.withJob j } =
      (.ok (), { w with store := (s.marked d w.now).withJob (j.refresh w.now) }) := by
    rw [mark_on, if_pos h.current, World.write, Write.apply_mark h.held]
    rfl
  simp [start, resolve, hsource, hsome, hmark]

theorem load_eq (a : Attempt) (w : World) :
    a.load.on w =
      (match w.objects.get a.objectKey with
        | .error e => .error (.storage e)
        | .ok bytes => match a.source.parser.decode bytes with
          | none => .error (.unsupportedParser a.source.parser.name)
          | some text => .ok text, w) := by
  simp only [load, Service.on_bind, Service.on_getObject]
  cases w.objects.get a.objectKey with
  | error e => rfl
  | ok bytes =>
    simp only [Except.mapError]
    cases a.source.parser.decode bytes <;> rfl

theorem advance_held (h : s.Holds l j v d) (key : String) :
    (advance ⟨l, .ofRows d v, key⟩).on { w with store := s.withJob j } =
      (.ok (), { w with store := s.withJob (j.advance .chunking progressChunking w.now) }) := by
  rw [advance_on, if_pos h.current, World.write, Write.apply_advance h.held]

/-- New chunks are accepted in the place of all chunks of the version. -/
theorem accepts_chunkRows (h : s.Holds l j v d) (hids : Function.Injective w.ids.nth) (hfresh : w.ChunksUsed)
    (hstore : w.store.chunks = s.chunks) (pieces : List String) :
    ((s.withJob j).withoutChunks v.id).AcceptsChunks (w.chunkRows d v pieces) := by
  refine Store.acceptsChunks (fun r hr => ?_) ?_
  · obtain ⟨i, hi, rfl⟩ := List.mem_mapIdx.1 hr
    refine ⟨fun c hc => ?_, fun c hc => ?_, h.document, h.version⟩
    · -- The numbers are free, since the old chunks of the version are gone.
      have hother := (List.mem_filter.1 hc).2
      simp only [bne_iff_ne, ne_eq] at hother
      exact fun hsame => hother hsame.1
    · have hmem : c ∈ w.store.chunks := hstore ▸ (List.mem_filter.1 hc).1
      exact hfresh c hmem _ (Nat.le_add_right _ _)
  · refine List.pairwise_iff_getElem.2 fun i k hi hk hik => ?_
    simp only [World.chunkRows, List.getElem_mapIdx, not_and]
    refine ⟨fun _ => by omega, fun hsame => ?_⟩
    have hplace := hids hsame
    omega

private theorem number_eq (pieces : List String) (first : Int) (w : World) :
    (number pieces first).on w =
      (.ok (pieces.mapIdx fun i piece => ⟨w.ids.nth (w.ids.next + i), first + i, piece, Text.wordCount piece⟩),
        w.handOut pieces.length) := by
  induction pieces generalizing first w with
  | nil => rfl
  | cons piece rest ih =>
    have htail : { w with ids := w.ids.tail } = w.handOut 1 := rfl
    simp only [number, Service.on_bind, Service.on_freshId, htail, ih, World.handOut_handOut]
    simp [List.mapIdx_cons, World.handOut, IdSequence.head, Int.add_assoc, Nat.add_assoc, Nat.add_comm 1,
      Int.add_comm 1]

/-- The chunks that are made of the pieces of a text. -/
def newChunks (w : World) (pieces : List String) : List NewChunk :=
  pieces.mapIdx fun i piece => ⟨w.ids.nth (w.ids.next + i), 1 + i, piece, Text.wordCount piece⟩

theorem number_on_eq (pieces : List String) (w : World) :
    (number pieces 1).on w = (.ok (newChunks w pieces), w.handOut pieces.length) :=
  number_eq pieces 1 w

theorem map_newChunks (w : World) (d : Document) (v : VersionRow) (pieces : List String) :
    (newChunks w pieces).map (ChunkRow.ofNew w.now (.ofRows d v)) = w.chunkRows d v pieces := by
  refine List.ext_getElem (by simp [newChunks, World.chunkRows]) fun i _ _ => ?_
  simp [newChunks, World.chunkRows, ChunkRow.ofNew, DocumentSource.ofRows, Int.add_comm 1]

/-- An attempt that has come to the pieces of its text writes them. -/
theorem write_held (chunking : ChunkConfig) (h : s.Holds l j v d) (hids : Function.Injective w.ids.nth)
    (hfresh : w.ChunksUsed) (hstore : w.store.chunks = s.chunks) {text : String} {pieces : List String}
    (hpieces : chunking.chunk text = pieces) (hne : pieces ≠ []) (key : String) :
    (write chunking ⟨l, .ofRows d v, key⟩ text).on { w with store := s.withJob j } =
      (.ok pieces.length,
        { w.handOut pieces.length with
          store := (s.indexed v d (w.chunkRows d v pieces) w.now).withJob (j.complete w.now) }) := by
  obtain ⟨piece, rest, rfl⟩ := List.exists_cons_of_ne_nil hne
  have hallowed : (Write.finalize l (.ofRows d v) (newChunks w (piece :: rest)) w.now).Allowed (s.withJob j) := by
    refine ⟨h.current, ?_⟩
    rw [map_newChunks]
    exact accepts_chunkRows h hids hfresh hstore _
  have hnumber : (number (piece :: rest) 1).on { w with store := s.withJob j } =
      (.ok (newChunks w (piece :: rest)), { w.handOut (piece :: rest).length with store := s.withJob j }) :=
    number_on_eq (piece :: rest) _
  have hlength : (newChunks w (piece :: rest)).length = (piece :: rest).length := by simp [newChunks]
  have hfinalize : (Query.finalize w.now l (.ofRows d v) (newChunks w (piece :: rest))).on (s.withJob j) =
      (.ok (piece :: rest).length,
        (s.indexed v d (w.chunkRows d v (piece :: rest)) w.now).withJob (j.complete w.now)) := by
    rw [Query.finalize_of_allowed hallowed, Write.apply_finalize h.held, map_newChunks, hlength]
    rfl
  have hnow : (w.handOut (piece :: rest).length).now = w.now := rfl
  simp only [write, hpieces, Service.on_bind, hnumber, Service.on_now, Service.on_query, hnow, hfinalize]

theorem write_of_nil {chunking : ChunkConfig} {text : String} (hpieces : chunking.chunk text = []) (a : Attempt)
    (w : World) : (write chunking a text).on w = (.error .emptyContent, w) := by
  simp [write, hpieces]

theorem load_of_text {key : String} {bytes : Bytes} {text : String} (hget : w.objects.get key = .ok bytes)
    (hdecode : (ParserType.ofStored v.parserType).decode bytes = some text) (s : Store) :
    (load ⟨l, .ofRows d v, key⟩).on { w with store := s } = (.ok text, { w with store := s }) := by
  simp only [load_eq, hget, DocumentSource.parser, DocumentSource.ofRows, hdecode]

/-- An attempt of a version that can be indexed writes all chunks of its text. -/
theorem run_of_indexable {chunking : ChunkConfig} (hsize : 0 < chunking.chunkSize) (hjoin : s.Joins v d)
    (h : s.Holds l j v d) (hids : Function.Injective w.ids.nth) (hfresh : w.ChunksUsed)
    (hstore : w.store.chunks = s.chunks) {text : String} (htext : w.Indexable v text) :
    let pieces := chunking.chunk text
    pieces ≠ [] ∧ (run chunking l v.id).on { w with store := s.withJob j } = (.ok pieces.length,
      { w.handOut pieces.length with
        store := (s.indexed v d (w.chunkRows d v pieces) w.now).withJob (j.complete w.now) }) := by
  intro pieces
  obtain ⟨key, bytes, hkey, hvisible, hget, hdecode, c, hc, hcvisible⟩ := htext
  have hne : pieces ≠ [] := by
    intro hnil
    have hblank := (Chunk.chunkText_eq_nil_iff text hsize).1 hnil c hc
    rw [hblank] at hcvisible
    cases hcvisible
  have hmarked := h.marked w.now
  have hadvanced := hmarked.advance .chunking progressChunking w.now
  have hwrite := write_held chunking hadvanced hids hfresh hstore rfl hne key
  rw [Store.indexed_marked] at hwrite
  refine ⟨hne, ?_⟩
  simp only [run, finish, Service.on_bind, start_of_key hjoin h hkey hvisible, load_of_text hget hdecode,
    advance_held hmarked, hwrite]
  rfl

/-- An attempt of a version that cannot be indexed has changed the row of its job and the status of the document, but
what is written at its end makes up for both. -/
theorem run_of_unindexable {chunking : ChunkConfig} (hsize : 0 < chunking.chunkSize) (hjoin : s.Joins v d)
    (h : s.Holds l j v d) {e : AppError} (hfault : w.Unindexable v e) :
    ∃ (s' : Store) (k : Job),
      (run chunking l v.id).on { w with store := s.withJob j } = (.error e, { w with store := s'.withJob k }) ∧
      s'.Holds l k v d ∧ (∀ outcome error, k.fail outcome error w.now = j.fail outcome error w.now) ∧
      ∀ outcome, s'.failed v d outcome w.now = s.failed v d outcome w.now := by
  have hmarked := h.marked w.now
  have hfailed := fun outcome => s.failed_marked v d outcome w.now
  cases hfault with
  | noKey hkey =>
    refine ⟨s, j, ?_, h, fun _ _ => rfl, fun _ => rfl⟩
    simp only [run, Service.on_bind, start_of_noKey hjoin hkey]
  | unread key e hkey hvisible hget =>
    refine ⟨s.marked d w.now, j.refresh w.now, ?_, hmarked, fun _ _ => rfl, hfailed⟩
    simp only [run, finish, Service.on_bind, start_of_key hjoin h hkey hvisible, load_eq, hget]
  | unparsed key bytes hkey hvisible hget hdecode =>
    refine ⟨s.marked d w.now, j.refresh w.now, ?_, hmarked, fun _ _ => rfl, hfailed⟩
    simp only [run, finish, Service.on_bind, start_of_key hjoin h hkey hvisible, load_eq, hget,
      DocumentSource.parser, DocumentSource.ofRows, hdecode]
  | blank key bytes text hkey hvisible hget hdecode hblank =>
    refine ⟨s.marked d w.now, (j.refresh w.now).advance .chunking progressChunking w.now, ?_,
      hmarked.advance .chunking progressChunking w.now, fun _ _ => rfl, hfailed⟩
    have hnone : chunking.chunk text = [] := (Chunk.chunkText_eq_nil_iff text hsize).2 hblank
    simp only [run, finish, Service.on_bind, start_of_key hjoin h hkey hvisible, load_of_text hget hdecode,
      advance_held hmarked, write_of_nil hnone]

end Attempt

end IngestionQueue
