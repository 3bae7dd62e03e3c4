import IngestionQueue.Proofs.Lifecycle

/-!
# The index of a version

The chunks of a version are the whole result of one attempt, or there are none (`Store.Complete`).  The text
of an attempt was read from the object store some time before its chunks are written, so what the chunks come
from is said in terms of the bytes that were held so far.  A task knows where its text comes from
(`Task.Grounded`), and this knowledge stays true: rows keep their identity, and what was once held was held.
The write of the chunks replaces those of the version as a whole, and only together with it a version becomes
a success and a job completed.  The main result is `System.index`.
-/

namespace IngestionQueue

/-- A version joined with its document, as a worker sees it. -/
def DocumentSource.ofRows (d : Document) (v : VersionRow) : DocumentSource where
  tenantId := d.tenantId
  workspaceId := d.workspaceId
  kbId := d.kbId
  documentId := d.id
  documentVersionId := v.id
  objectKey := v.objectKey
  parserType := v.parserType

namespace Store

/-- The rows of the chunks of a version. -/
def chunkRows (s : Store) (versionId : String) : List ChunkRow :=
  s.chunks.filter fun r => r.documentVersionId == versionId

/-- The source is a version of the tables with the document that it belongs to. -/
def Describes (s : Store) (source : DocumentSource) : Prop :=
  ∃ v ∈ s.versions, ∃ d ∈ s.documents, d.id = v.documentId ∧ source = .ofRows d v

theorem describes_source? {s : Store} {versionId : String} {source : DocumentSource}
    (h : s.source? versionId = some source) : s.Describes source ∧ source.documentVersionId = versionId := by
  simp only [source?, Option.bind_eq_bind, Option.bind_eq_some_iff, Option.pure_def, Option.some.injEq] at h
  obtain ⟨v, hv, d, hd, rfl⟩ := h
  refine ⟨⟨v, List.mem_of_find?_eq_some hv, d, List.mem_of_find?_eq_some hd, ?_, rfl⟩, ?_⟩
  · simpa using List.find?_some hd
  · simpa using List.find?_some hv

theorem Describes.apply {s : Store} {source : DocumentSource} (h : s.Describes source) (wr : Write) :
    (wr.apply s).Describes source := by
  obtain ⟨v, hv, d, hd, hid, rfl⟩ := h
  obtain ⟨_, hversion⟩ := wr.version_frame v
  obtain ⟨_, _, _, _, hdocument⟩ := wr.document_frame d
  refine ⟨wr.version v, Write.mem_versions.2 (.inl ⟨v, hv, rfl⟩), wr.document d,
    Write.mem_documents.2 (.inl ⟨d, hd, rfl⟩), ?_, ?_⟩
  · rw [hversion, hdocument, hid]
  · rw [hversion, hdocument]
    rfl

variable (c : ChunkConfig) (held : String → Bytes → Prop)

/-- The rows are the chunks of a text that was held under the key of the version, in their order and each with
its number and its count of words, and they carry what the document of the version says. -/
def Complete (s : Store) (v : VersionRow) (rows : List ChunkRow) : Prop :=
  ∃ d ∈ s.documents, d.id = v.documentId ∧
    (∃ key bytes text, v.objectKey = some key ∧ held key bytes ∧
      (ParserType.ofStored v.parserType).decode bytes = some text ∧ c.chunk text ≠ [] ∧
      rows.map (fun r => (r.chunkNo, r.content, r.tokenCount)) = Attempt.numbered (c.chunk text) 1) ∧
    ∀ r ∈ rows, r.tenantId = d.tenantId ∧ r.workspaceId = d.workspaceId ∧ r.kbId = d.kbId ∧ r.documentId = d.id

variable {c held} {s : Store} {v : VersionRow} {rows : List ChunkRow}

theorem Complete.mono {held' : String → Bytes → Prop} (hheld : ∀ key bytes, held key bytes → held' key bytes)
    (h : s.Complete c held v rows) : s.Complete c held' v rows := by
  obtain ⟨d, hd, hid, ⟨key, bytes, text, hkey, hbytes, hrest⟩, hcarry⟩ := h
  exact ⟨d, hd, hid, ⟨key, bytes, text, hkey, hheld key bytes hbytes, hrest⟩, hcarry⟩

theorem Complete.apply (h : s.Complete c held v rows) (wr : Write) :
    (wr.apply s).Complete c held (wr.version v) rows := by
  obtain ⟨d, hd, hid, htext, hcarry⟩ := h
  obtain ⟨_, hversion⟩ := wr.version_frame v
  obtain ⟨_, _, _, _, hdocument⟩ := wr.document_frame d
  refine ⟨wr.document d, Write.mem_documents.2 (.inl ⟨d, hd, rfl⟩), ?_, ?_, ?_⟩
  · rw [hversion, hdocument, hid]
  · rw [hversion]
    exact htext
  · rw [hdocument]
    exact hcarry

end Store

/-! ### Writes of chunks -/

namespace Write

variable (c : ChunkConfig) (held : String → Bytes → Prop)

/-- What the queue guarantees of the writes that touch the index: a new version is not indexed yet, and the
chunks that are written are all chunks of a text that was held, for the version of the job that is completed.
-/
def Grounded (s : Store) : Write → Prop
  | save _ v _ => v.parseStatus ≠ .success
  | finalize l source chunks _ =>
    s.Describes source ∧
      (∃ key bytes text, source.objectKey = some key ∧ held key bytes ∧
        source.parser.decode bytes = some text ∧ c.chunk text ≠ [] ∧
        chunks.map (fun r => (r.chunkNo, r.content, r.tokenCount)) = Attempt.numbered (c.chunk text) 1) ∧
      ∀ j ∈ s.jobs, l.Holds j → j.documentVersionId = source.documentVersionId
  | insert _ | claim _ _ _ _ | refresh _ _ | advance _ _ _ _ | mark _ _ _ | fail _ _ _ _ _ _
  | markDeleted _ => True

variable {s : Store}

theorem chunkRows_finalize (l : Lease) (source : DocumentSource) (chunks : List NewChunk) (now : Int)
    (s : Store) :
    ((finalize l source chunks now).apply s).chunkRows source.documentVersionId =
      chunks.map (ChunkRow.ofNew now source) := by
  have hold : (s.chunks.filter fun r => r.documentVersionId != source.documentVersionId).filter
      (fun r => r.documentVersionId == source.documentVersionId) = [] := by
    simp [List.filter_eq_nil_iff]
  have hnew : (chunks.map (ChunkRow.ofNew now source)).filter
      (fun r => r.documentVersionId == source.documentVersionId) = chunks.map (ChunkRow.ofNew now source) := by
    simp [ChunkRow.ofNew, List.filter_eq_self]
  simp only [Store.chunkRows, apply, Write.chunks, List.filter_append, hold, hnew, List.nil_append]

/-- The chunks of a version are what they were, unless they are written as a whole. -/
theorem chunkRows_apply (wr : Write) (s : Store) (versionId : String) :
    (wr.apply s).chunkRows versionId = s.chunkRows versionId ∨
      ∃ l source chunks now, wr = finalize l source chunks now ∧ source.documentVersionId = versionId := by
  cases wr with
  | finalize l source chunks now =>
    by_cases hid : source.documentVersionId = versionId
    · exact .inr ⟨l, source, chunks, now, rfl, hid⟩
    · left
      have hold : (s.chunks.filter fun r => r.documentVersionId != source.documentVersionId).filter
          (fun r => r.documentVersionId == versionId) =
            s.chunks.filter fun r => r.documentVersionId == versionId := by
        rw [List.filter_filter]
        refine List.filter_congr fun r _ => ?_
        by_cases hr : r.documentVersionId = versionId
        · simp [hr, Ne.symm hid]
        · simp [hr]
      have hnew : (chunks.map (ChunkRow.ofNew now source)).filter (fun r => r.documentVersionId == versionId) =
          [] := by
        simp [ChunkRow.ofNew, hid, List.filter_eq_nil_iff]
      simp only [Store.chunkRows, apply, Write.chunks, List.filter_append, hold, hnew, List.append_nil]
  | _ => exact .inl rfl

theorem success_of_version {wr : Write} {v : VersionRow} (h : (wr.version v).parseStatus = .success) :
    v.parseStatus = .success ∨
      ∃ l source chunks now, wr = finalize l source chunks now ∧ source.documentVersionId = v.id := by
  cases wr with
  | finalize l source chunks now =>
    by_cases hid : v.id = source.documentVersionId
    · exact .inr ⟨l, source, chunks, now, rfl, hid.symm⟩
    · exact .inl (by simpa [VersionRow.setParseStatus, hid] using h)
  | fail l documentId id outcome error now =>
    left
    by_cases hid : v.id = id
    · cases outcome <;> simp [VersionRow.setParseStatus, hid, FailureOutcome.parseStatus] at h
    · simpa [VersionRow.setParseStatus, hid] using h
  | _ => exact .inl h

theorem completed_of_job {wr : Write} {j : Job} (h : (wr.job j).status = .completed) :
    j.status = .completed ∨ ∃ l source chunks now, wr = finalize l source chunks now ∧ l.Holds j := by
  cases wr with
  | finalize l source chunks now =>
    by_cases hl : l.Holds j
    · exact .inr ⟨l, source, chunks, now, rfl, hl⟩
    · exact .inl (by simpa [hl] using h)
  | claim k workerId now timeout =>
    by_cases hid : j.id = k.id
    · simp [hid, Job.claim] at h
    · exact .inl (by simpa [hid] using h)
  | refresh l now | mark l _ now =>
    by_cases hl : l.Holds j
    · exact .inl (by simpa [hl, Job.refresh] using h)
    · exact .inl (by simpa [hl] using h)
  | advance l stage progress now =>
    by_cases hl : l.Holds j
    · exact .inl (by simpa [hl, Job.advance, Job.refresh] using h)
    · exact .inl (by simpa [hl] using h)
  | fail l _ _ outcome error now =>
    by_cases hl : l.Holds j
    · cases outcome <;> simp [hl, Job.fail] at h
    · exact .inl (by simpa [hl] using h)
  | _ => exact .inl h

variable {c held}

theorem Grounded.chunkRows_finalize {l : Lease} {source : DocumentSource} {chunks : List NewChunk} {now : Int}
    (h : (finalize l source chunks now).Grounded c held s) :
    ((finalize l source chunks now).apply s).chunkRows source.documentVersionId ≠ [] := by
  obtain ⟨_, ⟨_, _, text, _, _, _, hpieces, hchunks⟩, _⟩ := h
  rw [Write.chunkRows_finalize]
  intro hnil
  rw [List.map_eq_nil_iff.1 hnil] at hchunks
  exact hpieces (Attempt.numbered_eq_nil.1 hchunks.symm)

/-- The chunks of a version may be replaced, but they do not disappear. -/
theorem Grounded.chunkRows_ne_nil {wr : Write} (h : wr.Grounded c held s) {versionId : String}
    (hrows : s.chunkRows versionId ≠ []) : (wr.apply s).chunkRows versionId ≠ [] := by
  rcases wr.chunkRows_apply s versionId with hsame | ⟨l, source, chunks, now, rfl, rfl⟩
  · rwa [hsame]
  · exact h.chunkRows_finalize

theorem Grounded.success {wr : Write} (hgrounded : wr.Grounded c held s)
    (h : ∀ v ∈ s.versions, v.parseStatus = .success → s.chunkRows v.id ≠ []) :
    ∀ v ∈ (wr.apply s).versions, v.parseStatus = .success → (wr.apply s).chunkRows v.id ≠ [] := by
  intro u hu hsuccess
  rcases Write.mem_versions.1 hu with ⟨v, hv, rfl⟩ | hnew
  · rw [wr.version_id]
    rcases Write.success_of_version hsuccess with hold | ⟨l, source, chunks, now, rfl, hid⟩
    · exact hgrounded.chunkRows_ne_nil (h v hv hold)
    · rw [← hid]
      exact hgrounded.chunkRows_finalize
  · obtain ⟨d, job, rfl⟩ := Write.of_newVersions hnew
    exact absurd hsuccess hgrounded

end Write

/-! ### Indexed versions -/

namespace Store

variable (c : ChunkConfig) (held : String → Bytes → Prop)

/-- Every version has all chunks of one attempt or none, it has some if it is a success or if a job for it is
completed, and there are no chunks of other versions. -/
structure Indexed (s : Store) : Prop where
  complete : ∀ v ∈ s.versions, s.chunkRows v.id = [] ∨ s.Complete c held v (s.chunkRows v.id)
  success : ∀ v ∈ s.versions, v.parseStatus = .success → s.chunkRows v.id ≠ []
  completed : ∀ j ∈ s.jobs, j.status = .completed → s.chunkRows j.documentVersionId ≠ []
  versions : ∀ r ∈ s.chunks, ∃ v ∈ s.versions, v.id = r.documentVersionId

variable {c held} {s : Store} {wr : Write}

theorem Indexed.mono {held' : String → Bytes → Prop} (hheld : ∀ key bytes, held key bytes → held' key bytes)
    (h : s.Indexed c held) : s.Indexed c held' :=
  ⟨fun v hv => (h.complete v hv).imp_right fun hcomplete => hcomplete.mono hheld, h.success, h.completed,
    h.versions⟩

/-- A version that was not there before has no chunks yet. -/
private theorem Indexed.chunkRows_new (h : s.Indexed c held) (hallowed : wr.Allowed s) {v : VersionRow}
    (hv : v ∈ wr.newVersions) : (wr.apply s).chunkRows v.id = [] := by
  have hnone : s.chunkRows v.id = [] := by
    refine List.filter_eq_nil_iff.2 fun r hr hid => ?_
    obtain ⟨u, hu, huid⟩ := h.versions r hr
    exact (hallowed.acceptsVersion hv).id u hu (huid.trans (by simpa using hid))
  rcases wr.chunkRows_apply s v.id with hsame | ⟨_, _, _, _, rfl, _⟩
  · rw [hsame, hnone]
  · simp at hv

private theorem Indexed.complete_apply (h : s.Indexed c held) (hs : s.Consistent) (hallowed : wr.Allowed s)
    (hgrounded : wr.Grounded c held s) : ∀ v ∈ (wr.apply s).versions,
      (wr.apply s).chunkRows v.id = [] ∨ (wr.apply s).Complete c held v ((wr.apply s).chunkRows v.id) := by
  intro u hu
  rcases Write.mem_versions.1 hu with ⟨v, hv, rfl⟩ | hnew
  · rw [wr.version_id]
    rcases wr.chunkRows_apply s v.id with hsame | ⟨l, source, chunks, now, rfl, hid⟩
    · rw [hsame]
      exact (h.complete v hv).imp_right fun hcomplete => hcomplete.apply wr
    · -- The rows of the version were replaced by those of the attempt, whose source is the version itself.
      right
      obtain ⟨⟨v', hv', d, hd, hdid, rfl⟩, ⟨key, bytes, text, hkey, hbytes, hdecode, hpieces, hchunks⟩, _⟩ :=
        hgrounded
      obtain rfl : v' = v := hs.version_eq hv' hv hid
      have hrows := Write.chunkRows_finalize l (.ofRows d v') chunks now s
      simp only [DocumentSource.ofRows] at hrows
      rw [DocumentSource.ofRows, hrows]
      refine Complete.apply ⟨d, hd, hdid, ⟨key, bytes, text, hkey, hbytes, hdecode, hpieces, ?_⟩, ?_⟩ _
      · rw [List.map_map, ← hchunks]
        rfl
      · intro r hr
        obtain ⟨chunk, _, rfl⟩ := List.mem_map.1 hr
        exact ⟨rfl, rfl, rfl, rfl⟩
  · exact .inl (h.chunkRows_new hallowed hnew)

theorem Indexed.apply (h : s.Indexed c held) (hs : s.Consistent) (hallowed : wr.Allowed s)
    (hregular : wr.Regular s) (hgrounded : wr.Grounded c held s) : (wr.apply s).Indexed c held where
  complete := h.complete_apply hs hallowed hgrounded
  success := hgrounded.success h.success
  completed := by
    intro k hk hcompleted
    rcases Write.mem_jobs.1 hk with ⟨j, hj, rfl⟩ | hnew
    · rw [wr.job_documentVersionId]
      rcases Write.completed_of_job hcompleted with hold | ⟨l, source, chunks, now, rfl, hl⟩
      · exact hgrounded.chunkRows_ne_nil (h.completed j hj hold)
      · rw [hgrounded.2.2 j hj hl]
        exact hgrounded.chunkRows_finalize
    · rw [← hregular.newJob hnew] at hcompleted
      cases hcompleted
  versions := by
    intro r hr
    -- A chunk was there before, or it was written for the version that its source describes.
    have hrow : r ∈ s.chunks ∨ ∃ v ∈ s.versions, v.id = r.documentVersionId := by
      cases wr with
      | finalize l source chunks now =>
        obtain ⟨⟨v, hv, d, _, _, rfl⟩, _, _⟩ := hgrounded
        rcases List.mem_append.1 hr with hold | hnew
        · exact .inl (List.mem_filter.1 hold).1
        · obtain ⟨chunk, _, rfl⟩ := List.mem_map.1 hnew
          exact .inr ⟨v, hv, rfl⟩
      | _ => exact .inl hr
    rcases hrow with hold | hversion
    · exact Write.version_persists (h.versions r hold)
    · exact Write.version_persists hversion

end Store

/-! ### What the tasks know of their texts -/

/-- The source of an attempt is the version of its job, and the key is that of the source. -/
def Attempt.Resolved (s : Store) (job : ClaimedJob) (a : Attempt) : Prop :=
  s.Describes a.source ∧ a.source.documentVersionId = job.documentVersionId ∧
    a.source.objectKey = some a.objectKey ∧ a.lease.jobId = job.id

/-- The text of an attempt was held under its key. -/
def Attempt.Loaded (held : String → Bytes → Prop) (a : Attempt) (text : String) : Prop :=
  ∃ bytes, held a.objectKey bytes ∧ a.source.parser.decode bytes = some text

def Phase.Grounded (held : String → Bytes → Prop) (s : Store) (job : ClaimedJob) : Phase → Prop
  | mark a | load a => a.Resolved s job
  | advance a text | write a text => a.Resolved s job ∧ a.Loaded held text
  | resolve | settle _ => True

/-- The table has the job with its version. -/
def Store.Targets (s : Store) (job : ClaimedJob) : Prop :=
  ∃ j ∈ s.jobs, j.id = job.id ∧ j.documentVersionId = job.documentVersionId

theorem Store.Targets.apply {s : Store} {job : ClaimedJob} (h : s.Targets job) (wr : Write) :
    (wr.apply s).Targets job :=
  Write.job_persists (P := fun j => j.id = job.id ∧ j.documentVersionId = job.documentVersionId) h

namespace Task

variable (c : ChunkConfig) (held : String → Bytes → Prop)

/-- What a task knows that waits for its next call: its worker cuts texts as all workers do, and its source
and its text are those of the job that it works on. -/
def Grounded (s : Store) : Task → Prop
  | asked (.work worker) => worker.chunking = c
  | attempt worker job phase => worker.chunking = c ∧ s.Targets job ∧ phase.Grounded held s job
  | _ => True

variable {c held} {s s' : Store} {w : World} {t t' : Task} {wr : Option Write}

theorem Grounded.mono {held' : String → Bytes → Prop} (hheld : ∀ key bytes, held key bytes → held' key bytes)
    (h : t.Grounded c held s) : t.Grounded c held' s := by
  cases t with
  | asked r => cases r <;> exact h
  | attempt worker job phase =>
    obtain ⟨hchunking, htargets, hphase⟩ := h
    refine ⟨hchunking, htargets, ?_⟩
    cases phase with
    | advance a text | write a text =>
      obtain ⟨hresolved, bytes, hbytes, hdecode⟩ := hphase
      exact ⟨hresolved, bytes, hheld _ _ hbytes, hdecode⟩
    | _ => exact hphase
  | _ => trivial

theorem Grounded.commits (h : t.Grounded c held s) (hwr : Write.Commits s wr s') : t.Grounded c held s' := by
  cases hwr with
  | nothing => exact h
  | made _ =>
    cases t with
    | asked r => cases r <;> exact h
    | attempt worker job phase =>
      obtain ⟨hchunking, htargets, hphase⟩ := h
      refine ⟨hchunking, htargets.apply _, ?_⟩
      cases phase with
      | mark a | load a => exact ⟨hphase.1.apply _, hphase.2⟩
      | advance a text | write a text => exact ⟨⟨hphase.1.1.apply _, hphase.1.2⟩, hphase.2⟩
      | _ => trivial
    | _ => trivial

theorem Step.grounded (hstep : Step w t wr t') (h : t.Grounded c held w.store)
    (hheld : ∀ key bytes, w.objects.get key = .ok bytes → held key bytes) : t'.Grounded c held w.store := by
  cases hstep with
  | claim worker j _ hfirst =>
    have hallowed : (Write.claim j worker.id w.now worker.leaseTimeout).Allowed w.store := hfirst
    exact ⟨h, ⟨j, hallowed.claimable.1, rfl, rfl⟩, trivial⟩
  | resolve worker job source key hsource hkey =>
    obtain ⟨hdescribes, hid⟩ := Store.describes_source? hsource
    have hobject : source.objectKey = some key := by
      simp only [Attempt.keyOf, Option.filter_eq_some_iff] at hkey
      exact hkey.1
    exact ⟨h.1, h.2.1, hdescribes, hid, hobject, rfl⟩
  | load worker job a bytes text hget hdecode =>
    exact ⟨h.1, h.2.1, h.2.2, bytes, hheld _ _ hget, hdecode⟩
  | mark | advance => exact h
  | write | fault => exact ⟨h.1, h.2.1, trivial⟩
  | _ => trivial

theorem Step.grounded_write {wr : Write} (hstep : Step w t (some wr) t') (h : t.Grounded c held w.store)
    (hs : w.store.Consistent) : wr.Grounded c held w.store := by
  cases hstep with
  | save maxAttempts p =>
    intro hsuccess
    cases hsuccess
  | write worker job a text chunks hpieces hchunks =>
    obtain ⟨rfl, ⟨k, hk, hkid, hkversion⟩, ⟨hdescribes, hversion, hkey, hjob⟩, bytes, hbytes, hdecode⟩ := h
    refine ⟨hdescribes, ⟨a.objectKey, bytes, text, hkey, hbytes, hdecode, hpieces, hchunks⟩, ?_⟩
    intro j hj hl
    obtain rfl : j = k := hs.job_eq hj hk (by rw [hl.1, hjob, hkid])
    rw [hkversion, hversion]
  | insert | claim | mark | advance | record | giveUp => trivial

end Task

/-! ### Runs -/

/-- The workers that are started cut texts in one way. -/
def Event.ChunksWith (c : ChunkConfig) : Event → Prop
  | start (.work worker) => worker.chunking = c
  | _ => True

namespace System

/-- The bytes were held under the key before one of the events. -/
def Held (σ : System) (events : List Event) (key : String) (bytes : Bytes) : Prop :=
  ∃ before e, before ++ [e] <+: events ∧ (σ.run before).world.objects.get key = .ok bytes

structure Grounded (c : ChunkConfig) (held : String → Bytes → Prop) (σ : System) : Prop where
  sound : σ.Sound
  indexed : σ.world.store.Indexed c held
  tasks : ∀ t ∈ σ.tasks, t.Grounded c held σ.world.store

variable {c : ChunkConfig} {held : String → Bytes → Prop} {σ σ' : System}

theorem Grounded.mono {held' : String → Bytes → Prop} (hheld : ∀ key bytes, held key bytes → held' key bytes)
    (h : σ.Grounded c held) : σ.Grounded c held' :=
  ⟨h.sound, h.indexed.mono hheld, fun t ht => (h.tasks t ht).mono hheld⟩

theorem Grounded.write (h : σ.Grounded c held) {e : Event} (he : e.Regular) :
    ∃ wr, Write.Commits σ.world.store wr (σ.step e).world.store ∧
      ∀ x ∈ wr, x.Regular σ.world.store ∧ x.Grounded c held σ.world.store := by
  obtain ⟨wr, hwr, _, hsource, _⟩ := σ.step_regular he
  refine ⟨wr, hwr, fun x hx => ?_⟩
  rcases hsource x hx with ⟨i, t, t', _, ht, hstep⟩ | ⟨l, now, rfl⟩ | ⟨documentId, rfl⟩
  · have hmem : t ∈ σ.tasks := List.mem_of_getElem? ht
    exact ⟨hstep.regular (h.sound.tasks t hmem) h.sound.consistent,
      hstep.grounded_write (h.tasks t hmem) h.sound.consistent⟩
  · exact ⟨trivial, trivial⟩
  · exact ⟨trivial, trivial⟩

theorem step_grounded {e : Event} (hregular : e.Regular) (hchunks : e.ChunksWith c)
    (hheld : ∀ key bytes, σ.world.objects.get key = .ok bytes → held key bytes) (h : σ.Grounded c held) :
    (σ.step e).Grounded c held := by
  obtain ⟨wr, hwr, hgrounded⟩ := h.write hregular
  refine ⟨step_sound hregular h.sound, ?_, fun t ht => ?_⟩
  · generalize (σ.step e).world.store = s' at hwr
    cases hwr with
    | nothing => exact h.indexed
    | made hallowed =>
      exact h.indexed.apply h.sound.consistent hallowed (hgrounded _ rfl).1 (hgrounded _ rfl).2
  · refine Task.Grounded.commits ?_ hwr
    refine σ.step_tasks e h.tasks ?_ (fun _ _ _ _ _ _ ht hstep => hstep.grounded ht hheld) ?_ t ht
    · rintro r rfl
      cases r with
      | work worker => exact hchunks
      | _ => trivial
    · exact fun worker job phase e ht => ⟨ht.1, ht.2.1, trivial⟩

theorem step_chunkRows (h : σ.Grounded c held) {e : Event} (he : e.Regular) {versionId : String}
    (hrows : σ.world.store.chunkRows versionId ≠ []) : (σ.step e).world.store.chunkRows versionId ≠ [] := by
  obtain ⟨wr, hwr, hgrounded⟩ := h.write he
  generalize (σ.step e).world.store = s' at hwr
  cases hwr with
  | nothing => exact hrows
  | made _ => exact (hgrounded _ rfl).2.chunkRows_ne_nil hrows

theorem Held.snoc {events : List Event} (e : Event) {key : String} {bytes : Bytes}
    (h : σ.Held events key bytes) : σ.Held (events ++ [e]) key bytes := by
  obtain ⟨before, d, hbefore, hget⟩ := h
  exact ⟨before, d, hbefore.trans (List.prefix_append _ _), hget⟩

theorem initial_grounded (objects : ObjectStore) (now : Int) (ids : IdSequence) :
    (initial objects now ids).Grounded c held := by
  refine ⟨initial_sound objects now ids, ⟨?_, ?_, ?_, ?_⟩, ?_⟩ <;> simp [initial, Store.empty]

theorem run_grounded (h : σ.Grounded c (σ.Held [])) {events : List Event}
    (hevents : ∀ e ∈ events, e.Regular ∧ e.ChunksWith c) : (σ.run events).Grounded c (σ.Held events) := by
  refine run_induction (P := fun before τ => τ.Grounded c (σ.Held before)) h ?_
  intro before e he hbefore
  obtain ⟨hregular, hchunks⟩ := hevents e he
  -- The history grows with the event, so what is known is first carried over to the longer one.
  refine step_grounded hregular hchunks (fun key bytes hget => ?_) (hbefore.mono fun _ _ => Held.snoc e)
  exact ⟨before, e, List.prefix_refl _, hget⟩

theorem chunkRows_run (h : σ.Grounded c fun _ _ => True) {more : List Event}
    (hmore : ∀ e ∈ more, e.Regular ∧ e.ChunksWith c) {versionId : String}
    (hrows : σ.world.store.chunkRows versionId ≠ []) : (σ.run more).world.store.chunkRows versionId ≠ [] := by
  have hrun : (σ.run more).Grounded c (fun _ _ => True) ∧
      (σ.run more).world.store.chunkRows versionId ≠ [] := by
    refine run_induction
      (P := fun _ σ => σ.Grounded c (fun _ _ => True) ∧ σ.world.store.chunkRows versionId ≠ []) ⟨h, hrows⟩ ?_
    intro before e he hbefore
    obtain ⟨hregular, hchunks⟩ := hmore e he
    exact ⟨step_grounded hregular hchunks (fun _ _ _ => trivial) hbefore.1,
      step_chunkRows hbefore.1 hregular hbefore.2⟩
  exact hrun.2

/-- After every regular run, a version has no chunks or all chunks of one text that was held under its key
during the run. It has some if it is a success or if a job for it is completed, and once it has some, it
always will. -/
theorem index (c : ChunkConfig) (objects : ObjectStore) (now : Int) (ids : IdSequence) (events : List Event)
    (hevents : ∀ e ∈ events, e.Regular ∧ e.ChunksWith c) :
    let start := initial objects now ids
    let s := (start.run events).world.store
    ∀ v ∈ s.versions,
      (s.chunkRows v.id = [] ∨ s.Complete c (start.Held events) v (s.chunkRows v.id)) ∧
      (v.parseStatus = .success ∨ (∃ j ∈ s.jobs, j.documentVersionId = v.id ∧ j.status = .completed) →
        s.chunkRows v.id ≠ []) ∧
      ∀ more : List Event, (∀ e ∈ more, e.Regular ∧ e.ChunksWith c) → s.chunkRows v.id ≠ [] →
        (start.run (events ++ more)).world.store.chunkRows v.id ≠ [] := by
  intro start s v hv
  have hgrounded : (start.run events).Grounded c (start.Held events) :=
    run_grounded (initial_grounded objects now ids) hevents
  have hindexed : s.Indexed c (start.Held events) := hgrounded.indexed
  refine ⟨hindexed.complete v hv, ?_, ?_⟩
  · rintro (hsuccess | ⟨j, hj, hid, hcompleted⟩)
    · exact hindexed.success v hv hsuccess
    · rw [← hid]
      exact hindexed.completed j hj hcompleted
  · intro more hmore hrows
    rw [run_append]
    exact chunkRows_run (hgrounded.mono fun _ _ _ => trivial) hmore hrows

/-- A worker indexes a version that was uploaded. -/
theorem index_success :
    let events : List Event :=
      [.start (.upload 3 ⟨"t1", "w1", "kb1", "a.md", [104, 105], none⟩), .resume 0, .resume 0, .resume 0,
        .start (.work ⟨"a", 1000, .default, .default⟩), .resume 1, .resume 1, .resume 1, .resume 1, .resume 1,
        .resume 1, .resume 1]
    ∃ v ∈ ((initial (.memory []) 0 (.numbered "id")).run events).world.store.versions,
      ((initial (.memory []) 0 (.numbered "id")).run events).world.store.Complete .default
        ((initial (.memory []) 0 (.numbered "id")).Held events) v
        (((initial (.memory []) 0 (.numbered "id")).run events).world.store.chunkRows v.id) := by
  intro events
  have hevents : ∀ e ∈ events, e.Regular ∧ e.ChunksWith .default := by
    simp [events, Event.Regular, Event.ChunksWith]
  have hsuccess : ∃ v ∈ ((initial (.memory []) 0 (.numbered "id")).run events).world.store.versions,
      v.parseStatus = .success := by decide +kernel
  obtain ⟨v, hv, hstatus⟩ := hsuccess
  obtain ⟨hcomplete, hrows, _⟩ := index .default _ _ _ events hevents v hv
  exact ⟨v, hv, hcomplete.resolve_left (hrows (.inl hstatus))⟩

end System

end IngestionQueue
