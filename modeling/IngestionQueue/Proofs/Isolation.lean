import IngestionQueue.Proofs.Index
import IngestionQueue.Proofs.Targets

/-!
# What a job reaches

A call that works on a job touches the document and the version that the job names, the document that this
version belongs to, and the chunks of the version (`Task.Step.agreesBut`).  If the target of the job is proper,
the two documents are one, and all of these rows are of the tenant of the job (`Store.AgreesBut.outside`).  Every
job that does not come from an enqueue has a proper target; an enqueue that names a document of another tenant
makes a job that reaches this document (`System.isolation_breached`).
-/

namespace IngestionQueue

/-! ### Tables that agree -/

namespace Store

/-- The tables agree but for a version with its chunks, and for some documents. -/
structure AgreesBut (documentIds : String → Prop) (versionId : String) (s s' : Store) : Prop where
  documents : ∀ d, ¬documentIds d.id → (d ∈ s'.documents ↔ d ∈ s.documents)
  versions : ∀ v, v.id ≠ versionId → (v ∈ s'.versions ↔ v ∈ s.versions)
  chunks : ∀ r, r.documentVersionId ≠ versionId → (r ∈ s'.chunks ↔ r ∈ s.chunks)

/-- The tables agree but for the rows of the target: its document, its version and the chunks of it, and only as
far as they are of the tenant of the target. -/
structure AgreesOutside (x : JobTarget) (s s' : Store) : Prop where
  documents : ∀ d, ¬(d.tenantId = x.tenantId ∧ d.id = x.documentId) → (d ∈ s'.documents ↔ d ∈ s.documents)
  versions : ∀ v, ¬(v.tenantId = x.tenantId ∧ v.documentId = x.documentId ∧ v.id = x.documentVersionId) →
    (v ∈ s'.versions ↔ v ∈ s.versions)
  chunks : ∀ r,
    ¬(r.tenantId = x.tenantId ∧ r.documentId = x.documentId ∧ r.documentVersionId = x.documentVersionId) →
      (r ∈ s'.chunks ↔ r ∈ s.chunks)

theorem AgreesBut.refl (documentIds : String → Prop) (versionId : String) (s : Store) :
    s.AgreesBut documentIds versionId s :=
  ⟨fun _ _ => .rfl, fun _ _ => .rfl, fun _ _ => .rfl⟩

/-- Every chunk is of a version of the tables, and of the document and the tenant of this version. -/
def ChunksOwned (s : Store) : Prop :=
  ∀ r ∈ s.chunks, ∃ source, s.Describes source ∧ r.tenantId = source.tenantId ∧
    r.documentId = source.documentId ∧ r.documentVersionId = source.documentVersionId

/-- The documents that a job may reach: the one that it names, and the one of the version that it names. -/
def Reaches (s : Store) (documentId versionId id : String) : Prop :=
  id = documentId ∨ ∃ v ∈ s.versions, v.id = versionId ∧ v.documentId = id

end Store

namespace JobTarget.Proper

variable {x : JobTarget} {s : Store}

theorem document (h : x.Proper s) (hs : s.Consistent) {d : Document} (hd : d ∈ s.documents)
    (hid : d.id = x.documentId) : d.tenantId = x.tenantId := by
  obtain ⟨v, _, e, he, _, _, rfl⟩ := h
  rw [hs.document_eq hd he hid]
  rfl

theorem version (h : x.Proper s) (hs : s.Consistent) {v : VersionRow} (hv : v ∈ s.versions)
    (hid : v.id = x.documentVersionId) : v.tenantId = x.tenantId ∧ v.documentId = x.documentId := by
  obtain ⟨u, hu, d, _, hdocument, htenant, rfl⟩ := h
  rw [hs.version_eq hv hu hid]
  exact ⟨htenant, hdocument⟩

theorem chunk (h : x.Proper s) (hs : s.Consistent) (hchunks : s.ChunksOwned) {r : ChunkRow} (hr : r ∈ s.chunks)
    (hid : r.documentVersionId = x.documentVersionId) : r.tenantId = x.tenantId ∧ r.documentId = x.documentId := by
  obtain ⟨_, ⟨v, hv, d, hd, hdocument, rfl⟩, htenant, hrdocument, hversion⟩ := hchunks r hr
  obtain ⟨_, hvdocument⟩ := h.version hs hv (hversion.symm.trans hid)
  have hdid : d.id = x.documentId := hdocument.trans hvdocument
  exact ⟨htenant.trans (h.document hs hd hdid), hrdocument.trans hdid⟩

/-- A job with a proper target reaches one document. -/
theorem reaches (h : x.Proper s) (hs : s.Consistent) {id : String} :
    s.Reaches x.documentId x.documentVersionId id ↔ id = x.documentId := by
  refine ⟨?_, .inl⟩
  rintro (hid | ⟨v, hv, hvid, rfl⟩)
  · exact hid
  · exact (h.version hs hv hvid).2

end JobTarget.Proper

/-- Two tables in which the target is proper have no other rows of the target than those of its tenant. -/
theorem Store.AgreesBut.outside {x : JobTarget} {s s' : Store}
    (h : s.AgreesBut (s.Reaches x.documentId x.documentVersionId) x.documentVersionId s')
    (hs : s.Consistent) (hproper : x.Proper s) (hchunks : s.ChunksOwned)
    (hs' : s'.Consistent) (hproper' : x.Proper s') (hchunks' : s'.ChunksOwned) : s.AgreesOutside x s' where
  documents d hd := by
    by_cases hid : d.id = x.documentId
    · refine iff_of_false ?_ ?_ <;> intro hmem
      · exact hd ⟨hproper'.document hs' hmem hid, hid⟩
      · exact hd ⟨hproper.document hs hmem hid, hid⟩
    · exact h.documents d (mt (hproper.reaches hs).1 hid)
  versions v hv := by
    by_cases hid : v.id = x.documentVersionId
    · refine iff_of_false ?_ ?_ <;> intro hmem
      · obtain ⟨htenant, hdocument⟩ := hproper'.version hs' hmem hid
        exact hv ⟨htenant, hdocument, hid⟩
      · obtain ⟨htenant, hdocument⟩ := hproper.version hs hmem hid
        exact hv ⟨htenant, hdocument, hid⟩
    · exact h.versions v hid
  chunks r hr := by
    by_cases hid : r.documentVersionId = x.documentVersionId
    · refine iff_of_false ?_ ?_ <;> intro hmem
      · obtain ⟨htenant, hdocument⟩ := hproper'.chunk hs' hchunks' hmem hid
        exact hr ⟨htenant, hdocument, hid⟩
      · obtain ⟨htenant, hdocument⟩ := hproper.chunk hs hchunks hmem hid
        exact hr ⟨htenant, hdocument, hid⟩
    · exact h.chunks r hid

/-! ### Writes -/

namespace Write

variable {s : Store} {documentIds : String → Prop} {versionId : String}

private theorem agreesBut {wr : Write} (hdocuments : wr.newDocuments s = []) (hversions : wr.newVersions = [])
    (hdocument : ∀ d, ¬documentIds d.id → wr.document d = d) (hversion : ∀ v, v.id ≠ versionId → wr.version v = v)
    (hchunks : ∀ r, r.documentVersionId ≠ versionId → (r ∈ wr.chunks s.chunks ↔ r ∈ s.chunks)) :
    s.AgreesBut documentIds versionId (wr.apply s) where
  documents d hd := by
    rw [mem_documents, hdocuments]
    constructor
    · rintro (⟨e, he, rfl⟩ | hnew)
      · rw [wr.document_id] at hd
        rwa [hdocument e hd]
      · cases hnew
    · intro hmem
      exact .inl ⟨d, hmem, hdocument d hd⟩
  versions v hv := by
    rw [mem_versions, hversions]
    constructor
    · rintro (⟨u, hu, rfl⟩ | hnew)
      · rw [wr.version_id] at hv
        rwa [hversion u hv]
      · cases hnew
    · intro hmem
      exact .inl ⟨v, hmem, hversion v hv⟩
  chunks := hchunks

theorem agreesBut_mark (l : Lease) {documentId : String} (now : Int) (h : documentIds documentId) :
    s.AgreesBut documentIds versionId ((mark l documentId now).apply s) := by
  refine agreesBut rfl rfl (fun d hd => ?_) (fun _ _ => rfl) fun _ _ => .rfl
  have hne : d.id ≠ documentId := fun hid => hd (hid ▸ h)
  simp [Document.setStatus, hne]

theorem agreesBut_fail (l : Lease) {documentId : String} (outcome : FailureOutcome) (error : String) (now : Int)
    (h : documentIds documentId) :
    s.AgreesBut documentIds versionId ((fail l documentId versionId outcome error now).apply s) := by
  refine agreesBut rfl rfl (fun d hd => ?_) (fun v hv => ?_) fun _ _ => .rfl
  · have hne : d.id ≠ documentId := fun hid => hd (hid ▸ h)
    simp [Document.setStatus, hne]
  · simp [VersionRow.setParseStatus, hv]

theorem agreesBut_finalize (l : Lease) {source : DocumentSource} (chunks : List NewChunk) (now : Int)
    (h : documentIds source.documentId) :
    s.AgreesBut documentIds source.documentVersionId ((finalize l source chunks now).apply s) := by
  refine agreesBut rfl rfl (fun d hd => ?_) (fun v hv => ?_) fun r hr => ?_
  · have hne : d.id ≠ source.documentId := fun hid => hd (hid ▸ h)
    simp [Document.setStatus, hne]
  · simp [VersionRow.setParseStatus, hv]
  · simp only [Write.chunks, List.mem_append, List.mem_filter, bne_iff_ne, List.mem_map]
    constructor
    · rintro (⟨hold, _⟩ | ⟨chunk, _, rfl⟩)
      · exact hold
      · exact absurd rfl hr
    · intro hmem
      exact .inl ⟨hmem, hr⟩

end Write

/-! ### Tasks -/

/-- The job is in the table, with its document and its version. -/
def Store.Has (s : Store) (job : ClaimedJob) : Prop :=
  ∃ j ∈ s.jobs, j.id = job.id ∧ j.documentId = job.documentId ∧ j.documentVersionId = job.documentVersionId

theorem Store.Has.commits {s s' : Store} {job : ClaimedJob} {wr : Option Write} (h : s.Has job)
    (hwr : Write.Commits s wr s') : s'.Has job := by
  cases hwr with
  | nothing => exact h
  | made _ =>
    exact Write.job_persists (P := fun j => j.id = job.id ∧ j.documentId = job.documentId ∧
      j.documentVersionId = job.documentVersionId) h

namespace Task

/-- The jobs that a task works on, the one of its next call first. -/
def jobs : Task → List ClaimedJob
  | attempt _ job _ | record _ job _ => [job]
  | giveUp jobs _ => jobs.map Job.claimed
  | _ => []

/-- What a task knows of the jobs that it works on, and an attempt of its source. -/
structure Traced (s : Store) (t : Task) : Prop where
  jobs : ∀ job ∈ t.jobs, s.Has job
  grounded : ∃ c, t.Grounded c (fun _ _ => True) s

variable {s s' : Store} {w : World} {t t' : Task} {wr : Option Write}

theorem Traced.commits (h : t.Traced s) (hwr : Write.Commits s wr s') : t.Traced s' := by
  obtain ⟨hjobs, c, hgrounded⟩ := h
  exact ⟨fun job hjob => (hjobs job hjob).commits hwr, c, hgrounded.commits hwr⟩

theorem Step.traced (hstep : Step w t wr t') (h : t.Traced w.store) : t'.Traced w.store := by
  obtain ⟨hjobs, c, hgrounded⟩ := h
  refine ⟨?_, c, hstep.grounded hgrounded fun _ _ _ => trivial⟩
  cases hstep with
  | claim worker j _ hfirst =>
    have hallowed : (Write.claim j worker.id w.now worker.leaseTimeout).Allowed w.store := hfirst
    intro job hjob
    obtain rfl := List.mem_singleton.1 hjob
    exact ⟨j, hallowed.claimable.1, rfl, rfl, rfl⟩
  | sweep leaseTimeout =>
    intro job hjob
    obtain ⟨j, hj, rfl⟩ := List.mem_map.1 hjob
    have hmem : j ∈ w.store.jobs ∧ j.Abandoned w.now leaseTimeout := by simpa [Store.abandonedJobs] using hj
    exact ⟨j, hmem.1, rfl, rfl, rfl⟩
  | skip j rest given => exact fun job hjob => hjobs job (List.mem_cons_of_mem _ hjob)
  | giveUp j rest given workerId hlocked => exact fun job hjob => hjobs job (List.mem_cons_of_mem _ hjob)
  | resolve | mark | load | advance | write | fault | judge => exact hjobs
  | _ =>
    intro job hjob
    cases hjob

theorem Traced.asked (r : Request) (s : Store) : (asked r).Traced s := by
  refine ⟨fun job hjob => (by cases hjob), ?_⟩
  cases r with
  | work worker => exact ⟨worker.chunking, rfl⟩
  | _ => exact ⟨.default, trivial⟩

/-- The document of an attempt is that of the version of its job. -/
private theorem reaches_source {job : ClaimedJob} {a : Attempt} (h : a.Resolved s job) :
    s.Reaches job.documentId job.documentVersionId a.source.documentId := by
  obtain ⟨⟨v, hv, d, _, hdocument, hsource⟩, hversion, _⟩ := h
  rw [hsource] at hversion ⊢
  exact .inr ⟨v, hv, hversion, hdocument.symm⟩

/-- The write of a task that works on a job touches what the job reaches and nothing else. -/
theorem Step.agreesBut {wr : Write} {job : ClaimedJob} (hstep : Step w t (some wr) t') (h : t.Traced w.store)
    (hjob : t.jobs.head? = some job) :
    w.store.AgreesBut (w.store.Reaches job.documentId job.documentVersionId) job.documentVersionId
      (wr.apply w.store) := by
  obtain ⟨_, c, hgrounded⟩ := h
  cases hstep with
  | mark worker job' a =>
    obtain rfl : job' = job := Option.some.inj hjob
    exact Write.agreesBut_mark _ _ (reaches_source hgrounded.2.2)
  | advance worker job' a text =>
    obtain rfl : job' = job := Option.some.inj hjob
    exact ⟨fun d _ => by simp [Write.apply], fun v _ => by simp [Write.apply], fun r _ => .rfl⟩
  | write worker job' a text chunks hpieces hchunks =>
    obtain rfl : job' = job := Option.some.inj hjob
    have hresolved : a.Resolved w.store job' := hgrounded.2.2.1
    have hagrees := Write.agreesBut_finalize (s := w.store) a.lease chunks w.now (reaches_source hresolved)
    rwa [hresolved.2.1] at hagrees
  | record worker job' f =>
    obtain rfl : job' = job := Option.some.inj hjob
    exact Write.agreesBut_fail _ _ _ _ (.inl rfl)
  | giveUp j rest given workerId hlocked =>
    obtain rfl : j.claimed = job := Option.some.inj hjob
    exact Write.agreesBut_fail _ _ _ _ (.inl rfl)
  | insert | save | claim => cases hjob

/-- The source of the chunks that a task writes is a version with its document. -/
theorem Step.describes {l : Lease} {source : DocumentSource} {chunks : List NewChunk} {now : Int}
    (hstep : Step w t (some (.finalize l source chunks now)) t') (h : t.Traced w.store) :
    w.store.Describes source := by
  obtain ⟨_, c, hgrounded⟩ := h
  cases hstep with
  | write worker job a text chunks hpieces hchunks => exact hgrounded.2.2.1.1

end Task

theorem Store.ChunksOwned.apply {s : Store} {wr : Write} (h : s.ChunksOwned)
    (hsource : ∀ l source chunks now, wr = .finalize l source chunks now → s.Describes source) :
    (wr.apply s).ChunksOwned := by
  intro r hr
  -- A chunk was there before, or it was written with what its source says.
  have hrow : r ∈ s.chunks ∨ ∃ source, s.Describes source ∧ r.tenantId = source.tenantId ∧
      r.documentId = source.documentId ∧ r.documentVersionId = source.documentVersionId := by
    cases wr with
    | finalize l source chunks now =>
      rcases List.mem_append.1 hr with hold | hnew
      · exact .inl (List.mem_filter.1 hold).1
      · obtain ⟨chunk, _, rfl⟩ := List.mem_map.1 hnew
        exact .inr ⟨source, hsource l source chunks now rfl, rfl, rfl, rfl⟩
    | _ => exact .inl hr
  obtain ⟨source, hdescribes, hrest⟩ := hrow.elim (h r) id
  exact ⟨source, hdescribes.apply wr, hrest⟩

/-! ### Runs -/

namespace System

structure Traced (σ : System) : Prop where
  tasks : ∀ t ∈ σ.tasks, t.Traced σ.world.store
  chunks : σ.world.store.ChunksOwned

variable {σ : System} {e : Event}

theorem step_traced (he : e.Regular) (h : σ.Traced) : (σ.step e).Traced := by
  obtain ⟨wr, hwr, _, hsource, _⟩ := σ.step_regular he
  refine ⟨fun t ht => ?_, ?_⟩
  · refine Task.Traced.commits (σ.step_tasks e h.tasks (fun r _ => .asked r _) ?_ ?_ t ht) hwr
    · exact fun i t wr t' _ _ ht hstep => hstep.traced ht
    · rintro worker job phase e ⟨hjobs, c, hgrounded⟩
      exact ⟨hjobs, c, hgrounded.1, hgrounded.2.1, trivial⟩
  · generalize (σ.step e).world.store = s' at hwr
    cases hwr with
    | nothing => exact h.chunks
    | @made x _ =>
      refine h.chunks.apply ?_
      rintro l source chunks now rfl
      rcases hsource _ rfl with ⟨i, t, t', _, ht, hstep⟩ | ⟨_, _, hx⟩ | ⟨_, hx⟩
      · exact hstep.describes (h.tasks t (List.mem_of_getElem? ht))
      · cases hx
      · cases hx

theorem run_traced (h : σ.Traced) {events : List Event} (hevents : ∀ e ∈ events, e.Regular) :
    (σ.run events).Traced := by
  refine run_induction (P := fun _ τ => τ.Traced) h ?_
  intro before e he hbefore
  exact step_traced (hevents e he) hbefore

theorem initial_traced (objects : ObjectStore) (now : Int) (ids : IdSequence) :
    (initial objects now ids).Traced := by
  constructor <;> simp [initial, Store.empty, Store.ChunksOwned]

/-- The call of a task that works on a job touches what the job reaches. -/
theorem resume_agreesBut (h : σ.Traced) {i : Nat} {t : Task} {job : ClaimedJob} (ht : σ.tasks[i]? = some t)
    (hjob : t.jobs.head? = some job) :
    σ.world.store.AgreesBut (σ.world.store.Reaches job.documentId job.documentVersionId) job.documentVersionId
      (σ.step (.resume i)).world.store := by
  obtain ⟨wr, store, count, hstep, hwr, hworld⟩ := t.resume_step σ.world
  rw [(step_resume ht).1, hworld]
  cases hwr with
  | nothing => exact .refl _ _ _
  | made _ => exact hstep.agreesBut (h.tasks t (List.mem_of_getElem? ht)) hjob

/-- After every regular run whose identifiers do not repeat themselves, the document and the version of a job are
there. What the job names is one version with its document, its tenant and its place, unless an enqueue named
it. A call that works on the job touches the document of the job and that of its version, the version and its
chunks; if the target of the job is proper, only those of these rows that are of its tenant and its document. -/
theorem isolation (objects : ObjectStore) (now : Int) (ids : IdSequence) (hids : Function.Injective ids.nth)
    (events : List Event) (hevents : ∀ e ∈ events, e.Regular) :
    let σ := (initial objects now ids).run events
    let s := σ.world.store
    (∀ j ∈ s.jobs, (∃ d ∈ s.documents, d.id = j.documentId) ∧ (∃ v ∈ s.versions, v.id = j.documentVersionId) ∧
      (j.target.Proper s ∨ ∃ maxAttempts r, .start (.enqueue maxAttempts r) ∈ events ∧ r.target = j.target)) ∧
    ∀ i t job, σ.tasks[i]? = some t → t.jobs.head? = some job → ∃ j ∈ s.jobs, j.id = job.id ∧
      s.AgreesBut (s.Reaches j.documentId j.documentVersionId) j.documentVersionId
        (σ.step (.resume i)).world.store ∧
      (j.target.Proper s → s.AgreesOutside j.target (σ.step (.resume i)).world.store) := by
  intro σ s
  have haimed : σ.Aimed events := run_aimed hids (initial_aimed objects now ids) events
  have htraced : σ.Traced := run_traced (initial_traced objects now ids) hevents
  have hs : s.Consistent := haimed.consistent
  refine ⟨fun j hj => ⟨hs.jobDocument j hj, hs.jobVersion j hj, haimed.rows j hj⟩, ?_⟩
  intro i t job ht hjob
  obtain ⟨j, hj, hid, hdocument, hversion⟩ :=
    (htraced.tasks t (List.mem_of_getElem? ht)).jobs job (List.mem_of_head? hjob)
  have hagrees := resume_agreesBut htraced ht hjob
  rw [← hdocument, ← hversion] at hagrees
  refine ⟨j, hj, hid, hagrees, fun hproper => ?_⟩
  obtain ⟨wr, hwr, _⟩ := σ.step_write (.resume i)
  exact hagrees.outside hs hproper htraced.chunks (step_consistent hs _) (hproper.commits hwr)
    (step_traced (e := .resume i) trivial htraced).chunks

/-- A worker is about to record that it failed on the job of an upload; the document of the other tenant stays as
it is. -/
theorem isolation_failed :
    let events : List Event :=
      [.start (.upload 1 ⟨"t1", "w1", "kb1", "a.md", [104, 105], none⟩), .resume 0, .resume 0, .resume 0,
        .start (.upload 1 ⟨"t2", "w2", "kb2", "b.md", [104, 111], none⟩), .resume 1, .resume 1, .resume 1,
        .start (.work ⟨"a", 1000, .default, .default⟩), .resume 2, .replaceObjects (.memory []), .resume 2,
        .resume 2, .resume 2, .resume 2]
    let σ := (initial (.memory []) 0 (.numbered "id")).run events
    ∀ d, d.tenantId = "t2" → (d ∈ (σ.step (.resume 2)).world.store.documents ↔ d ∈ σ.world.store.documents) := by
  intro events σ d htenant
  have hregular : ∀ e ∈ events, e.Regular := by simp [events, Event.Regular]
  have hids : Function.Injective (IdSequence.numbered "id").nth := IdSequence.numbered_injective "id"
  obtain ⟨⟨job, hworks, hid⟩, htenants⟩ :
      (∃ job ∈ σ.tasks[2]?.bind fun t => t.jobs.head?, job.id = "id-3") ∧
      ∀ j ∈ σ.world.store.jobs, j.id = "id-3" → j.tenantId = "t1" := by
    decide +kernel
  obtain ⟨t, ht, hjob⟩ := Option.bind_eq_some_iff.1 hworks
  obtain ⟨hrows, hcalls⟩ := isolation (.memory []) 0 (.numbered "id") hids events hregular
  obtain ⟨j, hj, hsame, _, houtside⟩ := hcalls 2 t job ht hjob
  have hproper := (hrows j hj).2.2.resolve_right (by simp [events])
  simp only [σ] at htenants ⊢
  refine (houtside hproper).documents d fun hown => ?_
  have hother : j.tenantId = "t1" := htenants j hj (hsame.trans hid)
  have hown : d.tenantId = j.tenantId := hown.1
  simp [htenant, hother] at hown

/-- A job that an enqueue has made for another tenant is given up, and the document that the request named fails:
it was ready. -/
theorem isolation_breached :
    let past : List Event :=
      [.start (.upload 1 ⟨"t1", "w1", "kb1", "a.md", [104, 105], none⟩), .resume 0, .resume 0, .resume 0,
        .start (.work ⟨"a", 1000, .default, .default⟩), .resume 1, .resume 1, .resume 1, .resume 1, .resume 1,
        .resume 1, .resume 1]
    let later : List Event :=
      [.start (.enqueue 1 ⟨"t2", "w2", "kb2", "id-1", "id-2", "reindex", none⟩), .resume 2, .resume 2, .resume 2,
        .replaceObjects (.memory []), .start (.work ⟨"a", 1000, .default, .default⟩), .resume 3, .resume 3,
        .resume 3, .resume 3, .resume 3, .resume 3]
    let σ := (initial (.memory []) 0 (.numbered "id")).run past
    (∀ e ∈ past ++ later, e.Regular) ∧
      (∃ d ∈ σ.world.store.documents, d.tenantId = "t1" ∧ d.status = .ready) ∧
      ∃ j ∈ (σ.run later).world.store.jobs, j.tenantId = "t2" ∧ j.status = .deadLetter ∧
        ∃ d ∈ (σ.run later).world.store.documents, d.id = j.documentId ∧ d.tenantId = "t1" ∧
          d.status = .failed := by
  intro past later σ
  refine ⟨by simp [past, later, Event.Regular], ?_⟩
  decide +kernel

end System

end IngestionQueue
