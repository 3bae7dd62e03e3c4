import IngestionQueue.Proofs.Integrity
import IngestionQueue.Proofs.Readiness

/-!
# Numbers of versions

An upload reads the number of its version off a document some time before it saves the version, so it may come
with any number that was there by then, or with the next one (`Store.Expects`).  A number that is taken is
refused, and with it the document as the upload would write it.  Hence a version that is saved has the next
number, and a document is at the number of its latest version (`Store.Numbered`).  The main result is
`System.numbering`.
-/

namespace IngestionQueue

/-! ### Numbers of one document -/

/-- The numbers of the versions of a document, in the order in which they were inserted. -/
def Store.numbers (s : Store) (documentId : String) : List Int :=
  (s.versions.filter fun v => v.documentId == documentId).map VersionRow.version

theorem Store.mem_numbers {s : Store} {documentId : String} {number : Int} :
    number ∈ s.numbers documentId ↔ ∃ v ∈ s.versions, v.documentId = documentId ∧ v.version = number := by
  simp [numbers, and_assoc]

theorem Write.numbers_apply (wr : Write) (s : Store) (documentId : String) :
    (wr.apply s).numbers documentId =
      s.numbers documentId ++
        (wr.newVersions.filter fun v => v.documentId == documentId).map VersionRow.version := by
  have hfilter : ((fun v : VersionRow => v.documentId == documentId) ∘ wr.version) =
      fun v => v.documentId == documentId := by
    funext v
    simp only [Function.comp_apply, (wr.version_number v).1]
  have hmap : VersionRow.version ∘ wr.version = VersionRow.version := by
    funext v
    exact (wr.version_number v).2
  simp only [Store.numbers, apply, List.filter_append, List.map_append, List.filter_map, List.map_map, hfilter,
    hmap]

theorem Write.Commits.numbers_prefix {s s' : Store} {wr : Option Write} (hwr : Write.Commits s wr s')
    (documentId : String) : s.numbers documentId <+: s'.numbers documentId := by
  cases hwr with
  | nothing => exact List.prefix_rfl
  | @made x _ =>
    rw [x.numbers_apply]
    exact List.prefix_append _ _

/-- The versions of every document are numbered from 1 on, and the document is at the last of these numbers. -/
structure Store.Numbered (s : Store) : Prop where
  sequence : ∀ id, s.numbers id = (List.range' 1 (s.numbers id).length).map Int.ofNat
  current : ∀ d ∈ s.documents, d.currentVersion = (s.numbers d.id).length ∧ 1 ≤ d.currentVersion

/-- The number of the document is taken, or it is the next one. -/
def Store.Expects (s : Store) (d : Document) : Prop :=
  1 ≤ d.currentVersion ∧ d.currentVersion ≤ (s.numbers d.id).length + 1

/-- What the queue guarantees of the writes that save uploads: the version has the number of the document, which is
taken or the next one. -/
def Write.Orderly (s : Store) : Write → Prop
  | save d v _ => v.documentId = d.id ∧ v.version = d.currentVersion ∧ s.Expects d
  | _ => True

namespace Store.Numbered

variable {s : Store} {wr : Write}

theorem mem_numbers_iff (h : s.Numbered) {id : String} {number : Int} :
    number ∈ s.numbers id ↔ 1 ≤ number ∧ number ≤ (s.numbers id).length := by
  rw [h.sequence id]
  simp only [List.mem_map, List.mem_range'_1, List.length_map, List.length_range']
  constructor
  · rintro ⟨n, hn, rfl⟩
    simp only [Int.ofNat_eq_natCast]
    omega
  · rintro ⟨hone, hlast⟩
    exact ⟨number.toNat, by omega, by simp only [Int.ofNat_eq_natCast]; omega⟩

theorem current_mem (h : s.Numbered) {d : Document} (hone : 1 ≤ d.currentVersion)
    (hlast : d.currentVersion ≤ (s.numbers d.id).length) :
    ∃ v ∈ s.versions, v.documentId = d.id ∧ v.version = d.currentVersion :=
  Store.mem_numbers.1 (h.mem_numbers_iff.2 ⟨hone, hlast⟩)

theorem of_numbers_eq (h : s.Numbered) {s' : Store} {id : String} (hsame : s'.numbers id = s.numbers id) :
    s'.numbers id = (List.range' 1 (s'.numbers id).length).map Int.ofNat := by
  rw [hsame]
  exact h.sequence id

/-- A version that is saved has the next number, since all numbers up to it are taken. -/
theorem next_number (h : s.Numbered) {d : Document} {v : VersionRow} {job : Option Job}
    (hallowed : (Write.save d v job).Allowed s) (horderly : (Write.save d v job).Orderly s) :
    v.version = (s.numbers v.documentId).length + 1 := by
  obtain ⟨hdocument, hversion, hone, hlast⟩ := horderly
  have hfree : v.version ∉ s.numbers v.documentId := by
    intro htaken
    obtain ⟨u, hu, hsame⟩ := Store.mem_numbers.1 htaken
    have hv : v ∈ (Write.save d v job).newVersions := List.mem_singleton.2 rfl
    exact (hallowed.acceptsVersion hv).number u hu hsame
  rw [h.mem_numbers_iff, hdocument, hversion] at hfree
  rw [hdocument, hversion]
  omega

/-- The versions of all other documents keep their numbers, and the one that is saved gets the next. -/
theorem numbers_save (h : s.Numbered) {d : Document} {v : VersionRow} {job : Option Job}
    (hallowed : (Write.save d v job).Allowed s) (horderly : (Write.save d v job).Orderly s) (id : String) :
    ((Write.save d v job).apply s).numbers id =
      s.numbers id ++ if d.id = id then [((s.numbers id).length : Int) + 1] else [] := by
  rw [Write.numbers_apply]
  by_cases hid : d.id = id
  · have hdocument : v.documentId = id := horderly.1.trans hid
    have hnext := h.next_number hallowed horderly
    rw [hdocument] at hnext
    simp [hid, hdocument, hnext]
  · have hdocument : v.documentId ≠ id := horderly.1 ▸ hid
    simp [hid, hdocument]

private theorem save (h : s.Numbered) {d : Document} {v : VersionRow} {job : Option Job}
    (hallowed : (Write.save d v job).Allowed s) (horderly : (Write.save d v job).Orderly s) :
    ((Write.save d v job).apply s).Numbered := by
  have hnumbers := h.numbers_save hallowed horderly
  have hnext : d.currentVersion = (s.numbers d.id).length + 1 := by
    have hversion := h.next_number hallowed horderly
    rwa [horderly.1, horderly.2.1] at hversion
  refine ⟨?_, ?_⟩
  · intro id
    by_cases hid : d.id = id
    · rw [hnumbers, if_pos hid, List.length_append, List.length_singleton, List.range'_1_concat,
        List.map_append, ← h.sequence id]
      simp [Int.add_comm]
    · refine h.of_numbers_eq ?_
      rw [hnumbers, if_neg hid, List.append_nil]
  · -- The row of the upload is written with the number of the version, and all others are left alone.
    intro e he
    rcases Write.mem_documents.1 he with ⟨f, hf, rfl⟩ | hnew
    · rw [Write.document_id, hnumbers]
      by_cases hid : d.id = f.id
      · simp only [Write.document, Document.overwrite, hid, List.length_append,
          List.length_singleton, if_true]
        rw [hid] at hnext
        omega
      · have hframe : (Write.save d v job).document f = f := by
          simp [Document.overwrite, Ne.symm hid]
        rw [if_neg hid, List.append_nil, hframe]
        exact h.current f hf
    · obtain ⟨⟨v', job', hsave⟩, _⟩ := Write.of_newDocuments hnew
      obtain ⟨rfl, rfl, rfl⟩ := Write.save.inj hsave
      rw [hnumbers, if_pos rfl, List.length_append, List.length_singleton]
      omega

protected theorem apply (h : s.Numbered) (hallowed : wr.Allowed s) (horderly : wr.Orderly s) :
    (wr.apply s).Numbered := by
  by_cases hsave : ∃ d v job, wr = .save d v job
  · obtain ⟨d, v, job, rfl⟩ := hsave
    exact h.save hallowed horderly
  · -- No version is new, and no document gets another number.
    have hnumbers : ∀ id, (wr.apply s).numbers id = s.numbers id := by
      intro id
      have hnone : wr.newVersions = [] := by
        refine List.eq_nil_iff_forall_not_mem.2 fun v hv => ?_
        obtain ⟨d, job, rfl⟩ := Write.of_newVersions hv
        exact hsave ⟨d, v, job, rfl⟩
      rw [wr.numbers_apply, hnone]
      exact List.append_nil _
    refine ⟨fun id => h.of_numbers_eq (hnumbers id), ?_⟩
    intro d hd
    rw [hnumbers]
    rcases Write.mem_documents.1 hd with ⟨e, he, rfl⟩ | hnew
    · rw [wr.document_id]
      rcases wr.document_currentVersion e with hsame | ⟨f, v, job, rfl, _⟩
      · rw [hsame]
        exact h.current e he
      · exact absurd ⟨f, v, job, rfl⟩ hsave
    · obtain ⟨⟨v, job, rfl⟩, _⟩ := Write.of_newDocuments hnew
      exact absurd ⟨d, v, job, rfl⟩ hsave

end Store.Numbered

theorem Store.Expects.commits {s s' : Store} {d : Document} {wr : Option Write} (h : s.Expects d)
    (hwr : Write.Commits s wr s') : s'.Expects d := by
  obtain ⟨hone, hlast⟩ := h
  have hlength := (hwr.numbers_prefix d.id).length_le
  exact ⟨hone, by omega⟩

/-! ### Calls -/

/-- A reindex finds the version that it looks up if there is one. -/
theorem Ingestion.reindexRequest_of_version {d : Document} {w : World}
    (h : ∃ v ∈ w.store.versions, v.documentId = d.id ∧ v.version = d.currentVersion) (key : Option String) :
    ∃ v ∈ w.store.versions, ∃ r, v.documentId = d.id ∧ v.version = d.currentVersion ∧ r.target = d.target v.id ∧
      (reindexRequest d key).on w = (.ok r, w) := by
  simp only [reindexRequest, Service.on_bind, Service.on_read, Store.version?]
  cases hfound : w.store.versions.find? fun v => v.documentId == d.id && v.version == d.currentVersion with
  | none =>
    obtain ⟨v, hv, hdocument, hversion⟩ := h
    have hnot := List.find?_eq_none.1 hfound v hv
    simp [hdocument, hversion] at hnot
  | some v =>
    obtain ⟨hdocument, hversion⟩ : v.documentId = d.id ∧ v.version = d.currentVersion := by
      simpa using List.find?_some hfound
    exact ⟨v, List.mem_of_find?_eq_some hfound, _, hdocument, hversion, rfl, rfl⟩

namespace Task

variable {s s' : Store} {w w' : World} {t t' : Task} {wr : Option Write}

/-- What a task knows of the number that it has read. -/
def Expects (s : Store) : Task → Prop
  | putObject _ p | saveUpload _ p => s.Expects p.document
  | reindexCurrent _ d _ => 1 ≤ d.currentVersion ∧ d.currentVersion ≤ (s.numbers d.id).length
  | _ => True

theorem Expects.commits (h : t.Expects s) (hwr : Write.Commits s wr s') : t.Expects s' := by
  cases t with
  | putObject maxAttempts p => exact Store.Expects.commits h hwr
  | saveUpload maxAttempts p => exact Store.Expects.commits h hwr
  | reindexCurrent maxAttempts d key =>
    obtain ⟨hone, hlast⟩ := h
    have hlength := (hwr.numbers_prefix d.id).length_le
    exact ⟨hone, by omega⟩
  | _ => trivial

theorem Step.expects (hstep : Step w t wr t') (h : t.Expects w.store) (hs : w.store.Numbered) :
    t'.Expects w.store := by
  cases hstep with
  | liveDocument maxAttempts tenantId documentId key d hd =>
    obtain ⟨hcurrent, hone⟩ := hs.current d (List.mem_of_find?_eq_some hd)
    exact ⟨hone, by omega⟩
  | plan maxAttempts r =>
    rcases Ingestion.planOn_document r w with ⟨e, he, horigin, hnext⟩ | ⟨_, _, hfirst⟩
    · obtain ⟨hcurrent, hone⟩ := hs.current e (Store.mem_documentsFrom.1 he).1
      have hid := Document.id_of_origin horigin
      refine ⟨by omega, ?_⟩
      rw [hid]
      omega
    · exact ⟨by omega, by omega⟩
  | put maxAttempts p hput => exact h
  | _ => trivial

theorem Step.orderly {wr : Write} (hstep : Step w t (some wr) t') (h : t.Expects w.store) :
    wr.Orderly w.store := by
  cases hstep with
  | save maxAttempts p => exact ⟨rfl, rfl, h⟩
  | _ => trivial

end Task

/-! ### Runs -/

namespace System

variable {start σ : System} {events : List Event} {e : Event}

/-- The tables are numbered, and so are the tasks. -/
structure Numbered (σ : System) : Prop where
  store : σ.world.store.Numbered
  tasks : ∀ t ∈ σ.tasks, t.Expects σ.world.store

theorem step_numbered (h : σ.Numbered) (e : Event) : (σ.step e).Numbered := by
  obtain ⟨wr, hwr, _, hsource, _⟩ := σ.step_write e
  refine ⟨?_, ?_⟩
  · generalize (σ.step e).world.store = s' at hwr
    cases hwr with
    | nothing => exact h.store
    | @made x hallowed =>
      refine h.store.apply hallowed ?_
      rcases hsource x rfl with ⟨i, t, t', _, ht, hstep⟩ | ⟨c, _, hcall⟩ | ⟨documentId, rfl⟩
      · exact hstep.orderly (h.tasks t (List.mem_of_getElem? ht))
      · cases x with
        | save d v job => cases hcall
        | _ => trivial
      · trivial
  · intro t ht
    refine Task.Expects.commits (σ.step_tasks e h.tasks ?_ ?_ ?_ t ht) hwr
    · exact fun r _ => trivial
    · exact fun i t wr t' _ _ ht hstep => hstep.expects ht h.store
    · exact fun worker job phase e _ => trivial

theorem run_numbered (h : σ.Numbered) (events : List Event) : (σ.run events).Numbered := by
  refine run_induction (P := fun _ σ => σ.Numbered) h ?_
  intro before e _ hbefore
  exact step_numbered hbefore e

theorem initial_numbered (objects : ObjectStore) (now : Int) (ids : IdSequence) :
    (initial objects now ids).Numbered := by
  refine ⟨⟨?_, ?_⟩, ?_⟩ <;> simp [initial, Store.empty, Store.numbers]

theorem run_numbers_prefix (σ : System) (events : List Event) (documentId : String) :
    σ.world.store.numbers documentId <+: (σ.run events).world.store.numbers documentId :=
  run_commits (P := fun s => σ.world.store.numbers documentId <+: s.numbers documentId)
    (fun _ _ _ hprefix hwr => hprefix.trans (hwr.numbers_prefix documentId)) List.prefix_rfl events

/-! ### Versions and their jobs -/

/-- The event saves an upload: its version and its job come with one write. -/
def Saves (σ : System) (e : Event) (maxAttempts : Int) (p : UploadPlan) : Prop :=
  ∃ i, e = .resume i ∧ σ.tasks[i]? = some (.saveUpload maxAttempts p) ∧
    (Ingestion.saveOn maxAttempts p σ.world).Allowed σ.world.store ∧
    (σ.step e).world.store = (Ingestion.saveOn maxAttempts p σ.world).apply σ.world.store

/-- An upload that is saved has planned the next version of its document, and the document is at this version. -/
theorem Saves.next {maxAttempts : Int} {p : UploadPlan} (hsaves : σ.Saves e maxAttempts p) (h : σ.Numbered)
    {d f : Document} (hd : d ∈ σ.world.store.documents) (hf : f ∈ (σ.step e).world.store.documents)
    (hplanned : p.document.id = d.id) (hid : f.id = d.id) :
    p.document.currentVersion = d.currentVersion + 1 ∧ f.currentVersion = d.currentVersion + 1 := by
  obtain ⟨hcurrent, _⟩ := h.store.current d hd
  obtain ⟨hcurrent', _⟩ := (step_numbered h e).store.current f hf
  obtain ⟨i, _, ht, hallowed, hstore⟩ := hsaves
  have horderly : (Ingestion.saveOn maxAttempts p σ.world).Orderly σ.world.store :=
    ⟨rfl, rfl, h.tasks _ (List.mem_of_getElem? ht)⟩
  constructor
  · have hnext : p.document.currentVersion = (σ.world.store.numbers p.document.id).length + 1 :=
      h.store.next_number hallowed horderly
    rw [hnext, hplanned, hcurrent]
  · have hnumbers := h.store.numbers_save hallowed horderly d.id
    rw [if_pos hplanned] at hnumbers
    -- Both numbers are counts of versions, and the event has added one.
    rw [hcurrent', hid, hcurrent, hstore]
    simp only [Ingestion.saveOn] at hnumbers ⊢
    rw [hnumbers, List.length_append, List.length_singleton]
    omega

/-- The version and the job were inserted when the upload was saved. -/
def Recorded (start : System) (events : List Event) (maxAttempts : Int) (p : UploadPlan) (v : VersionRow)
    (j : Job) : Prop :=
  ∃ before e, before ++ [e] <+: events ∧ (start.run before).Saves e maxAttempts p ∧ v.Records p ∧
    v.id = (Ingestion.versionOn p (start.run before).world).id ∧
    j.origin = Ingestion.jobOn maxAttempts p (start.run before).world

theorem Recorded.snoc {maxAttempts : Int} {p : UploadPlan} {v : VersionRow} {j : Job}
    (h : start.Recorded events maxAttempts p v j) (e : Event) :
    start.Recorded (events ++ [e]) maxAttempts p v j := by
  obtain ⟨before, d, hwithin, hrest⟩ := h
  exact ⟨before, d, hwithin.trans (List.prefix_append _ _), hrest⟩

/-- Writing the rows again does not change where they come from. -/
theorem Recorded.write {maxAttempts : Int} {p : UploadPlan} {v : VersionRow} {j : Job}
    (h : start.Recorded events maxAttempts p v j) (wr : Write) :
    start.Recorded events maxAttempts p (wr.version v) (wr.job j) := by
  obtain ⟨before, e, hwithin, hsaves, ⟨_, hrow⟩, hid, horigin⟩ := h
  obtain ⟨status, hversion⟩ := wr.version_frame v
  refine ⟨before, e, hwithin, hsaves, ⟨status, ?_⟩, ?_, ?_⟩
  · rw [hversion, hrow]
    rfl
  · rw [wr.version_id, hid]
  · rw [wr.job_origin, horigin]

theorem Recorded.target {maxAttempts : Int} {p : UploadPlan} {v : VersionRow} {j : Job}
    (h : start.Recorded events maxAttempts p v j) :
    j.action = .upload ∧ j.documentId = v.documentId ∧ j.documentVersionId = v.id := by
  obtain ⟨before, e, _, _, ⟨_, hrow⟩, hid, horigin⟩ := h
  have haction := congrArg Job.action horigin
  have hdocument := congrArg Job.documentId horigin
  have hversion := congrArg Job.documentVersionId horigin
  refine ⟨haction, ?_, ?_⟩
  · rw [hrow]
    exact hdocument
  · rw [hid]
    exact hversion

/-- Every version was inserted together with an upload job that is still there. -/
theorem run_recorded (h : start.world.store.versions = []) (events : List Event) :
    ∀ v ∈ (start.run events).world.store.versions, ∃ j ∈ (start.run events).world.store.jobs,
      ∃ maxAttempts p, start.Recorded events maxAttempts p v j := by
  refine run_induction (P := fun events σ => ∀ v ∈ σ.world.store.versions, ∃ j ∈ σ.world.store.jobs,
    ∃ maxAttempts p, start.Recorded events maxAttempts p v j) ?_ ?_
  · simp [h]
  · intro before e _ hbefore
    obtain ⟨wr, hwr, _, hsource, _⟩ := (start.run before).step_write e
    generalize hafter : ((start.run before).step e).world.store = s' at hwr
    cases hwr with
    | nothing =>
      intro v hv
      obtain ⟨j, hj, maxAttempts, p, hrecorded⟩ := hbefore v hv
      exact ⟨j, hj, maxAttempts, p, hrecorded.snoc e⟩
    | @made x hallowed =>
      intro u hu
      rcases Write.mem_versions.1 hu with ⟨v, hv, rfl⟩ | hnew
      · obtain ⟨j, hj, maxAttempts, p, hrecorded⟩ := hbefore v hv
        exact ⟨x.job j, Write.mem_jobs.2 (.inl ⟨j, hj, rfl⟩), maxAttempts, p, (hrecorded.write x).snoc e⟩
      · obtain ⟨d, job, rfl⟩ := Write.of_newVersions hnew
        rcases hsource _ rfl with ⟨i, t, t', rfl, ht, hstep⟩ | ⟨c, _, hcall⟩ | ⟨documentId, hx⟩
        · cases hstep with
          | save maxAttempts p =>
            have hsaves : (start.run before).Saves (.resume i) maxAttempts p := ⟨i, rfl, ht, hallowed, hafter⟩
            refine ⟨Ingestion.jobOn maxAttempts p (start.run before).world, ?_, maxAttempts, p, before, .resume i,
              List.prefix_rfl, hsaves, ⟨.pending, rfl⟩, rfl, rfl⟩
            exact Write.mem_jobs.2 (.inr (List.mem_singleton.2 rfl))
        · cases hcall
        · cases hx

/-! ### Receipts -/

end System

/-- The version is the one that the client of the upload was told of. -/
def UploadReceipt.Tells (r : UploadReceipt) (v : VersionRow) : Prop :=
  v.id = r.documentVersionId ∧ v.documentId = r.documentId ∧ v.version = r.version ∧
    v.objectKey = some r.objectKey

theorem UploadReceipt.Tells.commits {r : UploadReceipt} {s s' : Store} {wr : Option Write}
    (h : ∃ v ∈ s.versions, r.Tells v) (hwr : Write.Commits s wr s') : ∃ v ∈ s'.versions, r.Tells v := by
  cases hwr with
  | nothing => exact h
  | @made x _ =>
    obtain ⟨v, hv, hid, hdocument, hversion, hkey⟩ := h
    obtain ⟨_, hframe⟩ := x.version_frame v
    refine ⟨x.version v, Write.mem_versions.2 (.inl ⟨v, hv, rfl⟩), ?_⟩
    rw [hframe]
    exact ⟨hid, hdocument, hversion, hkey⟩

/-- The row of a version has the document, the number and the key that its upload has chosen. -/
theorem VersionRow.Records.chosen {v : VersionRow} {p : UploadPlan} (h : v.Records p) :
    v.documentId = p.document.id ∧ v.version = p.document.currentVersion ∧ v.objectKey = some p.objectKey := by
  obtain ⟨_, hrow⟩ := h
  rw [hrow]
  exact ⟨rfl, rfl, rfl⟩

namespace System

variable {start σ : System} {events : List Event} {e : Event}

/-- Every receipt tells of a version that is there, and no two of them tell of the same. -/
structure Receipted (σ : System) : Prop where
  versions : ∀ (i : Nat) (r : UploadReceipt), σ.tasks[i]? = some (.ended (.ok (.receipt r))) →
    ∃ v ∈ σ.world.store.versions, r.Tells v
  distinct : ∀ (i k : Nat) (r r' : UploadReceipt), σ.tasks[i]? = some (.ended (.ok (.receipt r))) →
    σ.tasks[k]? = some (.ended (.ok (.receipt r'))) → r.documentVersionId = r'.documentVersionId → i = k

/-- A receipt was there before the event, or the event has saved the upload. -/
private theorem step_receipt (hread : σ.Readable) {i : Nat} {r : UploadReceipt}
    (h : (σ.step e).tasks[i]? = some (.ended (.ok (.receipt r)))) :
    σ.tasks[i]? = some (.ended (.ok (.receipt r))) ∨
      ∃ maxAttempts p, e = .resume i ∧ (Ingestion.saveOn maxAttempts p σ.world).Allowed σ.world.store ∧
        r = Ingestion.receiptOn maxAttempts p σ.world ∧
        (σ.step e).world.store = (Ingestion.saveOn maxAttempts p σ.world).apply σ.world.store := by
  rcases step_task h with hold | ⟨_, _, _, hr⟩ | ⟨t, rfl, ht, hr⟩ | ⟨_, _, _, _, _, _, hr⟩
  · exact .inl hold
  · cases hr
  · have hproduces := hread.produces ht
    rw [(step_resume ht).1]
    generalize (t.resume σ.world).2 = w' at hproduces ⊢
    rw [← hr] at hproduces
    cases hproduces with
    | save maxAttempts p hallowed => exact .inr ⟨maxAttempts, p, rfl, hallowed, rfl, rfl⟩
    | other t _ _ wr count hwr hnew hids hpending hinserted hreported =>
      rcases hreported with rfl | ⟨_, hnone⟩
      · exact .inl ht
      · cases hnone
  · cases hr

theorem step_receipted (hread : σ.Readable) (h : σ.Receipted) (e : Event) : (σ.step e).Receipted := by
  refine ⟨?_, ?_⟩
  · intro i r hr
    rcases step_receipt hread hr with hold | ⟨maxAttempts, p, _, _, rfl, hstore⟩
    · obtain ⟨wr, hwr, _⟩ := σ.step_write e
      exact UploadReceipt.Tells.commits (h.versions i r hold) hwr
    · rw [hstore]
      refine ⟨_, Write.mem_versions.2 (.inr (List.mem_singleton.2 rfl)), ?_⟩
      exact ⟨rfl, rfl, rfl, rfl⟩
  · -- The version that is saved now has an identifier that no version has had.
    have hnew : ∀ (k : Nat) (r : UploadReceipt) (maxAttempts : Int) (p : UploadPlan),
        σ.tasks[k]? = some (.ended (.ok (.receipt r))) →
        (Ingestion.saveOn maxAttempts p σ.world).Allowed σ.world.store →
        r.documentVersionId ≠ (Ingestion.receiptOn maxAttempts p σ.world).documentVersionId := by
      intro k r maxAttempts p hk hallowed
      obtain ⟨v, hv, hid, _⟩ := h.versions k r hk
      rw [← hid]
      exact (hallowed.acceptsVersion (List.mem_singleton.2 rfl)).id v hv
    intro i k r r' hi hk hsame
    rcases step_receipt hread hi with hold | ⟨maxAttempts, p, he, hallowed, rfl, _⟩ <;>
      rcases step_receipt hread hk with hold' | ⟨maxAttempts', p', he', hallowed', rfl, _⟩
    · exact h.distinct i k r r' hold hold' hsame
    · exact absurd hsame (hnew i r maxAttempts' p' hold hallowed')
    · exact absurd hsame.symm (hnew k r' maxAttempts p hold' hallowed)
    · exact Event.resume.inj (he.symm.trans he')

theorem run_receipted (hread : σ.Readable) (h : σ.Receipted) (events : List Event) :
    (σ.run events).Receipted := by
  refine run_induction (P := fun _ σ => σ.Receipted) h ?_
  intro before e _ hbefore
  exact step_receipted (run_readable hread before) hbefore e

theorem initial_receipted (objects : ObjectStore) (now : Int) (ids : IdSequence) :
    (initial objects now ids).Receipted := by
  refine ⟨?_, ?_⟩
  · intro i r hr
    simp [initial] at hr
  · intro i k r r' hr
    simp [initial] at hr

theorem run_used (h : ∀ d, σ.Names d → σ.world.ids.Used d.id) (events : List Event) :
    ∀ d, (σ.run events).Names d → (σ.run events).world.ids.Used d.id := by
  refine run_induction (P := fun _ τ => ∀ d, τ.Names d → τ.world.ids.Used d.id) h ?_
  intro before e _ hbefore
  exact step_used hbefore e

/-- Versions with one key are one row, if the identifiers can be parts of a key. -/
theorem version_eq_of_objectKey (hs : σ.world.store.Consistent)
    (hused : ∀ d, σ.Names d → σ.world.ids.Used d.id) (hids : ∀ n, '/' ∉ (σ.world.ids.nth n).toList)
    (hrecords : ∀ v ∈ σ.world.store.versions, ∃ p, v.Records p) {v u : VersionRow}
    (hv : v ∈ σ.world.store.versions) (hu : u ∈ σ.world.store.versions) (hkey : v.objectKey = u.objectKey) :
    v = u := by
  have hslash : ∀ u ∈ σ.world.store.versions, '/' ∉ u.documentId.toList := by
    intro u hu
    obtain ⟨d, hd, hid⟩ := hs.versionDocument u hu
    obtain ⟨n, _, hn⟩ := hused d (.inl hd)
    rw [← hid, hn]
    exact hids n
  obtain ⟨p, hp⟩ := hrecords v hv
  obtain ⟨q, hq⟩ := hrecords u hu
  obtain ⟨hdocument, hversion, hpkey⟩ := hp.chosen
  obtain ⟨hdocument', hversion', hqkey⟩ := hq.chosen
  have hsame : p.objectKey = q.objectKey := by
    rw [hpkey, hqkey] at hkey
    exact Option.some.inj hkey
  obtain ⟨hdocuments, hversions⟩ :=
    objectKey_inj (hdocument ▸ hslash v hv) (hdocument' ▸ hslash u hu) hsame
  refine hs.number_eq hv hu ?_ ?_
  · rw [hdocument, hdocument', hdocuments]
  · rw [hversion, hversion', hversions]

/-! ### Main result -/

private theorem Numbered.document (h : σ.Numbered) {d : Document} (hd : d ∈ σ.world.store.documents) :
    1 ≤ d.currentVersion ∧
      σ.world.store.numbers d.id = (List.range' 1 d.currentVersion.toNat).map Int.ofNat ∧
      ∀ more, ∀ e ∈ (σ.run more).world.store.documents, e.id = d.id → d.currentVersion ≤ e.currentVersion := by
  obtain ⟨hcurrent, hone⟩ := h.store.current d hd
  refine ⟨hone, ?_, ?_⟩
  · rw [hcurrent, Int.toNat_natCast]
    exact h.store.sequence d.id
  · intro more e he hid
    obtain ⟨hcurrent', _⟩ := (run_numbered h more).store.current e he
    have hlength := (σ.run_numbers_prefix more d.id).length_le
    rw [hid] at hcurrent'
    omega

private theorem Receipted.ne (h : σ.Receipted) (hs : σ.world.store.Consistent)
    (hused : ∀ d, σ.Names d → σ.world.ids.Used d.id) (hids : ∀ n, '/' ∉ (σ.world.ids.nth n).toList)
    (hrecords : ∀ v ∈ σ.world.store.versions, ∃ p, v.Records p) {i k : Nat} {r r' : UploadReceipt}
    (hik : i ≠ k) (hr : σ.tasks[i]? = some (.ended (.ok (.receipt r))))
    (hr' : σ.tasks[k]? = some (.ended (.ok (.receipt r')))) :
    (r.documentId, r.version) ≠ (r'.documentId, r'.version) ∧ r.objectKey ≠ r'.objectKey := by
  obtain ⟨v, hv, hid, hdocument, hversion, hkey⟩ := h.versions i r hr
  obtain ⟨u, hu, hid', hdocument', hversion', hkey'⟩ := h.versions k r' hr'
  have hne : v ≠ u := by
    rintro rfl
    exact hik (h.distinct i k r r' hr hr' (hid.symm.trans hid'))
  refine ⟨?_, ?_⟩
  · intro hsame
    obtain ⟨hdocuments, hversions⟩ := Prod.mk.inj hsame
    refine hne (hs.number_eq hv hu ?_ ?_)
    · rw [hdocument, hdocument', hdocuments]
    · rw [hversion, hversion', hversions]
  · intro hsame
    refine hne (version_eq_of_objectKey hs hused hids hrecords hv hu ?_)
    rw [hkey, hkey', hsame]

private theorem Numbered.resume_reindexCurrent (h : σ.Numbered) {maxAttempts : Int} {d : Document}
    {key : Option String} (ht : .reindexCurrent maxAttempts d key ∈ σ.tasks) :
    ∃ v ∈ σ.world.store.versions, ∃ r : EnqueueRequest, v.documentId = d.id ∧ v.version = d.currentVersion ∧
      r.target = d.target v.id ∧
      (Task.reindexCurrent maxAttempts d key).resume σ.world = (.asked (.enqueue maxAttempts r), σ.world) := by
  obtain ⟨hone, hlast⟩ := h.tasks _ ht
  obtain ⟨v, hv, r, hdocument, hversion, htarget, hrequest⟩ :=
    Ingestion.reindexRequest_of_version (h.store.current_mem hone hlast) key
  refine ⟨v, hv, r, hdocument, hversion, htarget, ?_⟩
  simp only [Task.resume, Task.next, Checked.on_bind, Checked.on_lift, hrequest, Checked.on_pure]

/-- After every run the versions of a document are numbered from 1 to its current number, which never decreases.
Every version was inserted in one write with an upload job for it that is still there. No two uploads are
answered with the same version of a document, or with the same key. A reindex that has found its document also
finds the version at the number that it has read, and goes on to ask for the job. -/
theorem numbering (objects : ObjectStore) (now : Int) (ids : IdSequence)
    (hids : ∀ n, '/' ∉ (ids.nth n).toList) (events : List Event) :
    let start := initial objects now ids
    let σ := start.run events
    let s := σ.world.store
    (∀ d ∈ s.documents, 1 ≤ d.currentVersion ∧
      s.numbers d.id = (List.range' 1 d.currentVersion.toNat).map Int.ofNat ∧
      ∀ more, ∀ e ∈ (σ.run more).world.store.documents, e.id = d.id → d.currentVersion ≤ e.currentVersion) ∧
    (∀ v ∈ s.versions, ∃ j ∈ s.jobs, j.action = .upload ∧ j.documentId = v.documentId ∧
      j.documentVersionId = v.id ∧ ∃ maxAttempts p, start.Recorded events maxAttempts p v j) ∧
    (∀ (i k : Nat) (r r' : UploadReceipt), i ≠ k → σ.tasks[i]? = some (.ended (.ok (.receipt r))) →
      σ.tasks[k]? = some (.ended (.ok (.receipt r'))) →
      (r.documentId, r.version) ≠ (r'.documentId, r'.version) ∧ r.objectKey ≠ r'.objectKey) ∧
    ∀ (i : Nat) (maxAttempts : Int) (d : Document) (key : Option String),
      σ.tasks[i]? = some (.reindexCurrent maxAttempts d key) →
      ∃ v ∈ s.versions, ∃ r : EnqueueRequest, v.documentId = d.id ∧ v.version = d.currentVersion ∧
        r.target = d.target v.id ∧
        (Task.reindexCurrent maxAttempts d key).resume σ.world = (.asked (.enqueue maxAttempts r), σ.world) := by
  intro start σ s
  have hnumbered : σ.Numbered := run_numbered (initial_numbered objects now ids) events
  have hrecorded : ∀ v ∈ s.versions, ∃ j ∈ s.jobs, ∃ maxAttempts p, start.Recorded events maxAttempts p v j :=
    run_recorded rfl events
  refine ⟨fun d hd => hnumbered.document hd, ?_, ?_, ?_⟩
  · intro v hv
    obtain ⟨j, hj, maxAttempts, p, h⟩ := hrecorded v hv
    obtain ⟨haction, hdocument, hversion⟩ := h.target
    exact ⟨j, hj, haction, hdocument, hversion, maxAttempts, p, h⟩
  · have hs : s.Consistent := run_consistent Store.consistent_empty events
    have hreceipted : σ.Receipted :=
      run_receipted (initial_readable objects now ids) (initial_receipted objects now ids) events
    have hused : ∀ d, σ.Names d → σ.world.ids.Used d.id :=
      run_used (initial_distinct objects now ids).used events
    have hnth : ∀ n, '/' ∉ (σ.world.ids.nth n).toList := by
      rw [show σ.world.ids.nth = ids.nth from run_ids start events]
      exact hids
    have hrecords : ∀ v ∈ s.versions, ∃ p, v.Records p := by
      intro v hv
      obtain ⟨_, _, _, p, _, _, _, _, h, _⟩ := hrecorded v hv
      exact ⟨p, h⟩
    intro i k r r' hik hr hr'
    exact hreceipted.ne hs hused hnth hrecords hik hr hr'
  · intro i maxAttempts d key ht
    exact hnumbered.resume_reindexCurrent (List.mem_of_getElem? ht)

/-- Two uploads of one name read the same number, and the one that saves too late fails: the versions of the
document have the numbers 1 and 2. -/
theorem numbering_overtaken :
    let upload (content : Bytes) : Event := .start (.upload 3 ⟨"t1", "w1", "kb1", "a.md", content, none⟩)
    let events : List Event :=
      [upload [49], .resume 0, .resume 0, .resume 0, upload [50], upload [51], .resume 1, .resume 2,
        .resume 1, .resume 1, .resume 2, .resume 2]
    let s := ((initial (.memory []) 0 (.numbered "id")).run events).world.store
    (((initial (.memory []) 0 (.numbered "id")).run events).tasks[2]?.any
        fun t => t matches .ended (.error _)) = true ∧
      ∃ d ∈ s.documents, d.currentVersion = 2 ∧ s.numbers d.id = [1, 2] := by
  intro upload events s
  refine ⟨by decide +kernel, ?_⟩
  obtain ⟨d, hd, hcurrent⟩ : ∃ d ∈ s.documents, d.currentVersion = 2 := by
    decide +kernel
  have hids := IdSequence.slash_not_mem_numbered "id" (by decide)
  obtain ⟨_, hnumbers, _⟩ := (numbering (.memory []) 0 (.numbered "id") hids events).1 d hd
  rw [hcurrent] at hnumbers
  exact ⟨d, hd, hcurrent, hnumbers⟩

end System

end IngestionQueue
