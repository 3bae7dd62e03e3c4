import IngestionQueue.Proofs.Fresh

/-!
# What jobs are about

A job names a version, a document, and the tenant and the place of the document, each by itself.  An upload and
a reindex take all of them from one document, so they agree (`JobTarget.Proper`); an enqueue takes them as they
are named.  That they still agree when the job is inserted rests on the identifiers: a document whose upload is
under way is not in the tables yet, and nobody else may come to use its identifier (`System.Distinct`).  The main
result is `System.run_aimed`.
-/

namespace IngestionQueue

/-! ### Documents -/

/-- Documents with one identifier have the same tenant and the same place. -/
def Document.Agrees (d e : Document) : Prop :=
  d.id = e.id → ∀ versionId, d.target versionId = e.target versionId

theorem Document.target_of_origin {d e : Document} (h : d.origin = e.origin) (versionId : String) :
    d.target versionId = e.target versionId := by
  have htarget := congrArg (fun f => f.target versionId) h
  exact htarget

/-- A row is that of a document that was there, or the document was saved just now. -/
theorem Write.Commits.document {s s' : Store} {wr : Option Write} (hwr : Write.Commits s wr s') {d : Document}
    (hd : d ∈ s'.documents) :
    (∃ e ∈ s.documents, d.origin = e.origin) ∨ ∃ v job, wr = some (.save d v job) := by
  cases hwr with
  | nothing => exact .inl ⟨d, hd, rfl⟩
  | @made x _ =>
    rcases Write.mem_documents.1 hd with ⟨e, he, rfl⟩ | hnew
    · exact .inl ⟨e, he, x.document_origin e⟩
    · obtain ⟨⟨v, job, rfl⟩, _⟩ := Write.of_newDocuments hnew
      exact .inr ⟨v, job, rfl⟩

/-- The document that an upload is about to save. -/
def Task.planned : Task → Option Document
  | putObject _ p | saveUpload _ p => some p.document
  | _ => none

/-- An upload plans the next version of a document of its name that is not deleted, or the first version of a
document whose identifier is handed out just now. -/
theorem Ingestion.planOn_document (r : UploadRequest) (w : World) :
    (∃ d ∈ w.store.documentsFrom r.tenantId r.workspaceId r.kbId r.sourceUri,
        (planOn r w).document.origin = d.origin ∧
        (planOn r w).document.currentVersion = d.currentVersion + 1) ∨
      w.store.documentFrom? r.tenantId r.workspaceId r.kbId r.sourceUri = none ∧
        (planOn r w).document.id = w.ids.head ∧ (planOn r w).document.currentVersion = 1 := by
  simp only [planOn, UploadRequest.document]
  cases hfound : w.store.documentFrom? r.tenantId r.workspaceId r.kbId r.sourceUri with
  | none => exact .inr ⟨rfl, rfl, rfl⟩
  | some d => exact .inl ⟨d, Store.mem_documentsFrom.2 (Store.of_documentFrom? hfound), rfl, rfl⟩

theorem Ingestion.planOn_target (r : UploadRequest) (w : World) (v : DocumentVersion) :
    (planOn r w).target v = (planOn r w).document.target v.id := by
  simp only [planOn, UploadRequest.document, UploadPlan.target, Document.target]
  cases hfound : w.store.documentFrom? r.tenantId r.workspaceId r.kbId r.sourceUri with
  | none => rfl
  | some d =>
    obtain ⟨_, ⟨htenant, hworkspace, hkb, _⟩, _⟩ := Store.of_documentFrom? hfound
    simp [htenant, hworkspace, hkb]

/-- The document that an upload comes to plan is a version of one that was there, or its identifier has been drawn
just now. -/
theorem Task.planned_resume_upload {maxAttempts : Int} {r : UploadRequest} {w : World} {d : Document}
    (h : d ∈ ((asked (.upload maxAttempts r)).resume w).1.planned) :
    d = (Ingestion.planOn r w).document ∧
      ((∃ e ∈ w.store.documents, d.origin = e.origin) ∨
        w.store.documentFrom? r.tenantId r.workspaceId r.kbId r.sourceUri = none ∧
          w.ids.Between ((asked (.upload maxAttempts r)).resume w).2.ids d.id) := by
  simp only [resume, next, Checked.on_bind, Checked.on_lift] at h ⊢
  rcases Ingestion.plan_on r w with ⟨e, -, hplan⟩ | ⟨count, hcount, hplan⟩ <;> rw [hplan] at h ⊢
  · cases h
  · obtain rfl : (Ingestion.planOn r w).document = d := Option.some.inj h
    refine ⟨rfl, ?_⟩
    rcases Ingestion.planOn_document r w with ⟨e, he, horigin, _⟩ | ⟨hnone, hid, _⟩
    · exact .inl ⟨e, (Store.mem_documentsFrom.1 he).1, horigin⟩
    · refine .inr ⟨hnone, ?_⟩
      rw [hid, hcount hnone]
      exact ⟨_, Nat.le_refl _, Nat.lt_succ_self _, rfl⟩

namespace System

variable {σ : System} {e : Event}

/-- A document of the tables, or one that an upload is about to save. -/
def Names (σ : System) (d : Document) : Prop :=
  d ∈ σ.world.store.documents ∨ ∃ t ∈ σ.tasks, d ∈ t.planned

/-- The event is the look-up of an upload that finds no document of its name, and that names the document `d` with
an identifier that is new. -/
def Opens (σ : System) (e : Event) (d : Document) : Prop :=
  ∃ i maxAttempts r, e = .resume i ∧ σ.tasks[i]? = some (.asked (.upload maxAttempts r)) ∧
    σ.world.store.documentFrom? r.tenantId r.workspaceId r.kbId r.sourceUri = none ∧
    d = (Ingestion.planOn r σ.world).document ∧ σ.world.ids.Between (σ.step e).world.ids d.id

/-- No two documents share an identifier, which was handed out for one of them. -/
structure Distinct (σ : System) : Prop where
  used : ∀ d, σ.Names d → σ.world.ids.Used d.id
  agrees : ∀ d e, σ.Names d → σ.Names e → d.Agrees e

theorem step_follows (σ : System) (e : Event) : σ.world.ids.Follows (σ.step e).world.ids := by
  have hmove := σ.step_move e
  generalize σ.step e = σ' at hmove ⊢
  cases hmove with
  | resume i count t t' wr store ht hstep hwr => exact ⟨rfl, Nat.le_add_right _ _⟩
  | _ => exact ⟨rfl, Nat.le_refl _⟩

theorem run_follows (σ : System) (events : List Event) : σ.world.ids.Follows (σ.run events).world.ids := by
  refine run_induction (P := fun _ τ => σ.world.ids.Follows τ.world.ids) ⟨rfl, Nat.le_refl _⟩ ?_
  intro before e _ hbefore
  exact hbefore.trans ((σ.run before).step_follows e)

/-- A document of the tables was named before the event. -/
private theorem step_row_named {d : Document} (hd : d ∈ (σ.step e).world.store.documents) :
    ∃ f, σ.Names f ∧ d.origin = f.origin := by
  obtain ⟨wr, hwr, hadds⟩ := σ.step_adds e
  rcases hwr.document hd with ⟨f, hf, horigin⟩ | ⟨v, job, rfl⟩
  · exact ⟨f, .inl hf, horigin⟩
  · rcases hadds _ rfl with ⟨_, hnone, _⟩ | ⟨job, _, hx⟩ | ⟨maxAttempts, p, ht, hx⟩
    · cases hnone
    · cases hx
    · obtain ⟨rfl, _, _⟩ := Write.save.inj hx
      exact ⟨_, .inr ⟨_, ht, rfl⟩, rfl⟩

/-- A document that a task plans was planned before the event, or it was there, or the task has just planned it.
-/
private theorem step_planned {t' : Task} {d : Document} (ht' : t' ∈ (σ.step e).tasks) (hd : d ∈ t'.planned) :
    (∃ f, σ.Names f ∧ d.origin = f.origin) ∨ σ.Opens e d := by
  obtain ⟨i, hi⟩ := List.getElem?_of_mem ht'
  rcases step_task hi with hold | ⟨r, _, _, rfl⟩ | ⟨t, rfl, ht, rfl⟩ | ⟨worker, job, phase, message, _, _, rfl⟩
  · exact .inl ⟨d, .inr ⟨t', List.mem_of_getElem? hold, hd⟩, rfl⟩
  · cases hd
  · obtain ⟨wr, _, _, hstep, _, _⟩ := t.resume_step σ.world
    generalize ht'' : (t.resume σ.world).1 = t'' at hstep
    cases hstep with
    | plan m r =>
      obtain ⟨hplanned, ⟨f, hf, horigin⟩ | ⟨hnone, hbetween⟩⟩ := Task.planned_resume_upload hd
      · exact .inl ⟨f, .inl hf, horigin⟩
      · rw [← (step_resume ht).1] at hbetween
        exact .inr ⟨i, m, r, rfl, ht, hnone, hplanned, hbetween⟩
    | put m p =>
      rw [ht''] at hd
      exact .inl ⟨d, .inr ⟨_, List.mem_of_getElem? ht, hd⟩, rfl⟩
    | _ =>
      rw [ht''] at hd
      cases hd
  · cases hd

/-- What is named after an event was named before, or it is opened by the event. -/
theorem step_names {d : Document} (h : (σ.step e).Names d) :
    (∃ f, σ.Names f ∧ d.origin = f.origin) ∨ σ.Opens e d := by
  rcases h with hrow | ⟨t, ht, hd⟩
  · exact .inl (step_row_named hrow)
  · exact step_planned ht hd

/-- An event opens at most one document. -/
theorem Opens.unique {d f : Document} (hd : σ.Opens e d) (hf : σ.Opens e f) : d = f := by
  obtain ⟨i, m, r, rfl, ht, _, rfl, _⟩ := hd
  obtain ⟨k, m', r', he, ht', _, rfl, _⟩ := hf
  obtain rfl := Event.resume.inj he
  obtain ⟨_, rfl⟩ : m = m' ∧ r = r' := by simpa using ht.symm.trans ht'
  rfl

theorem Opens.between {d : Document} (h : σ.Opens e d) : σ.world.ids.Between (σ.step e).world.ids d.id := by
  obtain ⟨_, _, _, _, _, _, _, hbetween⟩ := h
  exact hbetween

theorem step_used (h : ∀ d, σ.Names d → σ.world.ids.Used d.id) (e : Event) (d : Document)
    (hd : (σ.step e).Names d) : (σ.step e).world.ids.Used d.id := by
  rcases step_names hd with ⟨f, hf, horigin⟩ | hopens
  · rw [Document.id_of_origin horigin]
    exact (h f hf).follows (σ.step_follows e)
  · exact hopens.between.used (σ.step_follows e)

theorem step_distinct (hnth : Function.Injective σ.world.ids.nth) (h : σ.Distinct) (e : Event) :
    (σ.step e).Distinct := by
  refine ⟨step_used h.used e, ?_⟩
  intro d f hd hf hid
  rcases step_names hd with ⟨d', hd', hdorigin⟩ | hdopens <;>
    rcases step_names hf with ⟨f', hf', hforigin⟩ | hfopens
  · intro versionId
    have hid' : d'.id = f'.id := by
      rw [← Document.id_of_origin hdorigin, hid, Document.id_of_origin hforigin]
    rw [Document.target_of_origin hdorigin, Document.target_of_origin hforigin]
    exact h.agrees d' f' hd' hf' hid' versionId
  · -- An identifier that is new is none of those that were named before.
    have hsame : d'.id = f.id := by rw [← Document.id_of_origin hdorigin, hid]
    exact absurd hsame (hfopens.between.ne hnth (h.used d' hd'))
  · have hsame : f'.id = d.id := by rw [← Document.id_of_origin hforigin, hid]
    exact absurd hsame (hdopens.between.ne hnth (h.used f' hf'))
  · obtain rfl := hdopens.unique hfopens
    exact fun _ => rfl

theorem initial_distinct (objects : ObjectStore) (now : Int) (ids : IdSequence) :
    (initial objects now ids).Distinct := by
  have hnone : ∀ d, ¬(initial objects now ids).Names d := by
    simp [Names, initial, Store.empty]
  exact ⟨fun d hd => absurd hd (hnone d), fun d _ hd => absurd hd (hnone d)⟩

end System

/-! ### Targets -/

/-- What the target names is one version of the tables, the document that it belongs to, and the tenant and the
place of this document. -/
def JobTarget.Proper (x : JobTarget) (s : Store) : Prop :=
  ∃ v ∈ s.versions, ∃ d ∈ s.documents, v.documentId = d.id ∧ v.tenantId = d.tenantId ∧ x = d.target v.id

theorem JobTarget.Proper.commits {x : JobTarget} {s s' : Store} {wr : Option Write} (h : x.Proper s)
    (hwr : Write.Commits s wr s') : x.Proper s' := by
  cases hwr with
  | nothing => exact h
  | @made y _ =>
    obtain ⟨v, hv, d, hd, hdocument, htenant, rfl⟩ := h
    obtain ⟨_, hversion⟩ := y.version_frame v
    obtain ⟨_, _, _, _, hframe⟩ := y.document_frame d
    refine ⟨y.version v, Write.mem_versions.2 (.inl ⟨v, hv, rfl⟩), y.document d,
      Write.mem_documents.2 (.inl ⟨d, hd, rfl⟩), ?_, ?_, ?_⟩
    · rw [hversion, hframe, hdocument]
    · rw [hversion, hframe, htenant]
    · rw [hversion, hframe]
      rfl

/-- An enqueue was started that names the target. -/
def JobTarget.Named (x : JobTarget) (events : List Event) : Prop :=
  ∃ maxAttempts r, .start (.enqueue maxAttempts r) ∈ events ∧ r.target = x

def JobTarget.Aimed (x : JobTarget) (events : List Event) (s : Store) : Prop :=
  x.Proper s ∨ x.Named events

theorem JobTarget.Aimed.commits {x : JobTarget} {events : List Event} {s s' : Store} {wr : Option Write}
    (h : x.Aimed events s) (hwr : Write.Commits s wr s') : x.Aimed events s' :=
  h.imp_left fun hproper => hproper.commits hwr

theorem JobTarget.Aimed.snoc {x : JobTarget} {events : List Event} {s : Store} (h : x.Aimed events s)
    (e : Event) : x.Aimed (events ++ [e]) s := by
  refine h.imp_right ?_
  rintro ⟨maxAttempts, r, hmem, htarget⟩
  exact ⟨maxAttempts, r, List.mem_append_left _ hmem, htarget⟩

/-- Every version has the tenant of the document that it belongs to. -/
def Store.Owned (s : Store) : Prop :=
  ∀ v ∈ s.versions, ∃ d ∈ s.documents, d.id = v.documentId ∧ d.tenantId = v.tenantId

theorem Store.Owned.proper {s : Store} (h : s.Owned) (hs : s.Consistent) {v : VersionRow} {d : Document}
    (hv : v ∈ s.versions) (hd : d ∈ s.documents) (hdocument : v.documentId = d.id) :
    (d.target v.id).Proper s := by
  obtain ⟨e, he, hid, htenant⟩ := h v hv
  obtain rfl : e = d := hs.document_eq he hd (hid.trans hdocument)
  exact ⟨v, hv, e, hd, hdocument, htenant.symm, rfl⟩

namespace Task

/-- What a task knows of the target that it will ask for: it is proper or was named by an enqueue. A reindex has
read its document, and an upload has chosen one of its own tenant and place. -/
def Aimed (events : List Event) (s : Store) : Task → Prop
  | asked (.enqueue _ r) => r.target.Aimed events s
  | insertJob job => job.target.Aimed events s
  | reindexCurrent _ d _ => ∃ e ∈ s.documents, ∀ versionId, d.target versionId = e.target versionId
  | putObject _ p | saveUpload _ p => ∀ v, p.target v = p.document.target v.id
  | _ => True

variable {events : List Event} {s s' : Store} {w : World} {t t' : Task} {wr : Option Write}

theorem Aimed.snoc (h : t.Aimed events s) (e : Event) : t.Aimed (events ++ [e]) s := by
  cases t with
  | asked r =>
    cases r with
    | enqueue maxAttempts r => exact JobTarget.Aimed.snoc h e
    | _ => trivial
  | insertJob job => exact JobTarget.Aimed.snoc h e
  | _ => exact h

theorem Aimed.commits (h : t.Aimed events s) (hwr : Write.Commits s wr s') : t.Aimed events s' := by
  cases t with
  | asked r =>
    cases r with
    | enqueue maxAttempts r => exact JobTarget.Aimed.commits h hwr
    | _ => trivial
  | insertJob job => exact JobTarget.Aimed.commits h hwr
  | reindexCurrent maxAttempts d key =>
    cases hwr with
    | nothing => exact h
    | @made x _ =>
      obtain ⟨e, he, htarget⟩ := h
      refine ⟨x.document e, Write.mem_documents.2 (.inl ⟨e, he, rfl⟩), fun versionId => ?_⟩
      rw [Document.target_of_origin (x.document_origin e), htarget]
  | _ => exact h

theorem Step.aimed (hstep : Step w t wr t') (h : t.Aimed events w.store) (hs : w.store.Consistent)
    (howned : w.store.Owned) : t'.Aimed events w.store := by
  cases hstep with
  | lookUp maxAttempts r action => exact h
  | liveDocument maxAttempts tenantId documentId key d hd =>
    exact ⟨d, List.mem_of_find?_eq_some hd, fun _ => rfl⟩
  | reindexRequest maxAttempts d key v r hv hdocument htarget =>
    obtain ⟨e, he, hsame⟩ := h
    have hid : d.id = e.id := congrArg JobTarget.documentId (hsame "")
    refine .inl ?_
    rw [htarget, hsame]
    exact howned.proper hs hv he (hdocument.trans hid)
  | plan maxAttempts r => exact Ingestion.planOn_target r w
  | put maxAttempts p hput => exact h
  | _ => trivial

end Task

namespace System

/-- Versions belong to documents of their tenant, and every job is about a proper target or one that was named. -/
structure Aimed (events : List Event) (σ : System) : Prop where
  distinct : σ.Distinct
  consistent : σ.world.store.Consistent
  owned : σ.world.store.Owned
  rows : ∀ j ∈ σ.world.store.jobs, j.target.Aimed events σ.world.store
  tasks : ∀ t ∈ σ.tasks, t.Aimed events σ.world.store

variable {σ : System} {events : List Event} {e : Event}

/-- The document of an upload is in the tables once it is saved, with the tenant and the place of the request. -/
theorem Aimed.saved (h : σ.Aimed events) {maxAttempts : Int} {p : UploadPlan}
    (ht : .saveUpload maxAttempts p ∈ σ.tasks)
    (hallowed : (Ingestion.saveOn maxAttempts p σ.world).Allowed σ.world.store) :
    ∃ d ∈ ((Ingestion.saveOn maxAttempts p σ.world).apply σ.world.store).documents,
      d.id = p.document.id ∧ ∀ v, p.target v = d.target v.id := by
  have hversion : VersionRow.ofVersion (Ingestion.versionOn p σ.world) ∈
      (Ingestion.saveOn maxAttempts p σ.world).newVersions := List.mem_singleton.2 rfl
  obtain ⟨d, hd, hid⟩ := (hallowed.acceptsVersion hversion).document
  have hid : d.id = p.document.id := hid
  refine ⟨d, hd, hid, fun v => ?_⟩
  have hplanned : σ.Names p.document := .inr ⟨_, ht, rfl⟩
  rw [h.tasks _ ht v]
  rcases Write.Commits.document (.made hallowed) hd with ⟨f, hf, horigin⟩ | ⟨_, _, hsave⟩
  · have hfid : d.id = f.id := Document.id_of_origin horigin
    rw [Document.target_of_origin horigin]
    exact h.distinct.agrees _ _ hplanned (.inl hf) (hid.symm.trans hfid) v.id
  · simp only [Ingestion.saveOn, Option.some.injEq, Write.save.injEq] at hsave
    rw [hsave.1]

/-- A saved version belongs to a document of its tenant, and its job is about the two. -/
private theorem Aimed.saved_proper (h : σ.Aimed events) {maxAttempts : Int} {p : UploadPlan}
    (ht : .saveUpload maxAttempts p ∈ σ.tasks)
    (hallowed : (Ingestion.saveOn maxAttempts p σ.world).Allowed σ.world.store) :
    ∃ d ∈ ((Ingestion.saveOn maxAttempts p σ.world).apply σ.world.store).documents,
      d.id = p.document.id ∧ d.tenantId = p.request.tenantId ∧
      (Ingestion.jobOn maxAttempts p σ.world).target.Proper
        ((Ingestion.saveOn maxAttempts p σ.world).apply σ.world.store) := by
  obtain ⟨d, hd, hid, htarget⟩ := h.saved ht hallowed
  have htenant : p.request.tenantId = d.tenantId :=
    congrArg JobTarget.tenantId (htarget (Ingestion.versionOn p σ.world))
  refine ⟨d, hd, hid, htenant.symm, VersionRow.ofVersion (Ingestion.versionOn p σ.world), ?_, d, hd, hid.symm,
    htenant, htarget (Ingestion.versionOn p σ.world)⟩
  exact Write.mem_versions.2 (.inr (List.mem_singleton.2 rfl))

theorem step_owned (h : σ.Aimed events) (e : Event) : (σ.step e).world.store.Owned := by
  obtain ⟨wr, hwr, hadds⟩ := σ.step_adds e
  generalize (σ.step e).world.store = s' at hwr
  cases hwr with
  | nothing => exact h.owned
  | @made x hallowed =>
    intro u hu
    rcases Write.mem_versions.1 hu with ⟨v, hv, rfl⟩ | hnew
    · obtain ⟨d, hd, hid, htenant⟩ := h.owned v hv
      obtain ⟨_, hversion⟩ := x.version_frame v
      obtain ⟨_, _, _, _, hframe⟩ := x.document_frame d
      refine ⟨x.document d, Write.mem_documents.2 (.inl ⟨d, hd, rfl⟩), ?_, ?_⟩
      · rw [hversion, hframe, hid]
      · rw [hversion, hframe, htenant]
    · rcases hadds x rfl with ⟨_, hnone, _⟩ | ⟨job, _, rfl⟩ | ⟨maxAttempts, p, ht, rfl⟩
      · rw [hnone] at hnew
        cases hnew
      · cases hnew
      · obtain rfl : u = VersionRow.ofVersion (Ingestion.versionOn p σ.world) := List.mem_singleton.1 hnew
        obtain ⟨d, hd, hid, htenant, _⟩ := h.saved_proper ht hallowed
        exact ⟨d, hd, hid, htenant⟩

theorem step_aimed_rows (h : σ.Aimed events) (e : Event) :
    ∀ k ∈ (σ.step e).world.store.jobs, k.target.Aimed events (σ.step e).world.store := by
  obtain ⟨wr, hwr, hadds⟩ := σ.step_adds e
  have hcommits := hwr
  generalize (σ.step e).world.store = s' at hwr hcommits ⊢
  intro k hk
  cases hwr with
  | nothing => exact h.rows k hk
  | @made x hallowed =>
    rcases Write.mem_jobs.1 hk with ⟨j, hj, rfl⟩ | hnew
    · rw [Job.target_of_origin (x.job_origin j)]
      exact (h.rows j hj).commits hcommits
    · rcases hadds x rfl with ⟨hnone, _⟩ | ⟨job, ht, rfl⟩ | ⟨maxAttempts, p, ht, rfl⟩
      · rw [hnone] at hnew
        cases hnew
      · obtain rfl : k = job := List.mem_singleton.1 hnew
        exact (h.tasks _ ht).commits hcommits
      · obtain rfl : k = Ingestion.jobOn maxAttempts p σ.world := List.mem_singleton.1 hnew
        obtain ⟨_, _, _, _, hproper⟩ := h.saved_proper ht hallowed
        exact .inl hproper

theorem step_aimed (hnth : Function.Injective σ.world.ids.nth) (h : σ.Aimed events) (e : Event) :
    (σ.step e).Aimed (events ++ [e]) where
  distinct := step_distinct hnth h.distinct e
  consistent := step_consistent h.consistent e
  owned := step_owned h e
  rows k hk := (step_aimed_rows h e k hk).snoc e
  tasks := by
    obtain ⟨wr, hwr, _⟩ := σ.step_write e
    intro t ht
    refine Task.Aimed.commits (σ.step_tasks e (fun t ht => (h.tasks t ht).snoc e) ?_ ?_ ?_ t ht) hwr
    · rintro r rfl
      cases r with
      | enqueue maxAttempts r => exact .inr ⟨maxAttempts, r, by simp, rfl⟩
      | _ => trivial
    · exact fun i t wr t' _ _ ht hstep => hstep.aimed ht h.consistent h.owned
    · exact fun worker job phase e _ => trivial

theorem run_aimed (hnth : Function.Injective σ.world.ids.nth) (h : σ.Aimed []) (events : List Event) :
    (σ.run events).Aimed events := by
  refine run_induction (P := fun events τ => τ.Aimed events) h ?_
  intro before e _ hbefore
  exact step_aimed (by rwa [run_ids]) hbefore e

theorem initial_aimed (objects : ObjectStore) (now : Int) (ids : IdSequence) :
    (initial objects now ids).Aimed [] := by
  refine ⟨initial_distinct objects now ids, Store.consistent_empty, ?_, ?_, ?_⟩ <;>
    simp [initial, Store.empty, Store.Owned]

end System

end IngestionQueue
