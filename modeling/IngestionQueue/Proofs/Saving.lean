import IngestionQueue.Proofs.Consistency

/-!
# Saving an upload

An upload writes a document, a version of it and perhaps a job, one after the other, and each of the three may break a
rule of its table after the ones before it were written.  What the three ask of the tables can be said of the tables as
they are found, before anything is written (`Store.AcceptsUpload`, `Write.allowed_save_iff`).  If they find it, each
table differs by the one row that was written, and that row is read back as it was given (`Store.Saved`).  If not,
nothing is written (`Query.saving`).
-/

namespace IngestionQueue

/-! ### The document -/

namespace Store

variable {s : Store} {d : Document}

theorem documents_withDocument_of_new (h : ∀ e ∈ s.documents, e.id ≠ d.id) :
    (s.withDocument d).documents = s.documents ++ [d] := by
  have hhas : ¬s.hasDocument d.id = true := by simpa [hasDocument] using h
  simp [withDocument, hhas, Document.map_overwrite_of_ne h]

/-- Of a document that is there already the one row is written that has its identifier. -/
theorem documents_withDocument_of_there (hs : s.Consistent) {before after : List Document} {e : Document}
    (hrows : s.documents = before ++ e :: after) (hid : e.id = d.id) :
    (s.withDocument d).documents = before ++ d.overwrite e :: after := by
  have hhas : s.hasDocument d.id = true := by simp [hasDocument, hrows, hid]
  -- No other row has the identifier, so those before and after it are as they were.
  have hids := hs.documentIds
  rw [hrows, List.map_append, List.map_cons, List.nodup_append, List.nodup_cons] at hids
  obtain ⟨-, ⟨hafter, -⟩, hbefore⟩ := hids
  have hbefore' : ∀ f ∈ before, f.id ≠ d.id := fun f hf =>
    hid ▸ hbefore f.id (List.mem_map_of_mem hf) e.id List.mem_cons_self
  have hafter' : ∀ f ∈ after, f.id ≠ d.id := fun f hf hsame =>
    hafter (List.mem_map.2 ⟨f, hf, hsame.trans hid.symm⟩)
  simp [withDocument, hhas, hrows, Document.map_overwrite_of_ne hbefore', Document.map_overwrite_of_ne hafter']

/-- After a document was written there are the documents that were there, and that one. -/
theorem exists_withDocument {id : String} :
    (∃ e ∈ (s.withDocument d).documents, e.id = id) ↔ id = d.id ∨ ∃ e ∈ s.documents, e.id = id := by
  by_cases hthere : ∃ e ∈ s.documents, e.id = d.id
  · have hhas : s.hasDocument d.id = true := by simpa [hasDocument] using hthere
    have hold : (∃ e ∈ (s.withDocument d).documents, e.id = id) ↔ ∃ e ∈ s.documents, e.id = id := by
      simp [withDocument, hhas]
    rw [hold]
    constructor
    · exact .inr
    · rintro (rfl | hother)
      · exact hthere
      · exact hother
  · have hnew : ∀ e ∈ s.documents, e.id ≠ d.id := by simpa using hthere
    rw [documents_withDocument_of_new hnew]
    constructor
    · rintro ⟨e, he, rfl⟩
      rcases List.mem_append.1 he with hold | hsaved
      · exact .inr ⟨e, hold, rfl⟩
      · exact .inl (congrArg Document.id (List.mem_singleton.1 hsaved))
    · rintro (rfl | ⟨e, he, rfl⟩)
      · exact ⟨d, by simp, rfl⟩
      · exact ⟨e, List.mem_append_left _ he, rfl⟩

end Store

/-! ### What the tables ask of an upload -/

namespace Store

/-- A job that comes with an upload keeps the rules: its document and its version are written with it or there. -/
structure AcceptsJobOf (s : Store) (d : Document) (v : DocumentVersion) (j : Job) : Prop where
  id : ∀ k ∈ s.jobs, k.id ≠ j.id
  key : ∀ k ∈ s.jobs, ¬(k.tenantId = j.tenantId ∧ k.idempotencyKey = j.idempotencyKey)
  document : j.documentId = d.id ∨ ∃ e ∈ s.documents, e.id = j.documentId
  version : j.documentVersionId = v.id ∨ ∃ r ∈ s.versions, r.id = j.documentVersionId
  progress : 0 ≤ j.progress ∧ j.progress ≤ 100
  maxAttempts : 1 ≤ j.maxAttempts

/-- An upload keeps the rules of the tables. -/
structure AcceptsUpload (s : Store) (d : Document) (v : DocumentVersion) (job : Option Job) : Prop where
  id : ∀ r ∈ s.versions, r.id ≠ v.id
  number : ∀ r ∈ s.versions, ¬(r.documentId = v.documentId ∧ r.version = v.version)
  document : v.documentId = d.id ∨ ∃ e ∈ s.documents, e.id = v.documentId
  job : ∀ j ∈ job, s.AcceptsJobOf d v j

variable {s : Store} {d : Document} {v : DocumentVersion}

theorem acceptsVersion_iff :
    (s.withDocument d).AcceptsVersion (.ofVersion v) ↔ s.AcceptsUpload d v none := by
  constructor
  · intro h
    exact ⟨h.id, h.number, exists_withDocument.1 h.document, by simp⟩
  · intro h
    exact ⟨h.number, h.id, exists_withDocument.2 h.document⟩

theorem acceptsJob_iff {j : Job} :
    ((s.withDocument d).withVersion (.ofVersion v)).AcceptsJob j ↔ s.AcceptsJobOf d v j := by
  have hversion : (∃ r ∈ s.versions ++ [VersionRow.ofVersion v], r.id = j.documentVersionId) ↔
      j.documentVersionId = v.id ∨ ∃ r ∈ s.versions, r.id = j.documentVersionId := by
    constructor
    · rintro ⟨r, hr, hid⟩
      rcases List.mem_append.1 hr with hold | hnew
      · exact .inr ⟨r, hold, hid⟩
      · exact .inl (hid.symm.trans (congrArg VersionRow.id (List.mem_singleton.1 hnew)))
    · rintro (hid | ⟨r, hr, hid⟩)
      · exact ⟨.ofVersion v, by simp, hid.symm⟩
      · exact ⟨r, List.mem_append_left _ hr, hid⟩
  constructor
  · intro h
    exact ⟨h.id, h.key, exists_withDocument.1 h.document, hversion.1 h.version, h.progress, h.maxAttempts⟩
  · intro h
    exact ⟨h.progress, h.maxAttempts, h.key, h.id, exists_withDocument.2 h.document, hversion.2 h.version⟩

end Store

theorem Write.allowed_save_iff {s : Store} {d : Document} {v : DocumentVersion} {job : Option Job} :
    (Write.save d (.ofVersion v) job).Allowed s ↔ s.AcceptsUpload d v job := by
  constructor
  · rintro ⟨hversion, hjob⟩
    have hupload := Store.acceptsVersion_iff.1 hversion
    exact ⟨hupload.id, hupload.number, hupload.document, fun j hj => Store.acceptsJob_iff.1 (hjob j hj)⟩
  · intro h
    exact ⟨Store.acceptsVersion_iff.2 ⟨h.id, h.number, h.document, by simp⟩,
      fun j hj => Store.acceptsJob_iff.2 (h.job j hj)⟩

/-! ### Reading back -/

/-- The row of a version holds all of it. -/
theorem VersionRow.toVersion_ofVersion (v : DocumentVersion) : (VersionRow.ofVersion v).toVersion = v := by
  have hparser : ∀ p : ParserType, ParserType.ofStored (some p.name) = p := by
    intro p
    cases p <;> decide
  simp [toVersion, ofVersion, hparser]

namespace Store.Consistent

variable {s : Store}

theorem document?_eq (h : s.Consistent) {d : Document} (hd : d ∈ s.documents) :
    s.document? d.tenantId d.id = some d := by
  refine find?_eq_of_unique hd (by simp) fun e he hsame => ?_
  obtain ⟨-, hid⟩ : e.tenantId = d.tenantId ∧ e.id = d.id := by simpa using hsame
  exact h.document_eq he hd hid

theorem version?_eq (h : s.Consistent) {r : VersionRow} (hr : r ∈ s.versions) :
    s.version? r.documentId r.version = some r.toVersion := by
  have hfound : s.versions.find? (fun u => u.documentId == r.documentId && u.version == r.version) = some r := by
    refine find?_eq_of_unique hr (by simp) fun u hu hsame => ?_
    obtain ⟨hdocument, hversion⟩ : u.documentId = r.documentId ∧ u.version = r.version := by simpa using hsame
    exact h.number_eq hu hr hdocument hversion
  rw [version?, hfound, Option.map_some]

theorem jobById?_eq (h : s.Consistent) {j : Job} (hj : j ∈ s.jobs) : s.jobById? j.id = some j :=
  find?_eq_of_unique hj (by simp) fun k hk hsame => h.job_eq hk hj (by simpa using hsame)

theorem jobByKey?_eq (h : s.Consistent) {j : Job} (hj : j ∈ s.jobs) :
    s.jobByKey? j.tenantId j.idempotencyKey = some j := by
  refine find?_eq_of_unique hj (by simp) fun k hk hsame => ?_
  obtain ⟨htenant, hkey⟩ : k.tenantId = j.tenantId ∧ k.idempotencyKey = j.idempotencyKey := by simpa using hsame
  exact h.job_eq_of_key hk hj htenant hkey

end Store.Consistent

/-! ### All or nothing -/

/-- The tables after an upload: the document is new, or one row has a new title, version, status and time; a version
and the job are new; and what was written is read back as it was given. -/
structure Store.Saved (s : Store) (d : Document) (v : DocumentVersion) (job : Option Job) (s' : Store) : Prop where
  document :
    ((∀ e ∈ s.documents, e.id ≠ d.id) ∧ s'.documents = s.documents ++ [d] ∧
      s'.document? d.tenantId d.id = some d) ∨
    ∃ before e after, s.documents = before ++ e :: after ∧ e.id = d.id ∧
      let written : Document :=
        { e with title := d.title, currentVersion := d.currentVersion, status := d.status, updatedAt := d.updatedAt }
      s'.documents = before ++ written :: after ∧ s'.document? e.tenantId e.id = some written
  versions : s'.versions = s.versions ++ [.ofVersion v]
  version : s'.version? v.documentId v.version = some v
  jobs : s'.jobs = s.jobs ++ job.toList
  job : ∀ j ∈ job, s'.jobById? j.id = some j ∧ s'.jobByKey? j.tenantId j.idempotencyKey = some j
  chunks : s'.chunks = s.chunks

/-- An upload that keeps the rules writes the rows that it was given, and no others. -/
theorem Store.Consistent.saved {s : Store} (hs : s.Consistent) {d : Document} {v : DocumentVersion} {job : Option Job}
    (h : s.AcceptsUpload d v job) : s.Saved d v job ((Write.save d (.ofVersion v) job).apply s) := by
  -- The tables are consistent again, so a row is found by what identifies it.
  have hs' : ((Write.save d (.ofVersion v) job).apply s).Consistent := hs.apply (Write.allowed_save_iff.2 h)
  have hversions : ((Write.save d (.ofVersion v) job).apply s).versions = s.versions ++ [.ofVersion v] := by
    simp [Write.apply]
  have hjobs : ((Write.save d (.ofVersion v) job).apply s).jobs = s.jobs ++ job.toList := by simp [Write.apply]
  refine ⟨?_, hversions, ?_, hjobs, fun j hj => ?_, rfl⟩
  · by_cases hthere : ∃ e ∈ s.documents, e.id = d.id
    · obtain ⟨e, he, hid⟩ := hthere
      obtain ⟨before, after, hrows⟩ := List.append_of_mem he
      have hdocuments : ((Write.save d (.ofVersion v) job).apply s).documents = before ++ d.overwrite e :: after :=
        documents_withDocument_of_there hs hrows hid
      have hread := hs'.document?_eq (d := d.overwrite e) (by simp [hdocuments])
      have hwritten : d.overwrite e = { e with
          title := d.title
          currentVersion := d.currentVersion
          status := d.status
          updatedAt := d.updatedAt } := if_pos hid
      rw [hwritten] at hdocuments hread
      exact .inr ⟨before, e, after, hrows, hid, hdocuments, hread⟩
    · have hnew : ∀ e ∈ s.documents, e.id ≠ d.id := by simpa using hthere
      have hdocuments : ((Write.save d (.ofVersion v) job).apply s).documents = s.documents ++ [d] :=
        documents_withDocument_of_new hnew
      exact .inl ⟨hnew, hdocuments, hs'.document?_eq (by simp [hdocuments])⟩
  · have hread := hs'.version?_eq (r := .ofVersion v) (by simp [hversions])
    rwa [VersionRow.toVersion_ofVersion] at hread
  · have hmem : j ∈ ((Write.save d (.ofVersion v) job).apply s).jobs := by
      rw [hjobs]
      exact List.mem_append_right _ (by simpa using hj)
    exact ⟨hs'.jobById?_eq hmem, hs'.jobByKey?_eq hmem⟩

namespace Query

variable {s : Store} {d : Document} {v : DocumentVersion}

theorem saveUpload_of_accepts {job : Option Job} (h : s.AcceptsUpload d v job) :
    (saveUpload d v job).on s = (.ok (), (Write.save d (.ofVersion v) job).apply s) := by
  obtain ⟨hversion, hjob⟩ := Write.allowed_save_iff.2 h
  simp only [saveUpload, on_atomically, on_bind, upsertDocument_on, insertVersion_of_accepts hversion]
  cases job with
  | none => simp [Write.apply, Store.withVersion, Store.withDocument]
  | some j =>
    simp only [on_bind, insertJob_of_accepts (hjob j rfl)]
    simp [Write.apply, Store.withVersion, Store.withDocument]

/-- The table does not refuse a job whose key is taken.  That none was inserted takes the upload back. -/
theorem saveUpload_of_hasKey {j : Job} (h : s.AcceptsUpload d v none)
    (hprogress : 0 ≤ j.progress ∧ j.progress ≤ 100) (hattempts : 1 ≤ j.maxAttempts)
    (hkey : s.HasKey j.tenantId j.idempotencyKey) :
    (saveUpload d v (some j)).on s =
      (.error (.conflict s!"job with key {j.idempotencyKey} already exists"), s) := by
  have hversion := Store.acceptsVersion_iff.2 h
  have hfound : (insertJob j).on ((s.withDocument d).withVersion (.ofVersion v)) =
      (.ok false, (s.withDocument d).withVersion (.ofVersion v)) :=
    insertJob_of_hasKey hprogress hattempts hkey
  simp only [saveUpload, on_atomically, on_bind, upsertDocument_on, insertVersion_of_accepts hversion, hfound]
  rfl

/-- An upload is saved if it keeps the rules of the tables, and then they differ by what it wrote.  Otherwise it fails,
whichever of its rows is at fault, and all tables are as they were. -/
theorem saving (hs : s.Consistent) (d : Document) (v : DocumentVersion) (job : Option Job) :
    (s.AcceptsUpload d v job ∧ ∃ s', (saveUpload d v job).on s = (.ok (), s') ∧ s.Saved d v job s') ∨
      (¬s.AcceptsUpload d v job ∧ ∃ e, (saveUpload d v job).on s = (.error e, s)) := by
  by_cases h : s.AcceptsUpload d v job
  · exact .inl ⟨h, _, saveUpload_of_accepts h, hs.saved h⟩
  · rcases saveUpload_on d v job s with herror | ⟨hallowed, -⟩
    · exact .inr ⟨h, herror⟩
    · exact absurd (Write.allowed_save_iff.1 hallowed) h

/-- A document is uploaded once more.  Under a new key its row is written again, and its second version and the job are
read back.  Under the key of its first job there is no second version, and the row is the one of the first upload. -/
theorem saving_again :
    let target (versionId : String) : JobTarget := ⟨"t1", "w1", "kb1", "d1", versionId⟩
    let version (id : String) (number : Int) : DocumentVersion :=
      ⟨id, "t1", "d1", number, "objects/" ++ id, .markdown, .pending, none, number⟩
    let d : Document := ⟨"d1", "t1", "w1", "kb1", "first", some "a.md", 1, .ready, 1, 1⟩
    let d' : Document := ⟨"d1", "t1", "w1", "kb1", "second", some "a.md", 2, .pending, 2, 2⟩
    let s : Store := ⟨[d], [.ofVersion (version "v1" 1)], [], [.queued "j1" 1 (target "v1") .upload "k1" 3]⟩
    let job (key : String) : Job := .queued "j2" 2 (target "v2") .upload key 3
    (∃ s', (saveUpload d' (version "v2" 2) (some (job "k2"))).on s = (.ok (), s') ∧
      s'.document? "t1" "d1" = some { d' with createdAt := 1 } ∧
      s'.version? "d1" 2 = some (version "v2" 2) ∧ s'.jobByKey? "t1" "k2" = some (job "k2")) ∧
    ∃ e, (saveUpload d' (version "v2" 2) (some (job "k1"))).on s = (.error e, s) := by
  intro target version d d' s job
  have hs : s.Consistent := by constructor <;> decide
  constructor
  · have hok : ((saveUpload d' (version "v2" 2) (some (job "k2"))).on s).1.toOption = some () := by
      decide +kernel
    rcases saving hs d' (version "v2" 2) (some (job "k2")) with ⟨-, s', hon, hsaved⟩ | ⟨-, e, hon⟩
    · refine ⟨s', hon, ?_, hsaved.version, (hsaved.job _ rfl).2⟩
      rcases hsaved.document with ⟨hnew, -⟩ | ⟨before, e, after, hrows, hid, -, hread⟩
      · exact absurd rfl (hnew d List.mem_cons_self)
      · obtain rfl : e = d := by
          have he : e ∈ s.documents := hrows ▸ List.mem_append_right _ List.mem_cons_self
          exact List.mem_singleton.1 he
        exact hread
    · rw [hon] at hok
      cases hok
  · have herror : ((saveUpload d' (version "v2" 2) (some (job "k1"))).on s).1.toOption = none := by
      decide +kernel
    rcases saving hs d' (version "v2" 2) (some (job "k1")) with ⟨-, s', hon, -⟩ | ⟨-, hon⟩
    · rw [hon] at herror
      cases herror
    · exact hon

end Query

end IngestionQueue
