import IngestionQueue.Proofs.Write
import Mathlib.Data.List.Nodup

/-!
# What every write keeps

A write leaves the identity of a row as it is: a job stays the job that was asked for (`Write.job_origin`), a
document keeps its tenant, its place and its name (`Write.document_frame`), and a version its object, its
parser and its checksum (`Write.version_frame`).  A new row keeps the rules of its table, so identifiers, keys
and numbers stay unique and what a row names stays there (`Store.Consistent.apply`).
-/

namespace IngestionQueue

/-- The row of a job as it was when the job was asked for. -/
def Job.origin (j : Job) : Job :=
  Job.queued j.id j.createdAt ⟨j.tenantId, j.workspaceId, j.kbId, j.documentId, j.documentVersionId⟩ j.action
    j.idempotencyKey j.maxAttempts

@[simp]
theorem Job.origin_queued (id : String) (now : Int) (target : JobTarget) (action : IngestAction) (key : String)
    (maxAttempts : Int) :
    (Job.queued id now target action key maxAttempts).origin =
      Job.queued id now target action key maxAttempts := rfl

/-- The row of a document without what is written again. -/
def Document.origin (d : Document) : Document :=
  { d with title := "", currentVersion := 0, status := .pending, updatedAt := 0 }

theorem Document.id_of_origin {d e : Document} (h : d.origin = e.origin) : d.id = e.id := by
  have hid := congrArg Document.id h
  exact hid

/-- What the job is about. -/
def Job.target (j : Job) : JobTarget :=
  ⟨j.tenantId, j.workspaceId, j.kbId, j.documentId, j.documentVersionId⟩

namespace Job

variable {j k : Job}

theorem id_of_origin (h : k.origin = j.origin) : k.id = j.id := by
  have hid := congrArg Job.id h
  exact hid

theorem documentId_of_origin (h : k.origin = j.origin) : k.documentId = j.documentId := by
  have hdocument := congrArg Job.documentId h
  exact hdocument

theorem documentVersionId_of_origin (h : k.origin = j.origin) : k.documentVersionId = j.documentVersionId := by
  have hversion := congrArg Job.documentVersionId h
  exact hversion

theorem maxAttempts_of_origin (h : k.origin = j.origin) : k.maxAttempts = j.maxAttempts := by
  have hmax := congrArg Job.maxAttempts h
  exact hmax

theorem target_of_origin (h : k.origin = j.origin) : k.target = j.target := by
  have htarget := congrArg Job.target h
  exact htarget

/-- A job keeps its key, and the tenant whose key it is. -/
theorem key_of_origin (h : k.origin = j.origin) :
    k.tenantId = j.tenantId ∧ k.idempotencyKey = j.idempotencyKey := by
  have htenant := congrArg Job.tenantId h
  have hkey := congrArg Job.idempotencyKey h
  exact ⟨htenant, hkey⟩

theorem first?_eq_none_iff {js : List Job} : first? js = none ↔ js = [] := by
  cases js with
  | nil => simp [first?]
  | cons j rest =>
    simp only [first?, reduceCtorEq, iff_false]
    cases first? rest <;> simp

theorem first?_mem {js : List Job} (h : first? js = some j) : j ∈ js := by
  induction js generalizing j with
  | nil => simp [first?] at h
  | cons k rest ih =>
    simp only [first?] at h
    cases hrest : first? rest with
    | none =>
      rw [hrest] at h
      obtain rfl : k = j := by simpa using h
      exact List.mem_cons_self
    | some i =>
      rw [hrest] at h
      have hi := ih hrest
      simp only [Option.some.injEq] at h
      split at h <;> subst h
      · exact List.mem_cons_self
      · exact List.mem_cons_of_mem _ hi

end Job

namespace Write

variable {s : Store} {wr : Write}

/-! ### Rows that are there -/

theorem job_origin (wr : Write) (j : Job) : (wr.job j).origin = j.origin := by
  cases wr with
  | fail l documentId versionId outcome error now =>
    simp only [job]
    split
    · cases outcome <;> rfl
    · rfl
  | insert _ => rfl
  | save _ _ _ => rfl
  | markDeleted _ => rfl
  | claim _ _ _ _ => simp only [job]; split <;> rfl
  | refresh _ _ => simp only [job]; split <;> rfl
  | advance _ _ _ _ => simp only [job]; split <;> rfl
  | mark _ _ _ => simp only [job]; split <;> rfl
  | finalize _ _ _ _ => simp only [job]; split <;> rfl

@[simp]
theorem job_id (wr : Write) (j : Job) : (wr.job j).id = j.id :=
  Job.id_of_origin (job_origin wr j)

@[simp]
theorem job_documentId (wr : Write) (j : Job) : (wr.job j).documentId = j.documentId :=
  Job.documentId_of_origin (job_origin wr j)

@[simp]
theorem job_documentVersionId (wr : Write) (j : Job) :
    (wr.job j).documentVersionId = j.documentVersionId :=
  Job.documentVersionId_of_origin (job_origin wr j)

/-- Only the title, the version, the status and the time of a document are ever written again. -/
theorem document_frame (wr : Write) (d : Document) : ∃ title version status time,
    wr.document d =
      { d with title := title, currentVersion := version, status := status, updatedAt := time } := by
  cases wr <;> simp only [document, Document.overwrite, Document.setStatus] <;> (repeat' split) <;>
    exact ⟨_, _, _, _, rfl⟩

theorem document_origin (wr : Write) (d : Document) : (wr.document d).origin = d.origin := by
  obtain ⟨_, _, _, _, h⟩ := document_frame wr d
  rw [h]
  rfl

@[simp]
theorem document_id (wr : Write) (d : Document) : (wr.document d).id = d.id :=
  Document.id_of_origin (document_origin wr d)

/-- Only the parse status of a version is ever written again. -/
theorem version_frame (wr : Write) (v : VersionRow) :
    ∃ status, wr.version v = { v with parseStatus := status } := by
  cases wr <;> simp only [version, VersionRow.setParseStatus] <;> (repeat' split) <;> exact ⟨_, rfl⟩

@[simp]
theorem version_id (wr : Write) (v : VersionRow) : (wr.version v).id = v.id := by
  obtain ⟨_, h⟩ := version_frame wr v
  rw [h]

/-! ### The tables after a write -/

theorem mem_jobs {j : Job} : j ∈ (wr.apply s).jobs ↔ (∃ k ∈ s.jobs, wr.job k = j) ∨ j ∈ wr.newJobs := by
  simp [apply]

theorem mem_documents {d : Document} :
    d ∈ (wr.apply s).documents ↔ (∃ e ∈ s.documents, wr.document e = d) ∨ d ∈ wr.newDocuments s := by
  simp [apply]

theorem mem_versions {v : VersionRow} :
    v ∈ (wr.apply s).versions ↔ (∃ u ∈ s.versions, wr.version u = v) ∨ v ∈ wr.newVersions := by
  simp [apply]

/-- No job disappears, and none becomes another one. -/
theorem job_persists {P : Job → Prop} (h : ∃ j ∈ s.jobs, P j.origin) :
    ∃ j ∈ (wr.apply s).jobs, P j.origin := by
  obtain ⟨j, hj, hP⟩ := h
  exact ⟨wr.job j, mem_jobs.2 (.inl ⟨j, hj, rfl⟩), by rwa [job_origin]⟩

theorem document_persists {id : String} (h : ∃ d ∈ s.documents, d.id = id) :
    ∃ d ∈ (wr.apply s).documents, d.id = id := by
  obtain ⟨d, hd, hid⟩ := h
  exact ⟨wr.document d, mem_documents.2 (.inl ⟨d, hd, rfl⟩), by rwa [document_id]⟩

theorem version_persists {id : String} (h : ∃ v ∈ s.versions, v.id = id) :
    ∃ v ∈ (wr.apply s).versions, v.id = id := by
  obtain ⟨v, hv, hid⟩ := h
  exact ⟨wr.version v, mem_versions.2 (.inl ⟨v, hv, rfl⟩), by rwa [version_id]⟩

/-! ### Claims -/

/-- Only a job of the table that is claimable is claimed. -/
theorem Allowed.claimable {j : Job} {workerId : String} {now timeout : Int}
    (h : (claim j workerId now timeout).Allowed s) : j ∈ s.jobs ∧ j.Claimable now timeout := by
  have hmem : j ∈ s.claimable now timeout := Job.first?_mem h
  simpa [Store.claimable] using hmem

/-- The lease under which a write is made is held. -/
theorem Allowed.current {l : Lease} (h : wr.Allowed s) (hl : wr.lease? = some l) : l.Current s := by
  cases wr with
  | finalize l' source chunks now =>
    obtain rfl : l' = l := by simpa [lease?] using hl
    exact h.1
  | insert _ => simp [lease?] at hl
  | save _ _ _ => simp [lease?] at hl
  | claim _ _ _ _ => simp [lease?] at hl
  | markDeleted _ => simp [lease?] at hl
  | refresh l' _ | advance l' _ _ _ | mark l' _ _ | fail l' _ _ _ _ _ =>
    obtain rfl : l' = l := by simpa [lease?] using hl
    exact h

/-! ### New rows -/

/-- A new job keeps the rules next to the jobs that were there. -/
theorem Allowed.acceptsJob (h : wr.Allowed s) {j : Job} (hj : j ∈ wr.newJobs) :
    { wr.apply s with jobs := s.jobs }.AcceptsJob j := by
  cases wr with
  | insert k =>
    obtain rfl : j = k := by simpa using hj
    have hj : s.AcceptsJob j := h
    simpa [apply] using hj
  | save d v job =>
    have hjob : j ∈ job := by simpa using hj
    simpa [apply, Store.withDocument, Store.withVersion] using h.2 j hjob
  | _ => simp at hj

theorem Allowed.acceptsVersion (h : wr.Allowed s) {v : VersionRow} (hv : v ∈ wr.newVersions) :
    { wr.apply s with versions := s.versions }.AcceptsVersion v := by
  cases wr with
  | save d u job =>
    obtain rfl : v = u := by simpa using hv
    obtain ⟨hnumber, hid, hdocument⟩ := h.1
    exact ⟨hnumber, hid, hdocument⟩
  | _ => simp at hv

/-- A document that is new was saved, and its identifier is that of no other. -/
theorem of_newDocuments {d : Document} (hd : d ∈ wr.newDocuments s) :
    (∃ v job, wr = save d v job) ∧ ∀ e ∈ s.documents, e.id ≠ d.id := by
  cases wr with
  | save f v job =>
    simp only [newDocuments] at hd
    split at hd
    · simp at hd
    · rename_i hnew
      obtain rfl : d = f := by simpa using hd
      exact ⟨⟨v, job, rfl⟩, by simpa [Store.hasDocument] using hnew⟩
  | _ => simp at hd

theorem of_newVersions {v : VersionRow} (hv : v ∈ wr.newVersions) : ∃ d job, wr = save d v job := by
  cases wr with
  | save d u job =>
    obtain rfl : v = u := by simpa using hv
    exact ⟨d, job, rfl⟩
  | _ => simp at hv

end Write

/-! ### Consistent tables -/

namespace Store

/-- Identifiers, keys and numbers are unique, and what a row names is there. -/
structure Consistent (s : Store) : Prop where
  jobIds : (s.jobs.map Job.id).Nodup
  documentIds : (s.documents.map Document.id).Nodup
  versionIds : (s.versions.map VersionRow.id).Nodup
  keys : (s.jobs.map fun j => (j.tenantId, j.idempotencyKey)).Nodup
  numbers : (s.versions.map fun v => (v.documentId, v.version)).Nodup
  versionDocument : ∀ v ∈ s.versions, ∃ d ∈ s.documents, d.id = v.documentId
  jobDocument : ∀ j ∈ s.jobs, ∃ d ∈ s.documents, d.id = j.documentId
  jobVersion : ∀ j ∈ s.jobs, ∃ v ∈ s.versions, v.id = j.documentVersionId

theorem consistent_empty : Store.empty.Consistent := by
  constructor <;> simp [Store.empty]

private theorem nodup_map_append {α β : Type} {f : α → β} {g : α → α} {l new : List α}
    (h : (l.map f).Nodup) (hg : ∀ a ∈ l, f (g a) = f a) (hlength : new.length ≤ 1)
    (hfresh : ∀ b ∈ new, ∀ a ∈ l, f a ≠ f b) : ((l.map g ++ new).map f).Nodup := by
  -- What identifies an old row is not written again, and at most one row is new.
  have hmap : (l.map g).map f = l.map f := by
    rw [List.map_map]
    exact List.map_congr_left hg
  rw [List.map_append, hmap, List.nodup_append]
  refine ⟨h, ?_, ?_⟩
  · match new, hlength with
    | [], _ => simp
    | [b], _ => simp
  · simp only [List.mem_map, forall_exists_index, and_imp, forall_apply_eq_imp_iff₂]
    exact fun a ha b hb => hfresh b hb a ha

theorem Consistent.apply {s : Store} {wr : Write} (h : s.Consistent) (hw : wr.Allowed s) :
    (wr.apply s).Consistent where
  jobIds := by
    refine nodup_map_append h.jobIds (fun j _ => wr.job_id j) (by cases wr <;> simp) ?_
    exact fun j hj k hk => (hw.acceptsJob hj).id k hk
  documentIds := by
    refine nodup_map_append h.documentIds (fun d _ => wr.document_id d) ?_ fun d hd e he =>
      (Write.of_newDocuments hd).2 e he
    cases wr <;> simp only [Write.newDocuments] <;> (try split) <;> simp
  versionIds := by
    refine nodup_map_append h.versionIds (fun v _ => wr.version_id v) (by cases wr <;> simp) ?_
    exact fun v hv u hu => (hw.acceptsVersion hv).id u hu
  keys := by
    refine nodup_map_append h.keys (fun j _ => ?_) (by cases wr <;> simp) fun j hj k hk => ?_
    · obtain ⟨htenant, hkey⟩ := Job.key_of_origin (wr.job_origin j)
      rw [htenant, hkey]
    · simpa using (hw.acceptsJob hj).key k hk
  numbers := by
    refine nodup_map_append h.numbers (fun v _ => ?_) (by cases wr <;> simp) fun v hv u hu => ?_
    · obtain ⟨_, hframe⟩ := wr.version_frame v
      rw [hframe]
    · simpa using (hw.acceptsVersion hv).number u hu
  versionDocument v hv := by
    rcases Write.mem_versions.1 hv with ⟨u, hu, rfl⟩ | hnew
    · obtain ⟨_, hframe⟩ := wr.version_frame u
      rw [hframe]
      exact Write.document_persists (h.versionDocument u hu)
    · exact (hw.acceptsVersion hnew).document
  jobDocument j hj := by
    rcases Write.mem_jobs.1 hj with ⟨k, hk, rfl⟩ | hnew
    · rw [Write.job_documentId]
      exact Write.document_persists (h.jobDocument k hk)
    · exact (hw.acceptsJob hnew).document
  jobVersion j hj := by
    rcases Write.mem_jobs.1 hj with ⟨k, hk, rfl⟩ | hnew
    · rw [Write.job_documentVersionId]
      exact Write.version_persists (h.jobVersion k hk)
    · exact (hw.acceptsJob hnew).version

/-! ### What identifies a row -/

namespace Consistent

variable {s : Store}

/-- Two jobs with one identifier are one row. -/
theorem job_eq (h : s.Consistent) {j k : Job} (hj : j ∈ s.jobs) (hk : k ∈ s.jobs) (hid : j.id = k.id) : j = k :=
  List.inj_on_of_nodup_map h.jobIds hj hk hid

theorem job_eq_of_key (h : s.Consistent) {j k : Job} (hj : j ∈ s.jobs) (hk : k ∈ s.jobs)
    (htenant : j.tenantId = k.tenantId) (hkey : j.idempotencyKey = k.idempotencyKey) : j = k :=
  List.inj_on_of_nodup_map h.keys hj hk (Prod.ext htenant hkey)

theorem document_eq (h : s.Consistent) {d e : Document} (hd : d ∈ s.documents) (he : e ∈ s.documents)
    (hid : d.id = e.id) : d = e :=
  List.inj_on_of_nodup_map h.documentIds hd he hid

theorem version_eq (h : s.Consistent) {v u : VersionRow} (hv : v ∈ s.versions) (hu : u ∈ s.versions)
    (hid : v.id = u.id) : v = u :=
  List.inj_on_of_nodup_map h.versionIds hv hu hid

theorem number_eq (h : s.Consistent) {v u : VersionRow} (hv : v ∈ s.versions) (hu : u ∈ s.versions)
    (hdocument : v.documentId = u.documentId) (hversion : v.version = u.version) : v = u :=
  List.inj_on_of_nodup_map h.numbers hv hu (Prod.ext hdocument hversion)

end Consistent

/-- The only row of a table that fits is the one that is found. -/
theorem find?_eq_of_unique {α : Type} {p : α → Bool} {rows : List α} {a : α} (ha : a ∈ rows) (hp : p a = true)
    (hone : ∀ b ∈ rows, p b = true → b = a) : rows.find? p = some a := by
  cases hfound : rows.find? p with
  | none => exact absurd hp (List.find?_eq_none.1 hfound a ha)
  | some b => rw [hone b (List.mem_of_find?_eq_some hfound) (List.find?_some hfound)]

end Store

end IngestionQueue
