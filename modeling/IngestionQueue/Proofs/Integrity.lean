import IngestionQueue.Proofs.ObjectStore
import IngestionQueue.Proofs.System

/-!
# The bytes of a version

An upload stores its bytes before the tables decide whose version it becomes.  So the bytes of a version are
those of the last upload that was stored at its place (`System.integrity`).  That upload chose the same
document and the same number, since a place belongs to one version of one document; but it need not be the
upload that was recorded (`System.integrity_overtaken`).
-/

namespace IngestionQueue

/-! ### Stored uploads -/

/-- The last upload that was stored at the place of another one. -/
def ObjectStore.lastStored (o : ObjectStore) (stored : List UploadPlan) (p : UploadPlan) : Option UploadPlan :=
  (stored.filter fun q => o.place q.objectKey == o.place p.objectKey).getLast?

namespace ObjectStore

variable {o o' : ObjectStore} {stored : List UploadPlan} {p q : UploadPlan}

theorem lastStored_mem (h : o.lastStored stored p = some q) :
    q ∈ stored ∧ o.place q.objectKey = o.place p.objectKey := by
  simpa using List.mem_of_getLast? h

theorem lastStored_append (o : ObjectStore) (stored : List UploadPlan) (p q : UploadPlan) :
    o.lastStored (stored ++ [q]) p =
      if o.place q.objectKey = o.place p.objectKey then some q else o.lastStored stored p := by
  simp only [lastStored, List.filter_append]
  split
  · simp [*]
  · simp [*]

/-- Under the key of every stored upload are the bytes of the last one that was stored at its place. -/
def Holds (o objects : ObjectStore) (stored : List UploadPlan) : Prop :=
  ∀ p ∈ stored, ∃ q, o.lastStored stored p = some q ∧ objects.get p.objectKey = .ok q.request.content

theorem Holds.put_error {key : String} {bytes : Bytes} (h : o.Holds o' stored)
    (hput : (o'.put key bytes).2 ≠ .ok ()) : o.Holds (o'.put key bytes).1 stored := by
  intro p hp
  obtain ⟨q, hlast, hget⟩ := h p hp
  exact ⟨q, hlast, get_put_of_error hget hput⟩

theorem Holds.put (h : o.Holds o' stored) (hplace : o'.place = o.place)
    (hput : (o'.put q.objectKey q.request.content).2 = .ok ()) :
    o.Holds (o'.put q.objectKey q.request.content).1 (stored ++ [q]) := by
  intro p hp
  rw [lastStored_append]
  -- At the place of the new object its bytes are read, under whatever key; elsewhere nothing has changed.
  split
  · rename_i hsame
    refine ⟨q, rfl, ?_⟩
    rcases List.mem_append.1 hp with hold | hnew
    · obtain ⟨_, _, hget⟩ := h p hold
      exact get_put_same hget (by rw [hplace, hsame]) hput
    · obtain rfl : p = q := by simpa using hnew
      exact get_put hput
  · rename_i hne
    rcases List.mem_append.1 hp with hold | hnew
    · obtain ⟨q', hlast, hget⟩ := h p hold
      exact ⟨q', hlast, get_put_of_ne hget (by rwa [hplace])⟩
    · obtain rfl : p = q := by simpa using hnew
      exact absurd rfl hne

end ObjectStore

/-! ### Uploads of a run -/

/-- The upload whose object is stored by the next call of a task. -/
def Task.stores (w : World) : Task → Option UploadPlan
  | putObject _ p =>
    match (w.objects.put p.objectKey p.request.content).2 with
    | .ok () => some p
    | .error _ => none
  | _ => none

/-- Nobody but the uploads writes objects. -/
def Event.LeavesObjects : Event → Prop
  | replaceObjects _ => False
  | _ => True

namespace System

/-- The upload whose object is stored by an event. -/
def stores (σ : System) : Event → Option UploadPlan
  | .resume i => σ.tasks[i]?.bind (Task.stores σ.world)
  | _ => none

/-- The uploads whose objects are stored by a series of events, in their order. -/
def stored (σ : System) : List Event → List UploadPlan
  | [] => []
  | e :: events => (σ.stores e).toList ++ (σ.step e).stored events

theorem stored_snoc (σ : System) (events : List Event) (e : Event) :
    σ.stored (events ++ [e]) = σ.stored events ++ ((σ.run events).stores e).toList := by
  induction events generalizing σ with
  | nil => simp [stored]
  | cons d events ih =>
    simp only [List.cons_append, stored, ih, List.append_assoc]
    rfl

/-- A call stores the object of an upload, or it leaves the objects alone, or its put fails. -/
private theorem objects_cases (t : Task) (w : World) :
    (∃ p, t.stores w = some p ∧ (w.objects.put p.objectKey p.request.content).2 = .ok () ∧
        t.objects w = (w.objects.put p.objectKey p.request.content).1) ∨
      (t.stores w = none ∧ t.objects w = w.objects) ∨
      ∃ key bytes, t.stores w = none ∧ (w.objects.put key bytes).2 ≠ .ok () ∧
        t.objects w = (w.objects.put key bytes).1 := by
  cases t with
  | putObject maxAttempts p =>
    cases hput : (w.objects.put p.objectKey p.request.content).2 with
    | ok => exact .inl ⟨p, by simp [Task.stores, hput], hput, rfl⟩
    | error e =>
      exact .inr (.inr ⟨p.objectKey, p.request.content, by simp [Task.stores, hput], by simp [hput], rfl⟩)
  | _ => exact .inr (.inl ⟨rfl, rfl⟩)

private theorem step_objects {e : Event} (σ : System) (he : e.LeavesObjects) :
    (∃ t : Task, σ.stores e = t.stores σ.world ∧ (σ.step e).world.objects = t.objects σ.world) ∨
      (σ.stores e = none ∧ (σ.step e).world.objects = σ.world.objects) := by
  have hmove := σ.step_move e
  cases e with
  | resume i =>
    cases ht : σ.tasks[i]? with
    | none => exact .inr ⟨by simp [stores, ht], by simp [step, ht]⟩
    | some t =>
      obtain ⟨_, _, _, _, _, hworld⟩ := t.resume_step σ.world
      exact .inl ⟨t, by simp [stores, ht], by simp [step, ht, hworld]⟩
  | replaceObjects objects => exact absurd he id
  | _ =>
    right
    refine ⟨rfl, ?_⟩
    generalize σ.step _ = σ' at hmove ⊢
    cases hmove <;> rfl

variable {o : ObjectStore} {σ : System} {ps : List UploadPlan} {e : Event}

theorem step_holds (he : e.LeavesObjects) (hplace : σ.world.objects.place = o.place)
    (h : o.Holds σ.world.objects ps) :
    (σ.step e).world.objects.place = o.place ∧
      o.Holds (σ.step e).world.objects (ps ++ (σ.stores e).toList) := by
  rcases step_objects σ he with ⟨t, hstores, hobjects⟩ | ⟨hstores, hobjects⟩ <;> rw [hstores, hobjects]
  · rcases objects_cases t σ.world with
      ⟨p, hp, hput, hpost⟩ | ⟨hnone, hsame⟩ | ⟨key, bytes, hnone, hput, hpost⟩
    · rw [hp, hpost]
      exact ⟨(ObjectStore.place_put ..).trans hplace, h.put hplace hput⟩
    · rw [hnone, hsame]
      exact ⟨hplace, by simpa using h⟩
    · rw [hnone, hpost]
      exact ⟨(ObjectStore.place_put ..).trans hplace, by simpa using h.put_error hput⟩
  · exact ⟨hplace, by simpa using h⟩

end System

/-! ### Recorded uploads -/

variable {o : ObjectStore} {ps : List UploadPlan}

/-- The document of an upload was there, or its identifier is new. -/
private theorem planOn_document {P : String → Prop} {r : UploadRequest} {w : World}
    (hids : ∀ n, P (w.ids.nth n)) (hdocuments : ∀ d ∈ w.store.documents, P d.id) :
    P (Ingestion.planOn r w).document.id := by
  simp only [Ingestion.planOn, UploadRequest.document]
  cases hfound : w.store.documentFrom? r.tenantId r.workspaceId r.kbId r.sourceUri with
  | none => exact hids _
  | some d => exact hdocuments d (Store.of_documentFrom? hfound).1

/-- What the row of a version says of the upload that it was recorded for. -/
def VersionRow.Records (v : VersionRow) (p : UploadPlan) : Prop :=
  ∃ status, v = { VersionRow.ofVersion (p.version v.id) with parseStatus := status }

/-- What the queue guarantees of the writes that record uploads: the object of the upload was stored before.
-/
def Write.Records (o : ObjectStore) (ps : List UploadPlan) : Write → Prop
  | save d v _ => o.AcceptsId d.id ∧ ∃ p ∈ ps, v.Records p
  | _ => True

namespace Store

variable {s s' : Store} {wr : Option Write}

theorem documents_commits (h : ∀ d ∈ s.documents, o.AcceptsId d.id) (hwr : Write.Commits s wr s')
    (hrecords : ∀ x ∈ wr, x.Records o ps) : ∀ d ∈ s'.documents, o.AcceptsId d.id := by
  cases hwr with
  | nothing => exact h
  | @made wr hallowed =>
    intro d hd
    rcases Write.mem_documents.1 hd with ⟨e, he, rfl⟩ | hnew
    · rw [wr.document_id]
      exact h e he
    · obtain ⟨⟨v, job, rfl⟩, _⟩ := Write.of_newDocuments hnew
      exact (hrecords _ rfl).1

theorem versions_commits (h : ∀ v ∈ s.versions, ∃ p ∈ ps, v.Records p) (hwr : Write.Commits s wr s')
    (hrecords : ∀ x ∈ wr, x.Records o ps) : ∀ v ∈ s'.versions, ∃ p ∈ ps, v.Records p := by
  cases hwr with
  | nothing => exact h
  | @made wr hallowed =>
    intro v hv
    rcases Write.mem_versions.1 hv with ⟨u, hu, rfl⟩ | hnew
    · obtain ⟨p, hp, _, hrow⟩ := h u hu
      obtain ⟨status, hversion⟩ := wr.version_frame u
      refine ⟨p, hp, status, ?_⟩
      rw [hversion, hrow]
      rfl
    · obtain ⟨d, job, rfl⟩ := Write.of_newVersions hnew
      exact (hrecords _ rfl).2

end Store

namespace Task

variable {w : World} {t t' : Task} {wr : Option Write}

/-- What a task knows of the upload that it serves. -/
def Stored (o : ObjectStore) (ps : List UploadPlan) : Task → Prop
  | putObject _ p => o.AcceptsId p.document.id
  | saveUpload _ p => p ∈ ps
  | _ => True

theorem Stored.mono {qs : List UploadPlan} (hps : ∀ p ∈ ps, p ∈ qs) (h : t.Stored o ps) : t.Stored o qs := by
  cases t with
  | saveUpload maxAttempts p => exact hps p h
  | putObject maxAttempts p => exact h
  | _ => trivial

theorem Stored.accepts {p : UploadPlan} (h : t.Stored o ps) (hp : t.stores w = some p) :
    o.AcceptsId p.document.id := by
  cases t with
  | putObject maxAttempts q =>
    simp only [stores] at hp
    split at hp
    · obtain rfl : q = p := by simpa using hp
      exact h
    · cases hp
  | _ => cases hp

theorem Step.stored (hstep : Step w t wr t') (hids : ∀ n, o.AcceptsId (w.ids.nth n))
    (hdocuments : ∀ d ∈ w.store.documents, o.AcceptsId d.id) : t'.Stored o (ps ++ (t.stores w).toList) := by
  cases hstep with
  | plan maxAttempts r => exact planOn_document hids hdocuments
  | put maxAttempts p h =>
    show p ∈ ps ++ _
    simp [Task.stores, h]
  | _ => trivial

theorem Step.records {wr : Write} (hstep : Step w t (some wr) t') (h : t.Stored o ps)
    (hplans : ∀ p ∈ ps, o.AcceptsId p.document.id) : wr.Records o ps := by
  cases hstep with
  | save maxAttempts p => exact ⟨hplans p h, p, h, .pending, rfl⟩
  | _ => trivial

end Task

/-! ### Runs -/

namespace System

/-- What holds of the queue after a run in which some uploads were stored. -/
structure Uploaded (o : ObjectStore) (ps : List UploadPlan) (σ : System) : Prop where
  place : σ.world.objects.place = o.place
  objects : o.Holds σ.world.objects ps
  ids : ∀ n, o.AcceptsId (σ.world.ids.nth n)
  plans : ∀ p ∈ ps, o.AcceptsId p.document.id
  documents : ∀ d ∈ σ.world.store.documents, o.AcceptsId d.id
  versions : ∀ v ∈ σ.world.store.versions, ∃ p ∈ ps, v.Records p
  tasks : ∀ t ∈ σ.tasks, t.Stored o ps

variable {σ : System} {e : Event}

theorem Uploaded.write (h : σ.Uploaded o ps) (e : Event) :
    ∃ wr, Write.Commits σ.world.store wr (σ.step e).world.store ∧ ∀ x ∈ wr, x.Records o ps := by
  obtain ⟨wr, hwr, _, hsource, _⟩ := σ.step_write e
  refine ⟨wr, hwr, fun x hx => ?_⟩
  rcases hsource x hx with ⟨i, t, t', _, ht, hstep⟩ | ⟨c, _, hcall⟩ | ⟨documentId, rfl⟩
  · exact hstep.records (h.tasks t (List.mem_of_getElem? ht)) h.plans
  · cases x with
    | save d v job => simp [Write.call?] at hcall
    | _ => trivial
  · trivial

theorem step_uploaded (he : e.LeavesObjects) (h : σ.Uploaded o ps) :
    (σ.step e).Uploaded o (ps ++ (σ.stores e).toList) := by
  obtain ⟨wr, hwr, hrecords⟩ := h.write e
  obtain ⟨hplace, hholds⟩ := step_holds he h.place h.objects
  have hmono : ∀ p ∈ ps, p ∈ ps ++ (σ.stores e).toList := fun p hp => List.mem_append_left _ hp
  refine ⟨hplace, hholds, ?_, ?_, Store.documents_commits h.documents hwr hrecords, ?_, ?_⟩
  · rw [step_ids]
    exact h.ids
  · intro p hp
    rcases List.mem_append.1 hp with hold | hnew
    · exact h.plans p hold
    · -- The document of a new object was chosen when its task came to wait for the put.
      cases e with
      | resume i =>
        obtain ⟨t, ht, hp⟩ : ∃ t, σ.tasks[i]? = some t ∧ t.stores σ.world = some p := by
          simpa [stores, Option.bind_eq_some_iff] using hnew
        exact (h.tasks t (List.mem_of_getElem? ht)).accepts hp
      | _ => simp [stores] at hnew
  · intro v hv
    obtain ⟨p, hp, hrow⟩ := Store.versions_commits h.versions hwr hrecords v hv
    exact ⟨p, hmono p hp, hrow⟩
  · refine σ.step_tasks e (fun t ht => (h.tasks t ht).mono hmono) ?_ ?_ ?_
    · intro r _
      trivial
    · rintro i t wr t' rfl ht _ hstep
      have hstored : t'.Stored o (ps ++ (t.stores σ.world).toList) := hstep.stored h.ids h.documents
      simpa [stores, ht] using hstored
    · intro worker job phase message _
      trivial

theorem initial_uploaded (objects : ObjectStore) (now : Int) {ids : IdSequence}
    (hids : ∀ n, objects.AcceptsId (ids.nth n)) : (initial objects now ids).Uploaded objects [] where
  place := rfl
  objects p hp := by cases hp
  ids := hids
  plans p hp := by cases hp
  documents d hd := by cases hd
  versions v hv := by cases hv
  tasks t ht := by cases ht

theorem run_uploaded {events : List Event} (h : σ.Uploaded o []) (hevents : ∀ e ∈ events, e.LeavesObjects) :
    (σ.run events).Uploaded o (σ.stored events) := by
  refine run_induction (P := fun before τ => τ.Uploaded o (σ.stored before)) h ?_
  intro before e he hbefore
  rw [stored_snoc]
  exact step_uploaded (hevents e he) hbefore

end System

/-! ### Intact versions -/

/-- The bytes under the key of a version. -/
def VersionRow.bytes? (objects : ObjectStore) (v : VersionRow) : Option Bytes :=
  v.objectKey.bind fun key => (objects.get key).toOption

/-- The checksum of a version is that of the bytes under its key. -/
def VersionRow.Intact (objects : ObjectStore) (v : VersionRow) : Prop :=
  ∃ content ∈ v.bytes? objects, v.checksum = some (Sha256.hexDigest content)

instance (objects : ObjectStore) (v : VersionRow) : Decidable (v.Intact objects) :=
  inferInstanceAs (Decidable (∃ content ∈ v.bytes? objects, v.checksum = some (Sha256.hexDigest content)))

namespace System

/-- After every run in which only uploads write objects, a version is recorded for an upload `p` that was
stored, and the bytes under its key are those of the last upload `q` that was stored at its place, for the
same document and the same number. So the version is intact exactly if these two have one digest. -/
theorem integrity (objects : ObjectStore) (now : Int) (ids : IdSequence) (events : List Event)
    (hids : ∀ n, objects.AcceptsId (ids.nth n)) (hevents : ∀ e ∈ events, e.LeavesObjects) :
    let start := initial objects now ids
    let σ := start.run events
    ∀ v ∈ σ.world.store.versions, ∃ p ∈ start.stored events, ∃ q ∈ start.stored events,
      v.Records p ∧ objects.lastStored (start.stored events) p = some q ∧
      q.document.id = v.documentId ∧ q.document.currentVersion = v.version ∧
      v.bytes? σ.world.objects = some q.request.content ∧
      (v.Intact σ.world.objects ↔
        Sha256.hexDigest q.request.content = Sha256.hexDigest p.request.content) := by
  intro start σ v hv
  have huploaded : σ.Uploaded objects (start.stored events) :=
    run_uploaded (initial_uploaded objects now hids) hevents
  obtain ⟨p, hp, status, hrow⟩ := huploaded.versions v hv
  obtain ⟨q, hlast, hget⟩ := huploaded.objects p hp
  obtain ⟨hq, hsame⟩ := ObjectStore.lastStored_mem hlast
  obtain ⟨hdocument, hversion⟩ :=
    ObjectStore.place_objectKey_inj (huploaded.plans q hq) (huploaded.plans p hp) hsame
  have hbytes : v.bytes? σ.world.objects = some q.request.content := by
    rw [hrow]
    simp [VersionRow.bytes?, VersionRow.ofVersion, UploadPlan.version, hget, Except.toOption]
  refine ⟨p, hp, q, hq, ⟨status, hrow⟩, hlast, ?_, ?_, hbytes, ?_⟩
  · rw [hrow]
    exact hdocument
  · rw [hrow]
    exact hversion
  · have hchecksum : v.checksum = some (Sha256.hexDigest p.request.content) := by rw [hrow]; rfl
    simp only [VersionRow.Intact, hbytes, hchecksum, Option.mem_some_iff, exists_eq_left', Option.some.injEq]
    exact eq_comm

/-- A version that was uploaded has the bytes of its upload. -/
theorem integrity_uploaded :
    let events : List Event :=
      [.start (.upload 3 ⟨"t1", "w1", "kb1", "a.md", [104, 105], none⟩), .resume 0, .resume 0, .resume 0]
    ∃ v ∈ ((initial (.memory []) 0 (.numbered "id")).run events).world.store.versions,
      v.Intact ((initial (.memory []) 0 (.numbered "id")).run events).world.objects := by
  intro events
  have hids := IdSequence.slash_not_mem_numbered "id" (by decide)
  have hevents : ∀ e ∈ events, e.LeavesObjects := by simp [events, Event.LeavesObjects]
  obtain ⟨v, hv⟩ : ∃ v, v ∈ ((initial (.memory []) 0 (.numbered "id")).run events).world.store.versions :=
    List.exists_mem_of_ne_nil _ (by decide +kernel)
  obtain ⟨p, hp, q, hq, _, _, _, _, _, hintact⟩ :=
    integrity (.memory []) 0 (.numbered "id") events hids hevents v hv
  have hstored : ((initial (.memory []) 0 (.numbered "id")).stored events).map (fun p => p.request.content) =
      [[104, 105]] := by
    decide +kernel
  refine ⟨v, hv, hintact.2 ?_⟩
  have hcontent : ∀ r ∈ (initial (.memory []) 0 (.numbered "id")).stored events,
      r.request.content = [104, 105] := by
    intro r hr
    simpa [hstored] using List.mem_map_of_mem (f := fun p : UploadPlan => p.request.content) hr
  rw [hcontent p hp, hcontent q hq]

/-- Two uploads of one name choose one version. The one that comes too late fails, but its bytes stay. -/
theorem integrity_overtaken :
    let upload (content : Bytes) : Event := .start (.upload 3 ⟨"t1", "w1", "kb1", "a.md", content, none⟩)
    let events : List Event :=
      [upload [49], .resume 0, .resume 0, .resume 0, upload [50], upload [51], .resume 1, .resume 2,
        .resume 1, .resume 1, .resume 2, .resume 2]
    let ids := IdSequence.numbered "id"
    let σ := (initial (.memory []) 0 ids).run events
    ids.nth.Injective ∧ (∀ n, '/' ∉ (ids.nth n).toList) ∧ (∀ e ∈ events, e.LeavesObjects) ∧
      (σ.tasks[2]?.any fun t => t matches .ended (.error _)) = true ∧
      ∃ v ∈ σ.world.store.versions, ¬v.Intact σ.world.objects := by
  intro upload events ids σ
  refine ⟨IdSequence.numbered_injective _, IdSequence.slash_not_mem_numbered _ (by decide), ?_, ?_, ?_⟩
  · simp [events, upload, Event.LeavesObjects]
  · decide +kernel
  · decide +kernel

end System

end IngestionQueue
