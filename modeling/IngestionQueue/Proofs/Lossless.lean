import IngestionQueue.Proofs.Accepting
import IngestionQueue.Wire.Document
import IngestionQueue.Wire.Ingestion

/-!
# Nothing is lost in writing

Jobs and their views, documents, versions and chunks, requests and receipts are written and read again without loss
(`written_forms`).  Each of these types has its parts beside its decoder; that the decoder reads exactly these parts
is seen field by field, and all forms in which a value may be written follow from that alone
(`Json.Record.Covers.lossless`).  Numbers have the width of their types, and the metadata of a chunk are any value
without floating-point numbers, in canonical form.
-/

namespace IngestionQueue

open Json (Record Decoder Spelling Part Plain canonical Syntax)

namespace Json

/-- Values of a type are written as the object of their parts and read without loss: from the text that is written, from
the members of an object in any order and among other members, and from the items of an array in order.  A part may be
left out where it has no value and its field allows it; a field that must be there or is there twice is an error. -/
structure Lossless {α : Type} (d : Decoder α) (toJson : α → Json) (parts : α → List Part) (Sized : α → Prop) :
    Prop where
  fields : ∀ v, toJson v = .object (fieldsOf (parts v))
  faithful : ∀ v, Sized v → ∀ p ∈ parts v, p.Faithful (maxDepth - 1)
  accepted : ∀ text v, decode d text = .ok v ↔ ∃ s, Syntax.parse text = some s ∧ HasParts maxDepth (parts v) s
  written : ∀ v, Sized v → decode d (toJson v).text = .ok v
  arrayed : ∀ v, Sized v → decode d (text (.array ((parts v).map Part.json))) = .ok v
  listed : ∀ text v members, Syntax.parse text = some (.object members) →
    Lists (maxDepth - 1) members (parts v) → decode d text = .ok v
  inOrder : ∀ text v items, Syntax.parse text = some (.array items) →
    Places (maxDepth - 1) (parts v) items → decode d text = .ok v
  missing : ∀ text v members, Syntax.parse text = some (.object members) → ∀ p ∈ parts v, p.presence = .required →
    values p.name members = [] → ∃ e, decode d text = .error e
  short : ∀ text v items, Syntax.parse text = some (.array items) →
    items.length < ((parts v).filter fun p => p.presence ≠ .trailing).length → ∃ e, decode d text = .error e
  repeated : ∀ text v members, Syntax.parse text = some (.object members) → ∀ p ∈ parts v,
    2 ≤ (values p.name members).length → ∃ e, decode d text = .error e
  reread : ∀ text s v, Syntax.parse text = some s → s.Whole → decode d text = .ok v →
    decode d (toJson v).text = .ok v

/-- The parts that may not be left out of an array. -/
private def needed (ps : List Part) : Nat :=
  (ps.filter fun p => p.presence ≠ .trailing).length

private theorem needed_le_of_places {depth : Nat} {ps : List Part} {items : List Syntax}
    (h : Places depth ps items) : needed ps ≤ items.length := by
  induction ps generalizing items with
  | nil => exact Nat.zero_le _
  | cons p ps ih =>
    cases items with
    | nil =>
      have hall : ∀ q ∈ p :: ps, q.presence = .trailing := fun q hq => (h q hq).1
      have hnone : ((p :: ps).filter fun p => p.presence ≠ .trailing) = [] := by
        simpa [List.filter_eq_nil_iff] using hall
      rw [needed, hnone]
      exact Nat.le_refl _
    | cons s items =>
      have hrest := ih h.2
      rw [needed, List.filter_cons]
      split
      · exact Nat.succ_le_succ hrest
      · exact Nat.le_succ_of_le hrest

private theorem exists_error {α : Type} {d : Decoder α} {text : String} (h : ∀ v, decode d text ≠ .ok v) :
    ∃ e, decode d text = .error e := by
  cases hread : decode d text with
  | error e => exact ⟨e, rfl⟩
  | ok v => exact absurd hread (h v)

namespace Record.Covers

variable {α : Type} {r : Record α} {parts : α → List Part}

/-- All values of a record have the same fields. -/
private theorem exists_part (h : r.Covers parts) {v : α} {p : Part} (hp : p ∈ parts v) (w : α) :
    ∃ q ∈ parts w, q.name = p.name ∧ q.presence = p.presence := by
  have hmem : (p.name, p.presence) ∈ (parts w).map fun p => (p.name, p.presence) := by
    rw [← h.presence v w]
    exact List.mem_map.2 ⟨p, hp, rfl⟩
  obtain ⟨q, hq, heq⟩ := List.mem_map.1 hmem
  exact ⟨q, hq, congrArg Prod.fst heq, congrArg Prod.snd heq⟩

private theorem needed_eq (h : r.Covers parts) (v w : α) : needed (parts v) = needed (parts w) := by
  have hcount : ∀ ps : List Part, needed ps =
      ((ps.map fun p => (p.name, p.presence)).filter fun q => q.2 ≠ .trailing).length := fun ps => by
    simp [needed, List.filter_map, Function.comp_def]
  rw [hcount, hcount, h.presence v w]

private theorem decode_eq_ok (h : r.Covers parts) (type : String) {text : String} {v : α} :
    decode (r.decoder type) text = .ok v ↔ ∃ s, Syntax.parse text = some s ∧ HasParts maxDepth (parts v) s := by
  unfold decode
  cases Syntax.parse text with
  | none => simp
  | some s => exact (h.accepts type maxDepth s v).trans (by simp [Spelling.record])

private theorem hasParts_of_decode (h : r.Covers parts) (type : String) {text : String} {s : Syntax} {v : α}
    (hparse : Syntax.parse text = some s) (hdecode : decode (r.decoder type) text = .ok v) :
    HasParts maxDepth (parts v) s := by
  obtain ⟨t, ht, hhas⟩ := (h.decode_eq_ok type).1 hdecode
  obtain rfl : s = t := Option.some.inj (hparse.symm.trans ht)
  exact hhas

private theorem decode_written (h : r.Covers parts) (type : String) {v : α}
    (hfaithful : ∀ p ∈ parts v, p.Faithful (maxDepth - 1)) :
    decode (r.decoder type) (text (.object (fieldsOf (parts v)))) = .ok v := by
  obtain ⟨hplain, hhas⟩ := hasParts_written (h.distinct v) hfaithful
  exact (h.decode_eq_ok type).2 ⟨_, parse_text hplain, hhas⟩

/-- A record whose fields are the parts of its values loses nothing. -/
theorem lossless (h : r.Covers parts) (type : String) {toJson : α → Json} {Sized : α → Prop}
    (hfields : ∀ v, toJson v = .object (fieldsOf (parts v)))
    (hfaithful : ∀ v, Sized v → ∀ p ∈ parts v, p.Faithful (maxDepth - 1)) :
    Lossless (r.decoder type) toJson parts Sized where
  fields := hfields
  faithful := hfaithful
  accepted text v := h.decode_eq_ok type
  written v hsized := hfields v ▸ h.decode_written type (hfaithful v hsized)
  arrayed v hsized := by
    obtain ⟨hplain, hhas⟩ := hasParts_array (hfaithful v hsized)
    exact (h.decode_eq_ok type).2 ⟨_, parse_text hplain, hhas⟩
  listed text v members hparse hlists := (h.decode_eq_ok type).2 ⟨_, hparse, by decide, hlists⟩
  inOrder text v items hparse hplaces := (h.decode_eq_ok type).2 ⟨_, hparse, by decide, hplaces⟩
  missing text v members hparse p hp hrequired hvalues := exists_error fun w hw => by
    obtain ⟨q, hq, hname, hpresence⟩ := h.exists_part hp w
    rcases (h.hasParts_of_decode type hparse hw).2.parts q hq with ⟨_, hlack⟩ | ⟨s, hs, _⟩
    · cases q with
      | required _ _ => exact hlack
      | _ => exact Presence.noConfusion (hpresence.trans hrequired)
    · rw [hname, hvalues] at hs
      cases hs
  short text v items hparse hshort := exists_error fun w hw => by
    have hcount := needed_le_of_places (h.hasParts_of_decode type hparse hw).2
    rw [h.needed_eq w v] at hcount
    exact absurd hshort (Nat.not_lt.2 hcount)
  repeated text v members hparse p hp hrepeated := exists_error fun w hw => by
    obtain ⟨q, hq, hname, _⟩ := h.exists_part hp w
    rcases (h.hasParts_of_decode type hparse hw).2.parts q hq with ⟨hs, _⟩ | ⟨s, hs, _⟩
    · simp [← hname, hs] at hrepeated
    · simp [← hname, hs] at hrepeated
  reread text s v hparse hwhole hdecode :=
    hfields v ▸ h.decode_written type (faithful_of_hasParts hwhole (h.hasParts_of_decode type hparse hdecode)).2

end Record.Covers

end Json

section

open Json.Decoder Json.Record Json.Spelling

/-! ### Jobs -/

theorem JobStatus.accepts : JobStatus.decoder.Accepts fun a => .word a.name :=
  accepts_variant fun a => by cases a <;> rfl

theorem JobStage.accepts : JobStage.decoder.Accepts fun a => .word a.name :=
  accepts_variant fun a => by cases a <;> rfl

theorem IngestAction.accepts : IngestAction.decoder.Accepts fun a => .word a.name :=
  accepts_variant fun a => by cases a <;> rfl

namespace Job

/-- The parts of a job, in the order in which they are declared. -/
def parts (j : Job) : List Part := [
  .required "id" (.text j.id),
  .required "tenant_id" (.text j.tenantId),
  .required "idempotency_key" (.text j.idempotencyKey),
  .required "workspace_id" (.text j.workspaceId),
  .required "kb_id" (.text j.kbId),
  .required "document_id" (.text j.documentId),
  .required "document_version_id" (.text j.documentVersionId),
  .required "action" (.word j.action.name),
  .required "status" (.word j.status.name),
  .required "stage" (.word j.stage.name),
  .required "progress" (.int32 j.progress),
  .optional "locked_at" (j.lockedAt.map .int64),
  .optional "locked_by" (j.lockedBy.map .text),
  .optional "heartbeat_at" (j.heartbeatAt.map .int64),
  .required "attempt_count" (.int32 j.attemptCount),
  .required "max_attempts" (.int32 j.maxAttempts),
  .required "next_run_at" (.int64 j.nextRunAt),
  .optional "started_at" (j.startedAt.map .int64),
  .optional "finished_at" (j.finishedAt.map .int64),
  .optional "error" (j.error.map .text),
  .required "created_at" (.int64 j.createdAt),
  .required "updated_at" (.int64 j.updatedAt)]

structure Sized (j : Job) : Prop where
  progress : Word.Fits32 j.progress
  lockedAt : ∀ t ∈ j.lockedAt, Word.Fits64 t
  heartbeatAt : ∀ t ∈ j.heartbeatAt, Word.Fits64 t
  attemptCount : Word.Fits32 j.attemptCount
  maxAttempts : Word.Fits32 j.maxAttempts
  nextRunAt : Word.Fits64 j.nextRunAt
  startedAt : ∀ t ∈ j.startedAt, Word.Fits64 t
  finishedAt : ∀ t ∈ j.finishedAt, Word.Fits64 t
  createdAt : Word.Fits64 j.createdAt
  updatedAt : Word.Fits64 j.updatedAt

theorem covers : record.Covers parts where
  names _ := rfl
  nodup := by decide
  presence _ _ := rfl
  trailing _ := rfl
  checked := (Checked.pure _).field.field.field.field.field.field.field.field.field.field.field.optionalField
    |>.optionalField.optionalField.field.field.field.optionalField.optionalField.optionalField.field.field
  makes depth found j := by
    cases j
    simp only [record, makes_field accepts_string, makes_field accepts_int32, makes_field accepts_int64,
      makes_field IngestAction.accepts, makes_field JobStatus.accepts, makes_field JobStage.accepts,
      makes_optionalField accepts_string not_has_null_text, makes_optionalField accepts_int64 not_has_null_int64,
      makes_pure, parts, List.forall_mem_cons, Job.mk.injEq]
    simp [Part.name]

theorem fields (j : Job) : j.toJson = .object (Json.fieldsOf j.parts) := by
  simp only [parts, Json.fieldsOf, List.map_cons, List.map_nil, Part.json_optional]
  rfl

theorem faithful {j : Job} (h : j.Sized) {depth : Nat} : ∀ p ∈ j.parts, p.Faithful depth := by
  have htimes := And.intro h.lockedAt (And.intro h.heartbeatAt (And.intro h.startedAt h.finishedAt))
  simpa [parts, h.progress, h.attemptCount, h.maxAttempts, h.nextRunAt, h.createdAt, h.updatedAt] using htimes

theorem lossless : Json.Lossless decoder toJson parts Sized :=
  covers.lossless "IngestionJob" fields fun _ h => faithful h

/-- A job as a part of another record. -/
def spelling (j : Job) : Spelling := .record j.parts (covers.distinct j)

theorem accepts : decoder.Accepts spelling := covers.accepts "IngestionJob"

theorem faithful_spelling {j : Job} (h : j.Sized) : j.spelling.Faithful (Json.maxDepth - 1) :=
  faithful_record _ (faithful h)

end Job

namespace JobView

/-- The parts of the view of a job, in the order in which they are declared. -/
def parts (v : JobView) : List Part := [
  .required "job_id" (.text v.jobId),
  .required "workspace_id" (.text v.workspaceId),
  .required "document_id" (.text v.documentId),
  .required "document_version_id" (.text v.documentVersionId),
  .required "status" (.word v.status.name),
  .required "stage" (.word v.stage.name),
  .required "progress" (.int32 v.progress),
  .required "attempt_count" (.int32 v.attemptCount),
  .required "max_attempts" (.int32 v.maxAttempts),
  .required "next_run_at" (.int64 v.nextRunAt),
  .optional "locked_at" (v.lockedAt.map .int64),
  .optional "locked_by" (v.lockedBy.map .text),
  .optional "heartbeat_at" (v.heartbeatAt.map .int64),
  .optional "started_at" (v.startedAt.map .int64),
  .optional "finished_at" (v.finishedAt.map .int64),
  .optional "error" (v.error.map .text),
  .required "terminal" (.flag v.terminal)]

theorem covers : record.Covers parts where
  names _ := rfl
  nodup := by decide
  presence _ _ := rfl
  trailing _ := rfl
  checked := (Checked.pure _).field.field.field.field.field.field.field.field.field.field.optionalField
    |>.optionalField.optionalField.optionalField.optionalField.optionalField.field
  makes depth found v := by
    cases v
    simp only [record, makes_field accepts_string, makes_field accepts_bool, makes_field accepts_int32,
      makes_field accepts_int64, makes_field JobStatus.accepts, makes_field JobStage.accepts,
      makes_optionalField accepts_string not_has_null_text, makes_optionalField accepts_int64 not_has_null_int64,
      makes_pure, parts, List.forall_mem_cons, JobView.mk.injEq]
    simp [Part.name]

theorem fields (v : JobView) : v.toJson = .object (Json.fieldsOf v.parts) := by
  simp only [parts, Json.fieldsOf, List.map_cons, List.map_nil, Part.json_optional]
  rfl

theorem lossless : Json.Lossless decoder toJson parts Sized :=
  covers.lossless "JobStatusView" fields fun v h => by
    have htimes := And.intro h.lockedAt (And.intro h.heartbeatAt (And.intro h.startedAt h.finishedAt))
    simpa [parts, h.progress, h.attemptCount, h.maxAttempts, h.nextRunAt] using htimes

end JobView

/-! ### Documents -/

theorem DocumentStatus.accepts : DocumentStatus.decoder.Accepts fun a => .word a.name :=
  accepts_variant fun a => by cases a <;> rfl

theorem ParseStatus.accepts : ParseStatus.decoder.Accepts fun a => .word a.name :=
  accepts_variant fun a => by cases a <;> rfl

theorem ParserType.accepts : ParserType.decoder.Accepts fun a => .word a.name :=
  accepts_variant fun a => by cases a <;> rfl

namespace Document

/-- The parts of a document, in the order in which they are declared. -/
def parts (d : Document) : List Part := [
  .required "id" (.text d.id),
  .required "tenant_id" (.text d.tenantId),
  .required "workspace_id" (.text d.workspaceId),
  .required "kb_id" (.text d.kbId),
  .required "title" (.text d.title),
  .optional "source_uri" (d.sourceUri.map .text),
  .required "current_version" (.int32 d.currentVersion),
  .required "status" (.word d.status.name),
  .required "created_at" (.int64 d.createdAt),
  .required "updated_at" (.int64 d.updatedAt)]

structure Sized (d : Document) : Prop where
  currentVersion : Word.Fits32 d.currentVersion
  createdAt : Word.Fits64 d.createdAt
  updatedAt : Word.Fits64 d.updatedAt

theorem covers : record.Covers parts where
  names _ := rfl
  nodup := by decide
  presence _ _ := rfl
  trailing _ := rfl
  checked := (Checked.pure _).field.field.field.field.field.optionalField.field.field.field.field
  makes depth found d := by
    cases d
    simp only [record, makes_field accepts_string, makes_field accepts_int32, makes_field accepts_int64,
      makes_field DocumentStatus.accepts, makes_optionalField accepts_string not_has_null_text, makes_pure,
      parts, List.forall_mem_cons, Document.mk.injEq]
    simp [Part.name]

theorem fields (d : Document) : d.toJson = .object (Json.fieldsOf d.parts) := by
  simp only [parts, Json.fieldsOf, List.map_cons, List.map_nil, Part.json_optional]
  rfl

theorem lossless : Json.Lossless decoder toJson parts Sized :=
  covers.lossless "Document" fields fun d h => by
    simp [parts, h.currentVersion, h.createdAt, h.updatedAt]

end Document

namespace DocumentVersion

/-- The parts of a version, in the order in which they are declared. -/
def parts (v : DocumentVersion) : List Part := [
  .required "id" (.text v.id),
  .required "tenant_id" (.text v.tenantId),
  .required "document_id" (.text v.documentId),
  .required "version" (.int32 v.version),
  .required "object_key" (.text v.objectKey),
  .required "parser_type" (.word v.parserType.name),
  .required "parse_status" (.word v.parseStatus.name),
  .optional "checksum" (v.checksum.map .text),
  .required "created_at" (.int64 v.createdAt)]

structure Sized (v : DocumentVersion) : Prop where
  version : Word.Fits32 v.version
  createdAt : Word.Fits64 v.createdAt

theorem covers : record.Covers parts where
  names _ := rfl
  nodup := by decide
  presence _ _ := rfl
  trailing _ := rfl
  checked := (Checked.pure _).field.field.field.field.field.field.field.optionalField.field
  makes depth found v := by
    cases v
    simp only [record, makes_field accepts_string, makes_field accepts_int32, makes_field accepts_int64,
      makes_field ParserType.accepts, makes_field ParseStatus.accepts,
      makes_optionalField accepts_string not_has_null_text, makes_pure, parts, List.forall_mem_cons,
      DocumentVersion.mk.injEq]
    simp [Part.name]

theorem fields (v : DocumentVersion) : v.toJson = .object (Json.fieldsOf v.parts) := by
  simp only [parts, Json.fieldsOf, List.map_cons, List.map_nil, Part.json_optional]
  rfl

theorem lossless : Json.Lossless decoder toJson parts Sized :=
  covers.lossless "DocumentVersion" fields fun v h => by
    simp [parts, h.version, h.createdAt]

end DocumentVersion

namespace DocumentChunk

/-- The parts of a chunk, in the order in which they are declared. -/
def parts (c : DocumentChunk) : List Part := [
  .required "id" (.text c.id),
  .required "tenant_id" (.text c.tenantId),
  .required "workspace_id" (.text c.workspaceId),
  .required "kb_id" (.text c.kbId),
  .required "document_id" (.text c.documentId),
  .required "document_version_id" (.text c.documentVersionId),
  .required "chunk_no" (.int32 c.chunkNo),
  .required "content" (.text c.content),
  .required "token_count" (.int32 c.tokenCount),
  .required "metadata" (.value c.metadata),
  .required "created_at" (.int64 c.createdAt)]

/-- The metadata are in canonical form, without floating-point numbers, and nested as deep as a text may be. -/
structure Sized (c : DocumentChunk) : Prop where
  chunkNo : Word.Fits32 c.chunkNo
  tokenCount : Word.Fits32 c.tokenCount
  plain : Plain (Json.maxDepth - 1) c.metadata
  canonical : canonical c.metadata = c.metadata
  createdAt : Word.Fits64 c.createdAt

theorem covers : record.Covers parts where
  names _ := rfl
  nodup := by decide
  presence _ _ := rfl
  trailing _ := rfl
  checked := (Checked.pure _).field.field.field.field.field.field.field.field.field.field.field
  makes depth found c := by
    cases c
    simp only [record, makes_field accepts_string, makes_field accepts_int32, makes_field accepts_int64,
      makes_field accepts_value, makes_pure, parts, List.forall_mem_cons, DocumentChunk.mk.injEq]
    simp [Part.name]

theorem fields (c : DocumentChunk) : c.toJson = .object (Json.fieldsOf c.parts) := rfl

theorem lossless : Json.Lossless decoder toJson parts Sized :=
  covers.lossless "DocumentChunk" fields fun c h => by
    simp [parts, h.chunkNo, h.tokenCount, h.plain, h.canonical, h.createdAt]

end DocumentChunk

/-! ### Requests and their results -/

namespace EnqueueOutcome

/-- The parts of an outcome, in the order in which they are declared. -/
def parts (o : EnqueueOutcome) : List Part := [
  .required "job" o.job.spelling,
  .required "created" (.flag o.created)]

def Sized (o : EnqueueOutcome) : Prop := o.job.Sized

theorem fields (o : EnqueueOutcome) : o.toJson = .object (Json.fieldsOf o.parts) := by
  rw [toJson, Job.fields]
  rfl

theorem lossless : Json.Lossless decoder toJson parts Sized := by
  refine Covers.lossless ⟨fun _ => rfl, by decide, fun _ _ => rfl, fun _ => rfl, (Checked.pure _).field.field, ?_⟩
    "EnqueueOutcome" fields fun o h => ?_
  · intro depth found o
    cases o
    simp only [makes_field Job.accepts, makes_field accepts_bool, makes_pure, parts, List.forall_mem_cons,
      EnqueueOutcome.mk.injEq]
    simp [Part.name]
  · simp [parts, Job.faithful_spelling h]

end EnqueueOutcome

namespace UploadReceipt

/-- The parts of a receipt, in the order in which they are declared. -/
def parts (r : UploadReceipt) : List Part := [
  .required "document_id" (.text r.documentId),
  .required "document_version_id" (.text r.documentVersionId),
  .required "version" (.int32 r.version),
  .required "object_key" (.text r.objectKey),
  .required "job" r.job.spelling]

structure Sized (r : UploadReceipt) : Prop where
  version : Word.Fits32 r.version
  job : r.job.Sized

theorem fields (r : UploadReceipt) : r.toJson = .object (Json.fieldsOf r.parts) := by
  rw [toJson, Job.fields]
  rfl

theorem lossless : Json.Lossless decoder toJson parts Sized := by
  refine Covers.lossless ⟨fun _ => rfl, by decide, fun _ _ => rfl, fun _ => rfl,
    (Checked.pure _).field.field.field.field.field, ?_⟩ "UploadReceipt" fields fun r h => ?_
  · intro depth found r
    cases r
    simp only [makes_field accepts_string, makes_field accepts_int32, makes_field Job.accepts, makes_pure, parts,
      List.forall_mem_cons, UploadReceipt.mk.injEq]
    simp [Part.name]
  · simp [parts, h.version, Job.faithful_spelling h.job]

end UploadReceipt

namespace UploadRequest

/-- The parts of a request, in the order in which they are declared; the content is a list of bytes. -/
def parts (r : UploadRequest) : List Part := [
  .required "tenant_id" (.text r.tenantId),
  .required "workspace_id" (.text r.workspaceId),
  .required "kb_id" (.text r.kbId),
  .required "filename" (.text r.fileName),
  .required "content" (.items (r.content.map .byte)),
  .trailing "idempotency_key" (r.idempotencyKey.map .text)]

theorem fields (r : UploadRequest) : r.toJson = .object (Json.fieldsOf r.parts) := by
  have hcontent : (Part.required "content" (.items (r.content.map .byte))).json =
      .array (r.content.map fun b => .int b.toNat) := congrArg Json.array (List.map_map ..)
  simp only [parts, Json.fieldsOf, List.map_cons, List.map_nil, Part.json_trailing, hcontent]
  rfl

theorem faithful_content (content : Bytes) :
    (Spelling.items (content.map .byte)).Faithful (Json.maxDepth - 1) :=
  faithful_items (List.forall_mem_map.2 fun b _ => faithful_byte b _)

theorem lossless : Json.Lossless decoder toJson parts fun _ => True := by
  refine Covers.lossless ⟨fun _ => rfl, by decide, fun _ _ => rfl, fun _ => rfl,
    (Checked.pure _).field.field.field.field.field.trailingField, ?_⟩ "UploadRequest" fields fun r _ => ?_
  · intro depth found r
    cases r
    simp only [makes_field accepts_string, makes_field (accepts_list accepts_byte),
      makes_trailingField accepts_string not_has_null_text, makes_pure, parts, List.forall_mem_cons,
      UploadRequest.mk.injEq]
    simp [Part.name]
  · simp [parts, faithful_content]

end UploadRequest

end

/-! ### All values -/

/-- Nothing is lost in writing a value and reading it again, whichever of its forms is read. -/
theorem written_forms :
    Json.Lossless Job.decoder Job.toJson Job.parts Job.Sized ∧
      Json.Lossless JobView.decoder JobView.toJson JobView.parts JobView.Sized ∧
      Json.Lossless Document.decoder Document.toJson Document.parts Document.Sized ∧
      Json.Lossless DocumentVersion.decoder DocumentVersion.toJson DocumentVersion.parts DocumentVersion.Sized ∧
      Json.Lossless DocumentChunk.decoder DocumentChunk.toJson DocumentChunk.parts DocumentChunk.Sized ∧
      Json.Lossless EnqueueOutcome.decoder EnqueueOutcome.toJson EnqueueOutcome.parts EnqueueOutcome.Sized ∧
      Json.Lossless UploadReceipt.decoder UploadReceipt.toJson UploadReceipt.parts UploadReceipt.Sized ∧
      Json.Lossless UploadRequest.decoder UploadRequest.toJson UploadRequest.parts fun _ => True :=
  ⟨Job.lossless, JobView.lossless, Document.lossless, DocumentVersion.lossless, DocumentChunk.lossless,
    EnqueueOutcome.lossless, UploadReceipt.lossless, UploadRequest.lossless⟩

/-- An upload without a token of the client, its fields in another order and with one that is not known; and a chunk
with metadata, at the ends of the ranges. -/
theorem written_forms_shuffled :
    Json.decode UploadRequest.decoder (Json.text (.object [
      ("filename", .string "a.md"), ("note", .array [.null]), ("content", .array [.int 0, .int 255]),
      ("kb_id", .string "k"), ("tenant_id", .string "t"), ("workspace_id", .string "w")])) =
        .ok ⟨"t", "w", "k", "a.md", [0, 255], none⟩ ∧
    let chunk : DocumentChunk := ⟨"c", "t", "w", "k", "d", "v", Word.greatest32, "a \"b\"\n", 0,
      .object [("m", .array [.int Word.greatestUnsigned, .null]), ("n", .object [])], Word.least⟩
    Json.decode DocumentChunk.decoder chunk.toJson.text = .ok chunk := by
  obtain ⟨_, _, _, _, hchunk, _, _, hupload⟩ := written_forms
  constructor
  · have hcontent : (Spelling.items [.byte 0, .byte 255]).Has (Json.maxDepth - 1)
        (.ofJson (.array [.int 0, .int 255])) := (UploadRequest.faithful_content [0, 255]).2
    refine hupload.listed _ _ _ (Json.parse_text (show Plain Json.maxDepth _ from ?_)) ⟨?_, ?_⟩
    · simp [Plain, Json.PlainFields, Json.PlainItems, Json.maxDepth, Word.least, Word.greatestUnsigned]
    · simp [Syntax.ofMembers]
    · simpa [UploadRequest.parts, Part.name, Json.values, Syntax.ofMembers, Part.Has, Part.MayLack, Spelling.text,
        Syntax.ofJson] using hcontent
  · refine hchunk.written _ ⟨⟨by decide, by decide⟩, ⟨by decide, by decide⟩, ?_, ?_, ⟨by decide, by decide⟩⟩
    · simp [Plain, Json.PlainFields, Json.PlainItems, Json.maxDepth, Word.least, Word.greatestUnsigned]
    · rfl

end IngestionQueue
