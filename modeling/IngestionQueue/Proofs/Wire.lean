import IngestionQueue.Cli.Run
import IngestionQueue.Proofs.Base64
import IngestionQueue.Proofs.Record
import IngestionQueue.Rpc.Envelope

/-!
# The wire between client and server

Client and server describe their messages apart from each other: the client builds the parameters of a call by
hand and reads the results into records of its own.  They agree all the same (`Cli.wire_format`).  What a
command posts is read as the call that its arguments name, and every response and every error that may come
back is read by the client as the server has meant it.

Both directions go through the text.  A text is read as the value that was written (`Json.parse_text`), and a
record takes its fields by name (`Json.Record.Reads`), so it remains to look at the names and the widths of
the fields.
-/

namespace IngestionQueue

open Json (Record Decoder Plain canonical)

/-! ### Numbers and optional values -/

namespace Word

/-- A number of 32 bits. -/
def Fits32 (n : Int) : Prop := least32 ≤ n ∧ n ≤ greatest32

theorem Fits32.plain {n : Int} (h : Fits32 n) : least ≤ n ∧ n ≤ greatestUnsigned := by
  simp only [Fits32, least32, greatest32, least, greatestUnsigned] at h ⊢
  omega

theorem Fits64.plain {n : Int} (h : Fits64 n) : least ≤ n ∧ n ≤ greatestUnsigned := by
  simp only [Fits64, greatest, least, greatestUnsigned] at h ⊢
  omega

end Word

namespace Json

@[simp] theorem plain_ofText? (depth : Nat) (o : Option String) : Plain depth (ofText? o) := by
  cases o <;> simp [ofText?, ofOption, Plain]

theorem plain_ofInt? {depth : Nat} {o : Option Int} (h : ∀ n ∈ o, Word.Fits64 n) :
    Plain depth (ofInt? o) := by
  cases o with
  | none => simp [ofInt?, ofOption, Plain]
  | some n => exact (h n rfl).plain

@[simp] theorem canonical_ofText? (o : Option String) : canonical (ofText? o) = ofText? o := by
  cases o <;> simp [ofText?, ofOption, canonical]

@[simp] theorem canonical_ofInt? (o : Option Int) : canonical (ofInt? o) = ofInt? o := by
  cases o <;> simp [ofInt?, ofOption, canonical]

/-- The identifier of a message. -/
theorem Decoder.nat64_one (depth : Nat) : Decoder.nat64 depth (.ofJson (.int 1)) = .ok 1 :=
  Decoder.nat64_ofJson depth (show ((1 : Nat) : Int) ≤ Word.greatestUnsigned by decide)

@[simp] theorem Decoder.optional_ofText? (depth : Nat) (o : Option String) :
    Decoder.optional Decoder.string depth (.ofJson (ofText? o)) = .ok o := by
  cases o <;> rfl

end Json

/-! ### Requests -/

namespace Rpc

/-- The parameters of a message are an object, whatever the method. -/
theorem Envelope.decoder_request (depth : Nat) (method : String) (fields : List (String × Json)) :
    Envelope.decoder (depth + 1) (.ofJson (Cli.Request.toJson ⟨method, .object fields⟩)) =
      .ok ⟨.int 1, method, some (.ofJson (.object fields))⟩ := by
  have hversion : versionDecoder depth (.ofJson (.string "2.0")) = .ok () := rfl
  have hid : idDecoder depth (.ofJson (.int 1)) = .ok (.int 1) :=
    congrArg (Except.map fun n : Nat => Json.int n) (Decoder.nat64_one depth)
  have hparams : Decoder.optional rawDecoder depth (.ofJson (.object fields)) =
      .ok (some (.ofJson (.object fields))) := rfl
  exact Record.Reads.decoder "Request"
    (((((Record.Reads.pure _).field (a := ()) (by simp [hversion])).field (by simp [hid])).field
      (by simp)).optionalField (by simp [hparams]))
    (by simp)

end Rpc

namespace Cli

namespace Request

/-- A server reads the message as a call of a method that it has. -/
def Received (r : Request) (c : Rpc.Call) : Prop :=
  ∃ s e m, Json.Syntax.parse r.toJson.text = some s ∧ Rpc.Envelope.decoder Json.maxDepth s = .ok e ∧
    e.id = .int 1 ∧ Rpc.Method.ofName? e.method = some m ∧ Rpc.Call.read m e.params = .ok c

private theorem received_of_read {name : String} (method : Rpc.Method) {fields : List (String × Json)}
    {c : Rpc.Call} (hname : Rpc.Method.ofName? name = some method) (hnodup : (fields.map Prod.fst).Nodup)
    (hplain : ∀ p ∈ fields, Plain 125 p.2)
    (hread : Rpc.Call.read method (some (.ofJson (.ofFields fields))) = .ok c) :
    Received ⟨name, .ofFields fields⟩ c := by
  have hmessage : Plain 127 (toJson ⟨name, .ofFields fields⟩) :=
    ⟨by decide, trivial, trivial, Json.plain_ofFields hnodup hplain, ⟨by decide, by decide⟩, trivial⟩
  exact ⟨_, _, method, Json.parse_text hmessage, Rpc.Envelope.decoder_request 126 name _, rfl, hname, hread⟩

theorem received_enqueue (scope : Scope) (document version action : String) (key : Option String) :
    (enqueue scope document version action key).Received
      (.enqueue ⟨scope.tenant, scope.workspace, scope.kb, document, version, action, key⟩) := by
  have hread : Rpc.enqueueParams 127 (.ofJson (enqueue scope document version action key).params) =
      .ok ⟨scope.tenant, scope.workspace, scope.kb, document, version, action, key⟩ :=
    Record.Reads.decoder_ofFields "EnqueueRequest"
      ((((((((Record.Reads.pure _).field (by simp)).field (by simp)).field (by simp)).field (by simp)).field
        (by simp)).defaultField (by simp)).trailingField (by simp))
      (by simp)
  refine received_of_read .enqueue rfl (by simp) (by simp [Plain]) ?_
  exact congrArg (fun r => (r.mapError fun _ => Rpc.RpcError.invalidParams).map Rpc.Call.enqueue) hread

theorem received_upload (scope : Scope) (fileName : String) (content : Bytes) (key : Option String) :
    (upload scope fileName content key).Received
      (.upload ⟨scope.tenant, scope.workspace, scope.kb, fileName, Base64.encodeText content, key⟩) := by
  have hread : Rpc.UploadParams.decoder 127 (.ofJson (upload scope fileName content key).params) =
      .ok ⟨scope.tenant, scope.workspace, scope.kb, fileName, Base64.encodeText content, key⟩ :=
    Record.Reads.decoder_ofFields "UploadRequest"
      (((((((Record.Reads.pure _).field (by simp)).field (by simp)).field (by simp)).field (by simp)).field
        (by simp)).trailingField (by simp))
      (by simp)
  refine received_of_read .upload rfl (by simp) (by simp [Plain]) ?_
  exact congrArg (fun r => (r.mapError fun _ => Rpc.RpcError.invalidParams).map Rpc.Call.upload) hread

theorem received_reindex (tenant document : String) (key : Option String) :
    (reindex tenant document key).Received (.reindex ⟨tenant, document, key⟩) := by
  have hread : Rpc.ReindexParams.decoder 127 (.ofJson (reindex tenant document key).params) =
      .ok ⟨tenant, document, key⟩ :=
    Record.Reads.decoder_ofFields "ReindexRequest"
      ((((Record.Reads.pure _).field (by simp)).field (by simp)).trailingField (by simp)) (by simp)
  refine received_of_read .reindex rfl (by simp) (by simp [Plain]) ?_
  exact congrArg (fun r => (r.mapError fun _ => Rpc.RpcError.invalidParams).map Rpc.Call.reindex) hread

theorem received_job (id : String) (tenant : Option String) : (job id tenant).Received (.job ⟨id, tenant⟩) := by
  have hread : Rpc.JobParams.decoder 127 (.ofJson (job id tenant).params) = .ok ⟨id, tenant⟩ :=
    Record.Reads.decoder_ofFields "JobRequest"
      (((Record.Reads.pure _).field (by simp)).trailingField (by simp)) (by simp)
  refine received_of_read .job rfl (by simp) (by simp [Plain]) ?_
  exact congrArg (fun r => (r.mapError fun _ => Rpc.RpcError.invalidParams).map Rpc.Call.job) hread

theorem received_deadLetters {limit : Int} (h : Word.Fits64 limit) :
    (deadLetters limit).Received (.deadLetters ⟨limit⟩) := by
  have hread : Rpc.DeadLettersParams.decoder 127 (.ofJson (deadLetters limit).params) = .ok ⟨limit⟩ :=
    Record.Reads.decoder_ofFields "DeadLettersRequest"
      ((Record.Reads.pure _).defaultField (by simp [Decoder.int64_ofJson 126 h])) (by simp)
  refine received_of_read .deadLetters rfl (by simp) (by simp [Plain, h.plain]) ?_
  exact congrArg (fun r => (r.mapError fun _ => Rpc.RpcError.invalidParams).map Rpc.Call.deadLetters) hread

/-- A request that is received as a call is answered as that call. -/
theorem Received.replyTo {r : Request} {c : Rpc.Call} (h : r.Received c) (maxAttempts uptime : Int) (w : World) :
    Rpc.replyTo maxAttempts uptime r.toJson.text w =
      ((Rpc.replyJson (.int 1) (c.serve maxAttempts uptime w).1).text, (c.serve maxAttempts uptime w).2) := by
  obtain ⟨s, e, m, hparse, henvelope, hid, hmethod, hread⟩ := h
  simp only [Rpc.replyTo, hparse, henvelope, Rpc.serve, hmethod, hread, hid]
  rfl

end Request

/-! ### Replies -/

/-- The text of the reply to the message of a client. -/
def replyText (result : Except Rpc.RpcError Json) : String :=
  (Rpc.replyJson (.int 1) result).text

/-- A client reads a reply as a result. -/
def Decodes {α : Type} (d : Decoder α) (reply : String) (a : α) : Prop :=
  ∃ v, resultOf (some reply) = .ok v ∧ Json.decodeValue d v = .ok a

theorem Decodes.printed {α : Type} {d : Decoder α} {reply : String} {a : α} (h : Decodes d reply a)
    (text : α → String) : Outcome.ofResult d text (resultOf (some reply)) = .printed (text a) := by
  obtain ⟨v, hv, ha⟩ := h
  simp only [Outcome.ofResult, hv, ha]

/-- A result is handed on in canonical form. -/
theorem resultOf_ok {fields : List (String × Json)} (h : Plain 126 (.object fields)) :
    resultOf (some (replyText (.ok (.object fields)))) = .ok (canonical (.object fields)) := by
  have hplain : Plain 127 (Rpc.replyJson (.int 1) (.ok (.object fields))) :=
    ⟨by decide, trivial, ⟨by decide, by decide⟩, h, trivial⟩
  have hresult : Decoder.optional Decoder.value 126 (.ofJson (.object fields)) =
      .ok (some (canonical (.object fields))) :=
    Decoder.optional_of_ne_null (by rintro ⟨⟩) (Decoder.value_ofJson h)
  have hreply : Reply.decoder 127 (.ofJson (Rpc.replyJson (.int 1) (.ok (.object fields)))) =
      .ok ⟨"2.0", 1, some (canonical (.object fields)), none⟩ :=
    Record.Reads.decoder "JsonRpcResponse"
      (((((Record.Reads.pure _).field (by simp [Rpc.protocolVersion])).field
        (by simp [Decoder.nat64_one 126])).optionalField (by simp [hresult])).optionalField_absent (by simp))
      (by simp)
  have hdecode := Json.decode_text Reply.decoder hplain
  simp only [resultOf, replyText, hdecode, Json.maxDepth, hreply]

/-- An error is shown as its code and its message. -/
theorem resultOf_error {e : Rpc.RpcError} (h : Word.Fits32 e.code) :
    resultOf (some (replyText (.error e))) = .error s!"RPC error ({e.code}): {e.message}" := by
  have hplain : Plain 127 (Rpc.replyJson (.int 1) (.error e)) :=
    ⟨by decide, trivial, ⟨by decide, by decide⟩, ⟨by decide, h.plain, trivial, trivial⟩, trivial⟩
  have herror : ReplyError.decoder 126 (.ofJson e.toJson) = .ok ⟨e.code, e.message⟩ :=
    Record.Reads.decoder "JsonRpcError"
      (((Record.Reads.pure _).field (by simp [Decoder.int32_ofJson 125 h])).field (by simp)) (by simp)
  have hoptional : Decoder.optional ReplyError.decoder 126 (.ofJson e.toJson) =
      .ok (some ⟨e.code, e.message⟩) := Decoder.optional_of_ne_null (by rintro ⟨⟩) herror
  have hreply : Reply.decoder 127 (.ofJson (Rpc.replyJson (.int 1) (.error e))) =
      .ok ⟨"2.0", 1, none, some ⟨e.code, e.message⟩⟩ :=
    Record.Reads.decoder "JsonRpcResponse"
      (((((Record.Reads.pure _).field (by simp [Rpc.protocolVersion])).field
        (by simp [Decoder.nat64_one 126])).optionalField_absent (by simp)).optionalField (by simp [hoptional]))
      (by simp)
  have hdecode := Json.decode_text Reply.decoder hplain
  simp only [resultOf, replyText, hdecode, Json.maxDepth, hreply]

theorem decodes_of_canonical {α : Type} {d : Decoder α} {fields : List (String × Json)} {a : α}
    (h : Plain 126 (.object fields)) (hd : d 127 (.ofJson (canonical (.object fields))) = .ok a) :
    Decodes d (replyText (.ok (.object fields))) a :=
  ⟨canonical (.object fields), resultOf_ok h, hd⟩

end Cli

/-! ### Responses -/

namespace Rpc

/-- The numbers of a response have the widths of its fields. -/
def EnqueueResponse.Sized (r : EnqueueResponse) : Prop := Word.Fits32 r.attemptCount

def UploadResponse.Sized (r : UploadResponse) : Prop := Word.Fits32 r.version

structure DeadLetterEntry.Sized (e : DeadLetterEntry) : Prop where
  attemptCount : Word.Fits32 e.attemptCount
  maxAttempts : Word.Fits32 e.maxAttempts
  finishedAt : ∀ t ∈ e.finishedAt, Word.Fits64 t

def DeadLettersResponse.Sized (r : DeadLettersResponse) : Prop := ∀ e ∈ r.jobs, e.Sized

end Rpc

structure JobView.Sized (v : JobView) : Prop where
  progress : Word.Fits32 v.progress
  attemptCount : Word.Fits32 v.attemptCount
  maxAttempts : Word.Fits32 v.maxAttempts
  nextRunAt : Word.Fits64 v.nextRunAt
  lockedAt : ∀ t ∈ v.lockedAt, Word.Fits64 t
  heartbeatAt : ∀ t ∈ v.heartbeatAt, Word.Fits64 t
  startedAt : ∀ t ∈ v.startedAt, Word.Fits64 t
  finishedAt : ∀ t ∈ v.finishedAt, Word.Fits64 t

namespace Cli

theorem decodes_enqueue {r : Rpc.EnqueueResponse} (h : r.Sized) :
    Decodes EnqueueResult.decoder (replyText (.ok r.toJson)) ⟨r.jobId, r.status, r.stage, r.created⟩ := by
  have hplain : Plain 126 r.toJson := by
    simp [Rpc.EnqueueResponse.toJson, Plain, Json.PlainFields, Word.Fits32.plain h]
  refine decodes_of_canonical hplain ?_
  simp only [canonical, Json.canonicalFields]
  exact Record.Reads.decoder_ofFields "EnqueueResult"
    (((((Record.Reads.pure _).field (by simp)).field (by simp)).field (by simp)).field (by simp)) (by simp)

theorem decodes_upload {r : Rpc.UploadResponse} (h : r.Sized) :
    Decodes UploadResult.decoder (replyText (.ok r.toJson))
      ⟨r.documentId, r.version, r.objectKey, r.jobId, r.jobStatus⟩ := by
  have hplain : Plain 126 r.toJson := by
    simp [Rpc.UploadResponse.toJson, Plain, Json.PlainFields, Word.Fits32.plain h]
  refine decodes_of_canonical hplain ?_
  simp only [canonical, Json.canonicalFields]
  exact Record.Reads.decoder_ofFields "UploadResult"
    ((((((Record.Reads.pure _).field (by simp)).field (by simp [Decoder.int32_ofJson 126 h])).field
      (by simp)).field (by simp)).field (by simp))
    (by simp)

theorem decodes_job {v : JobView} (h : v.Sized) :
    Decodes JobResult.decoder (replyText (.ok v.toJson))
      ⟨v.jobId, v.documentId, v.documentVersionId, v.status.name, v.stage.name, v.progress, v.attemptCount,
        v.maxAttempts, v.nextRunAt, v.lockedBy, v.error, v.terminal⟩ := by
  have hplain : Plain 126 v.toJson := by
    simp [JobView.toJson, JobStatus.toJson, JobStage.toJson, Plain, Json.PlainFields, h.progress.plain,
      h.attemptCount.plain, h.maxAttempts.plain, h.nextRunAt.plain, Json.plain_ofInt? h.lockedAt,
      Json.plain_ofInt? h.heartbeatAt, Json.plain_ofInt? h.startedAt, Json.plain_ofInt? h.finishedAt]
  refine decodes_of_canonical hplain ?_
  simp only [canonical, Json.canonicalFields, JobStatus.toJson, JobStage.toJson, Json.canonical_ofText?,
    Json.canonical_ofInt?]
  exact Record.Reads.decoder_ofFields "JobView"
    (((((((((((((Record.Reads.pure _).field (by simp)).field (by simp)).field (by simp)).field (by simp)).field
      (by simp)).field (by simp [Decoder.int32_ofJson 126 h.progress])).field
      (by simp [Decoder.int32_ofJson 126 h.attemptCount])).field
      (by simp [Decoder.int32_ofJson 126 h.maxAttempts])).field
      (by simp [Decoder.int64_ofJson 126 h.nextRunAt])).optionalField (by simp)).optionalField (by simp)).field
      (by simp))
    (by simp)

private theorem deadLetterRow_decoder {e : Rpc.DeadLetterEntry} (h : e.Sized) :
    DeadLetterRow.decoder 125 (.ofJson (canonical e.toJson)) =
      .ok ⟨e.jobId, e.documentId, e.action, e.attemptCount, e.error⟩ := by
  simp only [Rpc.DeadLetterEntry.toJson, canonical, Json.canonicalFields, Json.canonical_ofText?,
    Json.canonical_ofInt?]
  exact Record.Reads.decoder_ofFields "DeadLetterRow"
    ((((((Record.Reads.pure _).field (by simp)).field (by simp)).field (by simp)).field
      (by simp [Decoder.int32_ofJson 124 h.attemptCount])).optionalField (by simp))
    (by simp)

theorem decodes_deadLetters {r : Rpc.DeadLettersResponse} (h : r.Sized) :
    Decodes DeadLetters.decoder (replyText (.ok r.toJson))
      ⟨r.jobs.map fun e => ⟨e.jobId, e.documentId, e.action, e.attemptCount, e.error⟩⟩ := by
  -- The reply, its result and the list are one level each.
  have hentry : ∀ e ∈ r.jobs, Plain 124 e.toJson := fun e he => by
    simp [Rpc.DeadLetterEntry.toJson, Plain, Json.PlainFields, (h e he).attemptCount.plain,
      (h e he).maxAttempts.plain, Json.plain_ofInt? (h e he).finishedAt]
  have hplain : Plain 126 r.toJson :=
    ⟨by decide, ⟨by decide, Json.plainItems_map hentry⟩, trivial⟩
  have hjobs : Decoder.list DeadLetterRow.decoder 126
      (.ofJson (.array (r.jobs.map fun e => canonical e.toJson))) = .ok (r.jobs.map fun e =>
        ⟨e.jobId, e.documentId, e.action, e.attemptCount, e.error⟩) :=
    Decoder.list_ofJson _ _ _ fun e he => deadLetterRow_decoder (h e he)
  refine decodes_of_canonical hplain ?_
  simp only [canonical, Json.canonicalFields, Json.canonicalItems_map]
  exact Record.Reads.decoder_ofFields "DeadLetters" ((Record.Reads.pure _).field (by simp [hjobs])) (by simp)

end Cli

/-! ### What is answered -/

namespace Rpc

private theorem fits32_codeOf (e : AppError) : Word.Fits32 (RpcError.codeOf e) := by
  cases e <;> simp [RpcError.codeOf, Word.Fits32, Word.least32, Word.greatest32]

private theorem answer_cases {α : Type} (f : Service α) (toJson : α → Json) (w : World) :
    (∃ a, (answer f toJson w).1 = .ok (toJson a)) ∨ ∃ e, (answer f toJson w).1 = .error (.ofAppError e) := by
  unfold answer
  split
  · exact Or.inl ⟨_, rfl⟩
  · exact Or.inr ⟨_, rfl⟩

private theorem answer_ok {α : Type} {f : Service α} {toJson : α → Json} {w : World} {v : Json}
    (h : (answer f toJson w).1 = .ok v) : ∃ a, v = toJson a := by
  rcases answer_cases f toJson w with ⟨a, ha⟩ | ⟨e, he⟩
  · exact ⟨a, Except.ok.inj (h.symm.trans ha)⟩
  · rw [he] at h
    cases h

private theorem answer_error {α : Type} {f : Service α} {toJson : α → Json} {w : World} {e : RpcError}
    (h : (answer f toJson w).1 = .error e) : Word.Fits32 e.code := by
  rcases answer_cases f toJson w with ⟨a, ha⟩ | ⟨e', he⟩
  · rw [ha] at h
    cases h
  · obtain rfl := Except.error.inj (h.symm.trans he)
    exact fits32_codeOf e'

/-- The code of every error that a server answers a call with is a number of 32 bits. -/
theorem Call.serve_error {c : Call} {maxAttempts uptime : Int} {w : World} {e : RpcError}
    (h : (c.serve maxAttempts uptime w).1 = .error e) : Word.Fits32 e.code := by
  cases c with
  | upload p =>
    simp only [Call.serve] at h
    split at h
    · exact answer_error h
    · rename_i hupload
      obtain rfl := Except.error.inj h
      unfold uploadRequest at hupload
      split at hupload
      · cases hupload
      · obtain rfl := Except.error.inj hupload
        exact (show Word.Fits32 4000 from ⟨by decide, by decide⟩)
  | enqueue r => exact answer_error h
  | reindex p => exact answer_error h
  | job p => exact answer_error h
  | stats => exact answer_error h
  | deadLetters p => exact answer_error h

/-- The content of an upload arrives as it was sent. -/
theorem Call.uploadRequest_encodeText (tenant workspace kb fileName : String) (content : Bytes)
    (key : Option String) :
    uploadRequest ⟨tenant, workspace, kb, fileName, Base64.encodeText content, key⟩ =
      .ok ⟨tenant, workspace, kb, fileName, content, key⟩ := by
  simp only [uploadRequest, Base64.ofString_encodeText, Base64.decode_encode]

end Rpc

namespace Cli

/-! ### Commands -/

/-- A result on its two sides: how a server writes a response, the widths of the numbers in it, how a client
reads it, and what of the response the client reads. -/
structure ResultFormat (ρ α : Type) where
  toJson : ρ → Json
  Sized : ρ → Prop
  decoder : Decoder α
  shared : ρ → α

def enqueueFormat : ResultFormat Rpc.EnqueueResponse EnqueueResult where
  toJson := Rpc.EnqueueResponse.toJson
  Sized := Rpc.EnqueueResponse.Sized
  decoder := EnqueueResult.decoder
  shared r := ⟨r.jobId, r.status, r.stage, r.created⟩

def uploadFormat : ResultFormat Rpc.UploadResponse UploadResult where
  toJson := Rpc.UploadResponse.toJson
  Sized := Rpc.UploadResponse.Sized
  decoder := UploadResult.decoder
  shared r := ⟨r.documentId, r.version, r.objectKey, r.jobId, r.jobStatus⟩

def jobFormat : ResultFormat JobView JobResult where
  toJson := JobView.toJson
  Sized := JobView.Sized
  decoder := JobResult.decoder
  shared v := ⟨v.jobId, v.documentId, v.documentVersionId, v.status.name, v.stage.name, v.progress, v.attemptCount,
    v.maxAttempts, v.nextRunAt, v.lockedBy, v.error, v.terminal⟩

def deadLettersFormat : ResultFormat Rpc.DeadLettersResponse DeadLetters where
  toJson := Rpc.DeadLettersResponse.toJson
  Sized := Rpc.DeadLettersResponse.Sized
  decoder := DeadLetters.decoder
  shared r := ⟨r.jobs.map fun e => ⟨e.jobId, e.documentId, e.action, e.attemptCount, e.error⟩⟩

/-- Client and server agree on a request that a command makes: it is received as the call and answered as such.
Whatever the server returns, the client reads; whatever error it answers with, the client shows. -/
structure Agrees {ρ α : Type} (plan : Plan) (request : Request) (call : Rpc.Call) (format : ResultFormat ρ α) :
    Prop where
  planned : ∃ text, plan = .call request fun reply => .ofResult format.decoder text (resultOf reply)
  received : request.Received call
  answered : ∀ maxAttempts uptime w, Rpc.replyTo maxAttempts uptime request.toJson.text w =
    (replyText (call.serve maxAttempts uptime w).1, (call.serve maxAttempts uptime w).2)
  returned : ∀ maxAttempts uptime w v, (call.serve maxAttempts uptime w).1 = .ok v → ∃ r, v = format.toJson r
  decoded : ∀ r, format.Sized r → Decodes format.decoder (replyText (.ok (format.toJson r))) (format.shared r)
  printed : ∀ r text, format.Sized r →
    Outcome.ofResult format.decoder text (resultOf (some (replyText (.ok (format.toJson r))))) =
      .printed (text (format.shared r))
  shown : ∀ maxAttempts uptime w e text, (call.serve maxAttempts uptime w).1 = .error e →
    Outcome.ofResult format.decoder text (resultOf (some (replyText (.error e)))) =
      .failed s!"RPC error ({e.code}): {e.message}"

private theorem Agrees.intro {ρ α : Type} {plan : Plan} {request : Request} {call : Rpc.Call}
    {format : ResultFormat ρ α} (text : α → String)
    (hplan : plan = .call request fun reply => .ofResult format.decoder text (resultOf reply))
    (hreceived : request.Received call)
    (hreturned : ∀ {maxAttempts uptime w v}, (call.serve maxAttempts uptime w).1 = .ok v →
      ∃ r, v = format.toJson r)
    (hdecoded : ∀ {r}, format.Sized r →
      Decodes format.decoder (replyText (.ok (format.toJson r))) (format.shared r)) :
    Agrees plan request call format where
  planned := ⟨text, hplan⟩
  received := hreceived
  answered := hreceived.replyTo
  returned _ _ _ _ := hreturned
  decoded _ := hdecoded
  printed _ text h := (hdecoded h).printed text
  shown maxAttempts uptime w e text he := by
    simp only [Outcome.ofResult, resultOf_error (Rpc.Call.serve_error he)]

theorem agrees_enqueue (url : String) (read : String → Option Bytes) (scope : Scope)
    (document version action : String) (key : Option String) :
    Agrees ((Command.enqueue scope document version action key).plan url read)
      (.enqueue scope document version action key)
      (.enqueue ⟨scope.tenant, scope.workspace, scope.kb, document, version, action, key⟩) enqueueFormat := by
  refine .intro EnqueueResult.text rfl (Request.received_enqueue scope document version action key) ?_
    decodes_enqueue
  intro maxAttempts uptime w v h
  obtain ⟨o, ho⟩ := Rpc.answer_ok h
  exact ⟨.ofJob o.job o.created, ho⟩

theorem agrees_upload (url : String) {read : String → Option Bytes} {file fileName : String} (scope : Scope)
    {name : Option String} (key : Option String) {content : Bytes} (hread : read file = some content)
    (hname : (name <|> (Path.fileName? file.toList).map String.ofList) = some fileName) :
    Agrees ((Command.upload file scope name key).plan url read) (.upload scope fileName content key)
      (.upload ⟨scope.tenant, scope.workspace, scope.kb, fileName, Base64.encodeText content, key⟩)
      uploadFormat := by
  have hplan : (Command.upload file scope name key).plan url read =
      .call (.upload scope fileName content key) fun reply =>
        .ofResult UploadResult.decoder (fun r => r.text fileName content.length) (resultOf reply) := by
    simp only [Command.plan, planUpload, hread, hname]
  refine .intro _ hplan (Request.received_upload scope fileName content key) ?_ decodes_upload
  intro maxAttempts uptime w v h
  simp only [Rpc.Call.serve, Rpc.Call.uploadRequest_encodeText] at h
  obtain ⟨r, hr⟩ := Rpc.answer_ok h
  exact ⟨.ofReceipt r, hr⟩

theorem agrees_reindex (url : String) (read : String → Option Bytes) (tenant document : String)
    (key : Option String) :
    Agrees ((Command.reindex tenant document key).plan url read) (.reindex tenant document key)
      (.reindex ⟨tenant, document, key⟩) enqueueFormat := by
  refine .intro EnqueueResult.text rfl (Request.received_reindex tenant document key) ?_ decodes_enqueue
  intro maxAttempts uptime w v h
  obtain ⟨o, ho⟩ := Rpc.answer_ok h
  exact ⟨.ofJob o.job o.created, ho⟩

theorem agrees_job (url : String) (read : String → Option Bytes) (id : String) (tenant : Option String) :
    Agrees ((Command.job id tenant).plan url read) (.job id tenant) (.job ⟨id, tenant⟩) jobFormat :=
  .intro JobResult.text rfl (Request.received_job id tenant) Rpc.answer_ok decodes_job

theorem agrees_deadLetters (url : String) (read : String → Option Bytes) {limit : Int}
    (h : Word.Fits64 limit) :
    Agrees ((Command.deadLetters limit).plan url read) (.deadLetters limit) (.deadLetters ⟨limit⟩)
      deadLettersFormat := by
  refine .intro DeadLetters.text rfl (Request.received_deadLetters h) ?_ decodes_deadLetters
  intro maxAttempts uptime w v hserve
  obtain ⟨jobs, hjobs⟩ := Rpc.answer_ok hserve
  exact ⟨⟨jobs.map .ofJob⟩, hjobs⟩

/-- Client and server speak the same format, for every command but the one that shows the counts and for all
its arguments.  The content of an upload arrives as it is in the file. -/
theorem wire_format (url : String) (read : String → Option Bytes) :
    (∀ scope document version action key,
      Agrees ((Command.enqueue scope document version action key).plan url read)
        (.enqueue scope document version action key)
        (.enqueue ⟨scope.tenant, scope.workspace, scope.kb, document, version, action, key⟩) enqueueFormat) ∧
    (∀ file scope name key content fileName, read file = some content →
      (name <|> (Path.fileName? file.toList).map String.ofList) = some fileName →
      Agrees ((Command.upload file scope name key).plan url read) (.upload scope fileName content key)
        (.upload ⟨scope.tenant, scope.workspace, scope.kb, fileName, Base64.encodeText content, key⟩)
        uploadFormat ∧
      Rpc.Call.uploadRequest
          ⟨scope.tenant, scope.workspace, scope.kb, fileName, Base64.encodeText content, key⟩ =
        .ok ⟨scope.tenant, scope.workspace, scope.kb, fileName, content, key⟩) ∧
    (∀ tenant document key,
      Agrees ((Command.reindex tenant document key).plan url read) (.reindex tenant document key)
        (.reindex ⟨tenant, document, key⟩) enqueueFormat) ∧
    (∀ id tenant,
      Agrees ((Command.job id tenant).plan url read) (.job id tenant) (.job ⟨id, tenant⟩) jobFormat) ∧
    (∀ limit, Word.Fits64 limit →
      Agrees ((Command.deadLetters limit).plan url read) (.deadLetters limit) (.deadLetters ⟨limit⟩)
        deadLettersFormat) := by
  refine ⟨?_, ?_, ?_, ?_, ?_⟩
  · exact agrees_enqueue url read
  · intro file scope name key content fileName hread hname
    exact ⟨agrees_upload url scope key hread hname,
      Rpc.Call.uploadRequest_encodeText scope.tenant scope.workspace scope.kb fileName content key⟩
  · exact agrees_reindex url read
  · exact agrees_job url read
  · exact fun _ => agrees_deadLetters url read

/-- The upload of a file of one byte and the list of dead letters, with a reply to each. -/
theorem wire_format_upload :
    Request.Received (.upload ⟨"t", "w", "k"⟩ "b.md" [0xFF] none)
      (.upload ⟨"t", "w", "k", "b.md", "/w==", none⟩) ∧
    Decodes UploadResult.decoder
      (replyText (.ok (Rpc.UploadResponse.toJson ⟨"d", "v", 3, "t/w/k/d/v/b.md", "j", "queued"⟩)))
      ⟨"d", 3, "t/w/k/d/v/b.md", "j", "queued"⟩ ∧
    Request.Received (.deadLetters 20) (.deadLetters ⟨20⟩) ∧
    Decodes DeadLetters.decoder
      (replyText (.ok (Rpc.DeadLettersResponse.toJson
        ⟨[⟨"j", "t", "d", "v", "upload", 3, 3, some "a \"quoted\" error", some 1700000000000⟩]⟩)))
      ⟨[⟨"j", "d", "upload", 3, some "a \"quoted\" error"⟩]⟩ := by
  obtain ⟨_, hupload, _, _, hdeadLetters⟩ := wire_format "http://localhost" fun _ => some [0xFF]
  have hfile := (hupload "a/b.md" ⟨"t", "w", "k"⟩ none none [0xFF] "b.md" rfl (by decide)).1
  have hlist := hdeadLetters 20 ⟨by decide, by decide⟩
  have hversion : uploadFormat.Sized ⟨"d", "v", 3, "t/w/k/d/v/b.md", "j", "queued"⟩ := ⟨by decide, by decide⟩
  have hentries : deadLettersFormat.Sized
      ⟨[⟨"j", "t", "d", "v", "upload", 3, 3, some "a \"quoted\" error", some 1700000000000⟩]⟩ := by
    intro e he
    rw [List.mem_singleton.1 he]
    refine ⟨⟨by decide, by decide⟩, ⟨by decide, by decide⟩, ?_⟩
    rintro t ⟨⟩
    exact ⟨by decide, by decide⟩
  exact ⟨hfile.received, hfile.decoded _ hversion, hlist.received, hlist.decoded _ hentries⟩

end Cli

end IngestionQueue
