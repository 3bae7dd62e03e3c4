import IngestionQueue.Ingestion
import IngestionQueue.Proofs.ObjectKey
import IngestionQueue.Proofs.Write
import IngestionQueue.Recovery
import IngestionQueue.Worker

/-!
# What the services do

The services of producers, workers and the recovery are made of pieces, each of them with one call of the
tables or of the object store.  The lemmas `…_on` say what a piece returns and which world it leaves: either
the one that it found, but for the identifiers it has used up, or one in which a single write was made.  The
identifiers of a counted sequence differ from each other, and can be parts of an object key.
-/

namespace IngestionQueue

/-! ### Identifiers -/

namespace IdSequence

private theorem toList_numbered (stem : String) (n : Nat) :
    ((numbered stem).nth n).toList = stem.toList ++ '-' :: (toString (n : Int)).toList := by
  have hstring : ∀ s : String, toString s = s := fun _ => rfl
  have hnumber : toString n = toString (n : Int) := rfl
  simp only [numbered, hstring, hnumber, String.toList_append, List.append_assoc]
  rfl

theorem slash_not_mem_numbered (stem : String) (h : '/' ∉ stem.toList) (n : Nat) :
    '/' ∉ ((numbered stem).nth n).toList := by
  simp [toList_numbered, h, slash_not_mem_toString, -Int.toString_eq_repr]

theorem numbered_injective (stem : String) : Function.Injective (numbered stem).nth := by
  intro m n h
  have hlist := congrArg String.toList h
  simp only [toList_numbered, List.append_cancel_left_eq, List.cons.injEq, String.toList_inj, true_and] at hlist
  exact Int.ofNat_inj.1 (toString_int_injective hlist)

end IdSequence

/-- The world after some identifiers were handed out. -/
def World.handOut (w : World) (count : Nat) : World :=
  { w with ids := { w.ids with next := w.ids.next + count } }

@[simp]
theorem World.handOut_zero (w : World) : w.handOut 0 = w := rfl

theorem World.handOut_handOut (w : World) (m n : Nat) : (w.handOut m).handOut n = w.handOut (m + n) := by
  simp [handOut, Nat.add_assoc]

/-- The world after a write to the tables. -/
def World.write (w : World) (wr : Write) : World :=
  { w with store := wr.apply w.store }

/-! ### Producers -/

/-- What a job for a version of the document is about. -/
def Document.target (d : Document) (versionId : String) : JobTarget :=
  ⟨d.tenantId, d.workspaceId, d.kbId, d.id, versionId⟩

namespace Store

private theorem latest?_mem {ds : List Document} {d : Document} (h : latest? ds = some d) : d ∈ ds := by
  induction ds generalizing d with
  | nil => cases h
  | cons e rest ih =>
    simp only [latest?] at h
    cases hrest : latest? rest with
    | none =>
      rw [hrest] at h
      obtain rfl : e = d := by simpa using h
      exact List.mem_cons_self
    | some f =>
      rw [hrest] at h
      have hf := ih hrest
      simp only [Option.some.injEq] at h
      split at h <;> subst h
      · exact List.mem_cons_self
      · exact List.mem_cons_of_mem _ hf

theorem mem_documentsFrom {s : Store} {tenantId workspaceId kbId sourceUri : String} {d : Document} :
    d ∈ s.documentsFrom tenantId workspaceId kbId sourceUri ↔
      d ∈ s.documents ∧ (d.tenantId = tenantId ∧ d.workspaceId = workspaceId ∧ d.kbId = kbId ∧
        d.sourceUri = some sourceUri) ∧ d.status ≠ .deleted := by
  simp [documentsFrom, and_assoc]

/-- An upload adds to a document of its tenant at its place with its name, one that is not deleted. -/
theorem of_documentFrom? {s : Store} {tenantId workspaceId kbId sourceUri : String} {d : Document}
    (h : s.documentFrom? tenantId workspaceId kbId sourceUri = some d) :
    d ∈ s.documents ∧ (d.tenantId = tenantId ∧ d.workspaceId = workspaceId ∧ d.kbId = kbId ∧
      d.sourceUri = some sourceUri) ∧ d.status ≠ .deleted :=
  mem_documentsFrom.1 (latest?_mem h)

/-- Where no document is found, there is none, or it is deleted. -/
theorem not_mem_of_documentFrom?_eq_none {s : Store} {tenantId workspaceId kbId sourceUri : String}
    (h : s.documentFrom? tenantId workspaceId kbId sourceUri = none) (d : Document) :
    d ∉ s.documentsFrom tenantId workspaceId kbId sourceUri := by
  unfold documentFrom? at h
  cases hfound : s.documentsFrom tenantId workspaceId kbId sourceUri with
  | nil => exact List.not_mem_nil
  | cons e rest =>
    rw [hfound] at h
    simp only [latest?] at h
    split at h <;> cases h

end Store

namespace Ingestion

theorem lookUp_on (maxAttempts : Int) (r : EnqueueRequest) (w : World) :
    (∃ e, (lookUp maxAttempts r).on w = (.error e, w)) ∨
      (∃ action job, r.check = .ok action ∧ w.store.jobByKey? r.tenantId (r.key action) = some job ∧
        (lookUp maxAttempts r).on w = (.ok (.taken job), w)) ∨
      ∃ action, r.check = .ok action ∧ w.store.jobByKey? r.tenantId (r.key action) = none ∧
        (lookUp maxAttempts r).on w =
          (.ok (.free (r.job action w.ids.head w.now maxAttempts)), w.handOut 1) := by
  cases hcheck : r.check with
  | error e => exact .inl ⟨e, by simp [lookUp, hcheck]⟩
  | ok action =>
    cases hjob : w.store.jobByKey? r.tenantId (r.key action) with
    | some job => exact .inr (.inl ⟨action, job, rfl, hjob, by simp [lookUp, hcheck, hjob]⟩)
    | none => exact .inr (.inr ⟨action, rfl, hjob, by simp [lookUp, hcheck, hjob]; rfl⟩)

theorem liveDocument_on (tenantId documentId : String) (w : World) :
    (∃ e, (liveDocument tenantId documentId).on w = (.error e, w)) ∨
      ∃ d, w.store.document? tenantId documentId = some d ∧ d.status ≠ .deleted ∧
        (liveDocument tenantId documentId).on w = (.ok d, w) := by
  simp only [liveDocument, Service.on_bind, Service.on_read]
  cases hfound : w.store.document? tenantId documentId with
  | none => exact .inl ⟨_, rfl⟩
  | some d =>
    by_cases hdeleted : d.status = .deleted
    · exact .inl ⟨.notFound s!"document {documentId}", by simp [Option.filter, hdeleted]⟩
    · exact .inr ⟨d, rfl, hdeleted, by simp [Option.filter, hdeleted]⟩

theorem reindexRequest_on (d : Document) (key : Option String) (w : World) :
    (∃ e, (reindexRequest d key).on w = (.error e, w)) ∨
      ∃ v ∈ w.store.versions, ∃ r, v.documentId = d.id ∧ v.version = d.currentVersion ∧
        r.target = d.target v.id ∧ (reindexRequest d key).on w = (.ok r, w) := by
  simp only [reindexRequest, Service.on_bind, Service.on_read, Store.version?]
  cases hfound : w.store.versions.find? fun v => v.documentId == d.id && v.version == d.currentVersion with
  | none => exact .inl ⟨_, rfl⟩
  | some v =>
    obtain ⟨hdocument, hversion⟩ : v.documentId = d.id ∧ v.version = d.currentVersion := by
      simpa using List.find?_some hfound
    exact .inr ⟨v, List.mem_of_find?_eq_some hfound, _, hdocument, hversion, rfl, rfl⟩

/-- The upload as it is planned on a world. -/
def planOn (r : UploadRequest) (w : World) : UploadPlan :=
  ⟨r, w.now, r.document w.now (w.store.documentFrom? r.tenantId r.workspaceId r.kbId r.sourceUri) w.ids.head⟩

theorem plan_on (r : UploadRequest) (w : World) :
    (∃ e, r.check = .error e ∧ (plan r).on w = (.error e, w)) ∨
      ∃ count, (w.store.documentFrom? r.tenantId r.workspaceId r.kbId r.sourceUri = none → count = 1) ∧
        (plan r).on w = (.ok (planOn r w), w.handOut count) := by
  cases hcheck : r.check with
  | error e => exact .inl ⟨e, rfl, by simp [plan, hcheck]⟩
  | ok =>
    right
    simp only [plan, uploadedDocument, planOn, Service.on_bind, Service.on_lift, hcheck, Service.on_now,
      Service.on_read]
    cases w.store.documentFrom? r.tenantId r.workspaceId r.kbId r.sourceUri with
    | some d => exact ⟨0, by simp, by simp [UploadRequest.document]⟩
    | none => exact ⟨1, fun _ => rfl, by simp; rfl⟩

theorem storeObject_on (p : UploadPlan) (w : World) :
    (storeObject p).on w =
      ((w.objects.put p.objectKey p.request.content).2.mapError .storage,
        { w with objects := (w.objects.put p.objectKey p.request.content).1 }) := rfl

/-- The version that an upload records on a world. -/
def versionOn (p : UploadPlan) (w : World) : DocumentVersion :=
  p.version w.ids.head

/-- The job that an upload asks for on a world. -/
def jobOn (maxAttempts : Int) (p : UploadPlan) (w : World) : Job :=
  p.job maxAttempts (versionOn p w) w.ids.tail.head

/-- What the client of an upload is told once it is recorded on a world. -/
def receiptOn (maxAttempts : Int) (p : UploadPlan) (w : World) : UploadReceipt where
  documentId := p.document.id
  documentVersionId := (versionOn p w).id
  version := (versionOn p w).version
  objectKey := (versionOn p w).objectKey
  job := jobOn maxAttempts p w

/-- The write that records an upload on a world. -/
def saveOn (maxAttempts : Int) (p : UploadPlan) (w : World) : Write :=
  .save p.document (.ofVersion (versionOn p w)) (some (jobOn maxAttempts p w))

theorem record_on (maxAttempts : Int) (p : UploadPlan) (w : World) :
    (∃ e, (record maxAttempts p).on w = (.error e, w.handOut 2)) ∨
      ((saveOn maxAttempts p w).Allowed w.store ∧
        (record maxAttempts p).on w =
          (.ok (receiptOn maxAttempts p w), (w.handOut 2).write (saveOn maxAttempts p w))) := by
  have hsave := Query.saveUpload_on p.document (versionOn p w) (some (jobOn maxAttempts p w)) w.store
  simp only [versionOn, jobOn] at hsave
  simp only [record, Service.on_bind, Service.on_freshId, Service.on_query]
  rcases hsave with ⟨e, h⟩ | ⟨hallowed, h⟩ <;> rw [h]
  · exact .inl ⟨e, rfl⟩
  · exact .inr ⟨hallowed, rfl⟩

end Ingestion

/-! ### Workers -/

namespace Attempt

theorem resolve_on (lease : Lease) (versionId : String) (w : World) :
    (∃ e, (resolve lease versionId).on w = (.error e, w)) ∨
      ∃ source key, w.store.source? versionId = some source ∧ keyOf source = some key ∧
        (resolve lease versionId).on w = (.ok ⟨lease, source, key⟩, w) := by
  simp only [resolve, Service.on_bind, Service.on_read]
  cases hsource : w.store.source? versionId with
  | none => exact .inl ⟨_, rfl⟩
  | some source =>
    cases hkey : keyOf source with
    | none => exact .inl ⟨.validation s!"document version {versionId} has no object key", by simp [hkey]⟩
    | some key => exact .inr ⟨source, key, rfl, hkey, by simp [hkey]⟩

theorem mark_on (a : Attempt) (w : World) :
    a.mark.on w =
      if a.lease.Current w.store then (.ok (), w.write (.mark a.lease a.source.documentId w.now))
      else (.error a.lease.lost, w) := by
  simp only [mark, Service.on_bind, Service.on_now, Service.on_query, Query.markProcessing_on]
  split <;> rfl

theorem load_on (a : Attempt) (w : World) :
    (∃ e, a.load.on w = (.error e, w)) ∨
      ∃ bytes text, w.objects.get a.objectKey = .ok bytes ∧ a.source.parser.decode bytes = some text ∧
        a.load.on w = (.ok text, w) := by
  cases hget : w.objects.get a.objectKey with
  | error e =>
    have hread : (Service.getObject a.objectKey).on w = (.error (.storage e), w) := by
      rw [Service.on_getObject, hget]
      rfl
    exact .inl ⟨.storage e, by simp only [load, Service.on_bind, hread]⟩
  | ok bytes =>
    have hread : (Service.getObject a.objectKey).on w = (.ok bytes, w) := by
      rw [Service.on_getObject, hget]
      rfl
    simp only [load, Service.on_bind, hread]
    cases hdecode : a.source.parser.decode bytes with
    | none => exact .inl ⟨.unsupportedParser a.source.parser.name, rfl⟩
    | some text => exact .inr ⟨bytes, text, rfl, hdecode, rfl⟩

theorem advance_on (a : Attempt) (w : World) :
    a.advance.on w =
      if a.lease.Current w.store then (.ok (), w.write (.advance a.lease .chunking progressChunking w.now))
      else (.error a.lease.lost, w) := by
  have hprogress : ¬(progressChunking < 0 ∨ 100 < progressChunking) := by decide
  simp only [advance, Service.on_bind, Service.on_now, Service.on_query, Query.advanceStage_on, hprogress,
    if_false]
  split <;> rfl

/-- What is written of a text that was cut into pieces: number, content and count of words of each chunk. -/
def numbered (pieces : List String) (first : Int) : List (Int × String × Int) :=
  pieces.mapIdx fun i piece => (first + i, piece, (Text.wordCount piece : Int))

theorem numbered_cons (piece : String) (rest : List String) (first : Int) :
    numbered (piece :: rest) first =
      (first, piece, (Text.wordCount piece : Int)) :: numbered rest (first + 1) := by
  simp [numbered, Int.add_assoc, Int.add_comm 1]

theorem numbered_eq_nil {pieces : List String} {first : Int} : numbered pieces first = [] ↔ pieces = [] := by
  simp [numbered]

theorem number_on (pieces : List String) (first : Int) (w : World) :
    ∃ chunks, chunks.map (fun c => (c.chunkNo, c.content, c.tokenCount)) = numbered pieces first ∧
      (number pieces first).on w = (.ok chunks, w.handOut pieces.length) := by
  induction pieces generalizing first w with
  | nil => exact ⟨[], rfl, rfl⟩
  | cons piece rest ih =>
    obtain ⟨chunks, hchunks, h⟩ := ih (first + 1) (w.handOut 1)
    refine ⟨⟨w.ids.head, first, piece, Text.wordCount piece⟩ :: chunks, ?_, ?_⟩
    · simp [hchunks, numbered_cons]
    · simp only [number, Service.on_bind, Service.on_freshId]
      have htail : { w with ids := w.ids.tail } = w.handOut 1 := rfl
      rw [htail, h, World.handOut_handOut]
      simp [Nat.add_comm]

/-- An attempt writes all pieces of the text or nothing. -/
theorem write_on (chunking : ChunkConfig) (a : Attempt) (text : String) (w : World) :
    (∃ e count, (a.write chunking text).on w = (.error e, w.handOut count)) ∨
      ∃ chunks count, chunking.chunk text ≠ [] ∧
        chunks.map (fun c => (c.chunkNo, c.content, c.tokenCount)) = numbered (chunking.chunk text) 1 ∧
        (Write.finalize a.lease a.source chunks w.now).Allowed w.store ∧
        (a.write chunking text).on w =
          (.ok chunks.length, (w.handOut count).write (.finalize a.lease a.source chunks w.now)) := by
  simp only [write]
  cases hpieces : chunking.chunk text with
  | nil => exact .inl ⟨.emptyContent, 0, rfl⟩
  | cons piece rest =>
    obtain ⟨chunks, hchunks, h⟩ := number_on (piece :: rest) 1 w
    simp only [Service.on_bind, h, Service.on_now, Service.on_query]
    rcases Query.finalize_on w.now a.lease a.source chunks w.store with ⟨e, hf⟩ | ⟨hallowed, hf⟩
    · refine .inl ⟨e, (piece :: rest).length, ?_⟩
      have hf' : (Query.finalize (w.handOut (piece :: rest).length).now a.lease a.source chunks).on
          (w.handOut (piece :: rest).length).store = (.error e, w.store) := hf
      rw [hf']
      rfl
    · refine .inr ⟨chunks, (piece :: rest).length, by simp, hchunks, hallowed, ?_⟩
      have hf' : (Query.finalize (w.handOut (piece :: rest).length).now a.lease a.source chunks).on
          (w.handOut (piece :: rest).length).store =
            (.ok chunks.length, (Write.finalize a.lease a.source chunks w.now).apply w.store) := hf
      rw [hf']
      rfl

end Attempt

namespace Checked

theorem claimNext_on {timeout : Int} {w : World} (h : Word.Fits64 (w.now - timeout)) (workerId : String) :
    (claimNext workerId timeout).on w =
      match Job.first? (w.store.claimable w.now timeout) with
      | none => (.ok none, w)
      | some j => (.ok (some (j.claim workerId w.now).claimed), w.write (.claim j workerId w.now timeout)) := by
  simp only [claimNext, on_bind, on_lift, Service.on_now, Word.subChecked_eq_ok h, on_ofArithmetic_ok,
    Service.on_query, Query.claimNext_on]
  cases Job.first? (w.store.claimable w.now timeout) <;> rfl

theorem claimNext_of_overflow {timeout : Int} {w : World} (h : ¬Word.Fits64 (w.now - timeout)) (workerId : String) :
    (claimNext workerId timeout).on w = (.error (.overflow .sub), w) := by
  simp only [claimNext, on_bind, on_lift, Service.on_now, Word.subChecked_eq_error h, on_ofArithmetic_error]

theorem abandonedJobs_on {timeout : Int} {w : World} (h : Word.Fits64 (w.now - timeout)) :
    (abandonedJobs timeout).on w = (.ok (w.store.abandonedJobs w.now timeout), w) := by
  simp only [abandonedJobs, on_bind, on_lift, Service.on_now, Word.subChecked_eq_ok h, on_ofArithmetic_ok,
    Service.on_read]

theorem abandonedJobs_of_overflow {timeout : Int} {w : World} (h : ¬Word.Fits64 (w.now - timeout)) :
    (abandonedJobs timeout).on w = (.error (.overflow .sub), w) := by
  simp only [abandonedJobs, on_bind, on_lift, Service.on_now, Word.subChecked_eq_error h, on_ofArithmetic_error]

end Checked

namespace Worker

theorem processNext_of_overflow {worker : Worker} {w : World} (h : ¬Word.Fits64 (w.now - worker.leaseTimeout)) :
    worker.processNext.on w = (.error (.overflow .sub), w) := by
  simp only [processNext, Checked.on_bind, claim, Checked.claimNext_of_overflow h]

theorem processNext_of_none {worker : Worker} {w : World} (hfits : Word.Fits64 (w.now - worker.leaseTimeout))
    (h : Job.first? (w.store.claimable w.now worker.leaseTimeout) = none) :
    worker.processNext.on w = (.ok none, w) := by
  simp only [processNext, Checked.on_bind, claim, Checked.claimNext_on hfits, h, Checked.on_pure]

theorem decide_of_left {worker : Worker} {job : ClaimedJob} {now : Int} (hleft : job.attemptCount < job.maxAttempts)
    (hfits : Word.Fits64 (now + worker.retry.delay job.attemptCount)) (message : String) :
    worker.decide job message now = .ok ⟨.retry (now + worker.retry.delay job.attemptCount),
      .retrying (now + worker.retry.delay job.attemptCount), truncateError message⟩ := by
  simp only [decide, RetryPolicy.decide, Int.not_le.2 hleft, if_false, Word.addChecked_eq_ok hfits]
  rfl

theorem decide_of_overflow {worker : Worker} {job : ClaimedJob} {now : Int}
    (hleft : job.attemptCount < job.maxAttempts)
    (hfits : ¬Word.Fits64 (now + worker.retry.delay job.attemptCount)) (message : String) :
    worker.decide job message now = .error .add := by
  simp only [decide, RetryPolicy.decide, Int.not_le.2 hleft, if_false, Word.addChecked_eq_error hfits]
  rfl

theorem decide_of_last {job : ClaimedJob} (hlast : job.maxAttempts ≤ job.attemptCount) (worker : Worker)
    (message : String) (now : Int) :
    worker.decide job message now = .ok ⟨.deadLetter, .deadLettered, truncateError message⟩ := by
  simp only [decide, RetryPolicy.decide, hlast, if_true]

/-- A failed attempt is recorded as a retry if it was not the last one, and as the end of the job otherwise. -/
theorem of_decide {worker : Worker} {job : ClaimedJob} {message : String} {now : Int} {f : Failure}
    (h : worker.decide job message now = .ok f) :
    job.attemptCount < job.maxAttempts ∧ Word.Fits64 (now + worker.retry.delay job.attemptCount) ∧
        f.outcome = .retry (now + worker.retry.delay job.attemptCount) ∨
      job.maxAttempts ≤ job.attemptCount ∧ f.outcome = .deadLetter := by
  by_cases hlast : job.maxAttempts ≤ job.attemptCount
  · rw [decide_of_last hlast] at h
    obtain rfl := Except.ok.inj h
    exact .inr ⟨hlast, rfl⟩
  · have hleft := Int.not_le.1 hlast
    by_cases hfits : Word.Fits64 (now + worker.retry.delay job.attemptCount)
    · rw [decide_of_left hleft hfits] at h
      obtain rfl := Except.ok.inj h
      exact .inl ⟨hleft, hfits, rfl⟩
    · rw [decide_of_overflow hleft hfits] at h
      cases h

theorem judge_of_ok {worker : Worker} {job : ClaimedJob} {message : String} {w : World} {f : Failure}
    (h : worker.decide job message w.now = .ok f) : (worker.judge job message).on w = (.ok f, w) := by
  simp only [judge, Checked.on_bind, Checked.on_lift, Service.on_now, h, Checked.on_ofArithmetic_ok]

theorem judge_of_overflow {worker : Worker} {job : ClaimedJob} {message : String} {w : World} {o : Word.Overflow}
    (h : worker.decide job message w.now = .error o) :
    (worker.judge job message).on w = (.error (.overflow o), w) := by
  simp only [judge, Checked.on_bind, Checked.on_lift, Service.on_now, h, Checked.on_ofArithmetic_error]

/-- The write that records a failure on a world. -/
def failOn (worker : Worker) (job : ClaimedJob) (f : Failure) (w : World) : Write :=
  .fail (job.lease worker.id) job.documentId job.documentVersionId f.outcome f.error w.now

theorem record_on (worker : Worker) (job : ClaimedJob) (f : Failure) (w : World) :
    (worker.record job f).on w =
      if (job.lease worker.id).Current w.store then (.ok f.report, w.write (worker.failOn job f w))
      else (.ok .leaseLost, w) := by
  simp only [record, Service.on_bind, Service.on_attempt, Service.on_now, Service.on_query,
    Query.recordFailure_on]
  by_cases h : (job.lease worker.id).Current w.store
  · rw [if_pos h, if_pos h]
    rfl
  · rw [if_neg h, if_neg h]
    rfl

end Worker

/-! ### Recovery -/

namespace Recovery

/-- The lease of the worker that vanished. -/
def leaseOf (j : Job) (workerId : String) : Lease :=
  ⟨j.id, workerId, j.attemptCount⟩

/-- The write that gives a job up on a world. -/
def giveUpWrite (j : Job) (workerId : String) (w : World) : Write :=
  .fail (leaseOf j workerId) j.documentId j.documentVersionId .deadLetter leaseExpired w.now

theorem giveUp_on (j : Job) (w : World) :
    (giveUp j).on w =
      match j.lockedBy with
      | none => (.ok false, w)
      | some workerId =>
        if (leaseOf j workerId).Current w.store then (.ok true, w.write (giveUpWrite j workerId w))
        else (.ok false, w) := by
  unfold giveUp
  cases j.lockedBy with
  | none => rfl
  | some workerId =>
    simp only [Service.on_bind, Service.on_attempt, Service.on_now, Service.on_query,
      Query.recordFailure_on]
    by_cases h : (leaseOf j workerId).Current w.store
    · have h' := h
      simp only [leaseOf] at h'
      rw [if_pos h', if_pos h]
      rfl
    · have h' := h
      simp only [leaseOf] at h'
      rw [if_neg h', if_neg h]
      rfl

end Recovery

end IngestionQueue
