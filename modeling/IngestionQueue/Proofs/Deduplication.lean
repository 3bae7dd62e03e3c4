import IngestionQueue.Proofs.Idempotence
import IngestionQueue.Proofs.IdempotencyKey

/-!
# Whose job answers a request

Every job carries the key of what it is about (`Job.Keyed`), and an enqueue is answered with a job that has the
key of the request (`Task.Pursues`).  So the job is about what the request names, as far as the key tells
targets apart: it does wherever the names have equally many colons, and nowhere else (`System.deduplication`).
A colon that moves from one name to the next makes the queue answer with the job of somebody else
(`System.deduplication_confused`).
-/

namespace IngestionQueue

/-- The key of the job is that of what it is about, with the token of some client. -/
def Job.Keyed (j : Job) : Prop :=
  ∃ token, j.idempotencyKey = IdempotencyKey.build j.target j.action token

theorem Job.Keyed.of_origin {j k : Job} (horigin : k.origin = j.origin) (h : j.Keyed) : k.Keyed := by
  obtain ⟨token, htoken⟩ := h
  have haction : k.action = j.action := by
    have := congrArg Job.action horigin
    exact this
  exact ⟨token, by rw [(Job.key_of_origin horigin).2, Job.target_of_origin horigin, haction, htoken]⟩

/-! ### All jobs -/

/-- A job that a task is about to insert has the key of what it is about. -/
def Task.Keyed : Task → Prop
  | insertJob job => job.Keyed
  | _ => True

namespace System

structure Keyed (σ : System) : Prop where
  rows : ∀ j ∈ σ.world.store.jobs, j.Keyed
  tasks : ∀ t ∈ σ.tasks, t.Keyed

variable {σ : System}

/-- A row is that of a job that was there, or that of the job that a task has just inserted. -/
theorem step_source {e : Event} {k : Job} (hk : k ∈ (σ.step e).world.store.jobs) :
    (∃ j ∈ σ.world.store.jobs, k.origin = j.origin) ∨ ∃ t ∈ σ.tasks, k ∈ t.toInsert σ.world := by
  obtain ⟨wr, hwr, hadds⟩ := σ.step_adds e
  generalize (σ.step e).world.store = s' at hwr hk
  cases hwr with
  | nothing => exact .inl ⟨k, hk, rfl⟩
  | @made x _ =>
    rcases Write.mem_jobs.1 hk with ⟨j, hj, rfl⟩ | hnew
    · exact .inl ⟨j, hj, x.job_origin j⟩
    · right
      rcases hadds x rfl with ⟨hnone, _⟩ | ⟨job, ht, rfl⟩ | ⟨maxAttempts, p, ht, rfl⟩
      · rw [hnone] at hnew
        cases hnew
      · exact ⟨_, ht, by simpa [Task.toInsert, eq_comm] using hnew⟩
      · exact ⟨_, ht, by simpa [Task.toInsert, Ingestion.saveOn, eq_comm] using hnew⟩

theorem step_keyed (h : σ.Keyed) (e : Event) : (σ.step e).Keyed where
  rows := by
    intro k hk
    rcases step_source hk with ⟨j, hj, horigin⟩ | ⟨t, ht, hinserts⟩
    · exact .of_origin horigin (h.rows j hj)
    · cases t with
      | insertJob job =>
        obtain rfl : job = k := Option.some.inj hinserts
        exact h.tasks _ ht
      | saveUpload maxAttempts p =>
        obtain rfl : Ingestion.jobOn maxAttempts p σ.world = k := Option.some.inj hinserts
        exact ⟨p.request.idempotencyKey, rfl⟩
      | _ => cases hinserts
  tasks := by
    refine σ.step_tasks e h.tasks (fun r _ => trivial) ?_ fun worker job phase e _ => trivial
    intro i t wr t' _ _ _ hstep
    cases hstep with
    | lookUp maxAttempts r action => exact ⟨r.idempotencyKey, rfl⟩
    | _ => trivial

theorem run_keyed (h : σ.Keyed) (events : List Event) : (σ.run events).Keyed := by
  refine run_induction (P := fun _ σ => σ.Keyed) h ?_
  intro before e _ hbefore
  exact step_keyed hbefore e

theorem initial_keyed (objects : ObjectStore) (now : Int) (ids : IdSequence) :
    (initial objects now ids).Keyed := by
  constructor <;> simp [initial, Store.empty]

end System

/-! ### One request -/

namespace Task

/-- What becomes of the task of a request: it goes on with the job of the request, it is answered with a job that
has the key of the request, or it fails. -/
inductive Pursues (r : EnqueueRequest) : Task → Prop
  | asked (maxAttempts : Int) : Pursues r (asked (.enqueue maxAttempts r))
  | insertJob {action : IngestAction} (hcheck : r.check = .ok action) (id : String) (now maxAttempts : Int) :
    Pursues r (insertJob (r.job action id now maxAttempts))
  | readJob {action : IngestAction} (hcheck : r.check = .ok action) (id : String) (now maxAttempts : Int)
    (created : Bool) : Pursues r (readJob (r.job action id now maxAttempts) created)
  | answered {action : IngestAction} (hcheck : r.check = .ok action) (k : Job) (created : Bool)
    (htenant : k.tenantId = r.tenantId) (hkey : k.idempotencyKey = r.key action) (hkeyed : k.Keyed) :
    Pursues r (ended (.ok (.job ⟨k, created⟩)))
  | failed (e : AppError) : Pursues r (ended (.error (.failed e)))

namespace Pursues

variable {r : EnqueueRequest} {t : Task} {w : World}

theorem not_attempt (h : t.Pursues r) (worker : Worker) (job : ClaimedJob) (phase : Phase) :
    t ≠ attempt worker job phase := by
  rintro rfl
  cases h

theorem resume (h : t.Pursues r) (hkeyed : ∀ j ∈ w.store.jobs, j.Keyed) (hread : t.Readable w.store) :
    (t.resume w).1.Pursues r := by
  cases h with
  | asked maxAttempts =>
    cases hcheck : r.check with
    | error e =>
      rw [resume_enqueue_of_error hcheck]
      exact .failed e
    | ok action =>
      by_cases hkey : w.store.HasKey r.tenantId (r.key action)
      · obtain ⟨k, hk, htenant, hsame, hresume⟩ := resume_enqueue_of_hasKey hcheck maxAttempts hkey
        rw [hresume]
        exact .answered hcheck k false htenant hsame (hkeyed k hk)
      · rw [resume_enqueue_of_not_hasKey hcheck maxAttempts hkey]
        exact .insertJob hcheck _ _ _
  | insertJob hcheck id now maxAttempts =>
    rcases Query.insertJob_on (r.job _ id now maxAttempts) w.store with ⟨e, h⟩ | ⟨_, h⟩ | ⟨_, h⟩ <;>
      rw [resume_insertJob h]
    · exact .failed e
    · exact .readJob hcheck id now maxAttempts false
    · exact .readJob hcheck id now maxAttempts true
  | readJob hcheck id now maxAttempts created =>
    obtain ⟨k, hk, htenant, hsame, hresume⟩ := resume_readJob created hread
    rw [hresume]
    exact .answered hcheck k created htenant hsame (hkeyed k hk)
  | answered hcheck k created htenant hkey hkeyed => exact .answered hcheck k created htenant hkey hkeyed
  | failed e => exact .failed e

end Pursues

/-- The answer of a task to an enqueue. -/
def outcome? : Task → Option EnqueueOutcome
  | ended (.ok (.job outcome)) => some outcome
  | _ => none

end Task

namespace System

variable {σ : System} {r : EnqueueRequest} {i : Nat}

theorem answered_iff {o : EnqueueOutcome} : σ.Answered i o ↔ o ∈ σ.tasks[i]?.bind Task.outcome? := by
  constructor
  · intro h
    rw [show σ.tasks[i]? = _ from h]
    rfl
  · intro h
    obtain ⟨t, ht, houtcome⟩ := Option.bind_eq_some_iff.1 h
    rw [Answered, ht]
    cases t with
    | ended result =>
      rcases result with e | reply
      · cases houtcome
      · cases reply <;> cases houtcome
        rfl
    | _ => cases houtcome

theorem run_pursues {t : Task} (ht : σ.tasks[i]? = some t) (h : t.Pursues r) (hkeyed : σ.Keyed)
    (hread : σ.Readable) (events : List Event) :
    ∃ t', (σ.run events).tasks[i]? = some t' ∧ t'.Pursues r := by
  refine run_induction (P := fun _ τ => ∃ t', τ.tasks[i]? = some t' ∧ t'.Pursues r) ⟨t, ht, h⟩ ?_
  rintro before e _ ⟨t, ht, h⟩
  cases he : e.resumes i with
  | false => exact ⟨t, step_kept ht h.not_attempt he, h⟩
  | true =>
    obtain rfl := Event.eq_resume he
    refine ⟨_, ?_, h.resume (run_keyed hkeyed before).rows ?_⟩
    · rw [(step_resume ht).2, List.getElem?_set_self (List.getElem?_eq_some_iff.1 ht).1]
    · exact run_readable hread before t (List.mem_of_getElem? ht)

open IdempotencyKey in
/-- An enqueue that succeeds is answered with a job of the tenant that has the key of the request and is keyed by
what it is about itself. Unless the digests of two different bases collide, the job is about what the request
names, with the same action and the same token, exactly if its names have as many colons as those of the
request. The same holds of the keys of any two requests of a tenant. -/
theorem deduplication (objects : ObjectStore) (now : Int) (ids : IdSequence) (past events : List Event) (i : Nat)
    (maxAttempts : Int) (r : EnqueueRequest) (o : EnqueueOutcome)
    (hasked : ((initial objects now ids).run past).tasks[i]? = some (.asked (.enqueue maxAttempts r)))
    (hanswered : ((initial objects now ids).run (past ++ events)).Answered i o) :
    (∃ action clientKey, r.check = .ok action ∧ o.job.tenantId = r.tenantId ∧
      o.job.idempotencyKey = r.key action ∧ o.job.idempotencyKey = build o.job.target o.job.action clientKey ∧
      (¬Sha256.Collision (Utf8.ofString (basis o.job.target o.job.action clientKey))
          (Utf8.ofString (basis r.target action r.idempotencyKey)) →
        (o.job.target.ColonsAgree r.target ↔
          o.job.target = r.target ∧ o.job.action = action ∧ token clientKey = token r.idempotencyKey))) ∧
    ∀ (x y : JobTarget) (a b : IngestAction) (k l : Option String), x.tenantId = y.tenantId →
      ¬Sha256.Collision (Utf8.ofString (basis x a k)) (Utf8.ofString (basis y b l)) →
      (build x a k = build y b l ∧ x.ColonsAgree y ↔ x = y ∧ a = b ∧ token k = token l) := by
  refine ⟨?_, fun x y a b k l htenant hcollision => build_eq_iff htenant hcollision⟩
  obtain ⟨t, ht, hpursues⟩ : ∃ t, ((initial objects now ids).run (past ++ events)).tasks[i]? = some t ∧
      t.Pursues r := by
    rw [run_append]
    exact run_pursues hasked (.asked maxAttempts) (run_keyed (initial_keyed objects now ids) past)
      (run_readable (initial_readable objects now ids) past) events
  obtain rfl : t = .ended (.ok (.job o)) := Option.some.inj (ht.symm.trans hanswered)
  cases hpursues with
  | @answered action hcheck k created htenant hkey hkeyed =>
    obtain ⟨clientKey, hclient⟩ := hkeyed
    refine ⟨action, clientKey, hcheck, htenant, hkey, hclient, ?_⟩
    intro hcollision
    have hsame : build k.target k.action clientKey = build r.target action r.idempotencyKey :=
      hclient.symm.trans hkey
    have hiff := build_eq_iff (y := r.target) htenant hcollision
    exact ⟨fun hcolons => hiff.1 ⟨hsame, hcolons⟩, fun hall => (hiff.2 hall).2⟩

/-- A request that is sent twice is answered with one job, and an empty token is none. -/
theorem deduplication_repeated :
    let r : EnqueueRequest := ⟨"t1", "w1", "kb1", "id-1", "id-2", "reindex", some ""⟩
    let past : List Event :=
      [.start (.upload 3 ⟨"t1", "w1", "kb1", "a.md", [104, 105], none⟩), .resume 0, .resume 0, .resume 0,
        .start (.enqueue 3 r), .resume 1, .resume 1, .resume 1, .start (.enqueue 3 r)]
    ∃ o, ((initial (.memory []) 0 (.numbered "id")).run (past ++ [.resume 2])).Answered 2 o ∧
      o.created = false ∧ o.job.idempotencyKey = r.key .reindex ∧
      o.job.idempotencyKey = IdempotencyKey.build r.target .reindex none := by
  intro r past
  have hasked : ((initial (.memory []) 0 (.numbered "id")).run past).tasks[2]? =
      some (.asked (.enqueue 3 r)) := rfl
  have hanswered : ∃ o ∈ ((initial (.memory []) 0 (.numbered "id")).run
      (past ++ [.resume 2])).tasks[2]?.bind Task.outcome?, o.created = false := by decide +kernel
  obtain ⟨o, ho, hcreated⟩ := hanswered
  have ho := answered_iff.2 ho
  obtain ⟨⟨action, _, hcheck, _, hkey, _⟩, hkeys⟩ :=
    deduplication (.memory []) 0 (.numbered "id") past [.resume 2] 2 3 r o hasked ho
  obtain rfl : .reindex = action := by
    have hreindex : r.check = .ok .reindex := by decide +kernel
    simpa using hreindex.symm.trans hcheck
  have hsame := (hkeys r.target r.target .reindex .reindex r.idempotencyKey none rfl fun h => h.1 rfl).2
    ⟨rfl, rfl, rfl⟩
  exact ⟨o, ho, hcreated, hkey, hkey.trans hsame.1⟩

/-- The second request names another workspace, another base and a document that does not exist, but its colons
stand where those of the first one do. -/
theorem deduplication_confused :
    let r : EnqueueRequest := ⟨"t1", "a", "w1", "kb1", "id-1:id-2", "reindex", some "tok"⟩
    let σ := (initial (.memory []) 0 (.numbered "id")).run
      [.start (.upload 3 ⟨"t1", "a:w1", "kb1", "a.md", [104, 105], none⟩), .resume 0, .resume 0, .resume 0,
        .start (.enqueue 3 ⟨"t1", "a:w1", "kb1", "id-1", "id-2", "reindex", some "tok"⟩), .resume 1, .resume 1,
        .resume 1, .start (.enqueue 3 r), .resume 2]
    (∀ d ∈ σ.world.store.documents, d.id ≠ r.documentId) ∧
      ∃ o, σ.Answered 2 o ∧ o.created = false ∧ o.job.workspaceId ≠ r.workspaceId ∧ o.job.kbId ≠ r.kbId ∧
        o.job.documentId ≠ r.documentId ∧ o.job.documentVersionId ≠ r.documentVersionId := by
  intro r σ
  obtain ⟨hnone, o, ho, hother⟩ : (∀ d ∈ σ.world.store.documents, d.id ≠ r.documentId) ∧
      ∃ o ∈ σ.tasks[2]?.bind Task.outcome?, o.created = false ∧ o.job.workspaceId ≠ r.workspaceId ∧
        o.job.kbId ≠ r.kbId ∧ o.job.documentId ≠ r.documentId ∧
        o.job.documentVersionId ≠ r.documentVersionId := by
    decide +kernel
  exact ⟨hnone, o, answered_iff.2 ho, hother⟩

end System

end IngestionQueue
