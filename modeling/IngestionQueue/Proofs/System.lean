import IngestionQueue.Proofs.Consistency
import IngestionQueue.Proofs.Task
import Mathlib.Data.List.Induction

/-!
# Runs of the whole queue

Any number of requests are served at once, each by a task, and the tasks are resumed in any order.  A worker
may crash inside an attempt or never be resumed again, the clock may be set forward or back, objects may be
replaced, documents may be marked as deleted, and leases may be refreshed or used by anybody.  Every event of
a run makes at most one write (`System.step_write`), so the tables stay consistent
(`System.run_consistent`).
-/

namespace IngestionQueue

/-- A call of a worker or of the recovery, under whatever lease. -/
inductive Call
  | claim (workerId : String) (leaseTimeout : Int)
  | heartbeat (l : Lease)
  | advanceStage (l : Lease) (stage : JobStage) (progress : Int)
  | markProcessing (l : Lease) (documentId : String)
  | finalize (l : Lease) (source : DocumentSource) (chunks : List NewChunk)
  | recordFailure (l : Lease) (documentId versionId : String) (outcome : FailureOutcome) (error : String)

namespace Call

/-- The lease under which a call is made. -/
def lease? : Call → Option Lease
  | claim _ _ => none
  | heartbeat l | advanceStage l _ _ | markProcessing l _ | finalize l _ _ | recordFailure l _ _ _ _ => some l

/-- Makes a call at the time of the clock. The result is the lease that it hands out. -/
def perform : Call → Checked (Option Lease)
  | claim workerId leaseTimeout => do
    let claimed ← Checked.claimNext workerId leaseTimeout
    return claimed.map fun job => job.lease workerId
  | heartbeat l => do
    Service.query (Query.heartbeat (← Service.now) l)
    return none
  | advanceStage l stage progress => do
    Service.query (Query.advanceStage (← Service.now) l stage progress)
    return none
  | markProcessing l documentId => do
    Service.query (Query.markProcessing (← Service.now) l documentId)
    return none
  | finalize l source chunks => do
    let _ ← Service.query (Query.finalize (← Service.now) l source chunks)
    return none
  | recordFailure l documentId versionId outcome error => do
    Service.query (Query.recordFailure (← Service.now) l documentId versionId outcome error)
    return none

end Call

/-- What happens next. The tasks are numbered in the order in which they were started. -/
inductive Event
  | start (r : Request)
  | resume (i : Nat)
  | crash (i : Nat) (message : Option String)
  | call (c : Call)
  | setClock (now : Int)
  | replaceObjects (objects : ObjectStore)
  | markDeleted (documentId : String)

/-- An outsider does nothing but refresh leases; the other calls of workers are made by their tasks. -/
def Event.Regular : Event → Prop
  | call (.heartbeat _) => True
  | call _ => False
  | _ => True

/-- The lease that a task was handed out when it became another one. -/
def Task.granted (before after : Task) : Option Lease :=
  match before, after with
  | .asked (.work worker), .attempt _ job _ => some (job.lease worker.id)
  | _, _ => none

namespace Write

/-- The lease that a write hands out. -/
def granted : Write → Option Lease
  | claim j workerId _ _ => some ⟨j.id, workerId, j.attemptCount + 1⟩
  | _ => none

/-- The call that makes a write. -/
def call? : Write → Option Call
  | claim _ workerId _ timeout => some (.claim workerId timeout)
  | refresh l _ => some (.heartbeat l)
  | advance l stage progress _ => some (.advanceStage l stage progress)
  | mark l documentId _ => some (.markProcessing l documentId)
  | finalize l source chunks _ => some (.finalize l source chunks)
  | fail l documentId versionId outcome error _ => some (.recordFailure l documentId versionId outcome error)
  | insert _ | save _ _ _ | markDeleted _ => none

/-- The time at which a worker or the recovery makes a write. -/
def time? : Write → Option Int
  | claim _ _ now _ | refresh _ now | advance _ _ _ now | mark _ _ now | finalize _ _ _ now
  | fail _ _ _ _ _ now => some now
  | insert _ | save _ _ _ | markDeleted _ => none

theorem lease?_of_call? {wr : Write} {c : Call} (h : wr.call? = some c) : wr.lease? = c.lease? := by
  cases wr <;> simp only [call?, Option.some.injEq, reduceCtorEq] at h <;> subst h <;> rfl

end Write

/-- The queue with its tasks, and the leases that were handed out so far. -/
structure System where
  world : World
  tasks : List Task
  leases : List Lease

namespace System

/-- A queue with empty tables. -/
def initial (objects : ObjectStore) (now : Int) (ids : IdSequence) : System where
  world := ⟨.empty, objects, now, ids⟩
  tasks := []
  leases := []

def step (σ : System) : Event → System
  | .start r => { σ with tasks := σ.tasks ++ [.asked r] }
  | .resume i =>
    match σ.tasks[i]? with
    | none => σ
    | some t =>
      let (t', w) := t.resume σ.world
      { world := w, tasks := σ.tasks.set i t', leases := σ.leases ++ (t.granted t').toList }
  | .crash i message =>
    match σ.tasks[i]? with
    | some (.attempt worker job _) =>
      { σ with tasks := σ.tasks.set i (.attempt worker job (.settle (.crashed message))) }
    | _ => σ
  | .call c =>
    let (result, w) := c.perform.on σ.world
    { σ with
      world := w
      leases := σ.leases ++ match result with
        | .ok lease => lease.toList
        | .error _ => [] }
  | .setClock now => { σ with world := { σ.world with now := now } }
  | .replaceObjects objects => { σ with world := { σ.world with objects := objects } }
  | .markDeleted documentId =>
    { σ with world := ((Service.query (Query.markDeleted documentId)).on σ.world).2 }

/-- The queue after a series of events. -/
def run (σ : System) (events : List Event) : System :=
  events.foldl step σ

@[simp]
theorem run_nil (σ : System) : σ.run [] = σ := rfl

@[simp]
theorem run_snoc (σ : System) (events : List Event) (e : Event) :
    σ.run (events ++ [e]) = (σ.run events).step e :=
  List.foldl_concat ..

theorem run_append (σ : System) (events more : List Event) :
    σ.run (events ++ more) = (σ.run events).run more :=
  List.foldl_append

/-- What holds at the start and is kept by every event holds after a run. It may speak of the events so far. -/
theorem run_induction {P : List Event → System → Prop} {σ : System} {events : List Event} (h : P [] σ)
    (hstep : ∀ before, ∀ e ∈ events, P before (σ.run before) →
      P (before ++ [e]) ((σ.run before).step e)) : P events (σ.run events) := by
  induction events using List.reverseRecOn with
  | nil => exact h
  | append_singleton events e ih =>
    rw [run_snoc]
    exact hstep events e (by simp) (ih fun before d hd => hstep before d (by simp [hd]))

end System

/-! ### Events and writes -/

theorem Write.Commits.consistent {s s' : Store} {wr : Option Write} (h : Write.Commits s wr s')
    (hs : s.Consistent) : s'.Consistent := by
  cases h with
  | nothing => exact hs
  | made hallowed => exact hs.apply hallowed

theorem Write.Commits.document_persists {s s' : Store} {wr : Option Write} (hwr : Write.Commits s wr s')
    {d : Document} (hd : d ∈ s.documents) : ∃ e ∈ s'.documents, e.id = d.id := by
  cases hwr with
  | nothing => exact ⟨d, hd, rfl⟩
  | made _ => exact Write.document_persists ⟨d, hd, rfl⟩

theorem Task.Step.granted {w : World} {t t' : Task} {wr : Option Write} (h : Task.Step w t wr t') :
    t.granted t' = wr.bind Write.granted := by
  cases h with
  | stop t result =>
    cases t with
    | asked r => cases r <;> rfl
    | _ => rfl
  | _ => rfl

theorem Task.Step.time {w : World} {t t' : Task} {wr : Write} (h : Task.Step w t (some wr) t') :
    ∀ time ∈ wr.time?, time = w.now := by
  cases h with
  | insert | save => simp [Write.time?, Ingestion.saveOn]
  | _ =>
    rintro time ⟨⟩
    rfl

/-- A call fails and changes nothing, or a claim finds nothing or overflows, or the write of the call is made. -/
theorem Call.perform_on (c : Call) (w : World) :
    (∃ e, c.perform.on w = (.error (.failed e), w)) ∨
      (c.lease? = none ∧ ∃ result, c.perform.on w = (result, w) ∧ ∀ lease, result ≠ .ok (some lease)) ∨
      ∃ wr : Write, wr.Allowed w.store ∧ wr.call? = some c ∧ c.perform.on w = (.ok wr.granted, w.write wr) ∧
        wr.time? = some w.now := by
  cases c with
  | claim workerId leaseTimeout =>
    by_cases hfits : Word.Fits64 (w.now - leaseTimeout)
    · simp only [perform, Checked.on_bind, Checked.claimNext_on hfits]
      cases hfirst : Job.first? (w.store.claimable w.now leaseTimeout) with
      | none => exact .inr (.inl ⟨rfl, _, rfl, by simp⟩)
      | some j => exact .inr (.inr ⟨.claim j workerId w.now leaseTimeout, hfirst, rfl, rfl, rfl⟩)
    · simp only [perform, Checked.on_bind, Checked.claimNext_of_overflow hfits]
      exact .inr (.inl ⟨rfl, _, rfl, by simp⟩)
  | heartbeat l =>
    simp only [perform, Checked.on_bind, Checked.on_lift, Service.on_now, Service.on_query, Query.heartbeat_on]
    by_cases h : l.Current w.store
    · exact .inr (.inr ⟨.refresh l w.now, h, rfl, by rw [if_pos h]; rfl, rfl⟩)
    · exact .inl ⟨l.lost, by rw [if_neg h]⟩
  | advanceStage l stage progress =>
    simp only [perform, Checked.on_bind, Checked.on_lift, Service.on_now, Service.on_query, Query.advanceStage_on]
    by_cases hprogress : progress < 0 ∨ 100 < progress
    · exact .inl ⟨.domain (.invalidProgress progress), by rw [if_pos hprogress]⟩
    · by_cases h : l.Current w.store
      · exact .inr (.inr
          ⟨.advance l stage progress w.now, h, rfl, by rw [if_neg hprogress, if_pos h]; rfl, rfl⟩)
      · exact .inl ⟨l.lost, by rw [if_neg hprogress, if_neg h]⟩
  | markProcessing l documentId =>
    simp only [perform, Checked.on_bind, Checked.on_lift, Service.on_now, Service.on_query, Query.markProcessing_on]
    by_cases h : l.Current w.store
    · exact .inr (.inr ⟨.mark l documentId w.now, h, rfl, by rw [if_pos h]; rfl, rfl⟩)
    · exact .inl ⟨l.lost, by rw [if_neg h]⟩
  | finalize l source chunks =>
    simp only [perform, Checked.on_bind, Checked.on_lift, Service.on_now, Service.on_query]
    rcases Query.finalize_on w.now l source chunks w.store with ⟨e, h⟩ | ⟨hallowed, h⟩ <;> rw [h]
    · exact .inl ⟨e, rfl⟩
    · exact .inr (.inr ⟨.finalize l source chunks w.now, hallowed, rfl, rfl, rfl⟩)
  | recordFailure l documentId versionId outcome error =>
    simp only [perform, Checked.on_bind, Checked.on_lift, Service.on_now, Service.on_query, Query.recordFailure_on]
    by_cases h : l.Current w.store
    · exact .inr (.inr ⟨.fail l documentId versionId outcome error w.now, h, rfl, by rw [if_pos h]; rfl, rfl⟩)
    · exact .inl ⟨l.lost, by rw [if_neg h]⟩

namespace System

/-- What an event may do to the queue. -/
inductive Move (σ : System) : Event → System → Prop
  | idle (e : Event) : Move σ e σ
  | start (r : Request) : Move σ (.start r) { σ with tasks := σ.tasks ++ [.asked r] }
  | resume (i count : Nat) (t t' : Task) (wr : Option Write) (store : Store) (ht : σ.tasks[i]? = some t)
    (hstep : Task.Step σ.world t wr t') (hwr : Write.Commits σ.world.store wr store) :
    Move σ (.resume i)
      { world := { σ.world.handOut count with store := store, objects := t.objects σ.world }
        tasks := σ.tasks.set i t'
        leases := σ.leases ++ (wr.bind Write.granted).toList }
  | crash (i : Nat) (message : Option String) (worker : Worker) (job : ClaimedJob) (phase : Phase)
    (ht : σ.tasks[i]? = some (.attempt worker job phase)) :
    Move σ (.crash i message)
      { σ with tasks := σ.tasks.set i (.attempt worker job (.settle (.crashed message))) }
  | call (c : Call) (wr : Write) (hallowed : wr.Allowed σ.world.store) (hcall : wr.call? = some c)
    (htime : wr.time? = some σ.world.now) :
    Move σ (.call c) { σ with world := σ.world.write wr, leases := σ.leases ++ wr.granted.toList }
  | setClock (now : Int) : Move σ (.setClock now) { σ with world := { σ.world with now := now } }
  | replaceObjects (objects : ObjectStore) :
    Move σ (.replaceObjects objects) { σ with world := { σ.world with objects := objects } }
  | markDeleted (documentId : String) :
    Move σ (.markDeleted documentId) { σ with world := σ.world.write (.markDeleted documentId) }

theorem step_move (σ : System) (e : Event) : Move σ e (σ.step e) := by
  cases e with
  | start r => exact .start r
  | resume i =>
    simp only [step]
    cases ht : σ.tasks[i]? with
    | none => exact .idle _
    | some t =>
      obtain ⟨wr, store, count, hstep, hwr, hworld⟩ := t.resume_step σ.world
      -- The leases are those that the task was granted; the move speaks of those that its write grants.
      have hmove := Move.resume i count t (t.resume σ.world).1 wr store ht hstep hwr
      rw [← hworld, ← hstep.granted] at hmove
      exact hmove
  | crash i message =>
    simp only [step]
    split
    · rename_i worker job phase ht
      exact .crash i message worker job phase ht
    · exact .idle _
  | call c =>
    simp only [step]
    rcases c.perform_on σ.world with ⟨e, h⟩ | ⟨_, result, h, hnone⟩ | ⟨wr, hallowed, hcall, h, htime⟩ <;> rw [h]
    · simpa using Move.idle (σ := σ) (.call c)
    · rcases result with e | _ | lease
      · simpa using Move.idle (σ := σ) (.call c)
      · simpa using Move.idle (σ := σ) (.call c)
      · exact absurd rfl (hnone lease)
    · exact .call c wr hallowed hcall htime
  | setClock now => exact .setClock now
  | replaceObjects objects => exact .replaceObjects objects
  | markDeleted documentId =>
    simp only [step, Service.on_query, Query.markDeleted_on]
    exact .markDeleted documentId

/-- The identifiers that are handed out are always those of one sequence. -/
theorem step_ids (σ : System) (e : Event) : (σ.step e).world.ids.nth = σ.world.ids.nth := by
  have hmove := σ.step_move e
  generalize σ.step e = σ' at hmove ⊢
  cases hmove <;> rfl

theorem run_ids (σ : System) (events : List Event) : (σ.run events).world.ids.nth = σ.world.ids.nth := by
  refine run_induction (P := fun _ τ => τ.world.ids.nth = σ.world.ids.nth) rfl ?_
  intro before e _ hbefore
  rw [step_ids, hbefore]

/-- Every event makes at most one write, and hands out a lease exactly with a claim. The write is that of the task
that is resumed or of the call that is made, or it marks a document as deleted; workers and the recovery write at
the time of the clock. -/
theorem step_write (σ : System) (e : Event) :
    ∃ wr, Write.Commits σ.world.store wr (σ.step e).world.store ∧
      (σ.step e).leases = σ.leases ++ (wr.bind Write.granted).toList ∧
      (∀ x ∈ wr, (∃ i t t', e = .resume i ∧ σ.tasks[i]? = some t ∧ Task.Step σ.world t (some x) t') ∨
        (∃ c, e = .call c ∧ x.call? = some c) ∨ ∃ documentId, x = .markDeleted documentId) ∧
      ∀ x ∈ wr, ∀ time ∈ x.time?, time = σ.world.now := by
  have hmove := σ.step_move e
  generalize σ.step e = σ' at hmove ⊢
  cases hmove with
  | resume i count t t' wr store ht hstep hwr =>
    refine ⟨wr, hwr, rfl, ?_, ?_⟩
    · rintro x rfl
      exact .inl ⟨i, t, t', rfl, ht, hstep⟩
    · rintro x rfl
      exact hstep.time
  | call c wr hallowed hcall htime =>
    refine ⟨some wr, .made hallowed, rfl, ?_, ?_⟩
    · rintro x ⟨⟩
      exact .inr (.inl ⟨c, rfl, hcall⟩)
    · rintro x ⟨⟩ time ht
      exact Option.some.inj (ht.symm.trans htime)
  | markDeleted documentId =>
    refine ⟨some (.markDeleted documentId), .made trivial, by simp [Write.granted], ?_, ?_⟩
    · rintro x ⟨⟩
      exact .inr (.inr ⟨documentId, rfl⟩)
    · rintro x ⟨⟩ time ⟨⟩
  | _ => exact ⟨none, .nothing, by simp, by simp, by simp⟩

/-- What holds of the tasks and is kept by the call of an event holds of the tasks after the event. -/
theorem step_tasks {P : Task → Prop} (σ : System) (e : Event) (h : ∀ t ∈ σ.tasks, P t)
    (hstart : ∀ r, e = .start r → P (.asked r))
    (hstep : ∀ i t wr t', e = .resume i → σ.tasks[i]? = some t → P t → Task.Step σ.world t wr t' → P t')
    (hcrash : ∀ worker job phase e, P (.attempt worker job phase) → P (.attempt worker job (.settle e))) :
    ∀ t ∈ (σ.step e).tasks, P t := by
  have hset : ∀ i t', P t' → ∀ t ∈ σ.tasks.set i t', P t := by
    intro i t' ht' t ht
    rcases List.mem_or_eq_of_mem_set ht with hold | rfl
    · exact h t hold
    · exact ht'
  have hmove := σ.step_move e
  generalize σ.step e = σ' at hmove ⊢
  cases hmove with
  | start r =>
    intro t ht
    rcases List.mem_append.1 ht with hold | hnew
    · exact h t hold
    · obtain rfl : t = .asked r := by simpa using hnew
      exact hstart r rfl
  | resume i count t t' wr store ht ht' hwr =>
    exact hset i t' (hstep i t wr t' rfl ht (h t (List.mem_of_getElem? ht)) ht')
  | crash i message worker job phase ht =>
    exact hset i _ (hcrash worker job phase _ (h _ (List.mem_of_getElem? ht)))
  | _ => exact h

/-- The task at a place after an event: it was there before, or it was started, resumed or crashed just now. -/
theorem step_task {σ : System} {e : Event} {i : Nat} {t' : Task} (h : (σ.step e).tasks[i]? = some t') :
    σ.tasks[i]? = some t' ∨
      (∃ r, e = .start r ∧ i = σ.tasks.length ∧ t' = .asked r) ∨
      (∃ t, e = .resume i ∧ σ.tasks[i]? = some t ∧ t' = (t.resume σ.world).1) ∨
      ∃ worker job phase message, e = .crash i message ∧
        σ.tasks[i]? = some (.attempt worker job phase) ∧ t' = .attempt worker job (.settle (.crashed message)) := by
  cases e with
  | start r =>
    have h : (σ.tasks ++ [.asked r])[i]? = some t' := h
    by_cases hi : i < σ.tasks.length
    · rw [List.getElem?_append_left hi] at h
      exact .inl h
    · rw [List.getElem?_append_right (Nat.le_of_not_lt hi)] at h
      obtain ⟨hzero, rfl⟩ : i - σ.tasks.length = 0 ∧ .asked r = t' := by
        simpa [List.getElem?_singleton] using h
      exact .inr (.inl ⟨r, rfl, by omega, rfl⟩)
  | resume k =>
    simp only [step] at h
    cases ht : σ.tasks[k]? with
    | none =>
      rw [ht] at h
      exact .inl h
    | some t =>
      simp only [ht] at h
      by_cases hk : k = i
      · subst hk
        rw [List.getElem?_set_self (List.getElem?_eq_some_iff.1 ht).1] at h
        exact .inr (.inr (.inl ⟨t, rfl, ht, (Option.some.inj h).symm⟩))
      · rw [List.getElem?_set_ne hk] at h
        exact .inl h
  | crash k message =>
    simp only [step] at h
    split at h
    · rename_i worker job phase ht
      by_cases hk : k = i
      · subst hk
        simp only at h
        rw [List.getElem?_set_self (List.getElem?_eq_some_iff.1 ht).1] at h
        exact .inr (.inr (.inr ⟨worker, job, phase, message, rfl, ht, (Option.some.inj h).symm⟩))
      · simp only at h
        rw [List.getElem?_set_ne hk] at h
        exact .inl h
    · exact .inl h
  | call c => exact .inl h
  | setClock now => exact .inl h
  | replaceObjects objects => exact .inl h
  | markDeleted documentId => exact .inl h

/-- The write of a regular event is that of the task that is resumed, or it refreshes a lease or marks a document as
deleted. -/
theorem step_regular {e : Event} (σ : System) (he : e.Regular) :
    ∃ wr, Write.Commits σ.world.store wr (σ.step e).world.store ∧
      (σ.step e).leases = σ.leases ++ (wr.bind Write.granted).toList ∧
      (∀ x ∈ wr, (∃ i t t', e = .resume i ∧ σ.tasks[i]? = some t ∧ Task.Step σ.world t (some x) t') ∨
        (∃ l now, x = .refresh l now) ∨ ∃ documentId, x = .markDeleted documentId) ∧
      ∀ x ∈ wr, ∀ time ∈ x.time?, time = σ.world.now := by
  obtain ⟨wr, hwr, hleases, hsource, htime⟩ := σ.step_write e
  refine ⟨wr, hwr, hleases, fun x hx => ?_, htime⟩
  rcases hsource x hx with htask | ⟨c, rfl, hcall⟩ | hmarked
  · exact .inl htask
  · cases c with
    | heartbeat l =>
      cases x <;> simp [Write.call?] at hcall
      exact .inr (.inl ⟨_, _, rfl⟩)
    | _ => exact absurd he (by simp [Event.Regular])
  · exact .inr (.inr hmarked)

/-- Rows are added by a task that inserts its job or saves its upload, and by nobody else. -/
theorem step_adds (σ : System) (e : Event) :
    ∃ wr, Write.Commits σ.world.store wr (σ.step e).world.store ∧
      ∀ x ∈ wr, (x.newJobs = [] ∧ x.newVersions = [] ∧ ∀ s, x.newDocuments s = []) ∨
        (∃ job, .insertJob job ∈ σ.tasks ∧ x = .insert job) ∨
        ∃ maxAttempts p, .saveUpload maxAttempts p ∈ σ.tasks ∧ x = Ingestion.saveOn maxAttempts p σ.world := by
  obtain ⟨wr, hwr, _, hsource, _⟩ := σ.step_write e
  refine ⟨wr, hwr, fun x hx => ?_⟩
  rcases hsource x hx with ⟨i, t, t', _, ht, hstep⟩ | ⟨c, _, hcall⟩ | ⟨documentId, rfl⟩
  · have hmem : t ∈ σ.tasks := List.mem_of_getElem? ht
    cases hstep with
    | insert job => exact .inr (.inl ⟨job, hmem, rfl⟩)
    | save maxAttempts p => exact .inr (.inr ⟨maxAttempts, p, hmem, rfl⟩)
    | _ => exact .inl ⟨rfl, rfl, fun _ => rfl⟩
  · left
    cases x <;> first | exact ⟨rfl, rfl, fun _ => rfl⟩ | cases hcall
  · exact .inl ⟨rfl, rfl, fun _ => rfl⟩

/-- What every write keeps of the tables holds after a run. -/
theorem run_commits {P : Store → Prop} {σ : System} (hP : ∀ s wr s', P s → Write.Commits s wr s' → P s')
    (h : P σ.world.store) (events : List Event) : P (σ.run events).world.store := by
  refine run_induction (P := fun _ σ => P σ.world.store) h ?_
  intro before e _ hbefore
  obtain ⟨wr, hwr, _⟩ := (σ.run before).step_write e
  exact hP _ wr _ hbefore hwr

theorem step_consistent {σ : System} (h : σ.world.store.Consistent) (e : Event) :
    (σ.step e).world.store.Consistent := by
  obtain ⟨wr, hwr, _⟩ := σ.step_write e
  exact hwr.consistent h

theorem run_consistent {σ : System} (h : σ.world.store.Consistent) (events : List Event) :
    (σ.run events).world.store.Consistent :=
  run_commits (fun _ _ _ hs hwr => hwr.consistent hs) h events

end System

end IngestionQueue
