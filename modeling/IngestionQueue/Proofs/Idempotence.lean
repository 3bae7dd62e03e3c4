import IngestionQueue.Proofs.Fresh
import Mathlib.Data.List.Infix

/-!
# Racing enqueues

Any number of clients send one and the same valid request, and each of them looks the key up, inserts a job
unless the key is taken by then, and reads back the job that has the key.  Others act in between: other clients,
requests that derive other keys, workers and the recovery.  Each client is served with success
(`Task.Serves.resume`), and whoever of them inserts the job is the only one, since the key is taken from then on
(`System.Race`).  The main result is `System.idempotence`.
-/

namespace IngestionQueue

/-- The event is the next call of the task at a place. -/
def Event.resumes (i : Nat) : Event → Bool
  | resume k => k == i
  | _ => false

theorem Event.eq_resume {i : Nat} {e : Event} (h : e.resumes i = true) : e = .resume i := by
  cases e with
  | resume k =>
    have hk : k = i := by simpa [resumes] using h
    rw [hk]
  | _ => cases h

/-- The document and the version of a request are there. -/
def EnqueueRequest.Found (r : EnqueueRequest) (s : Store) : Prop :=
  (∃ d ∈ s.documents, d.id = r.documentId) ∧ ∃ v ∈ s.versions, v.id = r.documentVersionId

instance (r : EnqueueRequest) (s : Store) : Decidable (r.Found s) :=
  inferInstanceAs (Decidable (_ ∧ _))

theorem EnqueueRequest.Found.commits {r : EnqueueRequest} {s s' : Store} {wr : Option Write} (h : r.Found s)
    (hwr : Write.Commits s wr s') : r.Found s' := by
  cases hwr with
  | nothing => exact h
  | made _ => exact ⟨Write.document_persists h.1, Write.version_persists h.2⟩

/-- A request asks for a job that has made no progress yet. -/
theorem EnqueueRequest.job_progress (r : EnqueueRequest) (action : IngestAction) (id : String)
    (now maxAttempts : Int) :
    0 ≤ (r.job action id now maxAttempts).progress ∧ (r.job action id now maxAttempts).progress ≤ 100 := by
  show (0 : Int) ≤ 0 ∧ (0 : Int) ≤ 100
  omega

namespace Task

/-- The job that the next call of a task may insert. -/
def toInsert (w : World) : Task → Option Job
  | insertJob job => some job
  | saveUpload maxAttempts p => some (Ingestion.jobOn maxAttempts p w)
  | _ => none

/-- The task has made a job, whether or not its client knows already. -/
def made (t : Task) : Bool :=
  t.reported || t.inserted

/-- A key that was free before the next call of a task is that of the job that the task inserts. -/
theorem Produces.hasKey {t t' : Task} {w w' : World} {tenantId key : String} (h : t.Produces w t' w')
    (hkey : w'.store.HasKey tenantId key) : w.store.HasKey tenantId key ∨
      ∃ job ∈ t.toInsert w, job.tenantId = tenantId ∧ job.idempotencyKey = key := by
  cases h with
  | lookUp maxAttempts r action hfree => exact .inl hkey
  | insert job haccepts =>
    obtain ⟨k, hk, hsame⟩ := hkey
    rcases Write.mem_jobs.1 hk with ⟨j, hj, rfl⟩ | hnew
    · exact .inl ⟨j, hj, hsame⟩
    · obtain rfl : k = job := by simpa using hnew
      exact .inr ⟨k, rfl, hsame⟩
  | duplicate job htaken => exact .inl hkey
  | read job k created hk htenant hsame => exact .inl hkey
  | save maxAttempts p hallowed =>
    obtain ⟨k, hk, hsame⟩ := hkey
    rcases Write.mem_jobs.1 hk with ⟨j, hj, rfl⟩ | hnew
    · exact .inl ⟨j, hj, hsame⟩
    · obtain rfl : k = Ingestion.jobOn maxAttempts p w := by simpa [Ingestion.saveOn] using hnew
      exact .inr ⟨_, rfl, hsame⟩
  | other t t' w' wr count hwr hnew hids hpending hinserted hreported => exact .inl (hkey.of_commits hwr hnew)

/-! ### One client -/

/-- The task serves a request, and all has gone well so far. -/
inductive Serves (r : EnqueueRequest) (action : IngestAction) (maxAttempts : Int) (s : Store) : Task → Prop
  | asked : Serves r action maxAttempts s (asked (.enqueue maxAttempts r))
  | insertJob (id : String) (now : Int) :
    Serves r action maxAttempts s (insertJob (r.job action id now maxAttempts))
  | readJob (id : String) (now : Int) (created : Bool) (hkey : s.HasKey r.tenantId (r.key action)) :
    Serves r action maxAttempts s (readJob (r.job action id now maxAttempts) created)
  | ended (k : Job) (created : Bool)
    (hk : ∃ j ∈ s.jobs, j.id = k.id ∧ j.tenantId = r.tenantId ∧ j.idempotencyKey = r.key action) :
    Serves r action maxAttempts s (ended (.ok (.job ⟨k, created⟩)))

namespace Serves

variable {r : EnqueueRequest} {action : IngestAction} {maxAttempts : Int} {s s' : Store} {t : Task} {w : World}

theorem commits {wr : Option Write} (h : t.Serves r action maxAttempts s) (hwr : Write.Commits s wr s') :
    t.Serves r action maxAttempts s' := by
  cases h with
  | asked => exact .asked
  | insertJob id now => exact .insertJob id now
  | readJob id now created hkey => exact .readJob id now created (hkey.commits hwr)
  | ended k created hk =>
    refine .ended k created ?_
    cases hwr with
    | nothing => exact hk
    | made _ =>
      exact Write.job_persists
        (P := fun j => j.id = k.id ∧ j.tenantId = r.tenantId ∧ j.idempotencyKey = r.key action) hk

theorem hasKey_of_made (h : t.Serves r action maxAttempts s) (hmade : t.made = true) :
    s.HasKey r.tenantId (r.key action) := by
  cases h with
  | asked => cases hmade
  | insertJob id now => cases hmade
  | readJob id now created hkey => exact hkey
  | ended k created hk =>
    obtain ⟨j, hj, _, hsame⟩ := hk
    exact ⟨j, hj, hsame⟩

theorem not_attempt (h : t.Serves r action maxAttempts s) (worker : Worker) (job : ClaimedJob) (phase : Phase) :
    t ≠ attempt worker job phase := by
  rintro rfl
  cases h

theorem callsLeft_eq (h : t.Serves r action maxAttempts s) (w w' : World) : t.callsLeft w = t.callsLeft w' := by
  cases h <;> rfl

theorem eq_ended (h : t.Serves r action maxAttempts s) (hleft : t.callsLeft w = 0) :
    ∃ result, t = Task.ended result := by
  cases h with
  | asked => simp [callsLeft] at hleft
  | insertJob id now => simp [callsLeft] at hleft
  | readJob id now created hkey => simp [callsLeft] at hleft
  | ended k created hk => exact ⟨_, rfl⟩

/-- The job of a valid request is accepted as long as its key is free. -/
theorem accepts {id : String} (hmax : 1 ≤ maxAttempts) (hfound : r.Found s)
    (hfree : ¬s.HasKey r.tenantId (r.key action)) (hid : ∀ k ∈ s.jobs, k.id ≠ id) (now : Int) :
    s.AcceptsJob (r.job action id now maxAttempts) where
  progress := r.job_progress action id now maxAttempts
  maxAttempts := hmax
  key k hk hsame := hfree ⟨k, hk, hsame⟩
  id := hid
  document := hfound.1
  version := hfound.2

/-- The next call of a client is a success. It writes nothing, or it inserts the job, whose key was free. -/
theorem resume (hcheck : r.check = .ok action) (hmax : 1 ≤ maxAttempts) (hfound : r.Found w.store)
    (hid : ∀ job, t = Task.insertJob job → ∀ k ∈ w.store.jobs, k.id ≠ job.id)
    (h : t.Serves r action maxAttempts w.store) :
    (t.resume w).1.Serves r action maxAttempts (t.resume w).2.store ∧
      (t.resume w).1.callsLeft (t.resume w).2 ≤ t.callsLeft w - 1 ∧
      ((t.resume w).2.store = w.store ∧ (t.resume w).1.made = t.made ∨
        ¬w.store.HasKey r.tenantId (r.key action) ∧ (t.resume w).2.store.HasKey r.tenantId (r.key action) ∧
          (t.resume w).1.made = true) := by
  cases h with
  | asked =>
    by_cases hkey : w.store.HasKey r.tenantId (r.key action)
    · obtain ⟨k, hk, htenant, hsame, hresume⟩ := resume_enqueue_of_hasKey hcheck maxAttempts hkey
      rw [hresume]
      exact ⟨.ended k false ⟨k, hk, rfl, htenant, hsame⟩, Nat.zero_le _, .inl ⟨rfl, rfl⟩⟩
    · rw [resume_enqueue_of_not_hasKey hcheck maxAttempts hkey]
      exact ⟨.insertJob _ _, Nat.le_refl _, .inl ⟨rfl, rfl⟩⟩
  | insertJob id now =>
    by_cases hkey : w.store.HasKey r.tenantId (r.key action)
    · have hinsert := Query.insertJob_of_hasKey (r.job_progress action id now maxAttempts) hmax hkey
      rw [resume_insertJob hinsert]
      exact ⟨.readJob id now false hkey, Nat.le_refl _, .inl ⟨rfl, rfl⟩⟩
    · have haccepts : w.store.AcceptsJob (r.job action id now maxAttempts) :=
        accepts hmax hfound hkey (hid _ rfl) now
      rw [resume_insertJob (Query.insertJob_of_accepts haccepts)]
      have htaken : ((Write.insert (r.job action id now maxAttempts)).apply w.store).HasKey r.tenantId
          (r.key action) := ⟨_, Write.mem_jobs.2 (.inr List.mem_cons_self), rfl, rfl⟩
      exact ⟨.readJob id now true htaken, Nat.le_refl _, .inr ⟨hkey, htaken, rfl⟩⟩
  | readJob id now created hkey =>
    have hthere : w.store.HasKey (r.job action id now maxAttempts).tenantId
        (r.job action id now maxAttempts).idempotencyKey := hkey
    obtain ⟨k, hk, htenant, hsame, hresume⟩ := resume_readJob created hthere
    rw [hresume]
    refine ⟨.ended k created ⟨k, hk, rfl, htenant, hsame⟩, Nat.le_refl _, .inl ⟨rfl, ?_⟩⟩
    cases created <;> rfl
  | ended k created hk => exact ⟨.ended k created hk, Nat.le_refl _, .inl ⟨rfl, rfl⟩⟩

end Serves

end Task

/-! ### All clients -/

namespace Store.Consistent

variable {s : Store}

theorem countP_key_le_one (h : s.Consistent) (tenantId key : String) :
    s.jobs.countP (fun j => j.tenantId = tenantId ∧ j.idempotencyKey = key) ≤ 1 := by
  have hcount := List.nodup_iff_count_le_one.1 h.keys (tenantId, key)
  rw [List.count, List.countP_map] at hcount
  refine Nat.le_trans (Nat.le_of_eq ?_) hcount
  refine List.countP_congr fun j _ => ?_
  simp

end Store.Consistent

namespace System

/-- The task at a place has made a job. -/
def Makes (σ : System) (i : Nat) : Prop :=
  ∃ t ∈ σ.tasks[i]?, t.made = true

theorem makes_iff {σ : System} {i : Nat} {t : Task} (ht : σ.tasks[i]? = some t) :
    σ.Makes i ↔ t.made = true := by
  simp [Makes, ht]

/-- No task but the clients, which have consecutive places, is about to insert a job with the key. -/
def Apart (σ : System) (first count : Nat) (tenantId key : String) : Prop :=
  ∀ t ∈ σ.tasks.take first ++ σ.tasks.drop (first + count), ∀ job ∈ t.toInsert σ.world,
    ¬(job.tenantId = tenantId ∧ job.idempotencyKey = key)

instance (σ : System) (first count : Nat) (tenantId key : String) :
    Decidable (σ.Apart first count tenantId key) :=
  inferInstanceAs (Decidable (∀ t ∈ σ.tasks.take first ++ σ.tasks.drop (first + count),
    ∀ job ∈ t.toInsert σ.world, ¬(job.tenantId = tenantId ∧ job.idempotencyKey = key)))

variable {σ : System} {e : Event} {first count : Nat} {tenantId key : String}

/-- A task that is not an attempt changes with its own calls only. -/
theorem step_kept {i : Nat} {t : Task} (ht : σ.tasks[i]? = some t)
    (hattempt : ∀ worker job phase, t ≠ .attempt worker job phase) (he : e.resumes i = false) :
    (σ.step e).tasks[i]? = some t := by
  have hlength := (List.getElem?_eq_some_iff.1 ht).1
  have hmove := σ.step_move e
  generalize σ.step e = σ' at hmove ⊢
  cases hmove with
  | start r =>
    rw [List.getElem?_append_left hlength]
    exact ht
  | resume k count u u' wr store hu hstep hwr =>
    have hk : k ≠ i := by simpa [Event.resumes] using he
    rw [List.getElem?_set_ne hk]
    exact ht
  | crash k message worker job phase hk =>
    have hki : k ≠ i := by
      rintro rfl
      exact hattempt worker job phase (Option.some.inj (ht.symm.trans hk))
    rw [List.getElem?_set_ne hki]
    exact ht
  | _ => exact ht

theorem run_hasKey (h : σ.world.store.HasKey tenantId key) (events : List Event) :
    (σ.run events).world.store.HasKey tenantId key :=
  run_commits (P := fun s => s.HasKey tenantId key) (fun _ _ _ h hwr => h.commits hwr) h events

theorem run_found {r : EnqueueRequest} (h : r.Found σ.world.store) (events : List Event) :
    r.Found (σ.run events).world.store :=
  run_commits (P := r.Found) (fun _ _ _ h hwr => h.commits hwr) h events

/-- A key that was free is taken by the call of a client. -/
theorem step_taken (hread : σ.Readable) (hapart : σ.Apart first count tenantId key)
    (hfree : ¬σ.world.store.HasKey tenantId key) (htaken : (σ.step e).world.store.HasKey tenantId key) :
    ∃ n < count, e = .resume (first + n) := by
  rcases step_produces hread e with ⟨i, t, rfl, ht, hproduces⟩ | ⟨⟨wr, hwr, hnew⟩, _⟩
  · rw [(step_resume ht).1] at htaken
    rcases hproduces.hasKey htaken with hbefore | ⟨job, hjob, hsame⟩
    · exact absurd hbefore hfree
    · have hlength := (List.getElem?_eq_some_iff.1 ht).1
      by_cases hbefore : i < first
      · have hmem : t ∈ σ.tasks.take first := by
          refine List.mem_of_getElem? (i := i) ?_
          rw [List.getElem?_take_of_lt hbefore]
          exact ht
        exact absurd hsame (hapart t (List.mem_append_left _ hmem) job hjob)
      · by_cases hafter : first + count ≤ i
        · have hmem : t ∈ σ.tasks.drop (first + count) := by
            refine List.mem_of_getElem? (i := i - (first + count)) ?_
            rw [List.getElem?_drop, Nat.add_sub_cancel' hafter]
            exact ht
          exact absurd hsame (hapart t (List.mem_append_right _ hmem) job hjob)
        · refine ⟨i - first, by omega, ?_⟩
          congr 1
          omega
  · exact absurd (htaken.of_commits hwr hnew) hfree

/-- What an event does to the client at a place, in a race for a key: the client is what it was and its own call
writes nothing, or its call inserts the job, whose key was free. -/
inductive ClientStep (σ : System) (e : Event) (i : Nat) (tenantId key : String) : Prop
  | keeps (hstore : e = .resume i → (σ.step e).world.store = σ.world.store)
    (hmakes : (σ.step e).Makes i ↔ σ.Makes i)
  | inserts (he : e = .resume i) (hfree : ¬σ.world.store.HasKey tenantId key) (hmakes : (σ.step e).Makes i)

/-- A race of clients, one for each limit of attempts, after some events. The key was taken before the race and
no client makes a job, or some client has made one as soon as the key is taken. -/
structure Race (start : System) (first : Nat) (r : EnqueueRequest) (action : IngestAction) (limits : List Int)
    (events : List Event) (σ : System) : Prop where
  clients : ∀ n m, limits[n]? = some m → ∃ t, σ.tasks[first + n]? = some t ∧
    t.Serves r action m σ.world.store ∧ t.callsLeft σ.world ≤ 3 - events.countP (Event.resumes (first + n))
  taken : start.world.store.HasKey r.tenantId (r.key action) → ∀ n < limits.length, ¬σ.Makes (first + n)
  made : σ.world.store.HasKey r.tenantId (r.key action) →
    start.world.store.HasKey r.tenantId (r.key action) ∨ ∃ n < limits.length, σ.Makes (first + n)
  unique : ∀ n < limits.length, ∀ k < limits.length, σ.Makes (first + n) → σ.Makes (first + k) → n = k
  quiet : ∀ n < limits.length, ¬σ.Makes (first + n) → ∀ before, before ++ [.resume (first + n)] <+: events →
    (start.run (before ++ [.resume (first + n)])).world.store = (start.run before).world.store

namespace Race

variable {start : System} {r : EnqueueRequest} {action : IngestAction} {limits : List Int} {events : List Event}

theorem exists_limit {n : Nat} (hn : n < limits.length) : ∃ m, limits[n]? = some m :=
  ⟨limits[n], List.getElem?_eq_getElem hn⟩

theorem hasKey (h : Race start first r action limits events σ) {n : Nat} (hn : n < limits.length)
    (hmakes : σ.Makes (first + n)) : σ.world.store.HasKey r.tenantId (r.key action) := by
  obtain ⟨m, hm⟩ := exists_limit hn
  obtain ⟨t, ht, hserves, _⟩ := h.clients n m hm
  exact hserves.hasKey_of_made ((makes_iff ht).1 hmakes)

/-- After one more event, a client is served still, and the event has done to it what it may. -/
private theorem step_client (h : Race start first r action limits events σ) (hcheck : r.check = .ok action)
    (hlimits : ∀ m ∈ limits, 1 ≤ m) (hfound : r.Found σ.world.store) (hfresh : σ.Fresh) (e : Event) {n : Nat}
    {m : Int} (hm : limits[n]? = some m) :
    (∃ t, (σ.step e).tasks[first + n]? = some t ∧ t.Serves r action m (σ.step e).world.store ∧
      t.callsLeft (σ.step e).world ≤ 3 - (events ++ [e]).countP (Event.resumes (first + n))) ∧
    ClientStep σ e (first + n) r.tenantId (r.key action) := by
  obtain ⟨t, ht, hserves, hleft⟩ := h.clients n m hm
  rw [List.countP_append, List.countP_singleton]
  cases hresumes : e.resumes (first + n) with
  | false =>
    obtain ⟨wr, hwr, _⟩ := σ.step_write e
    have ht' := step_kept ht hserves.not_attempt hresumes
    have hcalls := hserves.callsLeft_eq (σ.step e).world σ.world
    refine ⟨⟨t, ht', hserves.commits hwr, by simpa [hcalls] using hleft⟩, .keeps ?_ ?_⟩
    · rintro rfl
      simp [Event.resumes] at hresumes
    · rw [makes_iff ht, makes_iff ht']
  | true =>
    obtain rfl := Event.eq_resume hresumes
    have hmax := hlimits m (List.mem_of_getElem? hm)
    have hid : ∀ job, t = .insertJob job → ∀ k ∈ σ.world.store.jobs, k.id ≠ job.id := by
      rintro job rfl
      exact (hfresh.waiting (first + n) job ht).2
    obtain ⟨hserves', hcalls, hmade⟩ := hserves.resume hcheck hmax hfound hid
    obtain ⟨hworld, htasks⟩ := step_resume ht
    have ht' : (σ.step (.resume (first + n))).tasks[first + n]? = some (t.resume σ.world).1 := by
      rw [htasks, List.getElem?_set_self (List.getElem?_eq_some_iff.1 ht).1]
    have hleft' : (t.resume σ.world).1.callsLeft (t.resume σ.world).2 ≤
        3 - (events.countP (Event.resumes (first + n)) + 1) := by omega
    constructor
    · rw [hworld]
      exact ⟨_, ht', hserves', by simpa using hleft'⟩
    · rcases hmade with ⟨hstore, hsame⟩ | ⟨hfree, _, hnow⟩
      · refine .keeps (fun _ => by rw [hworld, hstore]) ?_
        rw [makes_iff ht, makes_iff ht', hsame]
      · exact .inserts rfl hfree ((makes_iff ht').2 hnow)

section Step

variable {e : Event} (h : Race start first r action limits events (start.run events))
  (hclient : ∀ n < limits.length, ClientStep (start.run events) e (first + n) r.tenantId (r.key action))

include h hclient

private theorem step_taken_before (htaken : start.world.store.HasKey r.tenantId (r.key action)) :
    ∀ n < limits.length, ¬((start.run events).step e).Makes (first + n) := by
  intro n hn
  cases hclient n hn with
  | keeps hstore hmakes =>
    rw [hmakes]
    exact h.taken htaken n hn
  | inserts he hfree hmakes => exact absurd (run_hasKey htaken events) hfree

private theorem step_made (hread : (start.run events).Readable)
    (hapart : (start.run events).Apart first limits.length r.tenantId (r.key action))
    (hkey : ((start.run events).step e).world.store.HasKey r.tenantId (r.key action)) :
    start.world.store.HasKey r.tenantId (r.key action) ∨
      ∃ n < limits.length, ((start.run events).step e).Makes (first + n) := by
  by_cases hbefore : (start.run events).world.store.HasKey r.tenantId (r.key action)
  · rcases h.made hbefore with hstart | ⟨n, hn, hmade⟩
    · exact .inl hstart
    · cases hclient n hn with
      | keeps hstore hmakes => exact .inr ⟨n, hn, hmakes.2 hmade⟩
      | inserts he hfree hmakes => exact .inr ⟨n, hn, hmakes⟩
  · obtain ⟨n, hn, he⟩ := step_taken hread hapart hbefore hkey
    cases hclient n hn with
    | keeps hstore hmakes =>
      rw [hstore he] at hkey
      exact absurd hkey hbefore
    | inserts he hfree hmakes => exact .inr ⟨n, hn, hmakes⟩

/-- Whoever made the job before has taken the key, so nobody makes it after him. -/
private theorem step_unique {n k : Nat} (hn : n < limits.length) (hk : k < limits.length)
    (hmakes : ((start.run events).step e).Makes (first + n))
    (hmakes' : ((start.run events).step e).Makes (first + k)) : n = k := by
  cases hclient n hn with
  | keeps _ hsame =>
    cases hclient k hk with
    | keeps _ hsame' => exact h.unique n hn k hk (hsame.1 hmakes) (hsame'.1 hmakes')
    | inserts _ hfree _ => exact absurd (h.hasKey hn (hsame.1 hmakes)) hfree
  | inserts he hfree _ =>
    cases hclient k hk with
    | keeps _ hsame' => exact absurd (h.hasKey hk (hsame'.1 hmakes')) hfree
    | inserts he' _ _ =>
      have hplace : first + n = first + k := by
        rw [he] at he'
        exact Event.resume.inj he'
      omega

private theorem step_quiet {n : Nat} (hn : n < limits.length)
    (hnot : ¬((start.run events).step e).Makes (first + n)) {before : List Event}
    (hwithin : before ++ [.resume (first + n)] <+: events ++ [e]) :
    (start.run (before ++ [.resume (first + n)])).world.store = (start.run before).world.store := by
  cases hclient n hn with
  | keeps hstore hsame =>
    rcases List.prefix_concat_iff.1 hwithin with hwhole | hbefore
    · obtain ⟨rfl, hlast⟩ := List.append_inj' hwhole rfl
      have he : e = .resume (first + n) := (List.singleton_inj.1 hlast).symm
      rw [run_snoc, ← he]
      exact hstore he
    · exact h.quiet n hn (fun hmakes => hnot (hsame.2 hmakes)) before hbefore
  | inserts _ _ hmakes => exact absurd hmakes hnot

end Step

theorem snoc (h : Race start first r action limits events (start.run events)) (hcheck : r.check = .ok action)
    (hlimits : ∀ m ∈ limits, 1 ≤ m) (hfound : r.Found (start.run events).world.store)
    (hfresh : (start.run events).Fresh) (hread : (start.run events).Readable)
    (hapart : (start.run events).Apart first limits.length r.tenantId (r.key action)) (e : Event) :
    Race start first r action limits (events ++ [e]) ((start.run events).step e) := by
  have hstep := fun n m (hm : limits[n]? = some m) => h.step_client hcheck hlimits hfound hfresh e hm
  have hclient : ∀ n < limits.length,
      ClientStep (start.run events) e (first + n) r.tenantId (r.key action) := by
    intro n hn
    obtain ⟨m, hm⟩ := exists_limit hn
    exact (hstep n m hm).2
  exact {
    clients := fun n m hm => (hstep n m hm).1
    taken := h.step_taken_before hclient
    made := h.step_made hclient hread hapart
    unique := fun n hn k hk => h.step_unique hclient hn hk
    quiet := fun n hn hnot before => h.step_quiet hclient hn hnot }

/-- What holds of the race after the events, if the key is left alone by everybody else. -/
theorem run (h : Race start first r action limits [] start) (hcheck : r.check = .ok action)
    (hlimits : ∀ m ∈ limits, 1 ≤ m) (hfound : r.Found start.world.store) (hread : start.Readable)
    (hids : Function.Injective start.world.ids.nth) (hfresh : start.Fresh)
    (hapart : ∀ before, before <+: events →
      (start.run before).Apart first limits.length r.tenantId (r.key action)) :
    Race start first r action limits events (start.run events) := by
  have hrun : events <+: events → Race start first r action limits events (start.run events) := by
    refine run_induction (P := fun before σ => before <+: events → Race start first r action limits before σ)
      (fun _ => h) ?_
    intro before e _ ih hwithin
    have hbefore : before <+: events := (List.prefix_append before [e]).trans hwithin
    exact (ih hbefore).snoc hcheck hlimits (run_found hfound before) (run_fresh hids hread hfresh before)
      (run_readable hread before) (hapart before hbefore) e
  exact hrun List.prefix_rfl

end Race

theorem run_start (before : System) (requests : List Request) :
    before.run (requests.map .start) = { before with tasks := before.tasks ++ requests.map .asked } := by
  induction requests generalizing before with
  | nil => simp
  | cons r rest ih =>
    have hrest := ih (before.step (.start r))
    simp only [List.map_cons, run, List.foldl_cons] at hrest ⊢
    rw [hrest]
    simp [step]

/-- Clients that have just sent their requests have made nothing yet. -/
theorem race_start (before : System) (r : EnqueueRequest) (action : IngestAction) (limits : List Int) :
    Race (before.run ((limits.map fun m => .enqueue m r).map .start)) before.tasks.length r action limits []
      (before.run ((limits.map fun m => .enqueue m r).map .start)) := by
  rw [run_start]
  have hclient : ∀ n m, limits[n]? = some m →
      (before.tasks ++ (limits.map fun m => Request.enqueue m r).map .asked)[before.tasks.length + n]? =
        some (.asked (.enqueue m r)) := by
    intro n m hm
    rw [List.getElem?_append_right (Nat.le_add_right _ _), Nat.add_sub_cancel_left]
    simp [hm]
  have hnone : ∀ n < limits.length, ¬System.Makes
      { before with tasks := before.tasks ++ (limits.map fun m => Request.enqueue m r).map .asked }
      (before.tasks.length + n) := by
    intro n hn hmakes
    obtain ⟨m, hm⟩ := Race.exists_limit hn
    rw [makes_iff (hclient n m hm)] at hmakes
    cases hmakes
  refine ⟨?_, fun _ => hnone, .inl, ?_, ?_⟩
  · intro n m hm
    exact ⟨_, hclient n m hm, .asked, Nat.le_refl _⟩
  · intro n hn k hk hmakes
    exact absurd hmakes (hnone n hn)
  · intro n hn hnot earlier hwithin
    simp at hwithin

/-- The task at a place has been answered with a job. -/
def Answered (σ : System) (i : Nat) (o : EnqueueOutcome) : Prop :=
  σ.tasks[i]? = some (.ended (.ok (.job o)))

theorem Answered.created_iff {i : Nat} {o : EnqueueOutcome} (h : σ.Answered i o) :
    o.created = true ↔ σ.Makes i := by
  rw [makes_iff h]
  simp [Task.made, Task.reported, Task.inserted]

namespace Race

variable {start : System} {r : EnqueueRequest} {action : IngestAction} {limits : List Int} {events : List Event}

/-- A client that has ended has been answered with the job that has the key. -/
theorem answered (h : Race start first r action limits events σ) {n : Nat} (hn : n < limits.length)
    {result : Except Abort Reply} (hended : σ.tasks[first + n]? = some (.ended result)) :
    ∃ o, result = .ok (.job o) ∧ ∃ j ∈ σ.world.store.jobs,
      j.id = o.job.id ∧ j.tenantId = r.tenantId ∧ j.idempotencyKey = r.key action := by
  obtain ⟨m, hm⟩ := exists_limit hn
  obtain ⟨t, ht, hserves, _⟩ := h.clients n m hm
  obtain rfl : t = .ended result := Option.some.inj (ht.symm.trans hended)
  cases hserves with
  | ended k created hk => exact ⟨⟨k, created⟩, rfl, hk⟩

theorem exists_answered (h : Race start first r action limits events σ) {n : Nat} (hn : n < limits.length)
    (hcalls : 3 ≤ events.countP (Event.resumes (first + n))) : ∃ o, σ.Answered (first + n) o := by
  obtain ⟨m, hm⟩ := exists_limit hn
  obtain ⟨t, ht, hserves, hleft⟩ := h.clients n m hm
  obtain ⟨result, rfl⟩ := hserves.eq_ended (w := σ.world) (by omega)
  obtain ⟨o, rfl, _⟩ := h.answered hn ht
  exact ⟨o, ht⟩

end Race

/-- Clients send one and the same valid request, others derive other keys, and whatever else happens happens.
Then at most one job has the key. A client needs at most three calls, and every answer is a success and names
the same job. If the key was taken before, no client is told that it has made the job; otherwise exactly one of
them is, once all are answered. A client that is told that it has not made the job has written nothing. -/
theorem idempotence (objects : ObjectStore) (now : Int) (ids : IdSequence) (hids : Function.Injective ids.nth)
    (past : List Event) (r : EnqueueRequest) (action : IngestAction) (hcheck : r.check = .ok action)
    (limits : List Int) (hlimits : ∀ m ∈ limits, 1 ≤ m) (events : List Event) :
    let before := (initial objects now ids).run past
    let start := before.run ((limits.map fun m => .enqueue m r).map .start)
    let first := before.tasks.length
    let σ := start.run events
    r.Found before.world.store →
    (∀ earlier, earlier <+: events →
      (start.run earlier).Apart first limits.length r.tenantId (r.key action)) →
    (σ.world.store.jobs.countP fun j => j.tenantId = r.tenantId ∧ j.idempotencyKey = r.key action) ≤ 1 ∧
    (∀ n < limits.length, 3 ≤ events.countP (Event.resumes (first + n)) → ∃ o, σ.Answered (first + n) o) ∧
    (∃ id, ∀ n < limits.length, ∀ result, σ.tasks[first + n]? = some (.ended result) →
      ∃ o, result = .ok (.job o) ∧ o.job.id = id) ∧
    (before.world.store.HasKey r.tenantId (r.key action) →
      ∀ n < limits.length, ∀ o, σ.Answered (first + n) o → o.created = false) ∧
    (¬before.world.store.HasKey r.tenantId (r.key action) → limits ≠ [] →
      (∀ n < limits.length, ∃ o, σ.Answered (first + n) o) →
        ∃! n, n < limits.length ∧ ∃ o, σ.Answered (first + n) o ∧ o.created = true) ∧
    ∀ n < limits.length, ∀ o, σ.Answered (first + n) o → o.created = false →
      ∀ earlier, earlier ++ [.resume (first + n)] <+: events →
        (start.run (earlier ++ [.resume (first + n)])).world.store = (start.run earlier).world.store := by
  intro before start first σ hfound hapart
  have hworld : start.world = before.world := by
    show (before.run _).world = _
    rw [run_start]
  have hread : before.Readable := run_readable (initial_readable objects now ids) past
  have hnth : before.world.ids.nth = ids.nth := run_ids _ past
  have hfresh : before.Fresh :=
    run_fresh hids (initial_readable objects now ids) (initial_fresh objects now ids) past
  have hrace : Race start first r action limits events σ := by
    refine (race_start before r action limits).run hcheck hlimits (run_found hfound _)
      (run_readable hread _) ?_ ?_ hapart
    · rwa [run_ids, hnth]
    · exact run_fresh (by rwa [hnth]) hread hfresh _
  have hconsistent : σ.world.store.Consistent :=
    run_consistent (run_consistent (run_consistent Store.consistent_empty past) _) events
  refine ⟨hconsistent.countP_key_le_one _ _, fun n hn => hrace.exists_answered hn, ?_, ?_, ?_, ?_⟩
  · by_cases hkey : σ.world.store.HasKey r.tenantId (r.key action)
    · obtain ⟨j, hj, htenant, hsame⟩ := hkey
      refine ⟨j.id, ?_⟩
      intro n hn result hended
      obtain ⟨o, rfl, k, hk, hid, htenant', hsame'⟩ := hrace.answered hn hended
      obtain rfl : j = k :=
        hconsistent.job_eq_of_key hj hk (htenant.trans htenant'.symm) (hsame.trans hsame'.symm)
      exact ⟨o, rfl, hid.symm⟩
    · refine ⟨"", ?_⟩
      intro n hn result hended
      obtain ⟨o, _, j, hj, _, hsame⟩ := hrace.answered hn hended
      exact absurd ⟨j, hj, hsame⟩ hkey
  · intro htaken n hn o ho
    rw [← hworld] at htaken
    have hnot := hrace.taken htaken n hn
    rw [← ho.created_iff] at hnot
    simpa using hnot
  · intro hfree hne hall
    rw [← hworld] at hfree
    have hpos : 0 < limits.length := List.length_pos_iff.2 hne
    obtain ⟨o, ho⟩ := hall 0 hpos
    obtain ⟨_, _, j, hj, _, hsame⟩ := hrace.answered hpos ho
    rcases hrace.made ⟨j, hj, hsame⟩ with htaken | ⟨n, hn, hmakes⟩
    · exact absurd htaken hfree
    · obtain ⟨o, ho⟩ := hall n hn
      refine ⟨n, ⟨hn, o, ho, ho.created_iff.2 hmakes⟩, ?_⟩
      rintro k ⟨hk, o', ho', hcreated⟩
      exact hrace.unique k hk n hn (ho'.created_iff.1 hcreated) hmakes
  · intro n hn o ho hcreated earlier hwithin
    refine hrace.quiet n hn ?_ earlier hwithin
    intro hmakes
    rw [ho.created_iff.2 hmakes] at hcreated
    cases hcreated

/-- Two clients find the key free; the second one is the first to insert, and its job is claimed before the
first one inserts. -/
theorem idempotence_overtaken :
    let past : List Event :=
      [.start (.upload 3 ⟨"t1", "w1", "kb1", "a.md", [104, 105], none⟩), .resume 0, .resume 0, .resume 0]
    let r : EnqueueRequest := ⟨"t1", "w1", "kb1", "id-1", "id-2", "reindex", none⟩
    let events : List Event :=
      [.resume 1, .resume 2, .resume 2, .start (.work ⟨"a", 1000, .default, .default⟩), .resume 3,
        .start (.work ⟨"b", 1000, .default, .default⟩), .resume 4, .resume 1, .resume 2, .resume 1]
    let before := (initial (.memory []) 0 (.numbered "id")).run past
    let σ := (before.run (([3, 2].map fun m => .enqueue m r).map .start)).run events
    ∃! n, n < 2 ∧ ∃ o, σ.Answered (1 + n) o ∧ o.created = true := by
  intro past r events before σ
  have hcheck : r.check = .ok .reindex := by decide +kernel
  have hlimits : ∀ m ∈ [3, 2], (1 : Int) ≤ m := by decide
  have hfound : r.Found before.world.store := by decide +kernel
  have hfree : ¬before.world.store.HasKey r.tenantId (r.key .reindex) := by decide +kernel
  have hapart : ∀ earlier ∈ events.inits, ((before.run (([3, 2].map fun m => .enqueue m r).map .start)).run
      earlier).Apart 1 2 r.tenantId (r.key .reindex) := by decide +kernel
  have hcalls : ∀ n < 2, 3 ≤ events.countP (Event.resumes (1 + n)) := by decide
  obtain ⟨_, hanswered, _, _, hunique, _⟩ :=
    idempotence (.memory []) 0 (.numbered "id") (IdSequence.numbered_injective "id") past r .reindex hcheck
      [3, 2] hlimits events hfound fun earlier hearlier => hapart earlier ((List.mem_inits _ _).2 hearlier)
  exact hunique hfree (by decide) fun n hn => hanswered n hn (hcalls n hn)

end System

end IngestionQueue
