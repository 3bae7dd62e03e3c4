import IngestionQueue.Proofs.Production

/-!
# Identifiers of jobs

Identifiers are handed out one after the other.  A job gets its identifier when its key has been looked up, some
time before it is inserted, or together with its version when an upload is saved.  As long as the sequence does
not repeat itself, no row and no other task has the identifier of a job that waits to be inserted
(`System.run_fresh`), so the table does not refuse the job for it.
-/

namespace IngestionQueue

namespace IdSequence

/-- The identifier was handed out. -/
def Used (ids : IdSequence) (id : String) : Prop :=
  ∃ n < ids.next, id = ids.nth n

/-- The sequence was drawn from, or left alone, and has become the other one. -/
def Follows (ids ids' : IdSequence) : Prop :=
  ids'.nth = ids.nth ∧ ids.next ≤ ids'.next

/-- The identifier was handed out on the way from one sequence to the other. -/
def Between (ids ids' : IdSequence) (id : String) : Prop :=
  ∃ n, ids.next ≤ n ∧ n < ids'.next ∧ id = ids.nth n

variable {ids ids' : IdSequence} {id : String}

theorem Used.follows (h : ids.Used id) (hids : ids.Follows ids') : ids'.Used id := by
  obtain ⟨n, hn, rfl⟩ := h
  have hnext := hids.2
  exact ⟨n, by omega, by rw [hids.1]⟩

theorem Used.ne_head (h : ids.Used id) (hnth : Function.Injective ids.nth) : id ≠ ids.head := by
  obtain ⟨n, hn, rfl⟩ := h
  intro heq
  have hnext := hnth heq
  omega

theorem Follows.trans {ids'' : IdSequence} (h : ids.Follows ids') (h' : ids'.Follows ids'') :
    ids.Follows ids'' :=
  ⟨h'.1.trans h.1, Nat.le_trans h.2 h'.2⟩

theorem Between.used (h : ids.Between ids' id) (hids : ids.Follows ids') : ids'.Used id := by
  obtain ⟨n, _, hn, rfl⟩ := h
  exact ⟨n, hn, by rw [hids.1]⟩

/-- What is handed out now is none of what was handed out before. -/
theorem Between.ne (h : ids.Between ids' id) (hnth : Function.Injective ids.nth) {old : String}
    (hold : ids.Used old) : old ≠ id := by
  obtain ⟨n, hn, _, rfl⟩ := h
  obtain ⟨m, hm, rfl⟩ := hold
  intro heq
  have hmn := hnth heq
  omega

end IdSequence

/-! ### One call -/

namespace Task.Produces

variable {t t' : Task} {w w' : World}

theorem ids_follows (h : t.Produces w t' w') : w.ids.Follows w'.ids := by
  cases h with
  | other t t' w' wr count hwr hnew hids hpending hinserted hreported =>
    rw [hids]
    exact ⟨rfl, Nat.le_add_right _ _⟩
  | lookUp maxAttempts r action hkey => exact ⟨rfl, Nat.le_succ _⟩
  | save maxAttempts p hallowed => exact ⟨rfl, Nat.le_add_right _ _⟩
  | insert | duplicate | read => exact ⟨rfl, Nat.le_refl _⟩

/-- A row has the identifier of a row that was there, or it is the job that the task has waited to insert, or its
identifier is handed out just now. -/
theorem row_id (h : t.Produces w t' w') {k : Job} (hk : k ∈ w'.store.jobs) :
    (∃ j ∈ w.store.jobs, j.id = k.id) ∨ t = insertJob k ∨ w.ids.Between w'.ids k.id := by
  cases h with
  | lookUp | duplicate | read => exact .inl ⟨k, hk, rfl⟩
  | insert job haccepts =>
    rcases Write.mem_jobs.1 hk with ⟨j, hj, rfl⟩ | hnew
    · exact .inl ⟨j, hj, rfl⟩
    · obtain rfl : k = job := by simpa using hnew
      exact .inr (.inl rfl)
  | save maxAttempts p hallowed =>
    rcases Write.mem_jobs.1 hk with ⟨j, hj, rfl⟩ | hnew
    · exact .inl ⟨j, hj, rfl⟩
    · obtain rfl : k = Ingestion.jobOn maxAttempts p w := by simpa [Ingestion.saveOn] using hnew
      exact .inr (.inr ⟨w.ids.next + 1, Nat.le_succ _, Nat.lt_succ_self _, rfl⟩)
  | other t t' w' wr count hwr hnew hids hpending hinserted hreported =>
    obtain ⟨j, hj, horigin⟩ := hwr.exists_origin hnew hk
    exact .inl ⟨j, hj, Job.id_of_origin horigin⟩

/-- A task comes to wait with a job whose identifier is handed out just now, and makes no row. -/
theorem waiting_id (h : t.Produces w t' w') {job : Job} (hjob : t' = insertJob job) :
    w'.store = w.store ∧ w.ids.Between w'.ids job.id := by
  cases h with
  | lookUp maxAttempts r action hkey =>
    obtain rfl := insertJob.inj hjob
    exact ⟨rfl, w.ids.next, Nat.le_refl _, Nat.lt_succ_self _, rfl⟩
  | other t t' w' wr count hwr hnew hids hpending hinserted hreported =>
    subst hjob
    simp [pending] at hpending
  | insert | duplicate | read | save => cases hjob

end Task.Produces

/-! ### Runs -/

namespace System

/-- The identifiers of jobs were handed out, and a job that waits to be inserted has its own. -/
structure Fresh (σ : System) : Prop where
  rows : ∀ j ∈ σ.world.store.jobs, σ.world.ids.Used j.id
  waiting : ∀ (i : Nat) (job : Job), σ.tasks[i]? = some (.insertJob job) →
    σ.world.ids.Used job.id ∧ ∀ k ∈ σ.world.store.jobs, k.id ≠ job.id
  distinct : ∀ (i j : Nat) (job job' : Job), σ.tasks[i]? = some (.insertJob job) →
    σ.tasks[j]? = some (.insertJob job') → job.id = job'.id → i = j

variable {σ : System}

/-- A call changes the task that makes it and no other one. -/
theorem resume_task {i : Nat} {t : Task} (ht : σ.tasks[i]? = some t) {j : Nat} {u : Task}
    (hu : (σ.step (.resume i)).tasks[j]? = some u) :
    i = j ∧ u = (t.resume σ.world).1 ∨ i ≠ j ∧ σ.tasks[j]? = some u := by
  rw [(step_resume ht).2] at hu
  by_cases hij : i = j
  · subst hij
    rw [List.getElem?_set_self (List.getElem?_eq_some_iff.1 ht).1] at hu
    exact .inl ⟨rfl, (Option.some.inj hu).symm⟩
  · rw [List.getElem?_set_ne hij] at hu
    exact .inr ⟨hij, hu⟩

private theorem fresh_resume (hnth : Function.Injective σ.world.ids.nth) (h : σ.Fresh) {i : Nat} {t : Task}
    (ht : σ.tasks[i]? = some t) (hproduces : t.Produces σ.world (t.resume σ.world).1 (t.resume σ.world).2) :
    (σ.step (.resume i)).Fresh := by
  have hfollows := hproduces.ids_follows
  have hrow := @hproduces.row_id
  have hwaiting := @hproduces.waiting_id
  rw [← (step_resume ht).1] at hfollows hrow hwaiting
  refine ⟨?_, ?_, ?_⟩
  · intro k hk
    rcases hrow hk with ⟨j, hj, hid⟩ | rfl | hnew
    · rw [← hid]
      exact (h.rows j hj).follows hfollows
    · exact (h.waiting i k ht).1.follows hfollows
    · exact hnew.used hfollows
  · intro j job hjob
    rcases resume_task ht hjob with ⟨_, hresumed⟩ | ⟨hij, hold⟩
    · obtain ⟨hstore, hnew⟩ := hwaiting hresumed.symm
      rw [hstore]
      exact ⟨hnew.used hfollows, fun k hk => hnew.ne hnth (h.rows k hk)⟩
    · obtain ⟨hused, hother⟩ := h.waiting j job hold
      refine ⟨hused.follows hfollows, ?_⟩
      intro k hk
      rcases hrow hk with ⟨l, hl, hid⟩ | rfl | hnew
      · rw [← hid]
        exact hother l hl
      · exact fun heq => hij (h.distinct i j k job ht hold heq)
      · exact (hnew.ne hnth hused).symm
  · -- Of two tasks that wait, at most one has come to wait just now.
    intro j l job job' hjob hjob' hid
    rcases resume_task ht hjob with ⟨rfl, hresumed⟩ | ⟨_, hold⟩ <;>
      rcases resume_task ht hjob' with ⟨hil, hresumed'⟩ | ⟨_, hold'⟩
    · exact hil
    · exact absurd hid.symm ((hwaiting hresumed.symm).2.ne hnth (h.waiting l job' hold').1)
    · exact absurd hid ((hwaiting hresumed'.symm).2.ne hnth (h.waiting j job hold).1)
    · exact h.distinct j l job job' hold hold' hid

theorem step_fresh (hnth : Function.Injective σ.world.ids.nth) (hread : σ.Readable) (h : σ.Fresh) (e : Event) :
    (σ.step e).Fresh := by
  by_cases hresumed : ∃ i t, e = .resume i ∧ σ.tasks[i]? = some t
  · obtain ⟨i, t, rfl, ht⟩ := hresumed
    exact fresh_resume hnth h ht (hread.produces ht)
  · -- No identifier is handed out, no row is new, and no other task comes to wait.
    obtain ⟨i, t, he, ht, _⟩ | ⟨⟨wr, hwr, hnew⟩, hids, _⟩ := step_produces hread e
    · exact absurd ⟨i, t, he, ht⟩ hresumed
    have hwaiting : ∀ (i : Nat) (job : Job), (σ.step e).tasks[i]? = some (.insertJob job) →
        σ.tasks[i]? = some (.insertJob job) := by
      intro i job hjob
      rcases step_task hjob with hold | ⟨r, _, _, hr⟩ | ⟨t, he, ht, _⟩ | ⟨_, _, _, _, _, _, hcrashed⟩
      · exact hold
      · cases hr
      · exact absurd ⟨i, t, he, ht⟩ hresumed
      · cases hcrashed
    have hrow : ∀ k ∈ (σ.step e).world.store.jobs, ∃ j ∈ σ.world.store.jobs, j.id = k.id := by
      intro k hk
      obtain ⟨j, hj, horigin⟩ := hwr.exists_origin hnew hk
      exact ⟨j, hj, Job.id_of_origin horigin⟩
    refine ⟨?_, ?_, ?_⟩
    · intro k hk
      obtain ⟨j, hj, hid⟩ := hrow k hk
      rw [hids, ← hid]
      exact h.rows j hj
    · intro i job hjob
      obtain ⟨hused, hother⟩ := h.waiting i job (hwaiting i job hjob)
      rw [hids]
      refine ⟨hused, ?_⟩
      intro k hk
      obtain ⟨j, hj, hid⟩ := hrow k hk
      rw [← hid]
      exact hother j hj
    · intro i j job job' hjob hjob'
      exact h.distinct i j job job' (hwaiting i job hjob) (hwaiting j job' hjob')

theorem initial_fresh (objects : ObjectStore) (now : Int) (ids : IdSequence) :
    (initial objects now ids).Fresh := by
  refine ⟨?_, ?_, ?_⟩
  · intro j hj
    cases hj
  · intro i job h
    simp [initial] at h
  · intro i j job job' h
    simp [initial] at h

theorem run_fresh (hnth : Function.Injective σ.world.ids.nth) (hread : σ.Readable) (h : σ.Fresh)
    (events : List Event) : (σ.run events).Fresh := by
  refine run_induction (P := fun _ τ => τ.Fresh) h ?_
  intro before e _ hfresh
  have hnth' : Function.Injective (σ.run before).world.ids.nth := by rwa [run_ids]
  exact step_fresh hnth' (run_readable hread before) hfresh e

end System

end IngestionQueue
